import PMigrate.Core.Transition

namespace GrantTable

open Function

def maptrackPerPage : Nat := 512

def unmapBatchSize : Nat := 32

structure Flags where
  (device host readonly application containsPte : Bool)
  rest : Nat
  deriving DecidableEq

namespace Flags

def zero : Flags := ⟨false,false,false,false,false,0⟩

def live (f : Flags) : Bool := f.device || f.host

def truncate (f : Flags) : Flags := {f with rest := f.rest%2^11}

end Flags

structure Mapping where
  ref : Nat
  flags : Flags
  domid : Nat
  deriving DecidableEq

structure Track where
  maptrack : Nat → Mapping
  (maptrackHead maptrackLimit : Nat)

structure Active where
  (pin domid frame : Nat)
  isSubPage : Bool
  deriving DecidableEq

structure Config where
  (known external iomem : Nat → Bool)
  maxNrMaptrackFrames : Nat

-- held and heldType are the page and writable type references taken on a frame for a grant and
-- not dropped again; handed and handedType those left to the page tables of a dying PV domain
structure State where
  track : Nat → Track
  active : Nat → Nat → Active
  gtVersion : Nat → Nat
  (held heldType : Nat → Nat → Nat → Int)
  (handed handedType : Nat → Int)

inductive Status where
  | okay
  | generalError
  | badHandle
  | permissionDenied
  deriving DecidableEq

inductive Kind where
  | hstw
  | hstr
  | devw
  | devr
  deriving DecidableEq

namespace Kind

def shift : Kind → Nat
  | hstw => 0
  | hstr => 8
  | devw => 16
  | devr => 24

def inc (k : Kind) : Nat := 2^k.shift

def hostKind (readonly : Bool) : Kind := if readonly then hstr else hstw

def deviceKind (readonly : Bool) : Kind := if readonly then devr else devw

end Kind

def addPin (pin : Nat) (k : Kind) : Nat := (pin+k.inc)%2^32

def subPin (pin : Nat) (k : Kind) : Nat := (pin+2^32-k.inc)%2^32

def updateTrack (s : State) (d : Nat) (t : Track) : State := {s with track := update s.track d t}

def setActive (s : State) (d ref : Nat) (a : Active) : State :=
  {s with active := update s.active d (update (s.active d) ref a)}

def adjustRefs (s : State) (d ref frame : Nat) (pages types : Int) : State := {s with
    held := fun d' r' f' => s.held d' r' f'+if d' = d ∧ r' = ref ∧ f' = frame then pages else 0,
    heldType := fun d' r' f' =>
      s.heldType d' r' f'+if d' = d ∧ r' = ref ∧ f' = frame then types else 0}

def putPage (s : State) (d ref frame : Nat) (typed : Bool) : State :=
  adjustRefs s d ref frame (-1) (if typed then -1 else 0)

def tryGetMaptrackHandle (t : Track) : Option (Nat × Track) :=
  if t.maptrackHead = t.maptrackLimit-1 then none
  else some (t.maptrackHead,{t with maptrackHead := (t.maptrack t.maptrackHead).ref})

def putMaptrackHandle (t : Track) (handle : Nat) : Track := {t with
    maptrack := update t.maptrack handle {t.maptrack handle with ref := t.maptrackHead},
    maptrackHead := handle}

def growMaptrack (t : Track) : Track := {t with
    maptrack := fun i =>
      if t.maptrackLimit ≤ i ∧ i < t.maptrackLimit+maptrackPerPage then ⟨i+1,.zero,0⟩
      else t.maptrack i,
    maptrackLimit := t.maptrackLimit+maptrackPerPage}

def getMaptrackHandle (C : Config) (t : Track) (pageAllocated : Bool) : Option (Nat × Track) :=
  match tryGetMaptrackHandle t with
  | some r => some r
  | none =>
    if C.maxNrMaptrackFrames ≤ t.maptrackLimit/maptrackPerPage then none
    else if pageAllocated then tryGetMaptrackHandle (growMaptrack t)
    else none

def hostMappingGetPageType (C : Config) (f : Flags) (ld rd : Nat) : Bool :=
  !f.readonly && (ld == rd || !C.external rd)

structure MapOp where
  flags : Flags
  (dom ref : Nat)
  deriving DecidableEq

inductive Owner where
  | granter
  | cow
  | other
  | null
  deriving DecidableEq

structure MapEnv where
  (xsmAllows pageAllocated : Bool)
  nrGrantEntries : Nat
  setStatus : Bool
  pagedFrame : Option Nat
  owner : Owner
  (ioReference iomemPermitted typeTaken hostMapped secondReference secondType iommuDone : Bool)
  deriving DecidableEq

def addPins (pin : Nat) (f : Flags) : Nat :=
  let pin := if f.device then addPin pin (.deviceKind f.readonly) else pin
  if f.host then addPin pin (.hostKind f.readonly) else pin

def subPins (pin : Nat) (f : Flags) : Nat :=
  let pin := if f.device then subPin pin (.deviceKind f.readonly) else pin
  if f.host then subPin pin (.hostKind f.readonly) else pin

section
variable (C : Config) (s : State) (ld : Nat) (op : MapOp)

def grabFrame (e : MapEnv) (frame : Nat) : State × Nat × Bool :=
  if C.iomem frame then
    (s,0,e.ioReference && !C.external ld && e.iomemPermitted && e.hostMapped)
  else
    let typed := hostMappingGetPageType C op.flags ld op.dom
    if e.owner = .other ∨ e.owner = .null ∨ (typed && !e.typeTaken) = true then (s,0,false)
    else
      let s := adjustRefs s op.dom op.ref frame 1 (if typed then 1 else 0)
      if op.flags.host && !e.hostMapped then (s,1,false)
      else if op.flags.host && op.flags.device then
        (adjustRefs s op.dom op.ref frame (if e.secondReference then 1 else 0)
          (if !op.flags.readonly && e.secondType then 1 else 0),2,true)
      else (s,1,true)

def dropGets (frame nrGets : Nat) : State :=
  let s := if 1 < nrGets then putPage s op.dom op.ref frame (!op.flags.readonly) else s
  if 0 < nrGets then putPage s op.dom op.ref frame (hostMappingGetPageType C op.flags ld op.dom)
  else s

end

def giveUp (s : State) (ld handle : Nat) : State := updateTrack s ld (putMaptrackHandle (s.track ld) handle)

def recordMapping (s : State) (ld handle : Nat) (op : MapOp) : State :=
  updateTrack s ld {s.track ld with
    maptrack := update (s.track ld).maptrack handle ⟨op.ref,op.flags.truncate,op.dom⟩}

def PinRefused (s : State) (ld : Nat) (op : MapOp) (e : MapEnv) : Prop :=
  let a := s.active op.dom op.ref
  s.gtVersion op.dom = 0 ∨ e.nrGrantEntries ≤ op.ref ∨
    (a.pin ≠ 0 ∧ (a.domid ≠ ld ∨ a.pin &&& 0x80808080 ≠ 0 ∨ a.isSubPage = true)) ∨
    ((a.pin = 0 ∨ op.flags.readonly = false ∧ a.pin &&& 0x00FF00FF = 0) ∧ e.setStatus = false)

instance (s : State) (ld : Nat) (op : MapOp) (e : MapEnv) : Decidable (PinRefused s ld op e) :=
  inferInstanceAs (Decidable (_ ∨ _ ∨ _ ∨ _))

def pinnedEntry (s : State) (ld : Nat) (op : MapOp) (e : MapEnv) : Option Active :=
  let a := s.active op.dom op.ref
  if a.pin = 0 then e.pagedFrame.map fun frame => ⟨0,ld,frame,false⟩ else some a

section
variable (C : Config) (s : State) (ld : Nat) (op : MapOp) (e : MapEnv)

def mapPinned (handle : Nat) (a : Active) : State :=
  let s := setActive s op.dom op.ref {a with pin := addPins a.pin op.flags}
  let g := grabFrame C s ld op e a.frame
  if g.2.2 && e.iommuDone then recordMapping g.1 ld handle op
  else
    let s := dropGets C g.1 ld op a.frame g.2.1
    let b := s.active op.dom op.ref
    giveUp (setActive s op.dom op.ref {b with pin := subPins b.pin op.flags}) ld handle

def mapGrantRef : State :=
  if op.flags.live = false then s
  else if C.external ld && (op.flags.device || op.flags.application || op.flags.containsPte) then s
  else if C.known op.dom = false then s
  else if e.xsmAllows = false then s
  else
    match getMaptrackHandle C (s.track ld) e.pageAllocated with
    | none => s
    | some (handle,t) =>
      let s := updateTrack s ld t
      if PinRefused s ld op e then giveUp s ld handle
      else
        match pinnedEntry s ld op e with
        | none => giveUp s ld handle
        | some a => mapPinned C s ld op e handle a

end

structure UnmapOp where
  handle : Nat
  hostAddr : Bool
  devFrame : Nat
  (xsmAllows replaced iommuDone : Bool)
  deriving DecidableEq

structure Common where
  handle : Nat
  hostAddr : Bool
  rd : Option Nat
  flags : Flags
  frame : Nat
  status : Option Status
  deriving DecidableEq

def setFlags (s : State) (ld handle : Nat) (f : Flags) : State :=
  updateTrack s ld {s.track ld with
    maptrack := update (s.track ld).maptrack handle {(s.track ld).maptrack handle with flags := f}}

def dropPin (s : State) (rd ref : Nat) (k : Kind) : State :=
  setActive s rd ref {s.active rd ref with pin := subPin (s.active rd ref).pin k}

section
variable (s : State) (ld rd : Nat) (op : UnmapOp) (f : Flags)

def unmapDevice : State :=
  if op.devFrame ≠ 0 ∧ f.device = true then
    let m := (s.track ld).maptrack op.handle
    dropPin (setFlags s ld op.handle {m.flags with device := false}) rd m.ref (.deviceKind f.readonly)
  else s

def unmapHost : State :=
  let m := (s.track ld).maptrack op.handle
  dropPin (setFlags s ld op.handle {m.flags with host := false}) rd m.ref (.hostKind f.readonly)

end

section
variable (C : Config) (s : State)

def unmapCommon (ld : Nat) (op : UnmapOp) : State × Common :=
  let c : Common := ⟨op.handle,op.hostAddr,none,.zero,op.devFrame,none⟩
  if (s.track ld).maptrackLimit ≤ op.handle then (s,{c with status := some .badHandle})
  else
    let m := (s.track ld).maptrack op.handle
    if m.flags = .zero then (s,{c with status := some .badHandle})
    else
      let c := {c with flags := m.flags}
      if C.known m.domid = false then (s,c)
      else
        let c := {c with rd := some m.domid}
        if op.xsmAllows = false then (s,{c with status := some .permissionDenied})
        else
          let frame := (s.active m.domid m.ref).frame
          if op.devFrame ≠ 0 ∧ op.devFrame ≠ frame then (s,{c with status := some .generalError})
          else
            let c := {c with frame := frame}
            let s := unmapDevice s ld m.domid op m.flags
            if op.hostAddr && m.flags.host && !op.replaced then
              (s,{c with status := some .generalError})
            else
              let s := if op.hostAddr && m.flags.host then unmapHost s ld m.domid op m.flags else s
              (s,{c with status := some (if op.iommuDone then .okay else .generalError)})

def completeDevice (rd ref : Nat) (c : Common) : State :=
  if c.flags.device && !C.iomem c.frame then putPage s rd ref c.frame (!c.flags.readonly) else s

def completeHost (ld rd ref : Nat) (c : Common) : State :=
  if c.hostAddr && c.flags.host && !C.iomem c.frame then
    putPage s rd ref c.frame (hostMappingGetPageType C c.flags ld rd)
  else s

end

def releaseHandle (s : State) (ld handle : Nat) : State :=
  if ((s.track ld).maptrack handle).flags.live then s
  else giveUp (setFlags s ld handle .zero) ld handle

def completeHalves (C : Config) (s : State) (ld rd ref : Nat) (c : Common) : State :=
  if c.hostAddr = true ∧ c.flags.host = true ∧ c.status ≠ some .okay then completeDevice C s rd ref c
  else releaseHandle (completeHost C (completeDevice C s rd ref c) ld rd ref c) ld c.handle

def unmapCommonComplete (C : Config) (s : State) (ld : Nat) (c : Common) : State :=
  match c.rd with
  | none => s
  | some rd =>
    if s.gtVersion rd = 0 ∨ c.frame ≠ (s.active rd ((s.track ld).maptrack c.handle).ref).frame then s
    else completeHalves C s ld rd ((s.track ld).maptrack c.handle).ref c

def unmapFirst (C : Config) (ld : Nat) : State → List UnmapOp → State × List Common
  | s,[] => (s,[])
  | s,op :: ops =>
    let r := unmapCommon C s ld op
    let rs := unmapFirst C ld r.1 ops
    (rs.1,r.2 :: rs.2)

def unmapGroup (C : Config) (ld : Nat) (s : State) (ops : List UnmapOp) : State :=
  let r := unmapFirst C ld s ops
  r.2.foldl (fun s c => unmapCommonComplete C s ld c) r.1

def splitGroups (ops : List UnmapOp) : Nat → List (List UnmapOp)
  | 0 => []
  | n+1 =>
    if ops = [] then []
    else ops.take unmapBatchSize :: splitGroups (ops.drop unmapBatchSize) n

def groupsOf (ops : List UnmapOp) : List (List UnmapOp) := splitGroups ops ops.length

section
variable (C : Config) (s : State) (ld : Nat) (ops : List UnmapOp)

def unmapGrantRef : State := (groupsOf ops).foldl (unmapGroup C ld) s

def unmapAndReplace : State := unmapGrantRef C s ld (ops.map fun op => {op with devFrame := 0})

end

def releaseDevice (C : Config) (s : State) (rd : Nat) (m : Mapping) : State :=
  if m.flags.device then
    let frame := (s.active rd m.ref).frame
    let s := dropPin s rd m.ref (.deviceKind m.flags.readonly)
    if C.iomem frame then s else putPage s rd m.ref frame (!m.flags.readonly)
  else s

def handOver (s : State) (frame : Nat) (typed : Bool) : State := {s with
    handed := update s.handed frame (s.handed frame+1),
    handedType := if typed then update s.handedType frame (s.handedType frame+1)
      else s.handedType}

def releaseHost (C : Config) (s : State) (d rd : Nat) (m : Mapping) : State :=
  if m.flags.host then
    let frame := (s.active rd m.ref).frame
    let s := dropPin s rd m.ref (.hostKind m.flags.readonly)
    if C.iomem frame then s
    else
      let typed := hostMappingGetPageType C m.flags d rd
      let s := putPage s rd m.ref frame typed
      if C.external d then s else handOver s frame typed
  else s

def releaseMapping (C : Config) (d : Nat) (s : State) (handle : Nat) : State :=
  let m := (s.track d).maptrack handle
  if m.flags.live = false then s
  else if C.known m.domid = false then setFlags s d handle .zero
  else setFlags (releaseHost C (releaseDevice C s m.domid m) d m.domid m) d handle .zero

def releaseMappings (C : Config) (s : State) (d : Nat) : State :=
  (List.range (s.track d).maptrackLimit).foldl (releaseMapping C d) s

inductive Action where
  | map (ld : Nat) (op : MapOp) (e : MapEnv)
  | unmap (ld : Nat) (ops : List UnmapOp)
  | replace (ld : Nat) (ops : List UnmapOp)
  | release (d : Nat)
  | setVersion (d version : Nat)

def step (C : Config) (s : State) : Action → Option State
  | .map ld op e => some (mapGrantRef C s ld op e)
  | .unmap ld ops => some (unmapGrantRef C s ld ops)
  | .replace ld ops => some (unmapAndReplace C s ld ops)
  | .release d => some (releaseMappings C s d)
  | .setVersion d version => if version = 0 then none
      else some {s with gtVersion := update s.gtVersion d version}

def initialTrack : Track := ⟨fun i => if i < maptrackPerPage then ⟨i+1,.zero,0⟩ else ⟨0,.zero,0⟩,0,maptrackPerPage⟩

structure Initial (s : State) : Prop where
  track : ∀ d, s.track d = initialTrack
  pin : ∀ d ref, (s.active d ref).pin = 0
  held : ∀ d ref frame, s.held d ref frame = 0
  heldType : ∀ d ref frame, s.heldType d ref frame = 0

end GrantTable
