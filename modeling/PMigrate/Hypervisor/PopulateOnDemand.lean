import PMigrate.Core.Transition

namespace PopulateOnDemand

inductive P2mType where
  | invalid
  | ramRw
  | ramLogdirty
  | ramRo
  | mmioDm
  | mmioDirect
  | populateOnDemand
  | grantMapRw
  | grantMapRo
  | ramPagingOut
  | ramPaged
  | ramPagingIn
  | ramPagingInStart
  | ramShared
  | ramBroken
  deriving DecidableEq

def P2mType.isRam : P2mType → Bool
  | .ramRw | .ramLogdirty | .ramRo | .ramPagingOut | .ramPaged | .ramPagingInStart | .ramPagingIn
  | .ramShared => true
  | _ => false

def P2mType.isGrant : P2mType → Bool
  | .grantMapRw | .grantMapRo => true
  | _ => false

-- none is INVALID_MFN
structure Entry where
  type : P2mType
  mfn : Option Nat
  deriving DecidableEq

structure State where
  p2m : Nat → Entry
  m2p : Nat → Option Nat
  (super single : List Nat)
  (count entryCount : Int)
  (reclaimSuper reclaimSingle maxGuest : Nat)

def initial : State where
  p2m := fun _ => ⟨.invalid,none⟩
  m2p := fun _ => none
  super := []
  single := []
  count := 0
  entryCount := 0
  reclaimSuper := 0
  reclaimSingle := 0
  maxGuest := 0

inductive Rc where
  | ok
  | handled
  | enomem
  | ebusy
  | einval
  | eagain
  deriving DecidableEq

def superpagePages : Nat := 512

def podSweepLimit : Nat := 1024

def podSweepStride : Nat := 16

def populateOnDemandMfn : Nat := 512

section
variable (s : State)

def setP2mEntry (gfn : Nat) (mfn : Option Nat) (order : Nat) (t : P2mType) : State := {s with
    p2m := fun g => if gfn ≤ g ∧ g < gfn+2^order then ⟨t,mfn.map (· + (g-gfn))⟩ else s.p2m g}

def setM2p (mfn : Nat) (gfn : Option Nat) : State := {s with m2p := Function.update s.m2p mfn gfn}

def isPod (g : Nat) : Bool := (s.p2m g).type = .populateOnDemand

-- none: a BUG
def cacheAdd (mfn order : Nat) : Option State :=
  match order with
  | 9 => some {s with super := s.super ++ [mfn],count := s.count+512}
  | 0 => some {s with single := s.single ++ [mfn],count := s.count+1}
  | _ => none

def breakSuperpage : Option State :=
  match s.super with
  | [] => none
  | p :: rest => some {s with super := rest,single := s.single ++ (List.range superpagePages).map (p + ·)}

def takeSuper : Option (State × Nat) :=
  match s.super with
  | [] => none
  | p :: rest => some ({s with super := rest,count := s.count-512},p)

def takeSingle : Option (State × Nat) :=
  match s.single with
  | [] => none
  | p :: rest => some ({s with single := rest,count := s.count-1},p)

def cacheGet (order : Nat) : Option (State × Option Nat) :=
  if order = 9 ∧ s.super = [] then some (s,none)
  else
    let broken := if order = 0 ∧ s.single = [] then breakSuperpage s else some s
    broken.bind fun s =>
      match order with
      | 9 => (takeSuper s).map fun r => (r.1,some r.2)
      | 0 => (takeSingle s).map fun r => (r.1,some r.2)
      | _ => none

end

structure Round where
  (superFrame frame : Option Nat)
  (badPage preempt : Bool)

def allocate (order : Nat) (r : Round) : Option (Nat × Nat) :=
  match order,r.superFrame with
  | 9,some m => some (m,9)
  | _,_ => r.frame.map fun m => (m,0)

def growCache (target : Int) (preemptible : Bool) (env : Nat → Round) : Nat → State → Option (State × Rc)
  | 0,s => some (s,.ok)
  | n+1,s =>
    if s.count < target then
      match allocate (if target-s.count ≥ 512 then 9 else 0) (env n) with
      | none => some (s,.enomem)
      | some (mfn,order) =>
        (cacheAdd s mfn order).bind fun s' =>
          if (env n).preempt && preemptible then some (s',.eagain)
          else growCache target preemptible env n s'
    else some (s,.ok)

def shrinkCache (target : Int) (preemptible : Bool) (env : Nat → Round) : Nat → State → Option (State × Rc)
  | 0,s => some (s,.ok)
  | n+1,s =>
    if target < s.count then
      match cacheGet s (if s.count-target > 512 ∧ s.super ≠ [] then 9 else 0) with
      | some (s',some _) =>
        if (env n).badPage then some (s',.einval)
        else if (env n).preempt && preemptible then some (s',.eagain)
        else shrinkCache target preemptible env n s'
      | _ => none
    else some (s,.ok)

structure CacheEnv where
  (grow shrink : Nat → Round)

def setCacheTarget (s : State) (target : Int) (preemptible : Bool) (env : CacheEnv) : Option (State × Rc) :=
  (growCache target preemptible env.grow (target-s.count).toNat s).bind fun r =>
    if r.2 = .ok then shrinkCache target preemptible env.shrink (r.1.count-target).toNat r.1
    else some r

-- totPages is d->tot_pages, which other operations change as well
def setMemTarget (s : State) (target totPages : Nat) (env : CacheEnv) : Option (State × Rc) :=
  if s.entryCount = 0 then some (s,.ok)
  else if target < totPages then some (s,.ok)
  else
    let podTarget := ((target : Int)-(totPages-s.count))%2^32
    setCacheTarget s (if podTarget > s.entryCount then s.entryCount else podTarget) true env

structure Tally where
  (pod nonpod ram : Nat)
  steal : Bool

def survey (s : State) (gpfn order : Nat) : Tally where
  pod := (List.range (2^order)).countP fun i => isPod s (gpfn+i)
  nonpod := (List.range (2^order)).countP fun i => !isPod s (gpfn+i)
  ram := (List.range (2^order)).countP fun i => (s.p2m (gpfn+i)).type.isRam
  steal := s.entryCount > s.count

def releaseRange : Nat → Nat → State → Tally → Option (State × Tally)
  | 0,_,s,k => some (s,k)
  | n+1,g,s,k =>
    if k.pod > 0 ∨ (k.steal = true ∧ k.ram > 0) then
      if isPod s g then
        let s' := {setP2mEntry s g none 0 .invalid with entryCount := s.entryCount-1}
        if s'.entryCount < 0 then none else releaseRange n (g+1) s' {k with pod := k.pod-1}
      else if k.steal && (s.p2m g).type.isRam then
        match (s.p2m g).mfn with
        | none => none
        | some mfn =>
          (cacheAdd (setM2p (setP2mEntry s g none 0 .invalid) mfn none) mfn 0).bind fun s' =>
            releaseRange n (g+1) s' {k with nonpod := k.nonpod-1,ram := k.ram-1,steal := s'.entryCount > s'.count}
      else releaseRange n (g+1) s k
    else some (s,k)

def entryCheck (s : State) (rc : Rc) (env : CacheEnv) : Option (State × Rc) :=
  if s.entryCount < s.count then (setCacheTarget s s.entryCount false env).map fun r => (r.1,rc)
  else some (s,rc)

def decreaseReservation (s : State) (gpfn order : Nat) (env : CacheEnv) : Option (State × Rc) :=
  if s.entryCount = 0 then some (s,.ok)
  else
    let k := survey s gpfn order
    if k.pod = 0 ∧ k.steal = false then some (s,.ok)
    else if k.nonpod = 0 then
      let s' := {setP2mEntry s gpfn none order .invalid with entryCount := s.entryCount-2^order}
      if s'.entryCount < 0 then none else entryCheck s' .handled env
    else
      (releaseRange (2^order) gpfn s k).bind fun r =>
        entryCheck r.1 (if r.2.nonpod = 0 then .handled else .ok) env

-- What the frames look like when a sweep examines them, by the gfn they are mapped at: the tests of
-- count_info, the first sixteen words, the references after the entry is removed, the whole page.
structure ZeroEnv where
  (eligible quickZero unmapped fullZero : Nat → Bool)

def allBelow (n : Nat) (p : Nat → Bool) : Bool := (List.range n).all p

def reclaimable (s : State) (env : ZeroEnv) (gfn mfn0 i : Nat) : Bool :=
  (s.p2m (gfn+i)).type.isRam && (s.p2m (gfn+i)).type == (s.p2m gfn).type && env.eligible (gfn+i) &&
    if i = 0 then mfn0%superpagePages == 0 else (s.p2m (gfn+i)).mfn == some (mfn0+i)

def zeroCheckSuperpage (s : State) (env : ZeroEnv) (gfn : Nat) : Option State :=
  if gfn%superpagePages ≠ 0 then some s
  else match (s.p2m gfn).mfn with
    | none => some s
    | some mfn0 =>
      if !allBelow superpagePages (reclaimable s env gfn mfn0) then some s
      else if !allBelow superpagePages (fun i => env.quickZero (gfn+i)) then some s
      else
        let s1 := setP2mEntry s gfn (some populateOnDemandMfn) 9 .populateOnDemand
        if allBelow superpagePages (fun i => env.unmapped (gfn+i)) &&
            allBelow superpagePages (fun i => env.fullZero (gfn+i)) then
          (cacheAdd s1 mfn0 9).map fun s2 => {s2 with entryCount := s2.entryCount+superpagePages}
        else some (setP2mEntry s1 gfn (some mfn0) 9 (s.p2m gfn).type)

structure Candidate where
  (gfn mfn : Nat)
  type : P2mType

def candidate (s : State) (env : ZeroEnv) (gfn : Nat) : Option Candidate :=
  if (s.p2m gfn).type.isRam && env.eligible gfn then
    (s.p2m gfn).mfn.map fun m => ⟨gfn,m,(s.p2m gfn).type⟩
  else none

def removeZero (env : ZeroEnv) : List Candidate → State → State × List Candidate
  | [],s => (s,[])
  | c :: cs,s =>
    if !env.quickZero c.gfn then removeZero env cs s
    else
      let s1 := setP2mEntry s c.gfn (some populateOnDemandMfn) 0 .populateOnDemand
      if !env.unmapped c.gfn then removeZero env cs (setP2mEntry s1 c.gfn (some c.mfn) 0 c.type)
      else ((removeZero env cs s1).1,c :: (removeZero env cs s1).2)

def reclaimZero (env : ZeroEnv) : List Candidate → State → Option State
  | [],s => some s
  | c :: cs,s =>
    if !env.fullZero c.gfn then reclaimZero env cs (setP2mEntry s c.gfn (some c.mfn) 0 c.type)
    else (cacheAdd s c.mfn 0).bind fun s1 => reclaimZero env cs {s1 with entryCount := s1.entryCount+1}

def zeroCheck (s : State) (env : ZeroEnv) (gfns : List Nat) : Option State :=
  let r := removeZero env (gfns.filterMap (candidate s env)) s
  reclaimZero env r.2 r.1

def sweepSuperLoop (env : ZeroEnv) (limit : Nat) : Nat → State → Option (State × Nat)
  | 0,s => some (s,0)
  | k+1,s =>
    (zeroCheckSuperpage s env (superpagePages*(k+1))).bind fun s' =>
      if s'.super ≠ [] ∧ superpagePages*(k+1) < limit then some (s',superpagePages*(k+1))
      else sweepSuperLoop env limit k s'

-- reclaim_super is unsigned: below 512 guest frames the subtraction wraps
def superStart (s : State) : Nat :=
  if s.reclaimSuper = 0 then (s.maxGuest/512*512+2^32-superpagePages)%2^32
  else s.reclaimSuper

def emergencySweepSuper (s : State) (env : ZeroEnv) : Option State :=
  (sweepSuperLoop env (superStart s-podSweepLimit) (superStart s/superpagePages) s).map fun r =>
    {r.1 with reclaimSuper := r.2-superpagePages}

def collect (s : State) (gfns : List Nat) (i : Nat) : List Nat :=
  if (s.p2m i).type.isRam then gfns ++ [i] else gfns

def sweepLoop (env : ZeroEnv) (limit : Nat) : Nat → State → List Nat → Option (State × List Nat × Nat)
  | 0,s,gfns => some (s,gfns,0)
  | i+1,s,gfns =>
    (if (collect s gfns (i+1)).length = podSweepStride then
        (zeroCheck s env (collect s gfns (i+1))).map fun s' => (s',[])
      else some (s,collect s gfns (i+1))).bind fun r =>
      if r.1.count > 0 ∧ i+1 < limit then some (r.1,r.2,i+1)
      else sweepLoop env limit i r.1 r.2

def emergencySweep (s : State) (env : ZeroEnv) : Option State :=
  let start := if s.reclaimSingle = 0 then s.maxGuest else s.reclaimSingle
  (sweepLoop env (start-podSweepLimit) start s []).bind fun r =>
    (zeroCheck r.1 env r.2.1).map fun s' => {s' with reclaimSingle := r.2.2-1}

structure PopulateEnv where
  (super single : ZeroEnv)

def align (gfn order : Nat) : Nat := gfn/2^order*2^order

section
variable (s : State)

def sweepIfLow (order : Nat) (env : PopulateEnv) : Option State :=
  if s.entryCount > s.count then
    (if order = 9 ∧ s.super = [] then emergencySweepSuper s env.super else some s).bind fun s1 =>
      if s1.single = [] ∧ (order = 0 ∨ (order = 9 ∧ s1.super = [])) then
        emergencySweep s1 env.single
      else some s1
  else some s

def noteGuest (gfn : Nat) (guest : Bool) : State :=
  if guest ∧ gfn > s.maxGuest then {s with maxGuest := gfn%2^32} else s

def splinter (gfn : Nat) : State := (List.range 512).foldl
    (fun s i => setP2mEntry s (gfn+i) (some populateOnDemandMfn) 0 .populateOnDemand) s

def recordM2p (mfn gfn n : Nat) : State :=
  {s with m2p := fun m => if mfn ≤ m ∧ m < mfn+n then some (gfn+(m-mfn)) else s.m2p m}

def demandPopulate (gfn order : Nat) (guest : Bool) (env : PopulateEnv) : Option State :=
  if order = 18 then
    some (setP2mEntry s (align gfn 18) (some populateOnDemandMfn) 9 .populateOnDemand)
  else
    (sweepIfLow s order env).bind fun s1 =>
      let s2 := noteGuest s1 gfn guest
      if s2.count = 0 then some s2
      else (cacheGet s2 order).bind fun r =>
        match r.2 with
        | none => if order ≠ 9 then none else some (splinter r.1 (align gfn order))
        | some mfn =>
          if mfn%2^order ≠ 0 then none
          else
            let s3 := setP2mEntry r.1 (align gfn order) (some mfn) order .ramRw
            let s4 := recordM2p s3 mfn (align gfn order) (2^order)
            if s4.entryCount-2^order < 0 then none
            else some {s4 with entryCount := s4.entryCount-2^order}

def markPopulateOnDemand (gfn order : Nat) : Option (State × Rc) :=
  if (List.range (2^order)).any fun i => (s.p2m (gfn+i)).type.isRam then some (s,.ebusy)
  else
    let podCount := (List.range (2^order)).countP fun i => isPod s (gfn+i)
    let s1 := setP2mEntry s gfn (some populateOnDemandMfn) order .populateOnDemand
    let s2 := {s1 with entryCount := s1.entryCount+2^order-podCount}
    if s2.entryCount < 0 then none else some (s2,.ok)

end

structure FrameEnv where
  (valid owned : Nat → Bool)

def forgetM2p (env : FrameEnv) (gfn mfn : Nat) (s : State) (i : Nat) : State :=
  if env.valid mfn && !(s.p2m (gfn+i)).type.isGrant then setM2p s (mfn+i) none else s

section
variable (s : State) (gfn mfn order : Nat) (env : FrameEnv)

def removePage : State :=
  setP2mEntry ((List.range (2^order)).foldl (forgetM2p env gfn mfn) s) gfn none order .invalid

def physmapRemoveEntry : State := removePage s gfn mfn order env

end

def dropOld (gfn : Nat) : Nat → Nat → State → State × Bool
  | 0,_,s => (s,true)
  | n+1,i,s =>
    if (s.p2m (gfn+i)).type.isGrant then (s,false)
    else if (s.p2m (gfn+i)).type.isRam then
      match (s.p2m (gfn+i)).mfn with
      | some m => dropOld gfn n (i+1) (setM2p s m none)
      | none => dropOld gfn n (i+1) s
    else dropOld gfn n (i+1) s

def dropAlias (env : FrameEnv) (gfn mfn : Nat) (s : State) (i : Nat) : State :=
  if env.owned (mfn+i) then
    match s.m2p (mfn+i) with
    | none => s
    | some ogfn =>
      if ogfn ≠ gfn+i ∧ (s.p2m ogfn).type.isRam ∧ (s.p2m ogfn).mfn = some (mfn+i) then
        removePage s ogfn (mfn+i) 0 env
      else s
  else s

def physmapAddEntry (s : State) (gfn mfn order : Nat) (t : P2mType) (env : FrameEnv) : Option (State × Rc) :=
  let podCount := (List.range (2^order)).countP fun i => isPod s (gfn+i)
  let r := dropOld gfn (2^order) 0 s
  if !r.2 then some (r.1,.einval)
  else
    let s1 := (List.range (2^order)).foldl (dropAlias env gfn mfn) r.1
    if env.valid mfn then
      let s2 := setP2mEntry s1 gfn (some mfn) order t
      some (if t.isGrant then s2 else recordM2p s2 mfn gfn (2^order),.ok)
    else
      let s2 := setP2mEntry s1 gfn none order .invalid
      let s3 := {s2 with entryCount := s2.entryCount-podCount}
      if s3.entryCount < 0 then none else some (s3,.ok)

inductive Op where
  | mark (gfn order : Nat)
  | populate (gfn order : Nat) (guest : Bool) (env : PopulateEnv)
  | decrease (gpfn order : Nat) (env : CacheEnv)
  | setTarget (target totPages : Nat) (env : CacheEnv)
  | add (gfn mfn order : Nat) (t : P2mType) (env : FrameEnv)
  | remove (gfn mfn order : Nat) (env : FrameEnv)

def Op.order : Op → Nat
  | .mark _ order | .populate _ order _ _ | .decrease _ order _ | .add _ _ order _ _ | .remove _ _ order _ => order
  | .setTarget .. => 0

def allPod (s : State) (gfn order : Nat) : Bool := allBelow (2^order) fun i => isPod s (gfn+i)

def step (s : State) : Op → Option State
  | .mark gfn order => (markPopulateOnDemand s gfn order).map Prod.fst
  | .populate gfn order guest env =>
    if (order = 0 ∨ order = 9 ∨ order = 18) ∧ allPod s (align gfn order) order then
      demandPopulate s gfn order guest env
    else none
  | .decrease gpfn order env => (decreaseReservation s gpfn order env).map Prod.fst
  | .setTarget target totPages env => (setMemTarget s target totPages env).map Prod.fst
  | .add gfn mfn order t env => (physmapAddEntry s gfn mfn order t env).map Prod.fst
  | .remove gfn mfn order env => some (physmapRemoveEntry s gfn mfn order env)

end PopulateOnDemand
