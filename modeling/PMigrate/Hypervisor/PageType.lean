import Mathlib.Logic.Function.Basic

namespace PageType

inductive PgType where
  | none
  | l1PageTable
  | l2PageTable
  | l3PageTable
  | l4PageTable
  | segDescPage
  | writablePage
  | sharedPage
deriving DecidableEq

def PgType.code : PgType → Nat
  | .none => 0
  | .l1PageTable => 1
  | .l2PageTable => 2
  | .l3PageTable => 3
  | .l4PageTable => 4
  | .segDescPage => 5
  | .writablePage => 7
  | .sharedPage => 8

def PgType.isTable (t : PgType) : Bool := 1 ≤ t.code && t.code ≤ 4

def PgType.isUpper (t : PgType) : Bool := t = .l3PageTable || t = .l4PageTable

def countLimit : Nat := 36028797018963968

structure TypeInfo where
  type : PgType
  pae : Bool
  count : Nat
  (validated pgtPartial locked : Bool)
deriving DecidableEq

def TypeInfo.zero : TypeInfo :=
  {type := .none,pae := false,count := 0,validated := false,pgtPartial := false,locked := false}

structure Wanted where
  type : PgType
  pae : Bool
deriving DecidableEq

def TypeInfo.Fits (x : TypeInfo) (w : Wanted) : Prop := x.type = w.type ∧ x.pae = w.pae

instance (x : TypeInfo) (w : Wanted) : Decidable (x.Fits w) := inferInstanceAs (Decidable (_ ∧ _))

inductive Plan where
  | fail
  | wait
  | swap (nx : TypeInfo)
deriving DecidableEq

def retype (x : TypeInfo) (w : Wanted) : TypeInfo :=
  {x with
    type := w.type
    pae := x.pae || w.pae
    count := x.count+1
    validated := w.type = .writablePage || w.type = .sharedPage}

def getPlan (w : Wanted) (x : TypeInfo) : Plan :=
  if x.count+1 = countLimit then .fail
  else if x.count = 0 then
    if x.type = w.type ∧ w.pae = false then .swap {x with count := x.count+1} else .swap (retype x w)
  else if ¬x.Fits w then .fail
  else if x.validated = false then
    if x.pgtPartial = false then .wait else .swap {x with pgtPartial := false}
  else .swap {x with count := x.count+1}

def isFinal (x : TypeInfo) : Bool :=
  x.count = 1 && x.type.code ≤ PgType.l4PageTable.code && (x.validated || x.pgtPartial)

inductive Rc where
  | ok
  | einval
  | eintr
  | eagain (nr : Nat) (partialPte : Int)
deriving DecidableEq

def entriesPerTable : Nat := 512

section
variable (t : PgType) (preemptible : Bool) (nr : Nat) (partialPte : Int)

def halfDone (first i : Nat) (d : Int) : Int := if i = first ∧ partialPte ≠ 0 then partialPte else d

def allocResults : Rc → Bool
  | .ok => t.isTable || t = .segDescPage
  | .einval => t.isTable || t = .segDescPage
  | .eintr => preemptible && t.isUpper && nr = 0
  | .eagain i p =>
      preemptible && nr ≤ i && i < entriesPerTable &&
        (t = .l2PageTable && 0 < i && p = partialPte ||
          t.isUpper && (p = halfDone partialPte nr i 1 || 0 < i && p = 0))

def firstFreed : Nat := if partialPte = 0 then nr-1 else nr

def freeResults : Rc → Bool
  | .ok => t.isTable
  | .einval => false
  | .eintr => preemptible && t.isUpper && firstFreed nr partialPte = entriesPerTable-1
  | .eagain i p =>
      preemptible && i < entriesPerTable &&
        (t = .l2PageTable && 0 < i && i < nr && p = partialPte ||
          t.isUpper && (i ≤ firstFreed nr partialPte && p = halfDone partialPte (firstFreed nr partialPte) i (-1) ||
            0 < i && i ≤ firstFreed nr partialPte+1 && p = 0))

end

inductive Entries where
  | released
  | some (t : PgType)
  | all (t : PgType)
deriving DecidableEq

inductive Held where
  | reference
  | flag
deriving DecidableEq

inductive Pc where
  | idle
  | getStart (w : Wanted) (preemptible : Bool)
  | getLoop (w : Wanted) (preemptible : Bool) (y : TypeInfo)
  | alloc (w : Wanted) (preemptible : Bool)
  | allocRead (w : Wanted) (rc : Rc)
  | allocWrite (w : Wanted) (rc : Rc) (v : TypeInfo)
  | getDone (w : Wanted)
  | putStart (held : Held) (preemptible : Bool)
  | putLoop (held : Held) (preemptible : Bool) (y : TypeInfo)
  | free (x : TypeInfo) (preemptible : Bool)
  | paeRead
  | paeWrite (v : TypeInfo)
  | freeRead (rc : Rc)
  | freeWrite (rc : Rc) (v : TypeInfo)
  | lockLoop
  | lockTry (x : TypeInfo)
  | unlockStart
  | unlockLoop (y : TypeInfo)
deriving DecidableEq

structure Page where
  word : TypeInfo
  nr : Nat
  partialPte : Int
  entries : Entries
deriving DecidableEq

structure State where
  page : Page
  pc : Nat → Pc
  (owners lockers : Nat)
  floating : Bool

inductive Action where
  | get (i : Nat) (w : Wanted) (preemptible : Bool)
  | put (i : Nat) (preemptible : Bool)
  | resumePut (i : Nat) (preemptible : Bool)
  | lock (i : Nat)
  | unlock (i : Nat)
  | run (i : Nat) (preempt : Bool)
  | scan (i : Nat) (rc : Rc)
deriving DecidableEq

def State.goto (s : State) (i : Nat) (p : Pc) : State := {s with pc := Function.update s.pc i p}

def State.store (s : State) (x : TypeInfo) : State := {s with page := {s.page with word := x}}

def State.keep (s : State) : Held → State
  | .reference => {s with owners := s.owners+1}
  | .flag => {s with floating := true}

section
variable (s : State) (i : Nat)

def getSwapped (w : Wanted) (preemptible : Bool) (x nx : TypeInfo) : State :=
  if nx.validated then (s.store nx).goto i (.getDone w)
  else if x.pgtPartial then {s.store nx with floating := false}.goto i (.alloc w preemptible)
  else
    {s with
      page := {
        word := nx
        nr := 0
        partialPte := 0
        entries := if w.type.isTable then .some w.type else .released}}.goto i (.alloc w preemptible)

def getStep (w : Wanted) (preemptible : Bool) (y : TypeInfo) (preempt : Bool) : State :=
  match getPlan w y with
  | .fail => s.goto i .idle
  | .wait =>
      if s.page.word = y then if preemptible && preempt then s.goto i .idle else s
      else s.goto i (.getLoop w preemptible s.page.word)
  | .swap nx =>
      if s.page.word = y then getSwapped s i w preemptible y nx
      else if preemptible && preempt then s.goto i .idle
      else s.goto i (.getLoop w preemptible s.page.word)

def allocStore (w : Wanted) (v : TypeInfo) : Rc → State
  | .ok => (s.store {v with validated := true}).goto i (.getDone w)
  | .eagain _ _ => {s.store {v with pgtPartial := true} with floating := true}.goto i .idle
  | .eintr => (s.store {v with count := 0}).goto i .idle
  | .einval => (s.store .zero).goto i .idle

def putSwapped (preemptible : Bool) (x : TypeInfo) : State :=
  let nx := {x with validated := false,pgtPartial := false}
  if x.pgtPartial then (s.store nx).goto i (.free x preemptible)
  else {s with page := {s.page with word := nx,nr := entriesPerTable,partialPte := 0}}.goto i (.free x preemptible)

def putStep (held : Held) (preemptible : Bool) (y : TypeInfo) (preempt : Bool) : Option State :=
  if y.count = 0 then none
  else if isFinal y then
    some (if s.page.word = y then putSwapped s i preemptible y else s.goto i (.putLoop held preemptible s.page.word))
  else if s.page.word = y then some ((s.store {y with count := y.count-1}).goto i .idle)
  else if preemptible && preempt then some ((s.keep held).goto i .idle)
  else some (s.goto i (.putLoop held preemptible s.page.word))

def freeStore (v : TypeInfo) : Rc → Option State
  | .ok => some ((s.store {v with count := v.count-1}).goto i .idle)
  | .eintr => some ({s.store {v with validated := true} with owners := s.owners+1}.goto i .idle)
  | .eagain _ _ => some ({s.store {v with pgtPartial := true} with floating := true}.goto i .idle)
  | .einval => none

def lockStep : State :=
  if s.page.word.locked then s
  else if s.page.word.validated = false ∨ s.page.word.count = 0 ∨ s.page.word.count+1 = countLimit then
    s.goto i .idle
  else s.goto i (.lockTry s.page.word)

def unlockStep (y : TypeInfo) : Option State :=
  if y.count = 0 ∨ y.locked = false then none
  else if s.page.word = y then some ((s.store {y with count := y.count-1,locked := false}).goto i .idle)
  else some (s.goto i (.unlockLoop s.page.word))

def run (preempt : Bool) : Pc → Option State
  | .idle | .alloc _ _ | .free _ _ => none
  | .getStart w preemptible => some (s.goto i (.getLoop w preemptible s.page.word))
  | .getLoop w preemptible y => some (getStep s i w preemptible y preempt)
  | .allocRead w rc => some (s.goto i (.allocWrite w rc s.page.word))
  | .allocWrite w rc v => some (allocStore s i w v rc)
  | .getDone _ => some ({s with owners := s.owners+1}.goto i .idle)
  | .putStart held preemptible => some (s.goto i (.putLoop held preemptible s.page.word))
  | .putLoop held preemptible y => putStep s i held preemptible y preempt
  | .paeRead => some (s.goto i (.paeWrite s.page.word))
  | .paeWrite v => some ((s.store {v with pae := false}).goto i (.freeRead .ok))
  | .freeRead rc => some (s.goto i (.freeWrite rc s.page.word))
  | .freeWrite rc v => freeStore s i v rc
  | .lockLoop => some (lockStep s i)
  | .lockTry x =>
      some (if s.page.word = x then
          {s.store {x with count := x.count+1,locked := true} with lockers := s.lockers+1}.goto i .idle
        else s.goto i .lockLoop)
  | .unlockStart => some (s.goto i (.unlockLoop s.page.word))
  | .unlockLoop y => unlockStep s i y

def allocScanned (w : Wanted) : Rc → Page
  | .ok => {s.page with entries := if w.type.isTable then .all w.type else .released}
  | .eagain nr partialPte => {s.page with nr := nr,partialPte := partialPte}
  | .eintr | .einval => {s.page with entries := if s.page.partialPte < 0 then s.page.entries else .released}

def freeScanned (x : TypeInfo) : Rc → Page
  | .ok => {s.page with entries := .released}
  | .eagain nr partialPte => {s.page with nr := nr,partialPte := partialPte,entries := .some x.type}
  | .eintr | .einval => s.page

def scan (rc : Rc) : Pc → Option State
  | .alloc w preemptible =>
      if allocResults w.type preemptible s.page.nr s.page.partialPte rc then
        some ({s with page := allocScanned s w rc}.goto i (.allocRead w rc))
      else none
  | .free x preemptible =>
      if freeResults x.type preemptible s.page.nr s.page.partialPte rc then
        some ({s with page := freeScanned s x rc}.goto i
          (if x.type = PgType.l2PageTable ∧ rc = Rc.ok then .paeRead else .freeRead rc))
      else none
  | _ => none

end

def step (s : State) : Action → Option State
  | .get i w preemptible =>
      if s.pc i = .idle ∧ (w.pae = true → w.type = PgType.l2PageTable) then some (s.goto i (.getStart w preemptible))
      else none
  | .put i preemptible =>
      if s.pc i = .idle ∧ 0 < s.owners then
        some ({s with owners := s.owners-1}.goto i (.putStart .reference preemptible))
      else none
  | .resumePut i preemptible =>
      if s.pc i = .idle ∧ s.floating = true then
        some ({s with floating := false}.goto i (.putStart .flag preemptible))
      else none
  | .lock i => if s.pc i = .idle then some (s.goto i .lockLoop) else none
  | .unlock i =>
      if s.pc i = .idle ∧ 0 < s.lockers then some ({s with lockers := s.lockers-1}.goto i .unlockStart) else none
  | .run i preempt => run s i preempt (s.pc i)
  | .scan i rc => scan s i rc (s.pc i)

-- A put does not leave the last reference to the holder of the lock; a get takes over a partial page
-- from nobody, and not at a half invalidated entry; a put does not take over a page of which only the
-- last entry is half done.
def careful (s : State) : Action → Bool
  | .run i _ =>
      match s.pc i with
      | .putLoop _ _ y =>
          s.page.word ≠ y || !(y.locked && y.count = 2) &&
            !(y.pgtPartial && s.page.nr = entriesPerTable-1 && s.page.partialPte ≠ 0)
      | .getLoop _ _ y => s.page.word ≠ y || !y.pgtPartial || s.floating && 0 ≤ s.page.partialPte
      | _ => true
  | _ => true

end PageType
