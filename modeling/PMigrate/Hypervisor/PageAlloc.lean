import PMigrate.Core.DyadicBlock
import PMigrate.Core.Transition

namespace PageAlloc

open DyadicBlock Function

def maxOrder : Nat := 20

def maxNumnodes : Nat := 64

def numaNoNode : Nat := 255

def midsizeAllocFrac : Int := 128

inductive PageState where
  | inuse
  | offlining
  | offlined
  | free
  deriving DecidableEq

structure CountInfo where
  state : PageState
  (broken xenHeap : Bool)
  rest : Nat
  deriving DecidableEq

def stateFree : CountInfo := ⟨.free,false,false,0⟩

def stateInuse : CountInfo := ⟨.inuse,false,false,0⟩

structure Page where
  countInfo : CountInfo
  v : Nat
  deriving DecidableEq

structure Platform where
  nid : Nat → Nat
  (mfnValid nodeOnline : Nat → Bool)
  optTmem : Bool

structure Heap where
  heap : Nat → Nat → Nat → List Nat
  avail : Nat → Option (Nat → Int)
  (totalAvailPages midsizeAllocZonePages : Int)
  page : Nat → Page
  lastAllocNode : Nat → Nat

section
variable (s : Heap)

def setList (node zone order : Nat) (l : List Nat) : Heap :=
  {s with heap := fun n z k => if n = node ∧ z = zone ∧ k = order then l else s.heap n z k}

def pageListAddTail (node zone order pg : Nat) : Heap :=
  setList s node zone order (s.heap node zone order ++ [pg])

def pageListDel (node zone order pg : Nat) : Heap :=
  setList s node zone order ((s.heap node zone order).erase pg)

def setPfnOrder (pg order : Nat) : Heap := {s with page := update s.page pg {s.page pg with v := order}}

def addAvail (node zone : Nat) (n : Int) : Heap := {s with
    avail := update s.avail node ((s.avail node).map fun a => update a zone (a zone+n)),
    totalAvailPages := s.totalAvailPages+n}

def mapPages (pg order : Nat) (f : Page → Page) : Heap :=
  {s with page := fun m => if Mem pg order m then f (s.page m) else s.page m}

-- fls(mfn) - 1 is an unsigned int
def pageToZone (pg : Nat) : Nat :=
  if (s.page pg).countInfo.xenHeap then 0 else if pg = 0 then 2^32-1 else pg.log2

def initNodeHeap (node : Nat) : Option Heap :=
  match s.avail node with
  | some _ => none
  | none => some {s with
      avail := update s.avail node (some fun _ => 0),heap := fun n z k => if n = node then [] else s.heap n z k}

end

def freePage (p : Page) : Page := {p with countInfo :=
    ⟨if p.countInfo.state = .offlining then .offlined else .free,p.countInfo.broken,false,0⟩}

def Mergeable (P : Platform) (s : Heap) (node order pg : Nat) : Prop :=
  P.mfnValid pg = true ∧ (s.page pg).countInfo.state = .free ∧ (s.page pg).v = order ∧ P.nid pg = node

instance (P : Platform) (s : Heap) (node order pg : Nat) : Decidable (Mergeable P s node order pg) :=
  inferInstanceAs (Decidable (_ ∧ _ ∧ _ ∧ _))

-- the first argument is MAX_ORDER - order, the iterations the loop still has
def mergeChunks (P : Platform) (node zone : Nat) : Nat → Heap → Nat → Nat → Heap × Nat × Nat
  | 0,s,pg,order => (s,pg,order)
  | n+1,s,pg,order =>
    if pg &&& 2^order ≠ 0 then
      if Mergeable P s node order (pg-2^order) then
        mergeChunks P node zone n (pageListDel s node zone order (pg-2^order)) (pg-2^order) (order+1)
      else (s,pg,order)
    else
      if Mergeable P s node order (pg+2^order) then
        mergeChunks P node zone n (pageListDel s node zone order (pg+2^order)) pg (order+1)
      else (s,pg,order)

def insertChunk (s : Heap) (node zone pg order : Nat) : Heap :=
  pageListAddTail (setPfnOrder s pg order) node zone order pg

def raiseMidsize (P : Platform) (s : Heap) : Heap :=
  if P.optTmem then
    {s with
      midsizeAllocZonePages := max s.midsizeAllocZonePages (s.totalAvailPages.tdiv midsizeAllocFrac)}
  else s

def Tainted (s : Heap) (pg order : Nat) : Prop :=
  ∃ i, i < 2^order ∧ (s.page (pg+i)).countInfo.state = .offlining

instance (s : Heap) (pg order : Nat) : Decidable (Tainted s pg order) :=
  inferInstanceAs (Decidable (∃ i, i < 2^order ∧ _))

def freeHeapPages (P : Platform) (s : Heap) (pg order : Nat) : Option Heap :=
  let node := P.nid pg
  let zone := pageToZone s pg
  if (s.avail node).isNone ∨ Tainted s pg order then none else
    let s := raiseMidsize P (addAvail (mapPages s pg order freePage) node zone (2^order))
    let r := mergeChunks P node zone (maxOrder-order) s pg order
    some (insertChunk r.1 node zone r.2.1 r.2.2)

def firstNode (mask : Nat → Bool) : Nat := ((List.range maxNumnodes).find? mask).getD maxNumnodes

def nextNode (n : Nat) (mask : Nat → Bool) : Nat :=
  ((List.range maxNumnodes).find? fun m => decide (n < m) && mask m).getD maxNumnodes

structure Domain where
  id : Nat
  nodeAffinity : Nat → Bool

structure Request where
  (zoneLo zoneHi order memNode : Nat)
  exactNode : Bool
  domain : Option Domain
  cpuNode : Nat
  tmemFreeablePages : Bool
  tmemRelinquishPages : Option Nat

structure Walk where
  (node firstNode : Nat)
  nodemask : Nat → Bool
  nodemaskRetry : Nat

def Request.nodemask (P : Platform) (r : Request) : Nat → Bool :=
  match r.domain with
  | some d => d.nodeAffinity
  | none => P.nodeOnline

-- memNode is the byte above _MEMF_node, one more than the node it asks for
def Request.wantedNode (r : Request) : Nat := (r.memNode+255)%256

def Request.startNode (P : Platform) (s : Heap) (r : Request) : Nat :=
  if r.wantedNode = numaNoNode then
    let node := match r.domain with
      | some d =>
        let n := nextNode (s.lastAllocNode d.id) (r.nodemask P)
        if maxNumnodes ≤ n then PageAlloc.firstNode (r.nodemask P) else n
      | none => r.wantedNode
    if maxNumnodes ≤ node then r.cpuNode else node
  else r.wantedNode

def Request.exact (r : Request) : Bool := r.exactNode && r.wantedNode != numaNoNode

def Request.walk (P : Platform) (s : Heap) (r : Request) : Walk :=
  ⟨r.startNode P s,r.startNode P s,r.nodemask P,0⟩

def Walk.fallBack (P : Platform) (w : Walk) : Option Walk :=
  if w.nodemaskRetry ≠ 0 then none else
    let mask := fun n => P.nodeOnline n && !w.nodemask n
    let node := PageAlloc.firstNode mask
    if maxNumnodes ≤ node then none else some ⟨node,node,mask,1⟩

def Walk.next (P : Platform) (w : Walk) : Option Walk :=
  if w.nodemask w.node = false then
    let node := PageAlloc.firstNode w.nodemask
    if node < maxNumnodes then some {w with node := node,firstNode := node}
    else Walk.fallBack P {w with node := node,firstNode := node}
  else
    let n := nextNode w.node w.nodemask
    let node := if maxNumnodes ≤ n then PageAlloc.firstNode w.nodemask else n
    if node = w.firstNode then Walk.fallBack P {w with node := node} else some {w with node := node}

def findOrder (s : Heap) (node zone order : Nat) : Option Nat :=
  (List.range' order (maxOrder+1-order)).find? fun j => !(s.heap node zone j).isEmpty

def Enough (s : Heap) (node zone : Nat) (request : Int) : Prop :=
  ∃ a, s.avail node = some a ∧ request ≤ a zone

instance (s : Heap) (node zone : Nat) (request : Int) : Decidable (Enough s node zone request) :=
  match h : s.avail node with
  | none => isFalse fun ⟨_,ha,_⟩ => by rw [h] at ha; cases ha
  | some a => decidable_of_iff (request ≤ a zone)
      ⟨fun hle => ⟨a,h,hle⟩,fun ⟨_,hb,hle⟩ => by rw [h] at hb; cases hb; exact hle⟩

def findZone (s : Heap) (r : Request) (node : Nat) : Option (Nat × Nat) :=
  ((List.range' r.zoneLo (r.zoneHi+1-r.zoneLo)).reverse).findSome? fun zone =>
    if Enough s node zone (2^r.order) then (findOrder s node zone r.order).map fun j => (zone,j)
    else none

-- none when the search needs more iterations, some none for not_found
def search (P : Platform) (s : Heap) (r : Request) : Nat → Walk → Option (Option (Nat × Nat × Nat))
  | 0,_ => none
  | fuel+1,w =>
    match findZone s r w.node with
    | some (zone,j) => some (some (w.node,zone,j))
    | none =>
      if r.exact then some none else
        match w.next P with
        | none => some none
        | some w' => search P s r fuel w'

def halveChunk (node zone order : Nat) : Nat → Heap → Nat → Heap × Nat
  | 0,s,pg => (s,pg)
  | n+1,s,pg => halveChunk node zone order n (insertChunk s node zone pg (order+n)) (pg+2^(order+n))

def takePages (s : Heap) (pg order : Nat) : Option Heap :=
  if ∀ i, i < 2^order → (s.page (pg+i)).countInfo = stateFree then
    some (mapPages s pg order fun _ => ⟨stateInuse,0⟩)
  else none

def setLastAllocNode (s : Heap) (d : Option Domain) (node : Nat) : Heap :=
  match d with
  | some d => {s with lastAllocNode := update s.lastAllocNode d.id node}
  | none => s

def takeBlock (s : Heap) (r : Request) (node zone j : Nat) : Option (Heap × Option Nat) :=
  match s.heap node zone j with
  | [] => none
  | pg :: rest =>
    let h := halveChunk node zone r.order (j-r.order) (setList s node zone j rest) pg
    let s := setLastAllocNode (addAvail h.1 node zone (-2^r.order)) r.domain node
    (takePages s h.2 r.order).map fun s => (s,some h.2)

def UsesTmem (P : Platform) (s : Heap) (r : Request) : Prop :=
  P.optTmem = true ∧ (r.order = 0 ∨ 9 ≤ r.order) ∧
    s.totalAvailPages ≤ s.midsizeAllocZonePages ∧ r.tmemFreeablePages = true

instance (P : Platform) (s : Heap) (r : Request) : Decidable (UsesTmem P s r) :=
  inferInstanceAs (Decidable (_ ∧ _ ∧ _ ∧ _))

def allocHeapPages (P : Platform) (s : Heap) (r : Request) (fuel : Nat) : Option (Heap × Option Nat) :=
  if maxOrder < r.order then some (s,none)
  else if UsesTmem P s r then some (s,r.tmemRelinquishPages)
  else
    match search P s r fuel (r.walk P s) with
    | none => none
    | some none => some (s,none)
    | some (some (node,zone,j)) => takeBlock s r node zone j

inductive Action where
  | initNode (node : Nat)
  | alloc (r : Request) (fuel : Nat)
  | free (pg order : Nat)
  | use (mfn : Nat) (p : Page)

section
variable (P : Platform) (s : Heap)

def step : Action → Option Heap
  | .initNode node => initNodeHeap s node
  | .alloc r fuel => (allocHeapPages P s r fuel).map Prod.fst
  | .free pg order => freeHeapPages P s pg order
  | .use mfn p => some {s with page := update s.page mfn p}

structure Freeable (pg order : Nat) : Prop where
  order_le : order ≤ maxOrder
  aligned : 2^order ∣ pg
  pos : 0 < pg
  node : (s.avail (P.nid pg)).isSome
  inuse : ∀ m, Mem pg order m → (s.page m).countInfo.state = .inuse ∧
    (s.page m).countInfo.broken = false ∧ (s.page m).countInfo.xenHeap = false
  valid : ∀ m, Mem pg order m → P.mfnValid m = true ∧ P.nid m = P.nid pg

def Allowed : Action → Prop
  | .initNode _ => True
  | .alloc _ _ => True
  | .free pg order => Freeable P s pg order
  | .use mfn p => (s.page mfn).countInfo.state = .inuse ∧ p.countInfo.state = .inuse

end

instance (P : Platform) (s : Heap) (pg order : Nat) : Decidable (Freeable P s pg order) :=
  decidable_of_iff (order ≤ maxOrder ∧ 2^order ∣ pg ∧ 0 < pg ∧ (s.avail (P.nid pg)).isSome ∧
      ∀ i, i < 2^order → ((s.page (pg+i)).countInfo.state = .inuse ∧
        (s.page (pg+i)).countInfo.broken = false ∧ (s.page (pg+i)).countInfo.xenHeap = false) ∧
        P.mfnValid (pg+i) = true ∧ P.nid (pg+i) = P.nid pg)
    ⟨fun ⟨hle,ha,hpos,hn,hall⟩ =>
      have hat : ∀ m, Mem pg order m → m = pg+(m-pg) ∧ m-pg < 2^order := fun _ hm =>
        ⟨(Nat.add_sub_cancel' hm.1).symm,Nat.sub_lt_left_of_lt_add hm.1 hm.2⟩
      ⟨hle,ha,hpos,hn,fun m hm => (hat m hm).1 ▸ (hall _ (hat m hm).2).1,
        fun m hm => (hat m hm).1 ▸ (hall _ (hat m hm).2).2⟩,
    fun hf => ⟨hf.order_le,hf.aligned,hf.pos,hf.node,fun i hi =>
      have hm : Mem pg order (pg+i) := ⟨Nat.le_add_right _ _,Nat.add_lt_add_left hi _⟩
      ⟨hf.inuse _ hm,hf.valid _ hm⟩⟩⟩

instance (P : Platform) (s : Heap) (a : Action) : Decidable (Allowed P s a) :=
  match a with
  | .initNode _ => isTrue trivial
  | .alloc _ _ => isTrue trivial
  | .free _ _ => inferInstanceAs (Decidable (Freeable P s _ _))
  | .use _ _ => inferInstanceAs (Decidable (_ ∧ _))

structure Empty (s : Heap) : Prop where
  lists : ∀ n z k, s.heap n z k = []
  avail : ∀ n, s.avail n = none
  total : s.totalAvailPages = 0
  pages : ∀ m, (s.page m).countInfo.state ≠ .free

end PageAlloc
