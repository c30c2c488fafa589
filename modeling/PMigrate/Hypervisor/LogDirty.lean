import PMigrate.Core.BitTrie
import PMigrate.Core.Transition

namespace LogDirty

open BitTrie Transition Nat

def pageShift : Nat := 12

def pagetableOrder : Nat := 9

def nodeEntries : Nat := 1 <<< pagetableOrder

def shape : Shape where
  leaf := 1 <<< (pageShift+3)
  fan := nodeEntries
  leaf_pos := by decide
  fan_pos := by decide

def logdirtyIdx : Nat → Nat → Nat
  | 0,pfn => pfn &&& ((1 <<< (pageShift+3))-1)
  | k+1,pfn => (pfn >>> (pageShift+3+pagetableOrder*k)) &&& (nodeEntries-1)

abbrev topLevel : Nat := 3

theorem span_eq (k : Nat) : shape.span k = 2^(pageShift+3+pagetableOrder*k) := by
  induction k with
  | zero => rfl
  | succ k ih =>
    rw [Shape.span,ih,mul_succ,← add_assoc,pow_add 2 (pageShift+3+pagetableOrder*k)]
    rfl

theorem idx_eq (k pfn : Nat) : logdirtyIdx k pfn = shape.index k pfn := by
  cases k with
  | zero => exact and_two_pow_sub_one_eq_mod pfn 15
  | succ k =>
    rw [logdirtyIdx,shiftRight_eq_div_pow,Shape.index,span_eq]
    exact and_two_pow_sub_one_eq_mod _ 9

inductive Outcome where
  | oom
  | marked (changed spare : Bool)

def newNode (k : Nat) (spare : Bool) : Option (Trie k) := if spare then some (Trie.blank k) else none

def mapSlot {k : Nat} (slot : Option (Trie k)) (spare : Bool) : Option (Trie k) × Bool :=
  match slot with
  | some t => (some t,spare)
  | none => (newNode k spare,false)

def markWalk (pfn : Nat) : (k : Nat) → Option (Trie k) → Bool → Option (Trie k) × Outcome
  | 0,slot,spare =>
    match mapSlot slot spare with
    | (none,_) => (none,.oom)
    | (some l1,spare) => (some (l1.setBit (logdirtyIdx 0 pfn)),.marked (!l1 (logdirtyIdx 0 pfn)) spare)
  | k+1,slot,spare =>
    match mapSlot slot spare with
    | (none,_) => (none,.oom)
    | (some node,spare) =>
      let (child,outcome) := markWalk pfn k (node (logdirtyIdx (k+1) pfn)) spare
      (some (node.setEntry (logdirtyIdx (k+1) pfn) child),outcome)

structure Request where
  clean : Bool
  pages : Nat
  buffer : Option (Nat → Bool)
  copyOk : Nat → Bool

structure Cursor where
  pages : Nat
  bitmap : Nat → Bool
  fault : Bool

def Request.bytesLeft (sc : Request) (pages : Nat) : Nat := (sc.pages-pages+7)%2^64/8

def Request.leafBytes (sc : Request) (pages : Nat) : Nat :=
  if sc.bytesLeft pages < shape.leaf/8 then sc.bytesLeft pages else shape.leaf/8

def copyBits (bitmap : Nat → Bool) (offset : Nat) (l1 : Nat → Bool) (bytes : Nat) : Nat → Bool :=
  fun n => if 8*offset ≤ n ∧ n < 8*(offset+bytes) then l1 (n-8*offset) else bitmap n

def visitLeaf (sc : Request) (slot : Option (Trie 0)) (cur : Cursor) : Option (Trie 0) × Cursor :=
  let l1 : Nat → Bool := slot.getD (Trie.blank 0)
  let bytes := sc.leafBytes cur.pages
  if sc.buffer.isSome && !sc.copyOk (cur.pages/8) then (slot,{cur with fault := true})
  else
    (if sc.clean then slot.map fun _ => Trie.blank 0 else slot,{cur with
        pages := cur.pages+bytes*8,bitmap := if sc.buffer.isSome then copyBits cur.bitmap (cur.pages/8) l1 bytes
          else cur.bitmap})

def sweepEntries {k : Nat} (sc : Request) (visit : Option (Trie k) → Cursor → Option (Trie k) × Cursor) :
    Nat → Nat → Option (Trie (k+1)) → Cursor → Option (Trie (k+1)) × Cursor
  | 0,_,node,cur => (node,cur)
  | n+1,i,node,cur =>
    if cur.fault = false ∧ cur.pages < sc.pages then
      let (child,cur) := visit (Trie.entry node i) cur
      sweepEntries sc visit n (i+1) (node.map fun t => t.setEntry i child) cur
    else (node,cur)

def sweep (sc : Request) : (k : Nat) → Option (Trie k) → Cursor → Option (Trie k) × Cursor
  | 0 => visitLeaf sc
  | k+1 => sweepEntries sc (sweep sc k) nodeEntries 0

structure Domain where
  top : Option (Trie topLevel)
  (faultCount dirtyCount failedAllocs : Nat)

inductive Status where
  | ok
  | enomem
  | efault
  deriving DecidableEq

structure Reply where
  status : Status
  (pages faultCount dirtyCount : Nat)
  bitmap : Nat → Bool

namespace Domain

def markDirty (d : Domain) (pfn : Nat) (spare : Bool) : Domain × Outcome :=
  match markWalk pfn topLevel d.top spare with
  | (top,.oom) => ({d with top},.oom)
  | (top,.marked changed spare) =>
    ({d with top,dirtyCount := if changed then (d.dirtyCount+1)%2^32 else d.dirtyCount},.marked changed spare)

def logDirtyOp (d : Domain) (sc : Request) : Domain × Reply :=
  let stats : Domain := if sc.clean then {d with faultCount := 0,dirtyCount := 0} else d
  let bitmap : Nat → Bool := sc.buffer.getD fun _ => false
  if d.failedAllocs ≠ 0 then (stats,⟨.enomem,sc.pages,d.faultCount,d.dirtyCount,bitmap⟩)
  else
    let (top,cur) := sweep sc topLevel d.top ⟨0,bitmap,false⟩
    ({stats with top},if cur.fault then ⟨.efault,sc.pages,d.faultCount,d.dirtyCount,cur.bitmap⟩
      else ⟨.ok,if cur.pages < sc.pages then cur.pages else sc.pages,d.faultCount,d.dirtyCount,cur.bitmap⟩)

def bit (d : Domain) (pfn : Nat) : Bool := shape.view topLevel d.top pfn

end Domain

theorem view_mapSlot {k : Nat} (slot : Option (Trie k)) (spare : Bool) (n : Nat) :
  shape.view k (mapSlot slot spare).1 n = shape.view k slot n := by
  cases slot with
  | some t => rfl
  | none => cases spare <;> simp [mapSlot,newNode]

def Marks (pfn k : Nat) (old : Option (Trie k)) (r : Option (Trie k) × Outcome) : Prop :=
  match r.2 with
  | .oom => ∀ n, shape.view k r.1 n = shape.view k old n
  | .marked changed _ => changed = !shape.view k old pfn ∧ ∀ n, shape.view k r.1 n =
        (shape.view k old n || decide (n%shape.span k = pfn%shape.span k))

theorem markWalk_marks (pfn k : Nat) (slot : Option (Trie k)) (spare : Bool) :
  Marks pfn k slot (markWalk pfn k slot spare) := by
  induction k generalizing spare with
  | zero =>
    have hv := view_mapSlot slot spare
    rw [markWalk]
    split
    · rename_i hs
      intro n
      rw [← hv n,hs]
    rename_i l1 spare' hs
    rw [hs] at hv
    refine ⟨?_,fun n => ?_⟩
    · rw [← hv pfn,Shape.view_leaf,idx_eq]
    · rw [← hv n,idx_eq]
      exact shape.view_setBit l1 n pfn
  | succ k ih =>
    have hv := view_mapSlot slot spare
    rw [markWalk]
    split
    · rename_i hs
      intro n
      rw [← hv n,hs]
    rename_i node spare' hs
    rw [hs] at hv
    have hc := ih (node (logdirtyIdx (k+1) pfn)) spare'
    rw [idx_eq] at hc ⊢
    have ha (n : Nat) (hn : shape.index (k+1) n = shape.index (k+1) pfn) :
        shape.view k (node (shape.index (k+1) pfn)) n = shape.view (k+1) slot n := by
      rw [← hv n,shape.view_node,hn]
      rfl
    generalize markWalk pfn k (node (shape.index (k+1) pfn)) spare' = r at hc
    obtain ⟨child,outcome⟩ := r
    cases outcome with
    | oom =>
      intro n
      rw [shape.view_setEntry]
      split_ifs with hn
      · rw [hc n,ha n hn]
      · exact hv n
    | marked changed spare'' =>
      obtain ⟨hh,hb⟩ := hc
      refine ⟨hh.trans (by rw [ha pfn rfl]),fun n => ?_⟩
      simp only [shape.view_setEntry,shape.mod_span_succ_eq]
      split_ifs with hn
      · rw [hb n,ha n hn]
        simp [hn]
      · rw [hv n]
        simp [hn]

structure Request.Writable (sc : Request) : Prop where
  buffer : sc.buffer.isSome = true
  copies : ∀ offset, sc.copyOk offset = true
  pages : sc.pages+7 < 2^64

-- the copies of the leaves from pfn lo up to hi succeed
def Request.CopiesOk (sc : Request) (lo hi : Nat) : Prop :=
  ∀ c, shape.leaf ∣ c → lo ≤ c → c < hi → c < sc.pages → sc.copyOk (c/8) = true

def Request.delivered (sc : Request) : Nat := (sc.pages+7)/8*8

structure Swept (sc : Request) (k b : Nat) (slot : Option (Trie k)) (cur : Cursor)
    (r : Option (Trie k) × Cursor) : Prop where
  pages : r.2.pages = min (b+shape.span k) sc.delivered
  fault : r.2.fault = false
  bitmap : ∀ n, r.2.bitmap n = if b ≤ n ∧ n < r.2.pages then shape.view k slot n else cur.bitmap n
  bits : ∀ n, shape.view k r.1 n = (shape.view k slot n &&
    !(sc.clean && decide (b+n%shape.span k/shape.leaf*shape.leaf < sc.pages)))

def Sweeps (sc : Request) (k b : Nat) (slot : Option (Trie k)) (cur : Cursor) (r : Option (Trie k) × Cursor) : Prop :=
  sc.CopiesOk b (b+shape.span k) ∧ Swept sc k b slot cur r ∨ ¬sc.CopiesOk b (b+shape.span k) ∧ r.2.fault = true

structure SweptTo (sc : Request) (k b i : Nat) (slot : Option (Trie (k+1))) (cur0 : Cursor)
    (node : Option (Trie (k+1))) (cur : Cursor) : Prop where
  pages : cur.pages = min (b+shape.span k*i) sc.delivered
  fault : cur.fault = false
  bitmap : ∀ n, cur.bitmap n = if b ≤ n ∧ n < cur.pages then shape.view (k+1) slot n else cur0.bitmap n
  done : ∀ j < i, ∀ n, shape.view k (Trie.entry node j) n = (shape.view k (Trie.entry slot j) n && !(sc.clean && decide
      (b+shape.span k*j+n%shape.span k/shape.leaf*shape.leaf < sc.pages)))
  rest : ∀ j, i ≤ j → Trie.entry node j = Trie.entry slot j

section

variable {sc : Request} {k b i : Nat}

theorem bytes_dvd_span (k : Nat) : 8 ∣ shape.span k := Nat.dvd_trans (by decide) (shape.leaf_dvd_span k)

theorem delivered_le {p : Nat} (h8 : 8 ∣ p) (h : sc.pages ≤ p) : sc.delivered ≤ p := by
  rw [Request.delivered]
  omega

theorem pages_le_delivered (sc : Request) : sc.pages ≤ sc.delivered := by
  rw [Request.delivered]
  omega

theorem copiesOk_leaf (hb : shape.leaf ∣ b) (ht : b < sc.pages) :
  sc.CopiesOk b (b+shape.span 0) ↔ sc.copyOk (b/8) = true := by
  refine ⟨fun h => h b hb le_rfl (Nat.lt_add_of_pos_right shape.leaf_pos) ht,fun h c hd hl hh _ => ?_⟩
  have he : c = b := by
    obtain ⟨⟨q,rfl⟩,⟨r,rfl⟩⟩ := hb,hd
    have hq : r < q+1 := Nat.lt_of_mul_lt_mul_left (a := shape.leaf) hh
    have hr : q ≤ r := Nat.le_of_mul_le_mul_left hl shape.leaf_pos
    rw [Nat.le_antisymm (Nat.le_of_lt_succ hq) hr]
  rwa [he]

variable (hs : sc.buffer.isSome = true) (hw : sc.pages+7 < 2^64)

include hw in
theorem advance_leaf (h8 : 8 ∣ b) (ht : b < sc.pages) :
  b+sc.leafBytes b*8 = min (b+shape.leaf) sc.delivered := by
  have hl : sc.bytesLeft b = (sc.pages-b+7)/8 := by rw [Request.bytesLeft,mod_eq_of_lt (by omega)]
  rw [Request.leafBytes,hl,Request.delivered,show shape.leaf = 32768 from rfl]
  split <;> omega

include hs hw in
theorem visitLeaf_swept (slot : Option (Trie 0)) (cur : Cursor)
  (hb : shape.span 0 ∣ b) (hp : cur.pages = b) (ht : b < sc.pages)
  (hf : cur.fault = false) : Sweeps sc 0 b slot cur (visitLeaf sc slot cur) := by
  rw [Sweeps,copiesOk_leaf hb ht]
  cases hc : sc.copyOk (b/8) with
  | false => exact .inr ⟨Bool.false_ne_true,by simp only [visitLeaf,hs,hp,hc]; rfl⟩
  | true =>
  refine .inl ⟨rfl,?_⟩
  have h8 : 8 ∣ b := Nat.dvd_trans (bytes_dvd_span 0) hb
  have ha := advance_leaf hw h8 ht
  have hv : visitLeaf sc slot cur = (if sc.clean then slot.map fun _ => Trie.blank 0 else slot,
        ⟨b+sc.leafBytes b*8,copyBits cur.bitmap (b/8) (slot.getD (Trie.blank 0)) (sc.leafBytes b),false⟩) := by
    simp only [visitLeaf,hs,hp,hc,hf,Bool.not_true,Bool.and_false,Bool.false_eq_true,if_false,if_true]
  rw [hv]
  refine ⟨ha,rfl,fun n => ?_,fun n => ?_⟩
  · have ho : 8*(b/8) = b := Nat.mul_div_cancel' h8
    have he : 8*(b/8+sc.leafBytes b) = b+sc.leafBytes b*8 := by omega
    simp only [copyBits,ho,he]
    split_ifs with hn
    · have hl : n-b = n%shape.leaf := by
        obtain ⟨q,rfl⟩ := hb
        have hr : n-shape.span 0*q < shape.leaf := by omega
        conv_rhs => rw [show n = shape.leaf*q+(n-shape.span 0*q) by
          change n = shape.span 0*q+_; omega]
        rw [mul_add_mod,mod_eq_of_lt hr]
      rw [hl]
      cases slot <;> rfl
    · rfl
  have hz : n%shape.span 0/shape.leaf = 0 := div_eq_of_lt (mod_lt _ shape.leaf_pos)
  rw [hz,Nat.zero_mul,Nat.add_zero,decide_eq_true ht,Bool.and_true]
  cases hc : sc.clean with
  | false => simp
  | true => cases slot <;> simp

theorem SweptTo.start (slot : Option (Trie (k+1))) (cur : Cursor) (hp : cur.pages = b)
  (hl : b ≤ sc.delivered) (hf : cur.fault = false) : SweptTo sc k b 0 slot cur slot cur where
  pages := by omega
  fault := hf
  bitmap n := by rw [if_neg (by omega)]
  done j hj := absurd hj (not_lt_zero j)
  rest _ _ := rfl

variable {slot node : Option (Trie (k+1))} {cur cur0 : Cursor}

theorem SweptTo.next (h : SweptTo sc k b i slot cur0 node cur) (hb : shape.span (k+1) ∣ b) (hi : i < shape.fan)
  (ht : cur.pages < sc.pages) {r : Option (Trie k) × Cursor}
  (hr : Swept sc k (b+shape.span k*i) (Trie.entry node i) cur r) :
  SweptTo sc k b (i+1) slot cur0 (node.map fun t => t.setEntry i r.1) r.2 := by
  have ha : b+shape.span k*i = cur.pages := by
    have := h.pages
    have := pages_le_delivered sc
    omega
  have hm : shape.span k*(i+1) = shape.span k*i+shape.span k := mul_succ _ _
  have he (j : Nat) (hj : j ≠ i) : Trie.entry (node.map fun t => t.setEntry i r.1) j = Trie.entry node j := by
    cases node with
    | none => rfl
    | some t => exact if_neg hj
  have hv (n : Nat) : shape.view k (Trie.entry (node.map fun t => t.setEntry i r.1) i) n = shape.view k r.1 n := by
    cases node with
    | none => exact ((hr.bits n).trans (by simp [Trie.entry])).symm
    | some t => exact congrArg (shape.view k · n) (if_pos rfl)
  refine ⟨?_,hr.fault,fun n => ?_,fun j hj n => ?_,fun j hj => ?_⟩
  · rw [hr.pages,hm,add_assoc]
  · rw [hr.bitmap n,h.bitmap n,ha]
    have hg : cur.pages ≤ r.2.pages := by
      have := hr.pages
      have := pages_le_delivered sc
      omega
    by_cases hn : cur.pages ≤ n ∧ n < r.2.pages
    · have hc : b ≤ n ∧ n < r.2.pages := by omega
      have hd : shape.index (k+1) n = i := by
        have := hr.pages
        exact shape.index_of_offset hb hi (by omega) (by omega)
      rw [if_pos hn,if_pos hc,shape.view_node,hd,h.rest i le_rfl]
    rw [if_neg hn]
    by_cases hl : b ≤ n ∧ n < cur.pages
    · rw [if_pos hl,if_pos (by omega)]
    · rw [if_neg hl,if_neg (by omega)]
  · rcases Nat.lt_succ_iff_lt_or_eq.mp hj with hj | rfl
    · rw [he j (Nat.ne_of_lt hj)]
      exact h.done j hj n
    · rw [hv,hr.bits n,h.rest j le_rfl]
  · rw [he j (by omega)]
    exact h.rest j (by omega)

theorem SweptTo.exhausted (h : SweptTo sc k b i slot cur0 node cur) (hb : shape.span (k+1) ∣ b)
  (he : sc.pages ≤ cur.pages) {j : Nat} (hj : i ≤ j) : SweptTo sc k b j slot cur0 node cur := by
  have ha := h.pages
  have hp : sc.pages ≤ b+shape.span k*i := by omega
  have h8 : 8 ∣ b+shape.span k*i :=
    Nat.dvd_add (Nat.dvd_trans (bytes_dvd_span (k+1)) hb) (Nat.dvd_mul_right_of_dvd (bytes_dvd_span k) i)
  have hd := delivered_le h8 hp
  have ho {m : Nat} (hm : i ≤ m) : shape.span k*i ≤ shape.span k*m := mul_le_mul_left _ hm
  refine ⟨?_,h.fault,h.bitmap,fun m hm n => ?_,fun m hm => h.rest m (le_trans hj hm)⟩
  · have := ho hj
    omega
  rcases lt_or_ge m i with hl | hg
  · exact h.done m hl n
  have := ho hg
  rw [h.rest m hg,decide_eq_false (by omega)]
  simp

theorem SweptTo.whole {r : Option (Trie (k+1)) × Cursor} (h : SweptTo sc k b shape.fan slot cur r.1 r.2) :
  Swept sc (k+1) b slot cur r where
  pages := h.pages
  fault := h.fault
  bitmap := h.bitmap
  bits n := by
    have hl : n%shape.span (k+1)/shape.leaf*shape.leaf =
        shape.span k*shape.index (k+1) n+n%shape.span k/shape.leaf*shape.leaf := by
      obtain ⟨q,hq⟩ := shape.leaf_dvd_span k
      rw [shape.mod_span_succ,hq,Nat.mul_assoc,Nat.mul_add_div shape.leaf_pos,Nat.add_mul,mul_comm _ shape.leaf]
    rw [shape.view_node,shape.view_node,h.done _ (shape.index_lt k n),hl,add_assoc]

theorem sweepEntries_sweeps {visit : Option (Trie k) → Cursor → Option (Trie k) × Cursor} (hb : shape.span (k+1) ∣ b)
  (hv : ∀ (c : Nat) (slot : Option (Trie k)) (cur : Cursor), shape.span k ∣ c →
    cur.pages = c → c < sc.pages → cur.fault = false → Sweeps sc k c slot cur (visit slot cur))
  (m : Nat) (hi : i+m = shape.fan) (h : SweptTo sc k b i slot cur0 node cur) (ho : sc.CopiesOk b (b+shape.span k*i)) :
  Sweeps sc (k+1) b slot cur0 (sweepEntries sc visit m i node cur) := by
  induction m generalizing i node cur with
  | zero =>
    obtain rfl : i = shape.fan := hi
    exact .inl ⟨ho,h.whole⟩
  | succ m ih =>
    rw [sweepEntries]
    split
    · rename_i hg
      have ha : cur.pages = b+shape.span k*i := by
        have := h.pages
        have := pages_le_delivered sc
        omega
      have hd : shape.span k ∣ b+shape.span k*i :=
        Nat.dvd_add (Nat.dvd_trans (Nat.dvd_mul_right _ _) hb) (Nat.dvd_mul_right _ _)
      have hn : shape.span k*(i+1) = shape.span k*i+shape.span k := mul_succ _ _
      rcases hv _ (Trie.entry node i) cur hd ha (ha ▸ hg.2) hg.1 with ⟨hc,hr⟩ | ⟨hc,hr⟩
      · refine ih (by omega) (h.next hb (by omega) hg.2 hr) fun c hm hl hh => ?_
        rcases lt_or_ge c (b+shape.span k*i) with ht | ht
        · exact ho c hm hl ht
        · exact hc c hm ht (by omega)
      · refine .inr ⟨fun hw => hc fun c hm hl hh => hw c hm (by omega) ?_,?_⟩
        · have : shape.span k*(i+1) ≤ shape.span (k+1) := mul_le_mul_left _ (by omega)
          omega
        · dsimp only
          cases m with
          | zero => exact hr
          | succ m =>
            rw [sweepEntries,if_neg (by simp [hr])]
            exact hr
    rename_i hs
    have he : sc.pages ≤ cur.pages := by simpa [h.fault] using hs
    refine .inl ⟨fun c hm hl hh hp => ho c hm hl ?_ hp,(h.exhausted hb he (by omega)).whole⟩
    have := h.pages
    omega

include hs hw in
theorem sweep_swept (k b : Nat) (slot : Option (Trie k)) (cur : Cursor)
  (hb : shape.span k ∣ b) (hp : cur.pages = b) (hl : b < sc.pages)
  (hf : cur.fault = false) : Sweeps sc k b slot cur (sweep sc k slot cur) := by
  induction k generalizing b cur with
  | zero => exact visitLeaf_swept hs hw slot cur hb hp hl hf
  | succ k ih =>
    have he := le_trans (le_of_lt hl) (pages_le_delivered sc)
    exact sweepEntries_sweeps hb (fun c slot cur => ih c slot cur) nodeEntries (zero_add _)
      (SweptTo.start slot cur hp he hf) fun c _ hl hh => by omega

include hs hw in
theorem sweep_top (top : Option (Trie topLevel)) (bitmap : Nat → Bool) :
  Sweeps sc topLevel 0 top ⟨0,bitmap,false⟩ (sweep sc topLevel top ⟨0,bitmap,false⟩) :=
  sweepEntries_sweeps (Nat.dvd_zero _) (fun c slot cur => sweep_swept hs hw _ c slot cur) nodeEntries (zero_add _)
    (SweptTo.start top _ rfl (zero_le _) rfl) fun c _ hl hh => by omega

end

section
variable (sc : Request)

-- what every leaf keeps of the cursor, the whole walk keeps
theorem sweep_cursor {Q : Cursor → Prop} (hv : ∀ slot cur, Q cur → Q (visitLeaf sc slot cur).2) (k : Nat)
  (slot : Option (Trie k)) (cur : Cursor) (hq : Q cur) : Q (sweep sc k slot cur).2 := by
  induction k generalizing cur with
  | zero => exact hv slot cur hq
  | succ k ih =>
    rw [sweep]
    generalize nodeEntries = m
    generalize 0 = i
    induction m generalizing i slot cur with
    | zero => exact hq
    | succ m ihm =>
      rw [sweepEntries]
      split
      · exact ihm _ _ (ih _ _ hq) _
      · exact hq

theorem sweep_shrinks (k : Nat) (slot : Option (Trie k)) (cur : Cursor) (n : Nat)
  (hn : shape.view k (sweep sc k slot cur).1 n = true) : shape.view k slot n = true := by
  induction k generalizing cur with
  | zero =>
    simp only [sweep,visitLeaf] at hn
    split at hn
    · exact hn
    · cases slot <;> cases hc : sc.clean <;> simp_all
  | succ k ih =>
    rw [sweep] at hn
    generalize nodeEntries = m at hn
    generalize 0 = i at hn
    induction m generalizing i slot cur with
    | zero => exact hn
    | succ m ihm =>
      rw [sweepEntries] at hn
      split at hn
      · have hr := ihm _ _ _ hn
        cases slot with
        | none => exact hr
        | some t =>
          rw [Option.map_some,shape.view_setEntry] at hr
          split at hr
          · rename_i hx
            rw [shape.view_node,hx]
            exact ih _ _ hr
          · exact hr
      · exact hn

end

theorem sweep_peek (sc : Request) (hc : sc.clean = false) (k : Nat) (slot : Option (Trie k))
  (cur : Cursor) : (sweep sc k slot cur).1 = slot := by
  induction k generalizing cur with
  | zero =>
    simp only [sweep,visitLeaf,hc]
    split <;> rfl
  | succ k ih =>
    rw [sweep]
    generalize nodeEntries = m
    generalize 0 = i
    induction m generalizing i cur with
    | zero => rfl
    | succ m ihm =>
      rw [sweepEntries]
      split
      · have hs : (slot.map fun t => t.setEntry i (sweep sc k (Trie.entry slot i) cur).1) = slot := by
          rw [ih]
          cases slot with
          | none => rfl
          | some t => exact congrArg some (Trie.setEntry_self t i)
        simp only [hs]
        exact ihm _ _
      · rfl

abbrev pfnSpan : Nat := 2^42

theorem topSpan : shape.span topLevel = pfnSpan := span_eq 3

structure Request.Reports (sc : Request) (d : Domain) (r : Domain × Reply) : Prop where
  status : r.2.status = .ok
  bitmap : ∀ n < min pfnSpan sc.delivered, r.2.bitmap n = d.bit n
  pages : r.2.pages = min pfnSpan sc.pages
  dirtyCount : r.2.dirtyCount = d.dirtyCount
  failedAllocs : r.1.failedAllocs = d.failedAllocs
  count : r.1.dirtyCount = if sc.clean then 0 else d.dirtyCount
  top : sc.clean = false → r.1.top = d.top
  bits : ∀ n, r.1.bit n = (d.bit n && !(sc.clean && decide (n%pfnSpan/shape.leaf*shape.leaf < sc.pages)))

theorem logDirtyOp_reports {sc : Request} (hw : sc.buffer.isSome = true) (hp : sc.pages+7 < 2^64)
  (hc : sc.CopiesOk 0 pfnSpan) {d : Domain} (hf : d.failedAllocs = 0) : sc.Reports d (d.logDirtyOp sc) := by
  have hs := (sweep_top hw hp d.top (sc.buffer.getD fun _ => false)).resolve_right fun hn => hn.1 (topSpan ▸ hc)
  replace hs := hs.2
  have he (hc : sc.clean = false) := sweep_peek sc hc topLevel d.top ⟨0,sc.buffer.getD fun _ => false,false⟩
  rw [Domain.logDirtyOp,if_neg (by simp [hf])]
  generalize sweep sc topLevel d.top ⟨0,sc.buffer.getD fun _ => false,false⟩ = r at hs he
  obtain ⟨top,cur⟩ := r
  have ha : cur.fault = false := hs.fault
  have hp : cur.pages = min pfnSpan sc.delivered := by rw [hs.pages,topSpan,zero_add]
  simp only [ha,Bool.false_eq_true,if_false]
  refine ⟨rfl,fun n hn => ?_,?_,rfl,?_,?_,fun hc => he hc,fun n => ?_⟩
  · exact (hs.bitmap n).trans (if_pos ⟨zero_le n,hp ▸ hn⟩)
  · have := pages_le_delivered sc
    simp only [hp]
    split <;> omega
  · cases sc.clean <;> rfl
  · cases sc.clean <;> rfl
  · have := hs.bits n
    rw [zero_add,topSpan] at this
    exact this

theorem Request.Writable.reports {sc : Request} (hw : sc.Writable) {d : Domain} (hf : d.failedAllocs = 0) :
  sc.Reports d (d.logDirtyOp sc) :=
  logDirtyOp_reports hw.buffer hw.pages (fun _ _ _ _ _ => hw.copies _) hf

inductive Phase where
  | again (spare : Bool)
  | oom

structure State where
  domain : Domain
  calls : Nat → Option (Nat × Phase)
  marked : Finset Nat

inductive Action where
  | call (cpu : Nat) (logged : Bool) (pfn : Nat)
  | pass (cpu : Nat)
  | alloc (cpu : Nat) (page : Bool)
  | op (sc : Request)

def validM2p (pfn : Nat) : Bool := decide (pfn < 2^63)

namespace State

def setCall (s : State) (cpu : Nat) (c : Option (Nat × Phase)) : State :=
  {s with calls := Function.update s.calls cpu c}

def lockedPass (s : State) (cpu pfn : Nat) (spare : Bool) : State :=
  match s.domain.markDirty pfn spare with
  | (d,.oom) => {s with domain := d}.setCall cpu (some (pfn,.oom))
  | (d,.marked _ _) => {s with domain := d,marked := insert pfn s.marked}.setCall cpu none

def step (s : State) : Action → Option State
  | .call cpu logged pfn =>
    match s.calls cpu with
    | some _ => none
    | none => if logged && validM2p pfn then some (s.setCall cpu (some (pfn,.again false))) else some s
  | .pass cpu =>
    match s.calls cpu with
    | some (pfn,.again spare) => some (s.lockedPass cpu pfn spare)
    | _ => none
  | .alloc cpu page =>
    match s.calls cpu with
    | some (pfn,.oom) =>
      if page then some (s.setCall cpu (some (pfn,.again true)))
      else
        some ({s with domain :=
          {s.domain with failedAllocs := (s.domain.failedAllocs+1)%2^32}}.setCall cpu none)
    | _ => none
  | .op sc =>
    let (d,reply) := s.domain.logDirtyOp sc
    some {s with domain := d,marked := if sc.clean && reply.status == .ok then ∅ else s.marked}

end State

def initial (faultCount : Nat) : State where
  domain := ⟨none,faultCount,0,0⟩
  calls := fun _ => none
  marked := ∅

namespace State

def Covers (s : State) (sc : Request) : Prop := sc.Writable ∧ ∀ pfn ∈ s.marked, pfn < sc.pages

def Allowed (s : State) (a : Action) : Prop :=
  s.domain.failedAllocs = 0 ∧ match a with
    | .op sc => s.Covers sc
    | _ => True

def residues (s : State) : Finset Nat := s.marked.image (· % pfnSpan)

structure Inv (s : State) : Prop where
  bits : ∀ n, s.domain.bit n = decide (n%pfnSpan ∈ s.residues)
  count : s.domain.dirtyCount = s.residues.card%2^32

inductive Move (s : State) : Action → State → Prop where
  | quiet {cpu logged pfn} (c : Option (Nat × Phase)) : Move s (.call cpu logged pfn) (s.setCall cpu c)
  | ignored {cpu logged pfn} : Move s (.call cpu logged pfn) s
  | pass {cpu} (pfn : Nat) (spare : Bool) : Move s (.pass cpu) (s.lockedPass cpu pfn spare)
  | page {cpu} (pfn : Nat) : Move s (.alloc cpu true) (s.setCall cpu (some (pfn,.again true)))
  | failed {cpu} : Move s (.alloc cpu false) ({s with domain :=
        {s.domain with failedAllocs := (s.domain.failedAllocs+1)%2^32}}.setCall cpu none)
  | op {sc} : Move s (.op sc) {s with
      domain := (s.domain.logDirtyOp sc).1,
      marked := if sc.clean && (s.domain.logDirtyOp sc).2.status == .ok then ∅ else s.marked}

variable {s t : State}

variable {sc : Request} {a : Action}

theorem move_of_step (h : s.step a = some t) : s.Move a t := by
  cases a with
  | call cpu logged pfn =>
    simp only [step] at h
    split at h
    · cases h
    split at h
    · cases h
      exact .quiet _
    · cases h
      exact .ignored
  | pass cpu =>
    simp only [step] at h
    split at h
    · cases h
      exact .pass _ _
    · cases h
  | alloc cpu page =>
    simp only [step] at h
    split at h
    · cases page with
      | true =>
        cases h
        exact .page _
      | false =>
        cases h
        exact .failed
    · cases h
  | op sc =>
    cases h
    exact .op

theorem inv_setCall (h : s.Inv) (cpu : Nat) (c : Option (Nat × Phase)) : (s.setCall cpu c).Inv := ⟨h.bits,h.count⟩

theorem inv_lockedPass (h : s.Inv) (cpu pfn : Nat) (spare : Bool) : (s.lockedPass cpu pfn spare).Inv := by
  have hw := markWalk_marks pfn topLevel s.domain.top spare
  rw [lockedPass,Domain.markDirty]
  generalize markWalk pfn topLevel s.domain.top spare = r at hw
  obtain ⟨top,outcome⟩ := r
  cases outcome with
  | oom => exact ⟨fun n => (hw n).trans (h.bits n),h.count⟩
  | marked changed left =>
    obtain ⟨hc,hb⟩ := hw
    have hr : (insert pfn s.marked).image (· % pfnSpan) = insert (pfn%pfnSpan) s.residues :=
      Finset.image_insert _ _ _
    refine ⟨fun n => ?_,?_⟩
    · refine (hb n).trans ?_
      change (s.domain.bit n || _) = decide (n%pfnSpan ∈ (insert pfn s.marked).image _)
      rw [h.bits n,hr,topSpan]
      simp [Finset.mem_insert,Bool.or_comm]
    have hold : changed = !decide (pfn%pfnSpan ∈ s.residues) := by rw [hc,← h.bits pfn,Domain.bit]
    change (if changed = true then (s.domain.dirtyCount+1)%2^32 else s.domain.dirtyCount) =
      ((insert pfn s.marked).image (· % pfnSpan)).card%2^32
    rw [hr,h.count,hold]
    by_cases hm : pfn%pfnSpan ∈ s.residues
    · rw [Finset.insert_eq_of_mem hm]
      simp [hm]
    · rw [Finset.card_insert_of_notMem hm]
      simp [hm]

theorem residues_lt (hc : s.Covers sc) {m : Nat} (hm : m ∈ s.residues) : m < sc.pages := by
  obtain ⟨pfn,hp,rfl⟩ := Finset.mem_image.mp hm
  exact lt_of_le_of_lt (mod_le _ _) (hc.2 pfn hp)

theorem inv_op (h : s.Inv) (ho : s.Covers sc) (hf : s.domain.failedAllocs = 0) (ht : s.Move (.op sc) t) : t.Inv := by
  have hr := ho.1.reports hf
  cases ht
  rw [hr.status]
  have hb := hr.bits
  have hc := hr.count
  cases ha : sc.clean with
  | false =>
    rw [ha] at hb hc
    exact ⟨fun n => (hb n).trans (by rw [h.bits n]; simp [residues]),hc.trans h.count⟩
  | true =>
    rw [ha] at hb hc
    refine ⟨fun n => (hb n).trans ?_,hc⟩
    rw [h.bits n]
    by_cases hm : n%pfnSpan ∈ s.residues
    · have hl : n%pfnSpan/shape.leaf*shape.leaf < sc.pages :=
        lt_of_le_of_lt (div_mul_le_self _ _) (residues_lt ho hm)
      simp [residues,hl]
    · rw [decide_eq_false hm]
      simp [residues]

theorem inv_step (h : s.Inv) (ha : s.Allowed a) (hs : s.step a = some t) : t.Inv := by
  have hm := move_of_step hs
  cases hm with
  | quiet c => exact inv_setCall h _ c
  | ignored => exact h
  | pass pfn spare => exact inv_lockedPass h _ pfn spare
  | page pfn => exact inv_setCall h _ _
  | failed => exact ⟨h.bits,h.count⟩
  | op => exact inv_op h ha.2 ha.1 .op

theorem inv_initial (faultCount : Nat) : (initial faultCount).Inv :=
  ⟨fun n => by simp [initial,residues,Domain.bit],rfl⟩

theorem reach_inv {faultCount : Nat} (hs : Reach step Allowed (initial faultCount) s) : s.Inv :=
  reach_invariant (inv_initial faultCount) (fun _ _ _ _ h ha ht => inv_step h ha ht) hs

theorem residues_eq_marked (hs : ∀ pfn ∈ s.marked, pfn < pfnSpan) : s.residues = s.marked :=
  (Finset.image_congr fun pfn hp => mod_eq_of_lt (hs pfn hp)).trans Finset.image_id

end State

def Domain.setBits (d : Domain) : Finset Nat := (Finset.range pfnSpan).filter fun n => d.bit n

namespace State

theorem setBits_eq {s : State} (h : s.Inv) : s.domain.setBits = s.residues := by
  ext n
  simp only [Domain.setBits,Finset.mem_filter,Finset.mem_range,h.bits n,decide_eq_true_eq]
  constructor
  · rintro ⟨hn,hm⟩
    rwa [mod_eq_of_lt hn] at hm
  intro hm
  obtain ⟨pfn,hp,rfl⟩ := Finset.mem_image.mp hm
  exact ⟨mod_lt _ (by decide),by rwa [mod_mod]⟩

theorem log_dirty_trie_is_bitmap {faultCount : Nat} {s : State}
  (hs : Reach step Allowed (initial faultCount) s) (hfailed : s.domain.failedAllocs = 0)
  (hsmall : ∀ pfn ∈ s.marked, pfn < pfnSpan) : s.domain.setBits = s.marked ∧
    s.domain.dirtyCount = s.domain.setBits.card%2^32 ∧ ∀ sc : Request, s.Covers sc →
      (s.domain.logDirtyOp sc).2.status = .ok ∧ (s.domain.logDirtyOp sc).2.pages = min pfnSpan sc.pages ∧
      (∀ n < min pfnSpan sc.delivered,(s.domain.logDirtyOp sc).2.bitmap n = decide (n ∈ s.marked)) ∧
      (sc.clean = false → (s.domain.logDirtyOp sc).1.top = s.domain.top) := by
  have hi := reach_inv hs
  have he := residues_eq_marked hsmall
  refine ⟨(setBits_eq hi).trans he,by rw [setBits_eq hi,hi.count],fun sc hc => ?_⟩
  have hr := hc.1.reports hfailed
  refine ⟨hr.status,hr.pages,fun n hn => ?_,hr.top⟩
  rw [hr.bitmap n hn,hi.bits n,he,mod_eq_of_lt (by omega)]

def allowedMark (s : State) : Action → Bool
  | .op _ => false
  | _ => s.domain.failedAllocs == 0

theorem allowed_of_allowedMark (s : State) (a : Action) (h : s.allowedMark a = true) : s.Allowed a := by
  cases a with
  | op sc => cases h
  | _ => exact ⟨by simpa [allowedMark] using h,trivial⟩

end State

def firstMark (pfn : Nat) : List Action :=
  [.call 0 true pfn,.pass 0,.alloc 0 true,.pass 0,.alloc 0 true,.pass 0,.alloc 0 true,.pass 0,.alloc 0 true,.pass 0]

def peekRequest (pages : Nat) : Request := ⟨false,pages,some fun _ => false,fun _ => true⟩

theorem peekRequest_writable {pages : Nat} (h : pages+7 < 2^64) : (peekRequest pages).Writable := ⟨rfl,fun _ => rfl,h⟩

namespace State

theorem first_mark_is_reported : ∃ s,Reach step Allowed (initial 0) s ∧ s.marked = {40000} ∧ s.domain.failedAllocs = 0 ∧
    s.Covers (peekRequest 40001) ∧ (s.domain.logDirtyOp (peekRequest 40001)).2.bitmap 40000 = true ∧
    (s.domain.logDirtyOp (peekRequest 40001)).2.bitmap 39999 = false := by
  obtain ⟨s,hr,hm,hf⟩ : ∃ s, runIf step allowedMark (initial 0) (firstMark 40000) =
      some s ∧ s.marked = {40000} ∧ s.domain.failedAllocs = 0 := ⟨_,rfl,rfl,rfl⟩
  have hs : Reach step Allowed (initial 0) s := reach_of_runIf allowed_of_allowedMark hr
  have hc : s.Covers (peekRequest 40001) :=
    ⟨peekRequest_writable (by decide),fun pfn hp => by
      rw [hm,Finset.mem_singleton] at hp
      rw [hp]
      decide⟩
  have he := log_dirty_trie_is_bitmap hs hf (by rw [hm]; decide)
  obtain ⟨_,_,hb,_⟩ := he.2.2 (peekRequest 40001) hc
  refine ⟨s,hs,hm,hf,hc,?_,?_⟩
  · rw [hb 40000 (by decide),hm]
    decide
  · rw [hb 39999 (by decide),hm]
    decide

theorem high_pfn_aliases : ∃ s,Reach step Allowed (initial 0) s ∧ s.marked = {2^42} ∧ s.domain.failedAllocs = 0 ∧
    s.Covers (peekRequest (2^42+1)) ∧ (s.domain.logDirtyOp (peekRequest (2^42+1))).2.bitmap 0 = true ∧
    (s.domain.logDirtyOp (peekRequest (2^42+1))).2.pages = 2^42 := by
  obtain ⟨s,hu,hm,hf⟩ : ∃ s, runIf step allowedMark (initial 0) (firstMark (2^42)) =
      some s ∧ s.marked = {2^42} ∧ s.domain.failedAllocs = 0 := ⟨_,rfl,rfl,rfl⟩
  have hs : Reach step Allowed (initial 0) s := reach_of_runIf allowed_of_allowedMark hu
  have hc : s.Covers (peekRequest (2^42+1)) :=
    ⟨peekRequest_writable (by decide),fun pfn hp => by
      rw [hm,Finset.mem_singleton] at hp
      rw [hp]
      decide⟩
  have hr := hc.1.reports hf
  refine ⟨s,hs,hm,hf,hc,?_,hr.pages⟩
  rw [hr.bitmap 0 (by decide),(reach_inv hs).bits 0,residues,hm]
  decide

end State

namespace Domain

variable {d : Domain} {sc : Request}

def KeepsDirty (d : Domain) (sc : Request) : Prop :=
  (∀ n ∈ d.setBits, (d.logDirtyOp sc).2.status = .ok ∧ n < (d.logDirtyOp sc).2.pages ∧
      (d.logDirtyOp sc).2.bitmap n = true ∨ n ∈ (d.logDirtyOp sc).1.setBits) ∧
    (d.logDirtyOp sc).1.dirtyCount = (d.logDirtyOp sc).1.setBits.card

theorem clean_count (hc : sc.clean = true) : (d.logDirtyOp sc).1.dirtyCount = 0 := by
  rw [logDirtyOp]
  dsimp only
  rw [hc]
  split <;> rfl

theorem setBits_shrink (d : Domain) (sc : Request) : (d.logDirtyOp sc).1.setBits ⊆ d.setBits := by
  refine Finset.monotone_filter_right _ fun n _ hn => ?_
  rw [logDirtyOp] at hn
  dsimp only at hn
  split at hn
  · cases hc : sc.clean <;> rw [hc] at hn <;> exact hn
  · exact sweep_shrinks sc _ _ _ n hn

theorem sweep_without_buffer (hb : sc.buffer = none) (k : Nat) (slot : Option (Trie k)) :
  (sweep sc k slot ⟨0,sc.buffer.getD fun _ => false,false⟩).2.bitmap = fun _ => false := by
  have hz : (sc.buffer.getD fun _ => false) = fun _ => false := by rw [hb]; rfl
  refine sweep_cursor sc (Q := fun cur => cur.bitmap = fun _ => false) (fun slot cur hq => ?_) k slot _ hz
  simp only [visitLeaf,hb]
  exact hq

-- sc->pages + 7 wraps, so no byte of any leaf is copied
theorem sweep_wrapped (hp : sc.pages < 2^64) (hw : 2^64 ≤ sc.pages+7) (k : Nat) (slot : Option (Trie k))
  (bitmap : Nat → Bool) : (sweep sc k slot ⟨0,bitmap,false⟩).2.pages = 0 := by
  refine sweep_cursor sc (Q := fun cur => cur.pages = 0) (fun slot cur hq => ?_) k slot _ rfl
  have hl : sc.leafBytes 0 = 0 := by
    rw [Request.leafBytes,Request.bytesLeft,show shape.leaf/8 = 4096 from rfl]
    split <;> omega
  simp only [visitLeaf,hq,hl]
  split <;> rfl

theorem reported_inputs {n : Nat} (hp : sc.pages < 2^64) (hs : (d.logDirtyOp sc).2.status = .ok)
  (hn : n < (d.logDirtyOp sc).2.pages) (hb : (d.logDirtyOp sc).2.bitmap n = true) :
  d.failedAllocs = 0 ∧ sc.buffer.isSome = true ∧ sc.pages+7 < 2^64 ∧ sc.CopiesOk 0 pfnSpan := by
  have hf : d.failedAllocs = 0 := by
    by_contra hf
    rw [logDirtyOp,if_pos hf] at hs
    cases hs
  rw [logDirtyOp,if_neg (by simp [hf])] at hs hn hb
  have hr : (sweep sc topLevel d.top ⟨0,sc.buffer.getD fun _ => false,false⟩).2.fault = false := by
    dsimp only at hs
    split at hs
    · cases hs
    · rename_i hf
      simpa using hf
  simp only [hr,Bool.false_eq_true,if_false] at hn hb
  have hu : sc.buffer.isSome = true := by
    cases hbuf : sc.buffer with
    | some _ => rfl
    | none =>
      rw [sweep_without_buffer hbuf] at hb
      cases hb
  have hw : sc.pages+7 < 2^64 := by
    by_contra hw
    rw [sweep_wrapped hp (Nat.le_of_not_lt hw)] at hn
    split at hn <;> omega
  refine ⟨hf,hu,hw,?_⟩
  rcases sweep_top hu hw d.top (sc.buffer.getD fun _ => false) with ⟨hc,-⟩ | ⟨-,hc⟩
  · rw [topSpan,zero_add] at hc
    exact hc
  · rw [hr] at hc
    cases hc

theorem setBits_cleared (hr : sc.Reports d (d.logDirtyOp sc)) (hc : sc.clean = true)
  (hd : ∀ n ∈ d.setBits, n < sc.pages) : (d.logDirtyOp sc).1.setBits = ∅ := by
  refine Finset.filter_eq_empty_iff.mpr fun n hn hb => ?_
  have hl := Finset.mem_range.mp hn
  rw [hr.bits,hc,Bool.and_eq_true] at hb
  have hs := lt_of_le_of_lt (div_mul_le_self n shape.leaf) (hd n (Finset.mem_filter.mpr ⟨hn,hb.1⟩))
  simp [mod_eq_of_lt hl,hs] at hb

theorem clean_keeps_dirty (hclean : sc.clean = true) (hpages : sc.pages < 2^64) :
  d.KeepsDirty sc ↔ d.setBits = ∅ ∨ (d.failedAllocs = 0 ∧ sc.buffer.isSome = true ∧ sc.pages+7 < 2^64 ∧
    sc.CopiesOk 0 pfnSpan) ∧ ∀ n ∈ d.setBits, n < sc.pages := by
  have hz : (d.logDirtyOp sc).1.dirtyCount = 0 := clean_count hclean
  constructor
  · rintro ⟨hk,hc⟩
    rw [hz] at hc
    have he := Finset.card_eq_zero.mp hc.symm
    have hr : ∀ n ∈ d.setBits, _ := fun n hn => (hk n hn).resolve_right (by simp [he])
    rcases d.setBits.eq_empty_or_nonempty with hd | ⟨n,hn⟩
    · exact .inl hd
    obtain ⟨hs,hl,hb⟩ := hr n hn
    have hi := reported_inputs hpages hs hl hb
    refine .inr ⟨hi,fun m hm => ?_⟩
    have ht := (hr m hm).2.1
    rw [(logDirtyOp_reports hi.2.1 hi.2.2.1 hi.2.2.2 hi.1).pages] at ht
    omega
  rintro (hd | ⟨⟨hf,hu,hw,hc⟩,hin⟩)
  · have hs := setBits_shrink d sc
    rw [hd] at hs
    rw [KeepsDirty,hd,hz,Finset.subset_empty.mp hs]
    exact ⟨fun n hn => absurd hn (Finset.notMem_empty n),rfl⟩
  have hr := logDirtyOp_reports hu hw hc hf
  refine ⟨fun n hn => .inl ⟨hr.status,?_,?_⟩,by rw [hz,setBits_cleared hr hclean hin]; rfl⟩
  · have := hin n hn
    have := Finset.mem_range.mp (Finset.mem_filter.mp hn).1
    rw [hr.pages]
    omega
  · have := hin n hn
    have := pages_le_delivered sc
    obtain ⟨hm,hb⟩ := Finset.mem_filter.mp hn
    have := Finset.mem_range.mp hm
    rw [hr.bitmap n (by omega),hb]

end Domain

def firstDirty : Domain where
  top := some ((Trie.blank 3).setEntry 0 (some ((Trie.blank 2).setEntry 0 (some ((Trie.blank 1).setEntry 0
    (some ((Trie.blank 0).setBit 0)))))))
  faultCount := 0
  dirtyCount := 1
  failedAllocs := 0

def cleanRequest (pages : Nat) (copyOk : Nat → Bool) : Request := ⟨true,pages,some fun _ => false,copyOk⟩

namespace Domain

theorem first_leaf_cleaned : firstDirty.KeepsDirty (cleanRequest pfnSpan fun _ => true) :=
  (clean_keeps_dirty rfl (by decide)).mpr (.inr ⟨⟨rfl,rfl,by decide,fun _ _ _ _ _ => rfl⟩,
    fun _ hn => Finset.mem_range.mp (Finset.mem_filter.mp hn).1⟩)

theorem failed_copy_loses_leaf : firstDirty.bit 0 = true ∧
  (firstDirty.logDirtyOp (cleanRequest 40000 (· == 0))).2.status = .efault ∧
  (firstDirty.logDirtyOp (cleanRequest 40000 (· == 0))).1.bit 0 = false := by decide +kernel

end Domain

end LogDirty
