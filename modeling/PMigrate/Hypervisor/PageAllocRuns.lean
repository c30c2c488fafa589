import PMigrate.Hypervisor.BuddyInvariant

namespace PageAlloc

open DyadicBlock Transition Function List Nat Option

variable {P : Platform} {s s' : Heap}

structure Inv (P : Platform) (s : Heap) : Prop where
  lists : Lists P s fun _ => False
  counts : Counts P s

theorem inv_of_empty (hs : Empty s) : Inv P s := by
  have hn : {m | FreeState s m} = ∅ := Set.eq_empty_of_forall_notMem hs.pages
  have hh : ∀ {n z k h}, h ∉ s.heap n z k := fun hx => by
    rw [hs.lists] at hx
    cases hx
  refine ⟨⟨fun n z k => ?_,fun _ _ _ _ hx => absurd hx hh,fun _ _ _ _ hx => absurd hx hh,
    fun _ _ _ _ hx => absurd hx hh,fun _ _ _ _ _ _ _ _ _ hx => absurd hx hh,
    fun m hm => absurd hm (hs.pages m),fun _ hf => hf.elim,
    fun _ _ _ _ _ _ _ hx => absurd hx hh⟩,⟨?_,?_,fun n a z ha => ?_,fun m hm => absurd hm (hs.pages m)⟩⟩
  · rw [hs.lists]
    exact nodup_nil
  · rw [hn]
    exact Set.finite_empty
  · rw [hn,Set.ncard_empty,hs.total]
    rfl
  · rw [hs.avail] at ha
    cases ha

theorem Inv.initNode (hi : Inv P s) {node : Nat} (h : initNodeHeap s node = some s') : Inv P s' := by
  cases hv : s.avail node with
  | some a =>
    rw [initNodeHeap,hv] at h
    cases h
  | none =>
    have ho : ∀ m, FreeState s m → P.nid m ≠ node := by
      rintro m hm rfl
      have := hi.counts.nodes m hm
      rw [hv] at this
      cases this
    rw [initNodeHeap,hv] at h
    cases h
    refine ⟨hi.lists.congr ?_ rfl,⟨hi.counts.finite,hi.counts.total,fun n a z ha => ?_,fun m hm => ?_⟩⟩
    · funext n z k
      change (if n = node then [] else s.heap n z k) = s.heap n z k
      split_ifs with he
      · subst he
        refine (eq_nil_iff_forall_not_mem.mpr fun h hh => ?_).symm
        have hr : FreeState s h := by
          rw [FreeState,hi.lists.free _ _ _ _ hh h (mem_head h k)]
          rfl
        exact ho h hr ((hi.lists.chunk _ _ _ _ hh).home h (mem_head h k)).2.1
      · rfl
    · by_cases hn : n = node
      · subst hn
        simp only [update_self,Option.some.injEq] at ha
        subst ha
        have hb : {m | FreeState s m ∧ P.nid m = n ∧ m.log2 = z} = ∅ :=
          Set.eq_empty_of_forall_notMem fun m hm => ho m hm.1 hm.2.1
        change (0 : Int) = ({m | FreeState s m ∧ P.nid m = n ∧ m.log2 = z}.ncard : Int)
        rw [hb,Set.ncard_empty]
        rfl
      · simp only [update_of_ne hn] at ha
        exact hi.counts.avail n a z ha
    · simp only [update_of_ne (ho m hm)]
      exact hi.counts.nodes m hm

section

variable {pg order : Nat}

variable (hf : Freeable P s pg order)
include hf

theorem Freeable.chunk : Chunk P (P.nid pg) pg.log2 order pg where
  order_le := hf.order_le
  aligned := hf.aligned
  pos := hf.pos
  home := fun m hm => ⟨(hf.valid m hm).1,(hf.valid m hm).2,log2_const hf.aligned hf.pos hm⟩

theorem Freeable.zone : pageToZone s pg = pg.log2 := by
  have hx := (hf.inuse pg (mem_head pg order)).2.2
  have hp := hf.pos
  rw [pageToZone,hx,if_neg Bool.false_ne_true,if_neg (by omega)]

theorem Freeable.not_tainted : ¬Tainted s pg order := by
  rintro ⟨i,hi,hs⟩
  have := (hf.inuse (pg+i) ⟨Nat.le_add_right _ _,Nat.add_lt_add_left hi _⟩).1
  rw [hs] at this
  cases this

theorem Freeable.piece {h k : Nat} (hk : k ≤ order) (ha : 2^k ∣ h) (hm : Mem pg order h) : Freeable P s h k := by
  have hs : ∀ x, Mem h k x → Mem pg order x := fun x hx =>
    mem_mono ha hf.aligned hk (mem_head h k) hm hx
  refine ⟨hk.trans hf.order_le,ha,lt_of_lt_of_le hf.pos hm.1,?_,fun x hx => hf.inuse x (hs x hx),
    fun x hx => ⟨(hf.valid x (hs x hx)).1,?_⟩⟩
  · rw [(hf.valid h hm).2]
    exact hf.node
  · rw [(hf.valid x (hs x hx)).2,(hf.valid h hm).2]

omit hf

def marked (P : Platform) (s : Heap) (pg order : Nat) : Heap :=
  raiseMidsize P (addAvail (mapPages s pg order freePage) (P.nid pg) pg.log2 (2^order))

theorem freeHeapPages_eq (hf : Freeable P s pg order) : freeHeapPages P s pg order =
    let r := mergeChunks P (P.nid pg) pg.log2 (maxOrder-order) (marked P s pg order) pg order
    some (insertChunk r.1 (P.nid pg) pg.log2 r.2.1 r.2.2) := by
  have ho : ¬((s.avail (P.nid pg)).isNone = true ∨ Tainted s pg order) := by
    rintro (hn | ht)
    · rw [isNone_iff_eq_none] at hn
      have := hf.node
      rw [hn] at this
      cases this
    · exact hf.not_tainted ht
  simp only [freeHeapPages,if_neg ho,hf.zone,marked]

@[simp] theorem marked_heap : (marked P s pg order).heap = s.heap := by
  simp only [marked,raiseMidsize]
  split <;> rfl

@[simp] theorem marked_page : (marked P s pg order).page = (mapPages s pg order freePage).page := by
  simp only [marked,raiseMidsize]
  split <;> rfl

@[simp] theorem marked_avail : (marked P s pg order).avail = (addAvail s (P.nid pg) pg.log2 (2^order)).avail := by
  simp only [marked,raiseMidsize]
  split <;> rfl

@[simp] theorem marked_total : (marked P s pg order).totalAvailPages = s.totalAvailPages+2^order := by
  simp only [marked,raiseMidsize]
  split <;> rfl

theorem freeState_release (hf : Freeable P s pg order) (m : Nat) :
  FreeState (mapPages s pg order freePage) m ↔ FreeState s m ∨ Mem pg order m := by
  rw [FreeState,page_mapPages]
  by_cases hm : Mem pg order m
  · have hs := (hf.inuse m hm).1
    simp [hm,freePage,hs]
  · simp [hm,FreeState]

theorem Inv.insertMerged (hi : Inv P s) (hf : Freeable P s pg order) {r : Heap × Nat × Nat}
  (hm : Merged P (marked P s pg order) (P.nid pg) pg.log2 r) :
  Inv P (insertChunk r.1 (P.nid pg) pg.log2 r.2.1 r.2.2) := by
  have hs : ∀ m, FreeState (insertChunk r.1 (P.nid pg) pg.log2 r.2.1 r.2.2) m ↔ FreeState s m ∨ Mem pg order m := by
    intro m
    rw [FreeState,countInfo_insertChunk,hm.page,marked_page]
    exact freeState_release hf m
  refine ⟨hm.lists.insert (fun m => (or_iff_right id).symm) (fun _ ha => ha.elim) hm.chunk
    hm.lonely,hi.counts.release hf.chunk hf.node hs (fun m hr he => ?_) ?_ ?_⟩
  · rw [FreeState,(hf.inuse m he).1] at hr
    cases hr
  · exact hm.avail.trans marked_avail
  · exact hm.total.trans marked_total

theorem Inv.free (hi : Inv P s) (hf : Freeable P s pg order) (h : freeHeapPages P s pg order = some s') : Inv P s' := by
  rw [freeHeapPages_eq hf] at h
  cases h
  have hl : Lists P (marked P s pg order) (Mem pg order) :=
    (hi.lists.release hf).congr marked_heap marked_page
  exact hi.insertMerged hf (mergeChunks_spec _ _ _ _ (Nat.add_sub_cancel' hf.order_le) hl hf.chunk)

end

section

variable {r : Request} {node zone j : Nat}

theorem findOrder_spec {order : Nat} (h : findOrder s node zone order = some j) :
  order ≤ j ∧ s.heap node zone j ≠ [] := by
  have hm := mem_of_find?_eq_some h
  have hn := List.find?_some h
  simp only [mem_range'_1] at hm
  refine ⟨hm.1,fun he => ?_⟩
  rw [he] at hn
  cases hn

theorem findZone_spec (h : findZone s r node = some (zone,j)) : r.order ≤ j ∧ s.heap node zone j ≠ [] := by
  obtain ⟨z,-,hz⟩ := exists_of_findSome?_eq_some h
  split at hz
  · obtain ⟨k,hk,he⟩ := map_eq_some_iff.mp hz
    cases he
    exact findOrder_spec hk
  · cases hz

theorem search_spec (fuel : Nat) (w : Walk) (h : search P s r fuel w = some (some (node,zone,j))) :
  r.order ≤ j ∧ s.heap node zone j ≠ [] := by
  induction fuel generalizing w with
  | zero => cases h
  | succ fuel ih =>
    rw [search] at h
    split at h
    · rename_i hz
      cases h
      exact findZone_spec hz
    split at h
    · cases h
    split at h
    · cases h
    · exact ih _ h

structure Taken (P : Platform) (s s' : Heap) (order pg : Nat) : Prop where
  inv : Inv P s'
  wasFree : ∀ m, Mem pg order m → FreeState s m
  freeable : Freeable P s' pg order

variable {fuel : Nat} {t : Heap}

theorem taken_of_floating (hi : Inv P s) {n z k h : Nat} (hl : Lists P t (Mem h k))
  (hc : Chunk P n z k h) (hs : ∀ m, (t.page m).countInfo = (s.page m).countInfo)
  (ha : t.avail = (addAvail s n z (-2^k)).avail)
  (ht : t.totalAvailPages = s.totalAvailPages + -2^k) : Taken P s (mapPages t h k fun _ => ⟨stateInuse,0⟩) k h := by
  have hw : ∀ m, Mem h k m → FreeState s m := fun m hm => by
    rw [FreeState,← hs,(hl.floating m hm).1]
    rfl
  refine ⟨⟨hl.take,?_⟩,hw,?_⟩
  · refine hi.counts.take hc (fun m => ?_) (fun m hm hb => ?_) ha ht
    · rw [FreeState,FreeState,page_mapPages]
      split_ifs with hb
      · exact ⟨fun _ => .inr hb,fun _ => hw m hb⟩
      · rw [hs]
        exact ⟨.inl,fun ho => ho.resolve_right hb⟩
    · rw [FreeState,page_mapPages,if_pos hb] at hm
      cases hm
  refine ⟨hc.order_le,hc.aligned,hc.pos,?_,fun m hm => ?_,fun m hm => ?_⟩
  · change (t.avail (P.nid h)).isSome
    rw [ha,isSome_addAvail]
    exact hi.counts.nodes _ (hw _ (mem_head _ _))
  · rw [page_mapPages,if_pos hm]
    exact ⟨rfl,rfl,rfl⟩
  · exact ⟨(hc.home m hm).1,(hc.home m hm).2.1.trans (hc.home h (mem_head _ _)).2.1.symm⟩

theorem takePages_eq {k h : Nat} (hl : Lists P t (Mem h k)) :
  takePages t h k = some (mapPages t h k fun _ => ⟨stateInuse,0⟩) := by
  rw [takePages,if_pos]
  exact fun i ht => (hl.floating (h+i) ⟨Nat.le_add_right _ _,Nat.add_lt_add_left ht _⟩).1

theorem setLastAllocNode_keeps (s : Heap) (d : Option Domain) (node : Nat) :
  (setLastAllocNode s d node).heap = s.heap ∧ (setLastAllocNode s d node).page = s.page ∧
    (setLastAllocNode s d node).avail = s.avail ∧ (setLastAllocNode s d node).totalAvailPages = s.totalAvailPages := by
  cases d with
  | none | some d => exact ⟨rfl,rfl,rfl,rfl⟩

theorem takeBlock_spec (hi : Inv P s) (hj : r.order ≤ j) (hn : s.heap node zone j ≠ []) :
  ∃ s' pg, takeBlock s r node zone j = some (s',some pg) ∧ Taken P s s' r.order pg := by
  obtain ⟨pg,rest,hl⟩ := exists_cons_of_ne_nil hn
  have hm : pg ∈ s.heap node zone j := hl ▸ mem_cons_self
  have hd : setList s node zone j rest = pageListDel s node zone j pg := by
    rw [pageListDel,hl,erase_cons_head]
  have hc : Lists P (setList s node zone j rest) (Mem pg (r.order+(j-r.order))) := by
    have := hi.lists.remove hm
    simp only [false_or] at this
    rw [hd,Nat.add_sub_cancel' hj]
    exact this
  have hh := halveChunk_spec (j-r.order) (setList s node zone j rest) pg hc
    (by rw [Nat.add_sub_cancel' hj]; exact hi.lists.chunk _ _ _ _ hm)
  simp only [takeBlock,hl]
  generalize halveChunk node zone r.order (j-r.order) (setList s node zone j rest) pg = c at hh ⊢
  obtain ⟨he,hp,ha,ht⟩ := setLastAllocNode_keeps (addAvail c.1 node zone (-2^r.order)) r.domain node
  have hb := hh.lists.congr he hp
  refine ⟨_,c.2,?_,taken_of_floating hi hb hh.chunk (fun m => ?_) ?_ ?_⟩
  · rw [takePages_eq hb,map_some]
  · rw [hp]
    exact hh.state m
  · rw [ha]
    simp only [addAvail,hh.avail]
    rfl
  · rw [ht]
    simp only [addAvail,hh.total]
    rfl

theorem allocHeapPages_cases (hi : Inv P s) {x : Option Nat}
  (h : allocHeapPages P s r fuel = some (s',x)) : s' = s ∧ (x = none ∨ UsesTmem P s r) ∨
    ¬UsesTmem P s r ∧ ∃ pg, x = some pg ∧ Taken P s s' r.order pg := by
  rw [allocHeapPages] at h
  split at h
  · cases h
    exact .inl ⟨rfl,.inl rfl⟩
  split_ifs at h with hm
  · cases h
    exact .inl ⟨rfl,.inr hm⟩
  split at h
  · cases h
  · cases h
    exact .inl ⟨rfl,.inl rfl⟩
  · rename_i hs
    obtain ⟨hj,hn⟩ := search_spec _ _ hs
    obtain ⟨t,pg,ht,hp⟩ := takeBlock_spec hi hj hn
    rw [ht] at h
    cases h
    exact .inr ⟨hm,pg,rfl,hp⟩

theorem allocHeapPages_isSome (hi : Inv P s) (hf : (search P s r fuel (r.walk P s)).isSome) :
  (allocHeapPages P s r fuel).isSome := by
  rw [allocHeapPages]
  split
  · rfl
  split
  · rfl
  split
  · rename_i hs
    rw [hs] at hf
    cases hf
  · rfl
  · rename_i hs
    obtain ⟨hj,hn⟩ := search_spec _ _ hs
    obtain ⟨t,pg,ht,-⟩ := takeBlock_spec hi hj hn
    rw [ht]
    rfl

end

variable {m : Nat}

theorem Inv.use (hi : Inv P s) {p : Page} (hs : (s.page m).countInfo.state = .inuse)
  (hp : p.countInfo.state = .inuse) : Inv P {s with page := update s.page m p} := by
  refine ⟨hi.lists.use hs hp,hi.counts.congr (fun x => ?_) rfl rfl⟩
  by_cases hx : x = m
  · subst hx
    simp only [FreeState,update_self,hs,hp]
  · simp only [FreeState,update_of_ne hx]

theorem Inv.step (hi : Inv P s) {a : Action} (ha : Allowed P s a) (h : step P s a = some s') : Inv P s' := by
  cases a with
  | initNode node => exact hi.initNode h
  | alloc r fuel =>
    obtain ⟨⟨t,x⟩,ht,rfl⟩ := map_eq_some_iff.mp h
    obtain ⟨rfl,-⟩ | ⟨-,pg,-,hb⟩ := allocHeapPages_cases hi ht
    · exact hi
    · exact hb.inv
  | free pg order => exact hi.free ha h
  | use m p =>
    cases h
    exact hi.use ha.1 ha.2

theorem inv_of_reach {s0 : Heap} (hs : Empty s0) (h : Reach (step P) (Allowed P) s0 s) : Inv P s :=
  reach_invariant (inv_of_empty hs) (fun _ _ _ _ hu ha hv => hu.step ha hv) h

def Buddies (k h h' : Nat) : Prop := h ≠ h' ∧ h/2^(k+1) = h'/2^(k+1)

structure BuddyLists (P : Platform) (s : Heap) : Prop where
  blocks : ∀ n z k h, h ∈ s.heap n z k → k ≤ maxOrder ∧ 2^k ∣ h ∧ (s.page h).v = k ∧
    ∀ m, Mem h k m → (s.page m).countInfo = stateFree ∧ P.nid m = n ∧ pageToZone s m = z
  once : ∀ n z k, (s.heap n z k).Nodup
  apart : ∀ n z k h n' z' k' h' m, h ∈ s.heap n z k → h' ∈ s.heap n' z' k' →
    Mem h k m → Mem h' k' m → n = n' ∧ z = z' ∧ k = k' ∧ h = h'
  exact : ∀ m, FreeState s m ↔ ∃ n z k h, h ∈ s.heap n z k ∧ Mem h k m
  finite : {m | FreeState s m}.Finite
  total : s.totalAvailPages = {m | FreeState s m}.ncard
  avail : ∀ n a z, s.avail n = some a → a z = {m | FreeState s m ∧ P.nid m = n ∧ pageToZone s m = z}.ncard
  buddies : ∀ n z z' k h h', k < maxOrder → h ∈ s.heap n z k → h' ∈ s.heap n z' k → ¬Buddies k h h'

theorem Inv.zone (hi : Inv P s) (hm : FreeState s m) : pageToZone s m = m.log2 := by
  obtain ⟨n,z,k,h,hh,he⟩ := (hi.lists.covered m hm).resolve_left id
  have hp := (hi.lists.chunk _ _ _ _ hh).pos
  have hl := he.1
  rw [pageToZone,hi.lists.free _ _ _ _ hh m he]
  simp only [stateFree,Bool.false_eq_true,↓reduceIte]
  rw [if_neg (by omega)]

theorem not_buddies (hl : Lists P s fun _ => False) {n z z' k h h' : Nat} (hk : k < maxOrder)
  (hh : h ∈ s.heap n z k) (hh' : h' ∈ s.heap n z' k) : ¬Buddies k h h' := by
  rintro ⟨hn,hi⟩
  have ha := (hl.chunk _ _ _ _ hh).aligned
  have ha' := (hl.chunk _ _ _ _ hh').aligned
  obtain ⟨c,rfl⟩ := ha
  obtain ⟨d,rfl⟩ := ha'
  have hp := Nat.two_pow_pos k
  rw [Nat.pow_succ,← Nat.div_div_eq_div_mul,← Nat.div_div_eq_div_mul,Nat.mul_div_cancel_left c hp,
    Nat.mul_div_cancel_left d hp] at hi
  have hb : c ≠ d := fun he => hn (he ▸ rfl)
  rcases (by omega : c%2 = 0 ∧ d = c+1 ∨ d%2 = 0 ∧ c = d+1) with ⟨hc,rfl⟩ | ⟨hd,rfl⟩
  · refine hl.buddies n z z' k (2^k*c) hk ?_ hh (by rwa [mul_add,mul_one] at hh')
    exact lower_aligned (dvd_mul_right _ _) (by rwa [Nat.mul_div_cancel_left c hp])
  · refine hl.buddies n z' z k (2^k*d) hk ?_ hh' (by rwa [mul_add,mul_one] at hh)
    exact lower_aligned (dvd_mul_right _ _) (by rwa [Nat.mul_div_cancel_left d hp])

theorem Inv.freeState_of_listed (hi : Inv P s) {n z k h : Nat} (hh : h ∈ s.heap n z k) (hm : Mem h k m) :
  FreeState s m := by
  rw [FreeState,hi.lists.free _ _ _ _ hh m hm]
  rfl

theorem Inv.buddyLists (hi : Inv P s) : BuddyLists P s where
  blocks := by
    intro n z k h hh
    have hc := hi.lists.chunk _ _ _ _ hh
    refine ⟨hc.order_le,hc.aligned,hi.lists.order _ _ _ _ hh,fun m hm => ?_⟩
    refine ⟨hi.lists.free _ _ _ _ hh m hm,(hc.home m hm).2.1,?_⟩
    rw [hi.zone (hi.freeState_of_listed hh hm)]
    exact (hc.home m hm).2.2
  once := hi.lists.nodup
  apart := hi.lists.apart
  exact := fun m => ⟨fun hm => (hi.lists.covered m hm).resolve_left id,
    fun ⟨_,_,_,_,hh,hm⟩ => hi.freeState_of_listed hh hm⟩
  finite := hi.counts.finite
  total := hi.counts.total
  avail := by
    intro n a z ha
    rw [hi.counts.avail n a z ha]
    congr 2
    ext m
    exact and_congr_right fun hm => by rw [hi.zone hm]
  buddies := fun _ _ _ _ _ _ hk hh hh' => not_buddies hi.lists hk hh hh'

theorem buddy_allocator {s0 : Heap} (hs : Empty s0) (hrun : Reach (step P) (Allowed P) s0 s) : BuddyLists P s ∧
    (∀ pg order, Freeable P s pg order → (freeHeapPages P s pg order).isSome) ∧
    (∀ r fuel s' pg, allocHeapPages P s r fuel = some (s',some pg) → ¬UsesTmem P s r →
      (∀ m, Mem pg r.order m → FreeState s m) ∧ ∀ h k, k ≤ r.order → 2^k ∣ h → Mem pg r.order h → Freeable P s' h k) ∧
    ∀ r fuel, (search P s r fuel (r.walk P s)).isSome → (allocHeapPages P s r fuel).isSome := by
  have hi := inv_of_reach hs hrun
  refine ⟨hi.buddyLists,fun pg order hf => ?_,fun r fuel s' pg hl hb => ?_,
    fun r fuel hf => allocHeapPages_isSome hi hf⟩
  · rw [freeHeapPages_eq hf]
    rfl
  obtain ⟨-,hn | ht⟩ | ⟨-,x,hq,he⟩ := allocHeapPages_cases hi hl
  · cases hn
  · exact absurd ht hb
  · cases hq
    exact ⟨he.wasFree,fun h k hk ha hm => he.freeable.piece hk ha hm⟩

def oneNode : Platform := ⟨fun _ => 0,fun _ => true,fun n => n == 0,false⟩

def bootHeap : Heap := ⟨fun _ _ _ => [],fun _ => none,0,0,fun _ => ⟨stateInuse,0⟩,fun _ => 0⟩

def onePage : Request := ⟨0,2,0,0,false,none,0,false,none⟩

def twoFreed : List Action := [.initNode 0,.free 4 0,.free 5 0,.alloc onePage 1]

def afterAlloc : Heap := (runIf (step oneNode) (fun s a => decide (Allowed oneNode s a)) bootHeap twoFreed).get
    (by decide +kernel)

theorem bootHeap_empty : Empty bootHeap :=
  ⟨fun _ _ _ => rfl,fun _ => rfl,rfl,fun _ h => nomatch (h : PageState.inuse = .free)⟩

theorem afterAlloc_reach : Reach (step oneNode) (Allowed oneNode) bootHeap afterAlloc :=
  reach_of_runIf (fun _ _ h => of_decide_eq_true h) (some_get _).symm

theorem split_pair_is_listed :
  afterAlloc.heap 0 2 1 = [] ∧ afterAlloc.heap 0 2 0 = [4] ∧ BuddyLists oneNode afterAlloc :=
  ⟨by decide +kernel,by decide +kernel,(buddy_allocator bootHeap_empty afterAlloc_reach).1⟩

end PageAlloc
