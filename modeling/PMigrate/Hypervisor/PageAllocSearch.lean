import PMigrate.Hypervisor.PageAllocRuns

namespace PageAlloc

open DyadicBlock List Option

variable {P : Platform} {s : Heap} {r : Request} {mask : Nat → Bool} {m n f : Nat}

theorem firstNode_set (h : firstNode mask < maxNumnodes) : mask (firstNode mask) = true := by
  unfold firstNode at h ⊢
  cases hf : (range maxNumnodes).find? mask with
  | none =>
    rw [hf] at h
    exact absurd h (Nat.lt_irrefl _)
  | some k => exact find?_some hf

theorem firstNode_le (hn : n < maxNumnodes) (hm : mask n = true) : firstNode mask ≤ n := by
  unfold firstNode
  cases hf : (range maxNumnodes).find? mask with
  | none => exact absurd hm (find?_eq_none.mp hf n (mem_range.mpr hn))
  | some k =>
    refine Nat.le_of_not_lt fun hl => ?_
    simpa [hm] using (find?_range_eq_some.mp hf).2.2 n hl

def Ahead (m f n : Nat) : Prop := if m < f then m ≤ n ∧ n < f else m ≤ n ∨ n < f

def distance (m f : Nat) : Nat := if m < f then f-m else f+maxNumnodes-m

def succNode (m : Nat) (mask : Nat → Bool) : Nat :=
  if maxNumnodes ≤ nextNode m mask then firstNode mask else nextNode m mask

theorem succNode_spec (hc : ∀ n, mask n = true → n < maxNumnodes) (hm : mask m = true) (hf : mask f = true) :
  mask (succNode m mask) = true ∧
    (∀ n, mask n = true → Ahead m f n → n = m ∨ succNode m mask ≠ f ∧ Ahead (succNode m mask) f n) ∧
    (succNode m mask ≠ f → distance (succNode m mask) f < distance m f) := by
  have hd : ∀ n, mask n = true → m < n → nextNode m mask ≤ n := fun n hn ht =>
    firstNode_le (hc n hn) (by simp [ht,hn])
  have ht := hc m hm
  have he := hc f hf
  have hi := firstNode_le he hf
  by_cases hw : maxNumnodes ≤ nextNode m mask
  · -- no node of the mask above m: the walk wraps
    rw [succNode,if_pos hw]
    have hr := fun hk => Nat.le_trans hw (hd f hf hk)
    refine ⟨firstNode_set (Nat.lt_of_le_of_lt hi he),fun n hn ha => ?_,fun ho => ?_⟩
    · have hl := fun hp => Nat.le_trans hw (hd n hn hp)
      have hn1 := hc n hn
      have hn2 := firstNode_le hn1 hn
      unfold Ahead at ha ⊢
      split_ifs at ha ⊢ <;> omega
    · unfold distance
      split_ifs <;> omega
  · rw [succNode,if_neg hw]
    have hg : (decide (m < nextNode m mask) && mask (nextNode m mask)) = true :=
      @firstNode_set (fun k => decide (m < k) && mask k) (Nat.lt_of_not_le hw)
    rw [Bool.and_eq_true,decide_eq_true_eq] at hg
    have hu := hd f hf
    refine ⟨hg.2,fun n hn ha => ?_,fun ho => ?_⟩
    · have hb := hd n hn
      unfold Ahead at ha ⊢
      split_ifs at ha ⊢ <;> omega
    · unfold distance
      split_ifs <;> omega

variable (P s r) in
def Exhausts (fuel : Nat) (w : Walk) (S : Nat → Prop) : Prop :=
  ∀ k, fuel ≤ k → ∃ x, search P s r k w = some x ∧ (x = none → ∀ n, S n → findZone s r n = none)

variable {fuel : Nat} {w : Walk} {S T : Nat → Prop}

theorem Exhausts.mono {fuel' : Nat} (h : Exhausts P s r fuel w T) (hl : fuel ≤ fuel') (hS : ∀ n, S n → T n) :
  Exhausts P s r fuel' w S := by
  intro k hk
  obtain ⟨x,hx,hn⟩ := h k (Nat.le_trans hl hk)
  exact ⟨x,hx,fun he n hs => hn he n (hS n hs)⟩

theorem exhausts_next (T : Nat → Prop) (hx : r.exact = false) (hn : w.next P = none → ∀ n, S n → n = w.node)
  (hw : ∀ w', w.next P = some w' → Exhausts P s r fuel w' T ∧ ∀ n, S n → n = w.node ∨ T n) :
  Exhausts P s r (fuel+1) w S := by
  intro k hk
  obtain ⟨k,rfl⟩ := Nat.exists_eq_add_of_le' (Nat.le_trans (Nat.le_add_left 1 fuel) hk)
  rw [search]
  cases hz : findZone s r w.node with
  | some b => exact ⟨_,rfl,fun h => by cases h⟩
  | none =>
    simp only [hx,Bool.false_eq_true,if_false]
    cases he : w.next P with
    | none => exact ⟨_,rfl,fun _ n hs => hn he n hs ▸ hz⟩
    | some w' =>
      obtain ⟨x,hs,ha⟩ := (hw w' he).1 k (Nat.le_of_succ_le_succ hk)
      refine ⟨x,hs,fun ho n hS => ?_⟩
      obtain rfl | hT := (hw w' he).2 n hS
      · exact hz
      · exact ha ho n hT

theorem cycle_exhausts (hx : r.exact = false) (hc : ∀ n, mask n = true → n < maxNumnodes) (hf : mask f = true)
  {retry : Nat} (ho : Walk.fallBack P ⟨0,0,mask,retry⟩ = none → ∀ n, ¬S n)
  (hk : ∀ w', Walk.fallBack P ⟨0,0,mask,retry⟩ = some w' → Exhausts P s r fuel w' S) (d : Nat)
  (hm : mask m = true) (hd : distance m f ≤ d) :
  Exhausts P s r (fuel+d) ⟨m,f,mask,retry⟩ fun n => mask n = true ∧ Ahead m f n ∨ S n := by
  induction d generalizing m with
  | zero =>
    have := hc m hm
    unfold distance at hd
    split_ifs at hd <;> omega
  | succ d ih =>
    obtain ⟨hl,hh,hi⟩ := succNode_spec hc hm hf
    have hb : Walk.next P ⟨m,f,mask,retry⟩ = if succNode m mask = f then Walk.fallBack P ⟨0,0,mask,retry⟩
        else some ⟨succNode m mask,f,mask,retry⟩ := by
      simp only [Walk.next,hm,Bool.true_eq_false,if_false]
      rfl
    by_cases hs : succNode m mask = f
    · rw [if_pos hs] at hb
      have hg : ∀ n, mask n = true → Ahead m f n → n = m := fun n hn ha =>
        (hh n hn ha).resolve_right fun hp => hp.1 hs
      refine exhausts_next S hx (fun he n hn => ?_) fun w' he => ⟨?_,fun n hn => ?_⟩
      · exact hn.elim (fun hn => hg n hn.1 hn.2) fun hn => absurd hn (ho (hb ▸ he) n)
      · exact (hk w' (hb ▸ he)).mono (Nat.le_add_right _ _) fun _ hn => hn
      · exact hn.imp_left fun hn => hg n hn.1 hn.2
    · rw [if_neg hs] at hb
      refine exhausts_next (fun n => mask n = true ∧ Ahead (succNode m mask) f n ∨ S n) hx
        (fun he => ?_) fun w' he => ?_
      · rw [hb] at he
        cases he
      · rw [hb] at he
        cases he
        refine ⟨ih hl (Nat.le_of_lt_succ (Nat.lt_of_lt_of_le (hi hs) hd)),fun n hn => ?_⟩
        obtain ⟨hn,ha⟩ | hn := hn
        · exact (hh n hn ha).imp_right fun ha => .inl ⟨hn,ha.2⟩
        · exact .inr (.inr hn)

theorem ahead_self (f n : Nat) : Ahead f f n := by
  rw [Ahead,if_neg (Nat.lt_irrefl f)]
  exact Nat.lt_or_ge n f |>.symm

theorem distance_self (f : Nat) : distance f f = maxNumnodes := by
  rw [distance,if_neg (Nat.lt_irrefl f),Nat.add_sub_cancel_left]

section

variable (hx : r.exact = false) (hon : ∀ n, P.nodeOnline n = true → n < maxNumnodes)

include hon

theorem fallBack_none (h : Walk.fallBack P ⟨m,f,mask,0⟩ = none) (hn : P.nodeOnline n = true) : mask n = true := by
  simp only [Walk.fallBack,ne_eq,not_true_eq_false,if_false,ite_eq_left_iff,reduceCtorEq,imp_false,not_not] at h
  by_contra hm
  have hs : (P.nodeOnline n && !mask n) = true := by
    rw [hn,Bool.eq_false_of_not_eq_true hm]
    rfl
  exact Nat.not_lt.mpr h (Nat.lt_of_le_of_lt (@firstNode_le _ n (hon n hn) hs) (hon n hn))

include hx

theorem fallBack_exhausts (h : Walk.fallBack P ⟨m,f,mask,0⟩ = some w) :
  Exhausts P s r maxNumnodes w fun n => P.nodeOnline n = true ∧ mask n = false := by
  simp only [Walk.fallBack,ne_eq,not_true_eq_false,if_false] at h
  split_ifs at h with hl
  cases h
  have hm := firstNode_set (Nat.lt_of_not_le hl)
  refine (cycle_exhausts (S := fun _ => False) hx (fun n hn => ?_) hm (fun _ _ => id) (fun w' he => ?_)
    maxNumnodes hm (Nat.le_of_eq (distance_self _))).mono (Nat.le_of_eq (Nat.zero_add _)) fun n hn => ?_
  · exact hon n (Bool.and_eq_true_iff.mp hn).1
  · cases he
  · exact .inl ⟨by simp [hn.1,hn.2],ahead_self _ n⟩

theorem mask_exhausts (ha : ∀ n, mask n = true → n < maxNumnodes) (hf : mask f = true) :
  Exhausts P s r (maxNumnodes+maxNumnodes) ⟨f,f,mask,0⟩ fun n => P.nodeOnline n = true := by
  refine (cycle_exhausts hx ha hf (fun h n hn => ?_) (fun w h => fallBack_exhausts hx hon h) maxNumnodes hf
    (Nat.le_of_eq (distance_self f))).mono le_rfl fun n hn => ?_
  · rw [fallBack_none hon h hn.1] at hn
    cases hn.2
  · cases hm : mask n with
    | true => exact .inl ⟨rfl,ahead_self f n⟩
    | false => exact .inr ⟨hn,rfl⟩

theorem walk_exhausts (ha : ∀ n, mask n = true → n < maxNumnodes) (m : Nat) :
  Exhausts P s r (maxNumnodes+maxNumnodes+1) ⟨m,m,mask,0⟩ fun n => P.nodeOnline n = true := by
  by_cases hm : mask m = true
  · exact (mask_exhausts hx hon ha hm).mono (Nat.le_succ _) fun _ hn => hn
  have hb : Walk.next P ⟨m,m,mask,0⟩ = if firstNode mask < maxNumnodes then
      some ⟨firstNode mask,firstNode mask,mask,0⟩ else Walk.fallBack P ⟨0,0,mask,0⟩ := by
    simp only [Walk.next,Bool.eq_false_of_not_eq_true hm,if_true]
    rfl
  by_cases hl : firstNode mask < maxNumnodes
  · rw [if_pos hl] at hb
    refine exhausts_next (fun n => P.nodeOnline n = true) hx (fun he => ?_) fun w' he => ?_
    · rw [hb] at he
      cases he
    · rw [hb] at he
      cases he
      exact ⟨mask_exhausts hx hon ha (firstNode_set hl),fun n hn => .inr hn⟩
  · -- an empty affinity mask: the first node of the walk is followed by the online map
    rw [if_neg hl] at hb
    have hc : ∀ n, P.nodeOnline n = true → mask n = false := fun n hn =>
      Bool.eq_false_of_not_eq_true fun hm => hl (Nat.lt_of_le_of_lt (firstNode_le (hon n hn) hm) (hon n hn))
    refine exhausts_next (fun n => P.nodeOnline n = true) hx (fun he n hn => ?_) fun w' he =>
      ⟨(fallBack_exhausts hx hon (hb ▸ he)).mono
      (Nat.le_add_left _ _) fun n hn => ⟨hn,hc n hn⟩,fun n hn => .inr hn⟩
    have := hc n hn
    rw [fallBack_none hon (hb ▸ he : Walk.fallBack P ⟨0,0,mask,0⟩ = none) hn] at this
    cases this

end

theorem Inv.enough (hi : Inv P s) {n z k h : Nat} (hh : h ∈ s.heap n z k) (hk : r.order ≤ k) :
  Enough s n z (2^r.order) := by
  have hc := hi.lists.chunk _ _ _ _ hh
  have hf := hi.freeState_of_listed hh (mem_head h k)
  have hn := hi.counts.nodes h hf
  rw [(hc.home h (mem_head h k)).2.1] at hn
  obtain ⟨a,ha⟩ := isSome_iff_exists.mp hn
  refine ⟨a,ha,?_⟩
  rw [hi.counts.avail n a z ha]
  have hs : {m | Mem h k m} ⊆ {m | FreeState s m ∧ P.nid m = n ∧ m.log2 = z} := fun m hm =>
    ⟨hi.freeState_of_listed hh hm,(hc.home m hm).2⟩
  have hl := Set.ncard_le_ncard hs (hi.counts.finite.subset fun m hm => hm.1)
  rw [ncard_block] at hl
  exact_mod_cast Nat.le_trans (Nat.pow_le_pow_right (Nat.two_pos) hk) hl

theorem findZone_none (hi : Inv P s) (h : findZone s r n = none) {z k : Nat} (hl : r.zoneLo ≤ z)
  (hh : z ≤ r.zoneHi) (hk : r.order ≤ k) : s.heap n z k = [] := by
  refine eq_nil_iff_forall_not_mem.mpr fun x hx => ?_
  have hz := findSome?_eq_none_iff.mp h z (mem_reverse.mpr (mem_range'_1.mpr (by omega)))
  rw [if_pos (hi.enough hx hk),map_eq_none_iff] at hz
  have he := (hi.lists.chunk _ _ _ _ hx).order_le
  have := find?_eq_none.mp hz k (mem_range'_1.mpr (by omega))
  simp [ne_nil_of_mem hx] at this

theorem allocation_complete (hi : Inv P s) (hon : ∀ n, P.nodeOnline n = true → n < maxNumnodes)
  (hd : ∀ d, r.domain = some d → ∀ n, d.nodeAffinity n = true → n < maxNumnodes)
  (hx : r.exactNode = false) (ht : P.optTmem = false) (fuel : Nat) (hf : 2*maxNumnodes+1 ≤ fuel) :
  ∃ s' x, allocHeapPages P s r fuel = some (s',x) ∧
    (x = none → ∀ n, P.nodeOnline n = true → ∀ z, r.zoneLo ≤ z → z ≤ r.zoneHi → ∀ k, r.order ≤ k →
      s.heap n z k = []) := by
  have hb : r.exact = false := by rw [Request.exact,hx,Bool.false_and]
  have hm : ∀ n, r.nodemask P n = true → n < maxNumnodes := by
    cases he : r.domain with
    | none => simpa only [Request.nodemask,he] using hon
    | some d => simpa only [Request.nodemask,he] using hd d he
  obtain ⟨x,hs,hc⟩ := walk_exhausts (s := s) hb hon hm (r.startNode P s) fuel (by omega)
  obtain ⟨⟨s',y⟩,ha⟩ := isSome_iff_exists.mp (allocHeapPages_isSome hi (isSome_iff_exists.mpr ⟨x,hs⟩))
  refine ⟨s',y,ha,fun hy n hn z hl hg k hk => ?_⟩
  rw [allocHeapPages] at ha
  split_ifs at ha with ho hp
  · refine eq_nil_iff_forall_not_mem.mpr fun h hh => ?_
    have := (hi.lists.chunk _ _ _ _ hh).order_le
    omega
  · exact absurd hp.1 (by rw [ht]; exact Bool.false_ne_true)
  · rw [Request.walk,hs] at ha
    cases x with
    | none => exact findZone_none hi (hc rfl n hn) hl hg hk
    | some b =>
      obtain ⟨hj,hq⟩ := search_spec _ _ hs
      obtain ⟨t,pg,ht,-⟩ := takeBlock_spec hi hj hq
      cases ht.symm.trans ha
      cases hy

theorem split_pair_exhausted : ∃ s', allocHeapPages oneNode afterAlloc {onePage with order := 1} 129 = some (s',none) ∧
    ∀ n, oneNode.nodeOnline n = true → ∀ z, 0 ≤ z → z ≤ 2 → ∀ k, 1 ≤ k → afterAlloc.heap n z k = [] := by
  obtain ⟨s',x,ha,hx⟩ := allocation_complete (r := {onePage with order := 1})
    (inv_of_reach bootHeap_empty afterAlloc_reach)
    (fun n hn => (beq_iff_eq.mp hn : n = 0) ▸ by decide) (fun d hd => nomatch (hd : none = some d)) rfl rfl 129
    (by decide)
  have hn : (allocHeapPages oneNode afterAlloc {onePage with order := 1} 129).map Prod.snd = some none := by
    decide +kernel
  rw [ha] at hn
  obtain rfl : x = none := some.inj hn
  exact ⟨s',ha,hx rfl⟩

end PageAlloc
