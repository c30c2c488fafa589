import PMigrate.Core.Census
import PMigrate.Hypervisor.PopulateOnDemand

namespace PopulateOnDemand
open Census Function List Option Nat

structure Accounts (s : State) (owed : Int) : Prop where
  finite : (Marked (isPod s)).Finite
  entries : s.entryCount+owed = census (isPod s)
  cached : s.count = s.single.length+512*s.super.length

structure SameAccounts (s s' : State) : Prop where
  pod : isPod s' = isPod s
  entryCount : s'.entryCount = s.entryCount
  cached : s.count = s.single.length+512*s.super.length → s'.count = s'.single.length+512*s'.super.length

variable {s s' : State} {k : Int} {g order : Nat} {m : Option Nat} {t : P2mType}

section
variable {n : Nat}

theorem SameAccounts.accounts (h : SameAccounts s s') (ha : Accounts s k) : Accounts s' k where
  finite := h.pod ▸ ha.finite
  entries := by rw [h.pod,h.entryCount,ha.entries]
  cached := h.cached ha.cached

theorem SameAccounts.refl : SameAccounts s s := ⟨rfl,rfl,id⟩

theorem SameAccounts.trans {s'' : State} (h : SameAccounts s s') (h' : SameAccounts s' s'') : SameAccounts s s'' :=
  ⟨h'.pod.trans h.pod,h'.entryCount.trans h.entryCount,h'.cached ∘ h.cached⟩

theorem isPod_set : isPod (setP2mEntry s g m order t) = fill (isPod s) g (2^order)
  (decide (t = .populateOnDemand)) := by
  funext x
  simp only [isPod,setP2mEntry,fill]
  split <;> rfl

theorem Accounts.set (h : Accounts s k) (g : Nat) (m : Option Nat) (order : Nat) (t : P2mType) :
  Accounts (setP2mEntry s g m order t)
    (k-tally (isPod s) g (2^order)+(2^order*(decide (t = .populateOnDemand)).toNat : Nat)) := by
  obtain ⟨hf,hc⟩ := census_fill h.finite g (2^order) (decide (t = .populateOnDemand))
  refine ⟨isPod_set ▸ hf,?_,h.cached⟩
  have he := h.entries
  rw [isPod_set]
  change s.entryCount+_ = _
  omega

theorem Accounts.setEntryCount (h : Accounts s k) (x : Int) : Accounts {s with entryCount := x} (k+s.entryCount-x) := by
  refine ⟨h.finite,?_,h.cached⟩
  have he := h.entries
  change x+(k+s.entryCount-x) = census (isPod s)
  omega

theorem Accounts.of_eq {k' : Int} (h : Accounts s k) (hk : k = k') : Accounts s k' := hk ▸ h

theorem Accounts.credit (h : Accounts s k) (x : Int) : Accounts {s with entryCount := s.entryCount+x} (k-x) :=
  (h.setEntryCount _).of_eq (by omega)

theorem setM2p_same {mfn : Nat} {gfn : Option Nat} : SameAccounts s (setM2p s mfn gfn) := ⟨rfl,rfl,id⟩

theorem recordM2p_same (mfn g n : Nat) : SameAccounts s (recordM2p s mfn g n) := ⟨rfl,rfl,id⟩

end

section
variable {mfn : Nat}

theorem cacheAdd_same (h : cacheAdd s mfn order = some s') : SameAccounts s s' := by
  unfold cacheAdd at h
  split at h
  · cases h
    refine ⟨rfl,rfl,fun hc => ?_⟩
    simp only [length_append,length_singleton]
    push_cast
    omega
  · cases h
    refine ⟨rfl,rfl,fun hc => ?_⟩
    simp only [length_append,length_singleton]
    push_cast
    omega
  · exact nomatch h

theorem breakSuperpage_same (h : breakSuperpage s = some s') : SameAccounts s s' ∧ s'.count = s.count := by
  rw [breakSuperpage] at h
  split at h
  · exact nomatch h
  rename_i p rest hs
  cases h
  refine ⟨⟨rfl,rfl,fun hc => ?_⟩,rfl⟩
  rw [hs] at hc
  simp only [length_append,length_map,length_range,superpagePages,length_cons] at hc ⊢
  push_cast at hc ⊢
  omega

variable {env : Nat → Round} {n p : Nat}

theorem takeSuper_same (h : takeSuper s = some (s',p)) : SameAccounts s s' ∧ s'.count = s.count-512 := by
  rw [takeSuper] at h
  split at h
  · exact nomatch h
  rename_i q rest hs
  cases h
  refine ⟨⟨rfl,rfl,fun hc => ?_⟩,rfl⟩
  rw [hs] at hc
  simp only [length_cons] at hc ⊢
  push_cast at hc ⊢
  omega

theorem takeSingle_same (h : takeSingle s = some (s',p)) : SameAccounts s s' ∧ s'.count = s.count-1 := by
  rw [takeSingle] at h
  split at h
  · exact nomatch h
  rename_i q rest hs
  cases h
  refine ⟨⟨rfl,rfl,fun hc => ?_⟩,rfl⟩
  rw [hs] at hc
  simp only [length_cons] at hc ⊢
  push_cast at hc ⊢
  omega

theorem cacheGet_same {p : Option Nat} (h : cacheGet s order = some (s',p)) :
  SameAccounts s s' ∧ (p = none ∨ s'.count = s.count-2^order) := by
  rw [cacheGet] at h
  split at h
  · cases h
    exact ⟨.refl,Or.inl rfl⟩
  obtain ⟨s1,hb,he⟩ := bind_eq_some_iff.mp h
  have hf : SameAccounts s s1 ∧ s1.count = s.count := by
    split at hb
    · exact breakSuperpage_same hb
    · cases hb
      exact ⟨.refl,rfl⟩
  split at he
  · obtain ⟨r,ht,hr⟩ := map_eq_some_iff.mp he
    cases hr
    have hs := takeSuper_same ht
    exact ⟨hf.1.trans hs.1,Or.inr (hs.2.trans (by rw [hf.2]; rfl))⟩
  · obtain ⟨r,ht,hr⟩ := map_eq_some_iff.mp he
    cases hr
    have hs := takeSingle_same ht
    exact ⟨hf.1.trans hs.1,Or.inr (hs.2.trans (by rw [hf.2]; rfl))⟩
  · exact nomatch he

variable {r : State × Rc} {preemptible : Bool} {target : Int}

theorem growCache_same (h : growCache target preemptible env n s = some r) : SameAccounts s r.1 := by
  induction n generalizing s with
  | zero =>
    cases h
    exact .refl
  | succ n ih =>
    rw [growCache] at h
    split at h
    · split at h
      · cases h
        exact .refl
      obtain ⟨s1,ha,hr⟩ := bind_eq_some_iff.mp h
      have hs := cacheAdd_same ha
      split at hr
      · cases hr
        exact hs
      · exact hs.trans (ih hr)
    · cases h
      exact .refl

theorem shrinkCache_same (h : shrinkCache target preemptible env n s = some r) : SameAccounts s r.1 := by
  induction n generalizing s with
  | zero =>
    cases h
    exact .refl
  | succ n ih =>
    rw [shrinkCache] at h
    split at h
    · split at h
      · rename_i s1 p hg
        have hs := (cacheGet_same hg).1
        split at h
        · cases h
          exact hs
        split at h
        · cases h
          exact hs
        · exact hs.trans (ih h)
      · exact nomatch h
    · cases h
      exact .refl

theorem setCacheTarget_same {env : CacheEnv} (h : setCacheTarget s target preemptible env = some r) :
  SameAccounts s r.1 := by
  obtain ⟨q,hg,hr⟩ := bind_eq_some_iff.mp h
  have hs := growCache_same hg
  split at hr
  · exact hs.trans (shrinkCache_same hr)
  · cases hr
    exact hs

theorem setMemTarget_same {target totPages : Nat} {env : CacheEnv}
  (h : setMemTarget s target totPages env = some r) : SameAccounts s r.1 := by
  rw [setMemTarget] at h
  split at h
  · cases h
    exact .refl
  split at h
  · cases h
    exact .refl
  · exact setCacheTarget_same h

end

theorem isPod_set_single : isPod (setP2mEntry s g m 0 t) = update (isPod s) g (decide (t = .populateOnDemand)) := by
  rw [isPod_set]
  exact fill_one

theorem Accounts.set_single (h : Accounts s k) (g : Nat) (m : Option Nat) (t : P2mType) :
  Accounts (setP2mEntry s g m 0 t) (k-(isPod s g).toNat+(decide (t = .populateOnDemand)).toNat) := by
  refine (h.set g m 0 t).of_eq ?_
  rw [pow_zero,tally_one,one_mul]

theorem isRam_not_pod (h : t.isRam = true) : t ≠ .populateOnDemand := by
  rintro rfl
  exact nomatch h

theorem not_pod_of_isRam (h : (s.p2m g).type.isRam = true) : isPod s g = false :=
  decide_eq_false (isRam_not_pod h)

section
variable {env : ZeroEnv} {cs kept : List Candidate}

def gfnsOf (cs : List Candidate) : List Nat := cs.map Candidate.gfn

theorem removeZero_spec (h : Accounts s k) (hn : (gfnsOf cs).Nodup)
  (hf : ∀ c ∈ cs, c.type.isRam = true ∧ isPod s c.gfn = false) (he : removeZero env cs s = (s',kept)) :
  Accounts s' (k+kept.length) ∧ kept.Sublist cs ∧ (∀ c ∈ kept, isPod s' c.gfn = true) ∧
    ∀ g, g ∉ gfnsOf cs → isPod s' g = isPod s g := by
  induction cs generalizing s k s' kept with
  | nil =>
    cases he
    exact ⟨h.of_eq (by simp),.refl _,fun c hc => absurd hc not_mem_nil,fun _ _ => rfl⟩
  | cons c cs ih =>
    obtain ⟨hc,hn'⟩ := nodup_cons.mp hn
    have hc' : c.type.isRam = true ∧ isPod s c.gfn = false := hf c mem_cons_self
    have ht : ∀ c' ∈ cs, c'.gfn ≠ c.gfn := fun c' hc' he =>
      hc (he ▸ mem_map_of_mem hc')
    have hr : ∀ {u : State}, (∀ g, g ≠ c.gfn → isPod u g = isPod s g) →
        ∀ c' ∈ cs, c'.type.isRam = true ∧ isPod u c'.gfn = false := fun hu c' hm =>
      ⟨(hf c' (mem_cons_of_mem c hm)).1,(hu _ (ht c' hm)).trans (hf c' (mem_cons_of_mem c hm)).2⟩
    rw [removeZero] at he
    split at he
    · obtain ⟨ha,hd,hp,ho⟩ := ih h hn' (hr fun _ _ => rfl) he
      exact ⟨ha,hd.cons c,hp,fun g hg => ho g fun hm => hg (mem_cons_of_mem _ hm)⟩
    have hi := h.set_single c.gfn (some populateOnDemandMfn) .populateOnDemand
    have hs : ∀ g, g ≠ c.gfn →
        isPod (setP2mEntry s c.gfn (some populateOnDemandMfn) 0 .populateOnDemand) g = isPod s g := by
      intro g hg
      rw [isPod_set_single,update_of_ne hg]
    have hl : isPod (setP2mEntry s c.gfn (some populateOnDemandMfn) 0 .populateOnDemand) c.gfn = true := by
      rw [isPod_set_single,update_self]
      rfl
    generalize setP2mEntry s c.gfn (some populateOnDemandMfn) 0 .populateOnDemand = s1 at *
    rw [hc'.2] at hi
    split at he
    · have hb := hi.set_single c.gfn (some c.mfn) c.type
      have hsa' : ∀ g, g ≠ c.gfn → isPod (setP2mEntry s1 c.gfn (some c.mfn) 0 c.type) g = isPod s g := by
        intro g hg
        rw [isPod_set_single,update_of_ne hg]
        exact hs g hg
      rw [hl,decide_eq_false (isRam_not_pod hc'.1)] at hb
      have hba' : Accounts _ k := hb.of_eq (by simp)
      obtain ⟨ha,hd,hp,ho⟩ := ih hba' hn' (hr hsa') he
      refine ⟨ha,hd.cons c,hp,fun g hg => ?_⟩
      have hk : g ≠ c.gfn := fun hx => hg (hx ▸ mem_cons_self)
      exact (ho g fun hm => hg (mem_cons_of_mem _ hm)).trans (hsa' g hk)
    cases he
    obtain ⟨ha,hd,hp,ho⟩ := ih hi hn' (hr hs) rfl
    refine ⟨ha.of_eq ?_,hd.cons_cons c,fun c' hm => ?_,fun g hg => ?_⟩
    · simp only [Bool.toNat_false,decide_true,Bool.toNat_true,length_cons]
      push_cast
      omega
    · rcases mem_cons.mp hm with rfl | hm
      · exact (ho _ hc).trans hl
      · exact hp c' hm
    · have hk : g ≠ c.gfn := fun hx => hg (hx ▸ mem_cons_self)
      exact (ho g fun hm => hg (mem_cons_of_mem _ hm)).trans (hs g hk)

theorem reclaimZero_spec (h : Accounts s (k+cs.length)) (hn : (gfnsOf cs).Nodup)
  (hf : ∀ c ∈ cs, c.type.isRam = true) (hp : ∀ c ∈ cs, isPod s c.gfn = true)
  (he : reclaimZero env cs s = some s') : Accounts s' k ∧ ∀ g, g ∉ gfnsOf cs → isPod s' g = isPod s g := by
  induction cs generalizing s with
  | nil =>
    cases he
    exact ⟨h.of_eq (by simp),fun _ _ => rfl⟩
  | cons c cs ih =>
    obtain ⟨hc,hn'⟩ := nodup_cons.mp hn
    have ht : ∀ c' ∈ cs, c'.gfn ≠ c.gfn := fun c' hc' he =>
      hc (he ▸ mem_map_of_mem hc')
    have hr' : ∀ c' ∈ cs, c'.type.isRam = true := fun c' hm => hf c' (mem_cons_of_mem c hm)
    rw [length_cons] at h
    rw [reclaimZero] at he
    split at he
    · have hb := h.set_single c.gfn (some c.mfn) c.type
      rw [hp c mem_cons_self,decide_eq_false (isRam_not_pod (hf c mem_cons_self))] at hb
      have hi : ∀ g, g ≠ c.gfn → isPod (setP2mEntry s c.gfn (some c.mfn) 0 c.type) g = isPod s g := by
        intro g hg
        rw [isPod_set_single,update_of_ne hg]
      have hba' : Accounts (setP2mEntry s c.gfn (some c.mfn) 0 c.type) (k+cs.length) := by
        refine hb.of_eq ?_
        simp only [Bool.toNat_true,Bool.toNat_false]
        push_cast
        omega
      obtain ⟨ha,ho⟩ := ih hba' hn' hr' (fun c' hm => (hi _ (ht c' hm)).trans (hp c' (mem_cons_of_mem c hm))) he
      refine ⟨ha,fun g hg => ?_⟩
      have hk : g ≠ c.gfn := fun hx => hg (hx ▸ mem_cons_self)
      exact (ho g fun hm => hg (mem_cons_of_mem _ hm)).trans (hi g hk)
    obtain ⟨s1,hd,hr⟩ := bind_eq_some_iff.mp he
    have hs := cacheAdd_same hd
    have hl := (hs.accounts h).credit 1
    obtain ⟨ha,ho⟩ := ih (hl.of_eq (by push_cast; omega)) hn' hr'
      (fun c' hm => (congrFun hs.pod _).trans (hp c' (mem_cons_of_mem c hm))) hr
    exact ⟨ha,fun g hg => (ho g fun hm => hg (mem_cons_of_mem _ hm)).trans (congrFun hs.pod g)⟩

theorem candidate_eq {g : Nat} {c : Candidate} (h : candidate s env g = some c) :
  c.gfn = g ∧ c.type.isRam = true ∧ isPod s g = false := by
  rw [candidate] at h
  split at h
  · rename_i hr
    rw [Bool.and_eq_true] at hr
    obtain ⟨m,-,rfl⟩ := map_eq_some_iff.mp h
    exact ⟨rfl,hr.1,not_pod_of_isRam hr.1⟩
  · exact nomatch h

theorem gfnsOf_candidates_sublist (s : State) (env : ZeroEnv) (gfns : List Nat) :
  (gfnsOf (gfns.filterMap (candidate s env))).Sublist gfns := by
  induction gfns with
  | nil => exact .slnil
  | cons g gs ih =>
    cases hc : candidate s env g with
    | none =>
      rw [filterMap_cons_none hc]
      exact ih.cons g
    | some c =>
      rw [filterMap_cons_some hc,gfnsOf,map_cons,(candidate_eq hc).1]
      exact ih.cons_cons g

structure Swept (s s' : State) : Prop where
  accounts : Accounts s' 0
  pod : ∀ g, isPod s g = true → isPod s' g = true

theorem Swept.refl (h : Accounts s 0) : Swept s s := ⟨h,fun _ => id⟩

theorem Swept.trans {s'' : State} (h : Swept s s') (h' : Swept s' s'') : Swept s s'' :=
  ⟨h'.accounts,fun g hg => h'.pod g (h.pod g hg)⟩

variable {gfns : List Nat}

variable (h : Accounts s 0)
include h

theorem zeroCheck_swept (hn : gfns.Nodup) (he : zeroCheck s env gfns = some s') : Swept s s' := by
  have hb : ∀ c ∈ gfns.filterMap (candidate s env), c.type.isRam = true ∧ isPod s c.gfn = false := by
    intro c hc
    obtain ⟨g,-,hg⟩ := mem_filterMap.mp hc
    obtain ⟨rfl,hi,hp⟩ := candidate_eq hg
    exact ⟨hi,hp⟩
  have hs := gfnsOf_candidates_sublist s env gfns
  obtain ⟨s1,kept,hr⟩ : ∃ s1 kept, removeZero env (gfns.filterMap (candidate s env)) s = (s1,kept) :=
    ⟨_,_,rfl⟩
  obtain ⟨ha,hk,hp,ho⟩ := removeZero_spec h (hn.sublist hs) hb hr
  rw [zeroCheck,hr] at he
  have hf : (gfnsOf kept).Sublist (gfnsOf (gfns.filterMap (candidate s env))) := hk.map _
  obtain ⟨ha',ho'⟩ := reclaimZero_spec ha ((hn.sublist hs).sublist hf) (fun c hc => (hb c (hk.subset hc)).1) hp he
  refine ⟨ha',fun g hg => ?_⟩
  have hd : g ∉ gfnsOf (gfns.filterMap (candidate s env)) := by
    intro hm
    obtain ⟨c,hc,rfl⟩ := mem_map.mp hm
    exact Bool.false_ne_true ((hb c hc).2.symm.trans hg)
  rw [ho' g fun hm => hd (hf.subset hm),ho g hd]
  exact hg

variable {i limit n : Nat}

omit h in
theorem allBelow_iff {p : Nat → Bool} : allBelow n p = true ↔ ∀ i, i < n → p i = true := by
  simp [allBelow]

theorem zeroCheckSuperpage_swept {gfn : Nat} (he : zeroCheckSuperpage s env gfn = some s') : Swept s s' := by
  rw [zeroCheckSuperpage] at he
  split at he
  · cases he
    exact .refl h
  split at he
  · cases he
    exact .refl h
  rename_i mfn0 hl
  split at he
  · cases he
    exact .refl h
  rename_i ha
  rw [Bool.not_eq_true',Bool.not_eq_false] at ha
  have hc : ∀ i, i < 512 → (s.p2m (gfn+i)).type.isRam = true := by
    intro i hi
    have hi := allBelow_iff.mp ha i hi
    simp only [reclaimable,Bool.and_eq_true] at hi
    exact hi.1.1.1
  have hn : tally (isPod s) gfn (2^9) = 0 :=
    (tally_of_all (b := false) fun i hi => not_pod_of_isRam (hc i hi)).trans (mul_zero _)
  split at he
  · cases he
    exact .refl h
  have hk := h.set gfn (some populateOnDemandMfn) 9 .populateOnDemand
  rw [hn] at hk
  have hm : ∀ g, isPod s g = true → g < gfn ∨ gfn+512 ≤ g := by
    intro g hg
    by_contra hx
    rw [not_or,not_lt,not_le] at hx
    have hr := not_pod_of_isRam (hc (g-gfn) (by omega))
    rw [Nat.add_sub_cancel' hx.1] at hr
    exact Bool.false_ne_true (hr.symm.trans hg)
  split at he
  · obtain ⟨s2,hd,rfl⟩ := map_eq_some_iff.mp he
    have hs := cacheAdd_same hd
    refine ⟨((hs.accounts hk).credit _).of_eq (by simp [superpagePages]),fun g hg => ?_⟩
    change isPod s2 g = true
    rw [hs.pod,isPod_set,fill]
    split
    · rfl
    · exact hg
  cases he
  have hf : tally (isPod (setP2mEntry s gfn (some populateOnDemandMfn) 9 .populateOnDemand)) gfn (2^9) = 512 := by
    refine (tally_of_all (b := true) fun i hi => ?_).trans rfl
    rw [isPod_set]
    exact if_pos (by omega)
  have hb := hk.set gfn (some mfn0) 9 (s.p2m gfn).type
  have hra0 : (s.p2m gfn).type.isRam = true := hc 0 (by decide)
  rw [hf,decide_eq_false (isRam_not_pod hra0)] at hb
  refine ⟨hb.of_eq (by simp),fun g hg => ?_⟩
  rw [isPod_set,isPod_set,fill,if_neg (by have := hm g hg; omega),fill,if_neg (by have := hm g hg; omega)]
  exact hg

theorem sweepSuperLoop_swept {r : State × Nat} (he : sweepSuperLoop env limit n s = some r) : Swept s r.1 := by
  induction n generalizing s with
  | zero =>
    cases he
    exact .refl h
  | succ n ih =>
    obtain ⟨s1,hc,hr⟩ := bind_eq_some_iff.mp he
    have hs := zeroCheckSuperpage_swept h hc
    split at hr
    · cases hr
      exact hs
    · exact hs.trans (ih hs.accounts hr)

theorem emergencySweepSuper_swept (he : emergencySweepSuper s env = some s') : Swept s s' := by
  obtain ⟨r,hl,rfl⟩ := map_eq_some_iff.mp he
  have hs := sweepSuperLoop_swept h hl
  generalize r.2-superpagePages = next
  have ha : SameAccounts r.1 {r.1 with reclaimSuper := next} := ⟨rfl,rfl,id⟩
  exact ⟨ha.accounts hs.accounts,hs.pod⟩

omit h in
theorem collect_spec (hn : gfns.Nodup) (hl : ∀ g ∈ gfns, i+1 < g) :
  (collect s gfns (i+1)).Nodup ∧ ∀ g ∈ collect s gfns (i+1), i < g := by
  rw [collect]
  split
  · refine ⟨hn.append (nodup_singleton _) fun g hg hg' => ?_,fun g hg => ?_⟩
    · exact lt_irrefl _ (mem_singleton.mp hg' ▸ hl g hg)
    rcases mem_append.mp hg with hg | hg
    · exact lt_of_succ_lt (hl g hg)
    · exact mem_singleton.mp hg ▸ lt_succ_self i
  · exact ⟨hn,fun g hg => lt_of_succ_lt (hl g hg)⟩

theorem sweepLoop_swept {r : State × List Nat × Nat} (ho : gfns.Nodup) (hl : ∀ g ∈ gfns, i < g)
  (he : sweepLoop env limit i s gfns = some r) : Swept s r.1 ∧ r.2.1.Nodup := by
  induction i generalizing s gfns with
  | zero =>
    cases he
    exact ⟨.refl h,ho⟩
  | succ i ih =>
    rw [sweepLoop] at he
    obtain ⟨⟨s1,gfns1⟩,hb,hr⟩ := bind_eq_some_iff.mp he
    have ha := collect_spec (s := s) ho hl
    have ht : Swept s s1 ∧ gfns1.Nodup ∧ ∀ g ∈ gfns1, i < g := by
      split at hb
      · obtain ⟨s2,hc,hp⟩ := map_eq_some_iff.mp hb
        cases hp
        exact ⟨zeroCheck_swept h ha.1 hc,nodup_nil,fun g hg => absurd hg not_mem_nil⟩
      · cases hb
        exact ⟨.refl h,ha⟩
    split at hr
    · cases hr
      exact ⟨ht.1,ht.2.1⟩
    · obtain ⟨hs,hn⟩ := ih ht.1.accounts ht.2.1 ht.2.2 hr
      exact ⟨ht.1.trans hs,hn⟩

theorem emergencySweep_swept (he : emergencySweep s env = some s') : Swept s s' := by
  obtain ⟨r,ho,hr⟩ := bind_eq_some_iff.mp he
  obtain ⟨s1,hc,rfl⟩ := map_eq_some_iff.mp hr
  obtain ⟨hs,hn⟩ := sweepLoop_swept h nodup_nil (fun g hg => absurd hg not_mem_nil) ho
  have hl := hs.trans (zeroCheck_swept hs.accounts hn hc)
  have ha : SameAccounts s1 {s1 with reclaimSingle := r.2.2-1} := ⟨rfl,rfl,id⟩
  exact ⟨ha.accounts hl.accounts,hl.pod⟩

end

end PopulateOnDemand
