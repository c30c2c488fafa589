import PMigrate.Hypervisor.PodAccounting

namespace PopulateOnDemand
open Census Transition Option Nat List

variable {s s' : State} {gfn order : Nat}

section
variable {env : PopulateEnv}

theorem sweepIfLow_swept (h : Accounts s 0) (he : sweepIfLow s order env = some s') : Swept s s' := by
  rw [sweepIfLow] at he
  split at he
  · obtain ⟨s1,hs,hr⟩ := bind_eq_some_iff.mp he
    have hf : Swept s s1 := by
      split at hs
      · exact emergencySweepSuper_swept h hs
      · cases hs
        exact .refl h
    split at hr
    · exact hf.trans (emergencySweep_swept hf.accounts hr)
    · cases hr
      exact hf
  · cases he
    exact .refl h

theorem noteGuest_same {guest : Bool} : SameAccounts s (noteGuest s gfn guest) := by
  rw [noteGuest]
  split
  · exact ⟨rfl,rfl,id⟩
  · exact .refl

theorem tally_allPod (h : allPod s gfn order = true) : tally (isPod s) gfn (2^order) = 2^order := by
  refine (tally_of_all (b := true) fun i hi => ?_).trans (mul_one _)
  exact allBelow_iff.mp h i hi

theorem allPod_mono (h : allPod s gfn order = true) (hs : ∀ g, isPod s g = true → isPod s' g = true) :
  allPod s' gfn order = true :=
  allBelow_iff.mpr fun i hi => hs _ (allBelow_iff.mp h i hi)

theorem remark_accounts (h : Accounts s 0) (n : Nat) (hp : ∀ i, i < 2^n → isPod s (gfn+i) = true) :
  Accounts (setP2mEntry s gfn (some populateOnDemandMfn) n .populateOnDemand) 0 := by
  refine (h.set gfn (some populateOnDemandMfn) n .populateOnDemand).of_eq ?_
  rw [tally_of_all hp]
  simp

theorem splinter_accounts (h : Accounts s 0) (ho : ∀ i, i < 512 → isPod s (gfn+i) = true) :
  Accounts (splinter s gfn) 0 := by
  have hl : ∀ L : List Nat, (∀ i ∈ L, i < 512) → ∀ u : State, Accounts u 0 →
      (∀ i, i < 512 → isPod u (gfn+i) = true) → Accounts (L.foldl (fun s i =>
        setP2mEntry s (gfn+i) (some populateOnDemandMfn) 0 .populateOnDemand) u) 0 := by
    intro L
    induction L with
    | nil => exact fun _ u hu _ => hu
    | cons i L ih =>
      intro hL u hu hp
      refine ih (fun j hj => hL j (mem_cons_of_mem i hj)) _ ?_ fun j hj => ?_
      · refine remark_accounts hu 0 fun j hj => ?_
        have hj : j = 0 := by omega
        exact hj ▸ hp i (hL i mem_cons_self)
      rw [isPod_set,fill]
      split
      · rfl
      · exact hp j hj
  exact hl _ (fun i hi => mem_range.mp hi) s h ho

theorem demandPopulate_accounts {guest : Bool} (h : Accounts s 0) (hb : allPod s (align gfn order) order = true)
  (he : demandPopulate s gfn order guest env = some s') : Accounts s' 0 := by
  rw [demandPopulate] at he
  split at he
  · rename_i ho
    cases he
    refine remark_accounts h 9 fun i hi => allBelow_iff.mp (ho ▸ hb) i ?_
    exact lt_trans hi (by decide)
  obtain ⟨s1,hw,hr⟩ := bind_eq_some_iff.mp he
  have hs := sweepIfLow_swept h hw
  have ha : Accounts (noteGuest s1 gfn guest) 0 := noteGuest_same.accounts hs.accounts
  have hp : allPod (noteGuest s1 gfn guest) (align gfn order) order = true :=
    allPod_mono hb fun g hg => (congrFun noteGuest_same.pod g).trans (hs.pod g hg)
  dsimp only at hr
  generalize noteGuest s1 gfn guest = s2 at ha hp hr
  split at hr
  · cases hr
    exact ha
  obtain ⟨⟨s3,page⟩,hf,hr⟩ := bind_eq_some_iff.mp hr
  have hc := (cacheGet_same hf).1
  have ha3 := hc.accounts ha
  have hp3 : allPod s3 (align gfn order) order = true :=
    allPod_mono hp fun g hg => (congrFun hc.pod g).trans hg
  cases page with
  | none =>
    dsimp only at hr
    split at hr
    · exact nomatch hr
    rename_i ho
    obtain rfl := Option.some.inj hr
    rw [not_not] at ho
    subst ho
    exact splinter_accounts ha3 fun i hi => allBelow_iff.mp hp3 i (lt_of_lt_of_eq hi (by decide))
  | some mfn =>
    dsimp only at hr
    split at hr
    · exact nomatch hr
    split at hr
    · exact nomatch hr
    cases hr
    have hd := ha3.set (align gfn order) (some mfn) order .ramRw
    rw [tally_allPod hp3] at hd
    have hk := (recordM2p_same mfn (align gfn order) (2^order)).accounts hd
    refine (hk.credit (-2^order)).of_eq ?_
    have hz : (decide (P2mType.ramRw = .populateOnDemand)).toNat = 0 := rfl
    rw [hz,mul_zero]
    push_cast
    omega

end

section
variable {env : CacheEnv} {g n : Nat}

theorem clear_accounts (h : Accounts s 0) (g : Nat) (hp : isPod s g = true) :
  Accounts {setP2mEntry s g none 0 .invalid with entryCount := s.entryCount-1} 0 := by
  have hs := h.set_single g none .invalid
  rw [hp] at hs
  exact (hs.credit (-1)).of_eq rfl

theorem releaseRange_accounts {k : Tally} {r : State × Tally} (h : Accounts s 0)
  (he : releaseRange n g s k = some r) : Accounts r.1 0 := by
  induction n generalizing g s k with
  | zero =>
    cases he
    exact h
  | succ n ih =>
    rw [releaseRange] at he
    split at he
    · split at he
      · rename_i hp
        dsimp only at he
        split at he
        · exact nomatch he
        · exact ih (clear_accounts h g hp) he
      rename_i hp
      split at he
      · split at he
        · exact nomatch he
        obtain ⟨s1,ha,hr⟩ := bind_eq_some_iff.mp he
        have hs := h.set_single g none .invalid
        rw [Bool.eq_false_iff.mpr hp] at hs
        exact ih ((cacheAdd_same ha).accounts (setM2p_same.accounts hs)) hr
      · exact ih h he
    · cases he
      exact h

theorem entryCheck_same {rc : Rc} {r : State × Rc} (he : entryCheck s rc env = some r) : SameAccounts s r.1 := by
  rw [entryCheck] at he
  split at he
  · obtain ⟨q,ha,rfl⟩ := map_eq_some_iff.mp he
    have hs : SameAccounts s q.1 := setCacheTarget_same ha
    exact hs
  · cases he
    exact .refl

theorem tally_of_survey (h : (survey s g order).nonpod = 0) : tally (isPod s) g (2^order) = 2^order := by
  refine (tally_of_all (b := true) fun i hi => ?_).trans (mul_one _)
  have hn := countP_eq_zero.mp h i (mem_range.mpr hi)
  simpa using hn

theorem decreaseReservation_accounts {gpfn : Nat} {r : State × Rc} (h : Accounts s 0)
  (he : decreaseReservation s gpfn order env = some r) : Accounts r.1 0 := by
  rw [decreaseReservation] at he
  split at he
  · cases he
    exact h
  dsimp only at he
  split at he
  · cases he
    exact h
  split at he
  · rename_i ha
    split at he
    · exact nomatch he
    have hs := h.set gpfn none order .invalid
    rw [tally_of_survey ha] at hs
    refine (entryCheck_same he).accounts ((hs.credit (-2^order)).of_eq ?_)
    have hz : (decide (P2mType.invalid = .populateOnDemand)).toNat = 0 := rfl
    rw [hz,mul_zero]
    push_cast
    omega
  · obtain ⟨q,hl,hr⟩ := bind_eq_some_iff.mp he
    exact (entryCheck_same hr).accounts (releaseRange_accounts h hl)

end

section
variable {mfn : Nat} {t : P2mType} {env : FrameEnv}

theorem markPopulateOnDemand_accounts {r : State × Rc} (h : Accounts s 0)
  (he : markPopulateOnDemand s gfn order = some r) : Accounts r.1 0 := by
  rw [markPopulateOnDemand] at he
  split at he
  · cases he
    exact h
  dsimp only at he
  split at he
  · exact nomatch he
  cases he
  have hs := h.set gfn (some populateOnDemandMfn) order .populateOnDemand
  have ho : (decide (P2mType.populateOnDemand = .populateOnDemand)).toNat = 1 := rfl
  rw [ho,mul_one] at hs
  refine (hs.setEntryCount _).of_eq ?_
  change _-(tally (isPod s) gfn (2^order) : Int)+_+s.entryCount -
    (s.entryCount+2^order-(tally (isPod s) gfn (2^order) : Int)) = 0
  push_cast
  omega

theorem foldl_same {f : State → Nat → State} (hf : ∀ u i, SameAccounts u (f u i)) (L : List Nat)
  (s : State) : SameAccounts s (L.foldl f s) := by
  induction L generalizing s with
  | nil => exact .refl
  | cons i L ih => exact (hf s i).trans (ih (f s i))

theorem forgetM2p_same (env : FrameEnv) (gfn mfn : Nat) (s : State) (i : Nat) :
  SameAccounts s (forgetM2p env gfn mfn s i) := by
  rw [forgetM2p]
  split
  · exact setM2p_same
  · exact .refl

theorem removePage_accounts (h : Accounts s 0) (hp : ∀ i, i < 2^order → isPod s (gfn+i) = false) :
  Accounts (removePage s gfn mfn order env) 0 := by
  have hs := foldl_same (forgetM2p_same env gfn mfn) (List.range (2^order)) s
  rw [removePage]
  generalize (List.range (2^order)).foldl (forgetM2p env gfn mfn) s = s1 at *
  refine ((hs.accounts h).set gfn none order .invalid).of_eq ?_
  rw [hs.pod,tally_of_all hp]
  simp

theorem dropOld_same {n i : Nat} {r : State × Bool} (he : dropOld gfn n i s = r) : SameAccounts s r.1 := by
  induction n generalizing i s with
  | zero =>
    cases he
    exact .refl
  | succ n ih =>
    rw [dropOld] at he
    split at he
    · cases he
      exact .refl
    split at he
    · split at he
      · exact setM2p_same.trans (ih he)
      · exact ih he
    · exact ih he

structure Dropped (s s' : State) : Prop where
  accounts : Accounts s' 0
  pod : isPod s' = isPod s

theorem removeSingle_dropped {g : Nat} (h : Accounts s 0) (hr : (s.p2m g).type.isRam = true) :
  Dropped s (removePage s g mfn 0 env) := by
  have hn := not_pod_of_isRam hr
  refine ⟨removePage_accounts h fun i hi => ?_,?_⟩
  · have hi : i = 0 := by omega
    exact hi ▸ hn
  rw [removePage,isPod_set_single]
  have hs := foldl_same (forgetM2p_same env g mfn) (List.range (2^0)) s
  rw [hs.pod]
  refine (congrArg (Function.update (isPod s) g) ?_).trans (Function.update_eq_self g (isPod s))
  exact hn.symm

theorem dropAlias_dropped (env : FrameEnv) (gfn mfn : Nat) (h : Accounts s 0) (i : Nat) :
  Dropped s (dropAlias env gfn mfn s i) := by
  rw [dropAlias]
  split
  · split
    · exact ⟨h,rfl⟩
    split_ifs with hc
    · exact removeSingle_dropped h hc.2.1
    · exact ⟨h,rfl⟩
  · exact ⟨h,rfl⟩

theorem dropAliases_dropped (env : FrameEnv) (gfn mfn : Nat) (L : List Nat) (h : Accounts s 0) :
  Dropped s (L.foldl (dropAlias env gfn mfn) s) := by
  induction L generalizing s with
  | nil => exact ⟨h,rfl⟩
  | cons i L ih =>
    have hs := dropAlias_dropped env gfn mfn h i
    have hr := ih hs.accounts
    exact ⟨hr.accounts,hr.pod.trans hs.pod⟩

theorem physmapAddEntry_accounts {r : State × Rc} (h : Accounts s 0)
  (ho : env.valid mfn = true → t ≠ .populateOnDemand ∧ ∀ i, i < 2^order → isPod s (gfn+i) = false)
  (he : physmapAddEntry s gfn mfn order t env = some r) : Accounts r.1 0 := by
  rw [physmapAddEntry] at he
  have hold : SameAccounts s (dropOld gfn (2^order) 0 s).1 := dropOld_same rfl
  dsimp only at he
  generalize dropOld gfn (2^order) 0 s = q at he hold
  split at he
  · cases he
    exact hold.accounts h
  have hd := dropAliases_dropped env gfn mfn (List.range (2^order)) (hold.accounts h)
  generalize (List.range (2^order)).foldl (dropAlias env gfn mfn) q.1 = s1 at he hd
  have hp : isPod s1 = isPod s := hd.pod.trans hold.pod
  split at he
  · rename_i hv
    obtain ⟨ht,hn⟩ := ho hv
    have hs : Accounts (setP2mEntry s1 gfn (some mfn) order t) 0 := by
      refine (hd.accounts.set gfn (some mfn) order t).of_eq ?_
      rw [hp,tally_of_all hn,decide_eq_false ht]
      simp
    cases he
    split
    · exact hs
    · exact (recordM2p_same ..).accounts hs
  split at he
  · exact nomatch he
  cases he
  have hs := hd.accounts.set gfn none order .invalid
  rw [hp] at hs
  refine (hs.credit (-(tally (isPod s) gfn (2^order) : Nat))).of_eq ?_
  have hz : (decide (P2mType.invalid = .populateOnDemand)).toNat = 0 := rfl
  rw [hz,mul_zero]
  push_cast
  omega

end

def ClearRange (s : State) : Op → Prop
  | .add gfn mfn order t env => env.valid mfn = true → t ≠ .populateOnDemand ∧
      ∀ i, i < 2^order → isPod s (gfn+i) = false
  | .remove gfn _ order _ => ∀ i, i < 2^order → isPod s (gfn+i) = false
  | _ => True

-- The code counts in int and shifts an int 1 by the order: inside these bounds nothing wraps.
structure Allowed (s : State) (op : Op) : Prop where
  order : op.order < 31
  count : s.count < 2^30
  entryCount : s.entryCount < 2^30
  clear : ClearRange s op

theorem step_accounts {op : Op} (h : Accounts s 0) (ho : ClearRange s op) (he : step s op = some s') :
  Accounts s' 0 := by
  cases op with
  | mark gfn order =>
    obtain ⟨r,hr,rfl⟩ := map_eq_some_iff.mp he
    exact markPopulateOnDemand_accounts h hr
  | populate gfn order guest env =>
    rw [step] at he
    split at he
    · rename_i hc
      exact demandPopulate_accounts h hc.2 he
    · exact nomatch he
  | decrease gpfn order env =>
    obtain ⟨r,hr,rfl⟩ := map_eq_some_iff.mp he
    exact decreaseReservation_accounts h hr
  | setTarget target totPages env =>
    obtain ⟨r,hr,rfl⟩ := map_eq_some_iff.mp he
    exact (setMemTarget_same hr).accounts h
  | add gfn mfn order t env =>
    obtain ⟨r,hr,rfl⟩ := map_eq_some_iff.mp he
    exact physmapAddEntry_accounts h ho hr
  | remove gfn mfn order env =>
    cases he
    exact removePage_accounts h ho

theorem initial_accounts : Accounts initial 0 := by
  have hn : Marked (isPod initial) = ∅ := by
    ext g
    exact iff_of_false (fun h => nomatch (show false = true from h)) (Set.notMem_empty g)
  refine ⟨hn ▸ Set.finite_empty,?_,rfl⟩
  rw [census,hn,Set.ncard_empty]
  rfl

theorem pod_accounting (s : State) (hr : Reach step Allowed initial s) :
  (Marked (isPod s)).Finite ∧ s.entryCount = census (isPod s) ∧ s.count = s.single.length+512*s.super.length := by
  have h : Accounts s 0 :=
    reach_invariant (I := fun u => Accounts u 0) initial_accounts
    (fun u op v _ hu ho he => step_accounts hu ho.clear he) hr
  exact ⟨h.finite,(Int.add_zero _).symm.trans h.entries,h.cached⟩

def sampleRounds : CacheEnv := ⟨fun _ => ⟨some 1024,some 5,false,false⟩,fun _ => ⟨none,none,false,false⟩⟩

def sampleZero : ZeroEnv := ⟨fun _ => false,fun _ => false,fun _ => false,fun _ => false⟩

def populatedRun : List Op := [.mark 512 9,.mark 2000 0,.setTarget 512 0 sampleRounds,
    .populate 600 9 true ⟨sampleZero,sampleZero⟩]

def noPhysmap (s : State) (op : Op) : Bool :=
  decide (op.order < 31 ∧ s.count < 2^30 ∧ s.entryCount < 2^30) && match op with
    | .add .. | .remove .. => false
    | _ => true

theorem allowed_of_noPhysmap {op : Op} (h : noPhysmap s op = true) : Allowed s op := by
  obtain ⟨hb,hn⟩ := Bool.and_eq_true_iff.mp h
  obtain ⟨ho,hc,he⟩ := of_decide_eq_true hb
  refine ⟨ho,hc,he,?_⟩
  cases op with
  | add gfn mfn order t env | remove gfn mfn order env => exact nomatch hn
  | _ => trivial

def populatedState : State := (runIf step noPhysmap initial populatedRun).get (by decide +kernel)

theorem populated_run_balances : populatedState.entryCount = 1 ∧ census (isPod populatedState) = 1 := by
  have hr : Reach step Allowed initial populatedState := reach_get (fun _ _ ho => allowed_of_noPhysmap ho) _
  have hc : populatedState.entryCount = 1 := by decide +kernel
  have he := (pod_accounting populatedState hr).2.1
  exact ⟨hc,Int.ofNat.inj (he.symm.trans hc)⟩

def markedState : State := {setP2mEntry initial 5 (some populateOnDemandMfn) 0 .populateOnDemand with entryCount := 1}

def replacedState : State := recordM2p (setP2mEntry markedState 5 (some 7) 0 .ramRw) 7 5 1

theorem replaced_entry_stays_counted :
  ∃ s, Reach step (fun _ _ => True) initial s ∧ s.entryCount ≠ census (isPod s) := by
  have hm : step initial (.mark 5 0) = some markedState := rfl
  have hd : step markedState (.add 5 7 0 .ramRw ⟨fun _ => true,fun _ => false⟩) = some replacedState := rfl
  refine ⟨replacedState,.tail (.tail .refl ⟨_,trivial,hm⟩) ⟨_,trivial,hd⟩,?_⟩
  have hc : ClearRange initial (.mark 5 0) := trivial
  have ha : Accounts markedState 0 := step_accounts initial_accounts hc hm
  have hs := (ha.set_single 5 (some 7) .ramRw).entries
  change replacedState.entryCount + -1 = census (isPod replacedState) at hs
  omega

end PopulateOnDemand
