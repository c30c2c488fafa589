import PMigrate.Hypervisor.PopulateOnDemand

namespace PopulateOnDemand

open List Transition Option

section
variable {σ : Type} (body : Nat → σ → Option σ) (stop : Nat → σ → Prop) [∀ i x, Decidable (stop i x)]

def visits : Nat → σ → List Nat
  | 0,_ => []
  | i+1,x => (i+1) :: match body (i+1) x with
    | none => []
    | some x' => if stop (i+1) x' then [] else visits i x'

theorem visits_spec (k : Nat) (x : σ) :
  (visits body stop k x).Nodup ∧ (visits body stop k x).length ≤ k ∧ ∀ i ∈ visits body stop k x, i ≤ k := by
  induction k generalizing x with
  | zero => exact ⟨nodup_nil,Nat.le_refl 0,nofun⟩
  | succ k ih =>
    have ho : [k+1].Nodup ∧ [k+1].length ≤ k+1 ∧ ∀ i ∈ [k+1], i ≤ k+1 :=
      ⟨nodup_singleton _,Nat.succ_le_succ (Nat.zero_le k),fun i hi => Nat.le_of_eq (mem_singleton.mp hi)⟩
    rw [visits]
    split
    · exact ho
    split
    · exact ho
    · rename_i x' _ _
      obtain ⟨hn,hl,hm⟩ := ih x'
      exact ⟨nodup_cons.mpr ⟨fun h => Nat.not_succ_le_self k (hm _ h),hn⟩,Nat.succ_le_succ hl,
        forall_mem_cons.mpr ⟨Nat.le_refl _,fun i hi => Nat.le_succ_of_le (hm i hi)⟩⟩

end

def gather (env : ZeroEnv) (i : Nat) (r : State × List Nat) : Option (State × List Nat) :=
  if (collect r.1 r.2 i).length = podSweepStride then
    (zeroCheck r.1 env (collect r.1 r.2 i)).map fun s' => (s',[])
  else some (r.1,collect r.1 r.2 i)

section
variable (s : State) (env : ZeroEnv)

def superSteps : List Nat := visits (fun k s => zeroCheckSuperpage s env (superpagePages*k))
  (fun k s' => s'.super ≠ [] ∧ superpagePages*k < superStart s-podSweepLimit) (superStart s/superpagePages) s

def superExamined : List Nat := (superSteps s env).flatMap fun k => range' (superpagePages*k) superpagePages

def sweepStart : Nat := if s.reclaimSingle = 0 then s.maxGuest else s.reclaimSingle

def sweepSteps : List Nat := visits (gather env) (fun i r => r.1.count > 0 ∧ i < sweepStart s-podSweepLimit)
  (sweepStart s) (s,[])

def debt : Int := s.entryCount-s.count

def pointers : Nat × Nat × Nat := (s.reclaimSuper,s.reclaimSingle,s.maxGuest)

end

def Same (s s' : State) : Prop := debt s' = debt s ∧ pointers s' = pointers s

variable {s s' : State} {env : ZeroEnv}

theorem Same.trans {s'' : State} (h : Same s s') (h' : Same s' s'') : Same s s'' :=
  ⟨h'.1.trans h.1,h'.2.trans h.2⟩

theorem same_cached {u : State} (n : Int) (hc : s'.count = u.count+n) (he : s'.entryCount = u.entryCount+n)
  (hp : pointers s' = pointers u) : Same u s' :=
  ⟨by rw [debt,hc,he,Int.add_sub_add_right,debt],hp⟩

theorem zeroCheckSuperpage_same (s : State) (env : ZeroEnv) (gfn : Nat) :
  ∃ s', zeroCheckSuperpage s env gfn = some s' ∧ Same s s' := by
  have hs : Same s s := ⟨rfl,rfl⟩
  rw [zeroCheckSuperpage]
  split
  · exact ⟨s,rfl,hs⟩
  split
  · exact ⟨s,rfl,hs⟩
  split
  · exact ⟨s,rfl,hs⟩
  split
  · exact ⟨s,rfl,hs⟩
  dsimp only
  split
  · exact ⟨_,rfl,same_cached 512 rfl rfl rfl⟩
  · exact ⟨_,rfl,rfl,rfl⟩

theorem removeZero_same (env : ZeroEnv) (cs : List Candidate) (s : State) : Same s (removeZero env cs s).1 := by
  induction cs generalizing s with
  | nil => exact ⟨rfl,rfl⟩
  | cons c cs ih =>
    rw [removeZero]
    split
    · exact ih s
    dsimp only
    split
    · exact ih (setP2mEntry (setP2mEntry s c.gfn _ 0 _) c.gfn _ 0 _)
    · exact ih (setP2mEntry s c.gfn _ 0 _)

theorem reclaimZero_same (env : ZeroEnv) (cs : List Candidate) (s : State) :
  ∃ s', reclaimZero env cs s = some s' ∧ Same s s' := by
  induction cs generalizing s with
  | nil => exact ⟨s,rfl,rfl,rfl⟩
  | cons c cs ih =>
    rw [reclaimZero]
    split
    · exact ih (setP2mEntry s c.gfn _ 0 _)
    · obtain ⟨s',hr,hs⟩ := ih _
      refine ⟨s',hr,.trans ?_ hs⟩
      exact same_cached 1 rfl rfl rfl

theorem zeroCheck_same (s : State) (env : ZeroEnv) (gfns : List Nat) :
  ∃ s', zeroCheck s env gfns = some s' ∧ Same s s' := by
  obtain ⟨s',hr,hs⟩ := reclaimZero_same env _ (removeZero env (gfns.filterMap (candidate s env)) s).1
  exact ⟨s',hr,(removeZero_same env _ s).trans hs⟩

theorem sweepSuperLoop_same (env : ZeroEnv) (limit k : Nat) (s : State) : ∃ s' j,
  sweepSuperLoop env limit k s = some (s',superpagePages*j) ∧ Same s s' ∧ j ≤ k := by
  induction k generalizing s with
  | zero => exact ⟨s,0,rfl,⟨rfl,rfl⟩,Nat.le_refl 0⟩
  | succ k ih =>
    obtain ⟨s1,hc,hs⟩ := zeroCheckSuperpage_same s env (superpagePages*(k+1))
    rw [sweepSuperLoop,hc,bind_some]
    split
    · exact ⟨s1,k+1,rfl,hs,Nat.le_refl _⟩
    · obtain ⟨s',j,hr,hs',hj⟩ := ih s1
      exact ⟨s',j,hr,hs.trans hs',Nat.le_succ_of_le hj⟩

theorem gather_same (env : ZeroEnv) (i : Nat) (r : State × List Nat) : ∃ q, gather env i r = some q ∧ Same r.1 q.1 := by
  rw [gather]
  split
  · obtain ⟨s',hz,hs⟩ := zeroCheck_same r.1 env (collect r.1 r.2 i)
    exact ⟨(s',[]),by rw [hz,map_some],hs⟩
  · exact ⟨_,rfl,rfl,rfl⟩

theorem sweepLoop_same (env : ZeroEnv) (limit i : Nat) (s : State) (gfns : List Nat) :
  ∃ r, sweepLoop env limit i s gfns = some r ∧ Same s r.1 ∧ r.2.2 ≤ i := by
  induction i generalizing s gfns with
  | zero => exact ⟨_,rfl,⟨rfl,rfl⟩,Nat.le_refl 0⟩
  | succ i ih =>
    obtain ⟨r,hg,hs⟩ := gather_same env (i+1) (s,gfns)
    have ht : sweepLoop env limit (i+1) s gfns = (gather env (i+1) (s,gfns)).bind fun r =>
      if r.1.count > 0 ∧ i+1 < limit then some (r.1,r.2,i+1) else sweepLoop env limit i r.1 r.2 := rfl
    rw [ht,hg,bind_some]
    split
    · exact ⟨_,rfl,hs,Nat.le_refl _⟩
    · obtain ⟨q,hq,hs',hl⟩ := ih r.1 r.2
      exact ⟨q,hq,hs.trans hs',Nat.le_succ_of_le hl⟩

structure Inside (p : Nat × Nat × Nat) : Prop where
  super : p.1 = 0 ∨ p.1+superpagePages ≤ p.2.2
  aligned : superpagePages ∣ p.1
  single : p.2.1 ≤ p.2.2
  width : p.2.2 < 2^32

def Restartable (s : State) : Prop := s.reclaimSuper = 0 → superpagePages ≤ s.maxGuest

variable (hi : Inside (pointers s))
include hi

theorem superStart_inside (hr : Restartable s) :
  superpagePages ∣ superStart s ∧ superStart s+superpagePages ≤ s.maxGuest := by
  have hw : s.maxGuest < 2^32 := hi.width
  rw [superStart]
  split_ifs with hz
  · have hm := hr hz
    simp only [superpagePages] at hm ⊢
    omega
  · exact ⟨hi.aligned,hi.super.resolve_left hz⟩

theorem emergencySweepSuper_inside (hr : Restartable s) (env : ZeroEnv) :
  ∃ s', emergencySweepSuper s env = some s' ∧ debt s' = debt s ∧ Inside (pointers s') := by
  obtain ⟨hd,he⟩ := superStart_inside hi hr
  obtain ⟨s1,j,hl,hs,hj⟩ :=
    sweepSuperLoop_same env (superStart s-podSweepLimit) (superStart s/superpagePages) s
  obtain ⟨x,hx⟩ : ∃ x, x = superpagePages*j-superpagePages := ⟨_,rfl⟩
  refine ⟨{s1 with reclaimSuper := x},by simp only [emergencySweepSuper,hl,map_some,hx],hs.1,?_⟩
  have h2 : (pointers s1).2 = (pointers s).2 := congrArg Prod.snd hs.2
  have hp : pointers {s1 with reclaimSuper := x} = (x,(pointers s).2) := Prod.ext rfl h2
  have hm := Nat.mul_le_of_le_div _ _ _ hj
  rw [hp,hx]
  refine ⟨?_,Nat.dvd_sub (Nat.dvd_mul_right _ j) (Nat.dvd_refl _),hi.single,hi.width⟩
  rw [Nat.mul_comm] at hm
  simp only [pointers]
  omega

theorem sweepStart_le : sweepStart s ≤ s.maxGuest := by
  rw [sweepStart]
  split_ifs
  · exact le_rfl
  · exact hi.single

theorem emergencySweep_inside (env : ZeroEnv) :
  ∃ s', emergencySweep s env = some s' ∧ debt s' = debt s ∧ Inside (pointers s') := by
  obtain ⟨r,hl,hs,he⟩ := sweepLoop_same env (sweepStart s-podSweepLimit) (sweepStart s) s []
  obtain ⟨s1,hz,hs1⟩ := zeroCheck_same r.1 env r.2.1
  have ht := hs.trans hs1
  have hw : emergencySweep s env = (sweepLoop env (sweepStart s-podSweepLimit) (sweepStart s) s []).bind
    fun r => (zeroCheck r.1 env r.2.1).map fun s' => {s' with reclaimSingle := r.2.2-1} := rfl
  refine ⟨{s1 with reclaimSingle := r.2.2-1},by rw [hw,hl,bind_some,hz,map_some],ht.1,?_⟩
  have hp : pointers {s1 with reclaimSingle := r.2.2-1} = (s.reclaimSuper,r.2.2-1,s.maxGuest) := by
    have h := ht.2
    simp only [pointers,Prod.mk.injEq] at h ⊢
    exact ⟨h.1,trivial,h.2.2⟩
  have hm := sweepStart_le hi
  rw [hp]
  exact ⟨hi.super,hi.aligned,by simp only; omega,hi.width⟩

omit hi

theorem cacheGet_pointers {order : Nat} {r : State × Option Nat} (h : cacheGet s order = some r) :
  pointers r.1 = pointers s := by
  rw [cacheGet] at h
  split at h
  · cases h
    rfl
  obtain ⟨u,hu,h⟩ := bind_eq_some_iff.mp h
  have hp : pointers u = pointers s := by grind [breakSuperpage,pointers]
  rw [← hp]
  split at h
  · grind [takeSuper,pointers]
  · grind [takeSingle,pointers]
  · cases h

theorem splinter_pointers (s : State) (gfn : Nat) : pointers (splinter s gfn) = pointers s := by
  rw [splinter]
  generalize range 512 = l
  induction l generalizing s with
  | nil => rfl
  | cons i l ih => exact ih _

variable {gfn order : Nat} {guest : Bool} {penv : PopulateEnv}

-- when a fault of that order comes to p2m_pod_emergency_sweep_super
def SuperSweeps (s : State) (order : Nat) : Prop := order = 9 ∧ s.count < s.entryCount ∧ s.super = []

theorem sweepIfLow_inside (hi : Inside (pointers s)) (hr : SuperSweeps s order → Restartable s)
  (h : sweepIfLow s order penv = some s') : Inside (pointers s') := by
  rw [sweepIfLow] at h
  split at h
  · rename_i hl
    obtain ⟨s1,hs,h⟩ := bind_eq_some_iff.mp h
    have hi1 : Inside (pointers s1) := by
      split at hs
      · rename_i ho
        obtain ⟨t,ht,-,hi'⟩ := emergencySweepSuper_inside hi (hr ⟨ho.1,hl,ho.2⟩) penv.super
        cases ht.symm.trans hs
        exact hi'
      · cases hs
        exact hi
    split at h
    · obtain ⟨t,ht,-,hi'⟩ := emergencySweep_inside hi1 penv.single
      cases ht.symm.trans h
      exact hi'
    · cases h
      exact hi1
  · cases h
    exact hi

theorem noteGuest_inside (hi : Inside (pointers s)) (hg : gfn < 2^32) (guest : Bool) :
  Inside (pointers (noteGuest s gfn guest)) := by
  rw [noteGuest,Nat.mod_eq_of_lt hg]
  split
  · rename_i h
    have hl := Nat.le_of_lt h.2
    exact ⟨hi.super.imp_right fun hs => Nat.le_trans hs hl,hi.aligned,Nat.le_trans hi.single hl,hg⟩
  · exact hi

theorem demandPopulate_inside (hi : Inside (pointers s)) (hr : SuperSweeps s order → Restartable s) (hg : gfn < 2^32)
  (h : demandPopulate s gfn order guest penv = some s') : Inside (pointers s') := by
  rw [demandPopulate] at h
  split at h
  · cases h
    exact hi
  obtain ⟨s1,hs,h⟩ := bind_eq_some_iff.mp h
  have hn := noteGuest_inside (sweepIfLow_inside hi hr hs) hg guest
  dsimp only at h
  split at h
  · cases h
    exact hn
  obtain ⟨r,hc,h⟩ := bind_eq_some_iff.mp h
  rw [← cacheGet_pointers hc] at hn
  split at h
  · split at h
    · cases h
    · rw [← some.inj h,splinter_pointers]
      exact hn
  split at h
  · cases h
  split at h
  · cases h
  · cases h
    exact hn

inductive SweepOp where
  | fault (gfn order : Nat) (guest : Bool) (env : PopulateEnv)
  | sweepSuper (env : ZeroEnv)
  | sweep (env : ZeroEnv)

def sweepStep (s : State) : SweepOp → Option State
  | .fault gfn order guest env => demandPopulate s gfn order guest env
  | .sweepSuper env => emergencySweepSuper s env
  | .sweep env => emergencySweep s env

def SweepAllowed (s : State) : SweepOp → Prop
  | .fault gfn order _ _ => gfn < 2^32 ∧ (SuperSweeps s order → Restartable s)
  | .sweepSuper _ => Restartable s
  | .sweep _ => True

theorem inside_of_reach {s0 : State} (hs : pointers s0 = (0,0,0)) (h : Reach sweepStep SweepAllowed s0 s) :
  Inside (pointers s) := by
  refine reach_invariant (I := fun s => Inside (pointers s)) ?_ (fun s op s' _ hi ha he => ?_) h
  · rw [hs]
    exact ⟨.inl rfl,Nat.dvd_zero _,Nat.le_refl 0,by decide⟩
  · cases op with
    | fault gfn order guest env => exact demandPopulate_inside hi ha.2 ha.1 he
    | sweepSuper env =>
      obtain ⟨t,ht,-,hi'⟩ := emergencySweepSuper_inside hi ha env
      cases ht.symm.trans he
      exact hi'
    | sweep env =>
      obtain ⟨t,ht,-,hi'⟩ := emergencySweep_inside hi env
      cases ht.symm.trans he
      exact hi'

def noneZero : ZeroEnv := ⟨fun _ => false,fun _ => false,fun _ => false,fun _ => false⟩

def stocked : State := {initial with single := [7],count := 1,entryCount := 2}

end PopulateOnDemand
