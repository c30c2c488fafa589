import PMigrate.Hypervisor.EptTypeChangeRuns

namespace Ept

open Finset Transition Nat

def sizeofAtomic : Nat := 4

def sizeofSyncEntry : Nat := 16

def sizeofMigrSync : Nat := 16

def batchSize : Nat := 128*1024*1024

-- `2 * d->max_pages` is computed in an unsigned int, the product with PAGE_SIZE in a long
def maxBatchs (maxPages : Nat) : Nat := 2*maxPages%2^32*2^12/batchSize

def syncAllocation (maxPages : Nat) : Nat := sizeofAtomic*2+sizeofSyncEntry*maxBatchs maxPages

def listRoom (maxPages : Nat) : Nat := (syncAllocation maxPages-sizeofMigrSync)/sizeofSyncEntry

theorem le_listRoom_iff {maxPages n : Nat} : n ≤ listRoom maxPages ↔ n = 0 ∨ (n+1)*2^15 ≤ 2*maxPages%2^32 := by
  simp only [listRoom,syncAllocation,maxBatchs,sizeofMigrSync,sizeofSyncEntry,sizeofAtomic,batchSize]
  omega

theorem batchLength_pos {i : Nat} (hi : i < pagetableEntries) : 0 < batchLength i := by
  unfold batchLength
  split
  · decide
  · exact Nat.sub_pos_of_lt hi

-- the entries appended for one level-1 table: a group starts at every present slot that no earlier group covers
def groupsFrom (E : Tree) (page : Path) (i : Nat) : Nat :=
  if hi : i < pagetableEntries then
    if (E (i :: page)).present then 1+groupsFrom E page (i+batchLength i) else groupsFrom E page (i+1)
  else 0
termination_by pagetableEntries-i
decreasing_by
  · have := batchLength_pos hi
    omega
  · omega

def entryGroups (E : Tree) : Nat → Path → Nat
  | 0,_ => 0
  | 1,_ => 0
  | 2,q => if isTable E q then groupsFrom E q 0 else 0
  | k+3,q => if isTable E q then ∑ x ∈ range pagetableEntries, entryGroups E (k+2) (x :: q) else 0

def groupsIn (E : Tree) (page : Path) (lo : Nat) : Nat :=
  ∑ x ∈ Ico lo pagetableEntries, entryGroups E (walkLength-page.length) (x :: page)

def groups (E : Tree) : Nat := groupsIn E [] 0

def groupsAbove (E : Tree) : Path → Nat
  | [] => 0
  | j :: page => groupsIn E page (j+1)+groupsAbove E page

def jobsTodo (E : Tree) (page : Path) (i : Nat) : Nat :=
  (if page.length+1 = walkLength then groupsFrom E page i else groupsIn E page i)+groupsAbove E page

def Master.jobs (E : Tree) : Master → Nat
  | .visit page i _ => jobsTodo E page i
  | .readSize page i | .write page i _ | .publish page i => 1+jobsTodo E page (i+batchLength i)
  | .returned page i | .triggerConsume page i | .triggerCurrent page i _ | .triggerTarget page i
  | .triggerClear page i _ | .triggerSend page i _ => jobsTodo E page (i+1)
  | .acting | .waiting | .stopped => 0

section

variable {E : Tree} {page : Path} {i : Nat}

theorem groupsFrom_present (hi : i < pagetableEntries) (hp : (E (i :: page)).present = true) :
  groupsFrom E page i = 1+groupsFrom E page (i+batchLength i) := by
  rw [groupsFrom,dif_pos hi,if_pos hp]

theorem groupsFrom_absent (hi : i < pagetableEntries) (hp : (E (i :: page)).present = false) :
  groupsFrom E page i = groupsFrom E page (i+1) := by
  rw [groupsFrom,dif_pos hi,if_neg (by simp [hp])]

theorem groupsIn_step (E : Tree) (page : Path) (hi : i < pagetableEntries) : groupsIn E page i =
    entryGroups E (walkLength-page.length) (i :: page)+groupsIn E page (i+1) :=
  sum_eq_sum_Ico_succ_bot hi _

theorem upper_level (he : page.length+1 < walkLength) : page.length = 0 ∨ page.length = 1 := by
  rw [walkLength] at he
  omega

theorem jobsTodo_over (hi : i < pagetableEntries) (he : page.length+1 < walkLength)
  (ht : isTable E (i :: page) = false) : jobsTodo E page (i+1) = jobsTodo E page i := by
  have hz : entryGroups E (walkLength-page.length) (i :: page) = 0 := by
    rcases upper_level he with hp | hp <;> rw [hp] <;> exact if_neg (by simp [ht])
  rw [jobsTodo,jobsTodo,if_neg he.ne,if_neg he.ne,groupsIn_step E page hi,hz,zero_add]

theorem jobsTodo_down (hi : i < pagetableEntries) (he : page.length+1 < walkLength)
  (ht : isTable E (i :: page) = true) : jobsTodo E (i :: page) 0 = jobsTodo E page i := by
  rw [jobsTodo,jobsTodo,if_neg he.ne,groupsAbove,groupsIn_step E page hi,List.length_cons,add_assoc (entryGroups _ _ _)]
  refine congrArg (fun n : Nat => n+(groupsIn E page (i+1)+groupsAbove E page)) ?_
  rcases upper_level he with hp | hp <;> rw [hp]
  · rw [if_neg (by decide),groupsIn,List.length_cons,hp,← range_eq_Ico]
    exact (if_pos ht).symm
  · exact (if_pos ht).symm

theorem advance_jobs (E : Tree) (s : Walk) (page : Path) (i : Nat) (hl : page.length < walkLength) :
  (s.advance page i).currentSize+(s.advance page i).master.jobs E = s.currentSize+jobsTodo E page i := by
  unfold Walk.advance
  split
  · rfl
  rename_i hi
  have hg : groupsFrom E page i = 0 := by rw [groupsFrom,dif_neg hi]
  have hn : groupsIn E page i = 0 := by rw [groupsIn,Ico_eq_empty_of_le (not_lt.mp hi),sum_empty]
  rw [jobsTodo,hg,hn,ite_self,zero_add]
  cases page with
  | nil => rfl
  | cons j parent =>
    have hp : parent.length+1 ≠ walkLength := Nat.ne_of_lt hl
    simp only [Master.jobs,jobsTodo,if_neg hp,groupsAbove]

end

theorem slaveStep_frame {C : Change} {self : Nat} {s s' : Walk} {t : Option Nat} (hs : s.slaveStep C self t = some s') :
  s'.master = s.master ∧ s'.currentSize = s.currentSize := by
  unfold Walk.slaveStep at hs
  split at hs
  case h_1 => cases hs
  all_goals first
    | (cases hs; exact ⟨rfl,rfl⟩)
    | (split at hs <;> cases hs <;> exact ⟨rfl,rfl⟩)

-- only an entry that is no table is passed over
theorem Visit.step_over {C : Change} {E E0 E' : Tree} {q : Path} {v : Visit} (he : E q = E0 q)
  (hv : v.Knows C E0 false q)
  (h : v.step C false E q = .over E') : isTable E0 q = false := by
  cases v with
  | test =>
    rw [Visit.step,he] at h
    split at h
    · cases h
    · rename_i hp
      simp [isTable,hp]
  | kind =>
    rw [Visit.step] at h
    split at h <;> cases h
  | load => simp [isTable,hv.2.resolve_left Bool.false_ne_true]
  | store e => simp [isTable,hv.2.1.resolve_left Bool.false_ne_true]

namespace Setup

variable {P : Setup} {D : Multiset Path} {s s' : Walk}

theorem Inv.visitJobs (h : P.Inv D s) {page : Path} {i : Nat} {v : Visit}
  (hm : s.master = .visit page i v) (hs : s.masterStep P.change = some s') :
  s'.currentSize+s'.master.jobs P.tree = s.currentSize+jobsTodo P.tree page i := by
  obtain ⟨hd,hc,hi,hl,hv⟩ := h.dispatch hm rfl
  rw [Master.todo] at hc
  have hk : walkLength-page.length+page.length = walkLength := Nat.sub_add_cancel hl.le
  obtain ⟨rest,hr⟩ := hc.rest (pageTodo_step P.tree page hi)
  have hq := hc.changed.read hk hr
  simp only [Walk.masterStep,hm] at hs
  split at hs
  · rename_i hu
    have ho := Visit.step_sound hc.changed hk hr (fun hb => absurd hb Bool.false_ne_true) (hv hu)
    split at hs <;> rename_i he <;> cases hs
    · rfl
    · rw [he] at ho
      have ht : isTable P.tree (i :: page) = true := by
        rw [isTable,ho.2.1,ho.2.2]
        rfl
      rw [advance_jobs P.tree s (i :: page) 0 hu,jobsTodo_down hi hu ht]
    · rename_i E
      exact (advance_jobs P.tree {s with ept := E} page (i+1) hl).trans
        (congrArg (s.currentSize+·) (jobsTodo_over hi hu (Visit.step_over hq (hv hu) he)))
  rename_i hu
  have hu : page.length+1 = walkLength := by omega
  rw [hq] at hs
  split at hs <;> rename_i hp <;> cases hs
  · rw [Master.jobs,jobsTodo,jobsTodo,if_pos hu,if_pos hu,groupsFrom_present hi hp,add_assoc 1]
  · rw [advance_jobs P.tree s page (i+1) hl,jobsTodo,jobsTodo,if_pos hu,if_pos hu,groupsFrom_absent hi
      (by simpa using hp)]

theorem Inv.masterJobs (h : P.Inv D s) (hs : s.masterStep P.change = some s') :
  s'.currentSize+s'.master.jobs P.tree = s.currentSize+s.master.jobs P.tree := by
  have hp := h.phase
  unfold Walk.masterStep at hs
  split at hs <;> rename_i hm <;> rw [hm] at hp ⊢
  next page i v => exact h.visitJobs hm (by unfold Walk.masterStep; rw [hm]; exact hs)
  next page i =>
    cases hs
    rfl
  next page i index =>
    cases hs
    rfl
  next page i =>
    cases hs
    have hl : page.length < walkLength := lt_of_succ_le hp.2.1.le
    refine (advance_jobs P.tree {s with currentSize := s.currentSize+1} page (i+batchLength i) hl).trans ?_
    rw [add_assoc]
    rfl
  next page i =>
    split at hs <;> cases hs
    · exact advance_jobs P.tree s page (i+1) (lt_of_succ_lt hp)
    · rfl
  next page i =>
    cases hs
    rfl
  next page i consume =>
    split at hs <;> cases hs
    · rfl
    · exact advance_jobs P.tree s page (i+1) (lt_of_succ_lt hp)
  next page i =>
    cases hs
    rfl
  next page i target =>
    cases hs
    rfl
  next page i target =>
    cases hs
    exact advance_jobs P.tree {s with sent := s.sent ∪ target} page (i+1) (lt_of_succ_lt hp.1)
  · split at hs <;> cases hs
    rfl
  · split at hs <;> cases hs
    · rfl
    · rw [hm]
  · cases hs

theorem Inv.stepJobs (h : P.Inv D s) {a : Action} (hs : s.step P.change P.self a = some s') :
  s'.currentSize+s'.master.jobs P.tree = s.currentSize+s.master.jobs P.tree := by
  unfold Walk.step at hs
  split at hs
  · cases hs
  cases a with
  | master => exact h.masterJobs hs
  | begin cpu =>
    simp only at hs
    split at hs
    · split at hs <;> cases hs
      rfl
    · cases hs
  | slave t =>
    obtain ⟨hm,hi⟩ := slaveStep_frame hs
    rw [hm,hi]

theorem reach_jobs {list : Nat → SyncEntry}
  (h : Reach (Walk.step P.change P.self) (fun _ _ => True) (Walk.start P.cpus P.tree list) s) :
  s.currentSize+s.master.jobs P.tree = groups P.tree := by
  refine reach_invariant (I := fun s => s.currentSize+s.master.jobs P.tree = groups P.tree)
    ?_ (fun u a v hr hl _ hs => ?_) h
  · simp [Walk.start,Master.jobs,jobsTodo,groupsAbove,groups,walkLength]
  · obtain ⟨D,hi⟩ := reach_inv hr
    exact (hi.stepJobs hs).trans hl

end Setup

def Visit.rank : Visit → Nat
  | .test => 3
  | .kind => 2
  | .load => 1
  | .store _ => 0

theorem Visit.stay_rank {C : Change} {bottom : Bool} {E : Tree} {q : Path} {v v' : Visit}
  (h : v.step C bottom E q = .stay v') : v'.rank < v.rank := by
  cases v <;> simp only [Visit.step] at h
  · split at h <;> cases h
    split <;> decide
  · split at h <;> cases h
    decide
  · split at h <;> cases h
    exact Nat.zero_lt_one
  · cases h

-- The master can go through the whole tree on its own: one slot, one page, one level after the other.
namespace Walk

variable {C : Change} {self : Nat} {s s' : Walk} {page : Path} {i : Nat}

theorem runs_master (h : s.masterStep C = some s') : Runs C self s s' := by
  refine .single ⟨.master,trivial,?_⟩
  rw [step]
  split
  · rename_i hm
    simp [masterStep,hm] at h
  · exact h

theorem visit_ends {v : Visit} (hl : page.length+1 < walkLength) (hm : s.master = .visit page i v) :
  ∃ s' : Walk, Runs C self s (s'.advance page (i+1)) ∨ Runs C self s (s'.advance (i :: page) 0) := by
  induction hr : v.rank using Nat.strong_induction_on generalizing s v with
  | _ n ih =>
    rcases hs : v.step C false s.ept (i :: page) with v' | _ | E
    · have ht : s.masterStep C = some {s with master := .visit page i v'} := by
        simp only [masterStep,hm,if_pos hl,hs]
      obtain ⟨s',h⟩ := ih v'.rank (hr ▸ Visit.stay_rank hs) (s := {s with master := .visit page i v'}) rfl rfl
      exact ⟨s',h.imp (runs_master ht).trans (runs_master ht).trans⟩
    · exact ⟨s,.inr (runs_master (by simp only [masterStep,hm,if_pos hl,hs]))⟩
    · exact ⟨{s with ept := E},.inl (runs_master (by simp only [masterStep,hm,if_pos hl,hs]))⟩

theorem returned_ends (hm : s.master = .returned page i) : ∃ s' : Walk, Runs C self s (s'.advance page (i+1)) := by
  by_cases he : s.slaveCpumask = ∅
  · exact ⟨s,runs_master (by rw [masterStep,hm]; exact if_pos he)⟩
  have h1 : Runs C self s {s with master := .triggerConsume page i} :=
    runs_master (by rw [masterStep,hm]; exact if_neg he)
  have h2 := h1.trans (@runs_master C self _ {s with master := .triggerCurrent page i s.consumeSize} rfl)
  by_cases hc : slaveTriggerThreshold ≤ s.currentSize-s.consumeSize
  · have h3 := h2.trans (@runs_master C self _ {s with master := .triggerTarget page i} (if_pos hc))
    have h4 := h3.trans (@runs_master C self _ {s with master := .triggerClear page i s.slaveCpumask} rfl)
    have h5 := h4.trans (runs_master rfl)
    exact ⟨_,h5.trans (runs_master rfl)⟩
  · exact ⟨_,h2.trans (runs_master (if_neg hc))⟩

theorem slot_ends (hl : page.length+1 = walkLength) (hi : i < pagetableEntries) :
  ∃ (s' : Walk) (j : Nat), i < j ∧ Runs C self (s.advance page i) (s'.advance page j) := by
  have he : s.advance page i = {s with master := .visit page i .test} := by
    unfold advance
    exact if_pos hi
  rw [he]
  by_cases hp : (s.ept (i :: page)).present = true
  · have h1 : Runs C self {s with master := .visit page i .test} {s with master := .readSize page i} :=
      runs_master ((if_neg (by omega)).trans (if_pos hp))
    have h2 := h1.trans (runs_master rfl)
    have h3 := h2.trans (runs_master rfl)
    exact ⟨_,_,Nat.lt_add_of_pos_right (batchLength_pos hi),h3.trans (runs_master rfl)⟩
  · exact ⟨_,_,Nat.lt_succ_self i,runs_master ((if_neg (by omega)).trans (if_neg hp))⟩

theorem slots_end (hs : ∀ (s : Walk) i, i < pagetableEntries →
    ∃ (s' : Walk) (j : Nat), i < j ∧ Runs C self (s.advance page i) (s'.advance page j)) (s : Walk) (i : Nat) :
  ∃ (s' : Walk) (j : Nat), pagetableEntries ≤ j ∧ Runs C self (s.advance page i) (s'.advance page j) := by
  induction hn : pagetableEntries-i using Nat.strong_induction_on generalizing s i with
  | _ n ih =>
    by_cases hi : i < pagetableEntries
    · obtain ⟨s1,j,hj,hr⟩ := hs s i hi
      obtain ⟨s2,k,hk,ht⟩ := ih (pagetableEntries-j) (by omega) s1 j rfl
      exact ⟨s2,k,hk,hr.trans ht⟩
    · exact ⟨s,i,not_lt.mp hi,.refl⟩

theorem page_ends {k : Nat} (hk : page.length+(k+1) = walkLength) (s : Walk) (i : Nat) :
  ∃ (s' : Walk) (j : Nat), pagetableEntries ≤ j ∧ Runs C self (s.advance page i) (s'.advance page j) := by
  induction k generalizing page s i with
  | zero => exact slots_end (fun s i hi => slot_ends hk hi) s i
  | succ k ih =>
    refine slots_end (fun s i hi => ?_) s i
    have he : s.advance page i = {s with master := .visit page i .test} := by
      unfold advance
      exact if_pos hi
    rw [he]
    obtain ⟨s1,h1 | h1⟩ := @visit_ends C self {s with master := .visit page i .test} page i .test
      (show page.length+1 < walkLength by omega) rfl
    · exact ⟨s1,i+1,Nat.lt_succ_self i,h1⟩
    obtain ⟨s2,j,hj,h2⟩ := @ih (i :: page) (by rw [List.length_cons]; omega) s1 0
    have hb : s2.advance (i :: page) j = {s2 with master := .returned page i} := by
      unfold advance
      exact if_neg (not_lt.mpr hj)
    rw [hb] at h2
    obtain ⟨s3,h3⟩ := @returned_ends C self {s2 with master := .returned page i} page i rfl
    exact ⟨s3,i+1,Nat.lt_succ_self i,h1.trans (h2.trans h3)⟩

end Walk

theorem work_list_fits (C : Change) (cpus : Finset Nat) (self : Nat) (E0 : Tree) (list : Nat → SyncEntry)
  (maxPages : Nat) :
  (∀ s, Reach (Walk.step C self) (fun _ _ => True) (Walk.start cpus E0 list) s → s.currentSize ≤ listRoom maxPages ∧
    ∀ page i index, s.master = .write page i index → index < listRoom maxPages) ↔
    groups E0 = 0 ∨ (groups E0+1)*2^15 ≤ 2*maxPages%2^32 := by
  rw [← le_listRoom_iff]
  constructor
  · intro h
    obtain ⟨s,j,hj,hr⟩ := @Walk.page_ends C self [] 2 rfl (Walk.start cpus E0 list) 0
    have hg := Setup.reach_jobs (P := ⟨C,E0,cpus,self⟩) hr
    have hm : (s.advance [] j).master = .acting := by
      rw [Walk.advance,if_neg (not_lt.mpr hj)]
      rfl
    rw [hm] at hg
    exact hg ▸ (h _ hr).1
  intro hr s hreach
  have hj := Setup.reach_jobs (P := ⟨C,E0,cpus,self⟩) hreach
  dsimp only at hj
  refine ⟨by omega,fun page i index hm => ?_⟩
  obtain ⟨D,hn⟩ := Setup.reach_inv (P := ⟨C,E0,cpus,self⟩) hreach
  obtain ⟨-,-,-,-,rfl⟩ := hn.dispatch hm rfl
  rw [hm,Master.jobs] at hj
  omega

theorem one_table_fits : ∃ s : Walk, Reach (Walk.step logDirtyOn 0) (fun _ _ => True)
      (Walk.start ∅ oneSuperpage fun _ => ⟨[],0,0⟩) s ∧ s.currentSize = 1 ∧ s.currentSize ≤ listRoom (2^15) := by
  refine ⟨_,oneSuperpage_dispatch _,rfl,?_⟩
  have hg : 1+0 = groups oneSuperpage :=
    Setup.reach_jobs (P := ⟨logDirtyOn,oneSuperpage,∅,0⟩) (oneSuperpage_dispatch fun _ => ⟨[],0,0⟩)
  exact ((work_list_fits logDirtyOn ∅ 0 oneSuperpage _ (2^15)).mpr (.inr (by rw [← hg]; decide))
    _ (oneSuperpage_dispatch _)).1

theorem small_guest_overflows : maxBatchs 8192 = 0 ∧ maxBatchs 16384 = 1 ∧ ∃ s : Walk,
    Reach (Walk.step logDirtyOn 0) (fun _ _ => True) (Walk.start ∅ oneSuperpage fun _ => ⟨[],0,0⟩) s ∧
    listRoom 8192 < s.currentSize ∧ listRoom 16384 < s.currentSize :=
  ⟨rfl,rfl,_,oneSuperpage_dispatch _,by decide,by decide⟩

end Ept
