import Mathlib.Tactic

namespace GrantGrow

open Function List

structure Table where
  (gtVersion nrGrantFrames nrStatusFrames : Nat)
  (active sharedRaw status : Nat → Option Nat)

def shaPerPage : Nat := 512

def actPerPage : Nat := 102

def grantPerPage : Nat := 256

def grantStatusPerPage : Nat := 2048

def grantToStatusFrames (frames : Nat) : Nat := (frames*grantPerPage+grantStatusPerPage-1)/grantStatusPerPage

-- the entry count is an unsigned int
def numActFrames (num : Nat) : Nat := (num*shaPerPage+(actPerPage-1))%2^32/actPerPage

-- pages answers alloc_xenheap_page, call after call; past its end every call fails
def allocFrames : Nat → Nat → (Nat → Option Nat) → List (Option Nat) → Bool × (Nat → Option Nat) × List (Option Nat)
  | 0,_,a,pages => (true,a,pages)
  | n+1,i,a,pages =>
    match pages.headD none with
    | none => (false,update a i none,pages.tail)
    | some pg => allocFrames n (i+1) (update a i (some pg)) pages.tail

def freeFrames (lo hi : Nat) (a : Nat → Option Nat) : Nat → Option Nat := fun i => if lo ≤ i ∧ i < hi then none else a i

section
variable (gt : Table)

def gnttabPopulateStatusFrames (pages : List (Option Nat)) : Bool × Table :=
  let req := grantToStatusFrames gt.nrGrantFrames
  match allocFrames (req-gt.nrStatusFrames) gt.nrStatusFrames gt.status pages with
  | (true,a,_) => (true,{gt with status := a,nrStatusFrames := req})
  | (false,a,_) => (false,{gt with status := freeFrames gt.nrStatusFrames req a})

def activeAllocFailed (req : Nat) : Nat × Table :=
  (0,{gt with active := freeFrames (numActFrames gt.nrGrantFrames) (numActFrames req) gt.active})

def sharedAllocFailed (req : Nat) : Nat × Table :=
  activeAllocFailed {gt with sharedRaw := freeFrames gt.nrGrantFrames req gt.sharedRaw} req

def gnttabGrowTable (req : Nat) (pages : List (Option Nat)) : Nat × Table :=
  let act := numActFrames gt.nrGrantFrames
  match allocFrames (numActFrames req-act) act gt.active pages with
  | (false,a,_) => activeAllocFailed {gt with active := a} req
  | (true,a,pages) =>
    match allocFrames (req-gt.nrGrantFrames) gt.nrGrantFrames gt.sharedRaw pages with
    | (false,b,_) => sharedAllocFailed {gt with active := a,sharedRaw := b} req
    | (true,b,pages) =>
      let gt := {gt with active := a,sharedRaw := b,nrGrantFrames := req}
      if 1 < gt.gtVersion then
        match gnttabPopulateStatusFrames gt pages with
        | (true,gt) => (1,gt)
        | (false,gt) => sharedAllocFailed gt req
      else (1,gt)

def entriesPerPage : Nat := if 1 < gt.gtVersion then grantPerPage else shaPerPage

structure Present (e : Nat) : Prop where
  shared : gt.sharedRaw (e/entriesPerPage gt) ≠ none
  active : gt.active (e/actPerPage) ≠ none
  status : 1 < gt.gtVersion → gt.status (e/grantStatusPerPage) ≠ none

structure WellFormed : Prop where
  shared : ∀ i, gt.sharedRaw i ≠ none ↔ i < gt.nrGrantFrames
  active : ∀ i, gt.active i ≠ none ↔ i < numActFrames gt.nrGrantFrames
  status : ∀ i, gt.status i ≠ none ↔ i < gt.nrStatusFrames

-- the active frames counted for the request, in unsigned arithmetic, hold all its entries
def EntriesFit (req : Nat) : Prop :=
  req*entriesPerPage gt ≤ actPerPage*max (numActFrames req) (numActFrames gt.nrGrantFrames)

def Populates (n : Nat) (pages : List (Option Nat)) : Prop := ∀ k, k < n → (pages.getD k none).isSome = true

def GrowthSafe (req : Nat) (pages : List (Option Nat)) : Prop :=
  let act := numActFrames req-numActFrames gt.nrGrantFrames
  let shared := req-gt.nrGrantFrames
  let status := gt.gtVersion ≤ 1 ∨ Populates (grantToStatusFrames req-gt.nrStatusFrames) ((pages.drop act).drop shared)
  Populates act pages → Populates shared (pages.drop act) →
    (status → EntriesFit gt req) ∧ (¬status → req = gt.nrGrantFrames)

end

section

variable (n i : Nat) (a : Nat → Option Nat) (pages : List (Option Nat))

theorem allocFrames_outside {j : Nat} (hj : ¬(i ≤ j ∧ j < i+n)) : (allocFrames n i a pages).2.1 j = a j := by
  induction n generalizing i a pages with
  | zero => rfl
  | succ n ih =>
    have hn : j ≠ i := by omega
    rw [allocFrames]
    split
    · exact update_of_ne hn none a
    · rw [ih _ _ _ (by omega),update_of_ne hn]

theorem allocFrames_inside (h : (allocFrames n i a pages).1 = true) :
  (∀ j, i ≤ j → j < i+n → (allocFrames n i a pages).2.1 j ≠ none) ∧ (allocFrames n i a pages).2.2 = pages.drop n := by
  induction n generalizing i a pages with
  | zero => exact ⟨fun j h1 h2 => by omega,rfl⟩
  | succ n ih =>
    rw [allocFrames] at h ⊢
    split at h
    · cases h
    rename_i pg hp
    obtain ⟨hi,hd⟩ := ih _ _ _ h
    refine ⟨fun j h1 h2 => ?_,?_⟩
    · by_cases he : j = i
      · subst he
        rw [allocFrames_outside _ _ _ _ (by omega),update_self]
        nofun
      · exact hi j (by omega) (by omega)
    · rw [hd,drop_tail]

theorem allocFrames_ok : (allocFrames n i a pages).1 = true ↔ Populates n pages := by
  induction n generalizing i a pages with
  | zero => exact iff_of_true rfl nofun
  | succ n ih =>
    rw [allocFrames]
    rcases pages with _ | ⟨_ | pg,pages⟩
    · exact iff_of_false nofun fun h => absurd (h 0 n.succ_pos) nofun
    · exact iff_of_false nofun fun h => absurd (h 0 n.succ_pos) nofun
    · refine (ih _ _ _).trans ⟨fun h k hk => ?_,fun h k hk => h (k+1) (Nat.succ_lt_succ hk)⟩
      cases k with
      | zero => rfl
      | succ k => exact h k (Nat.lt_of_succ_lt_succ hk)

end

variable {gt : Table} {req : Nat} {pages : List (Option Nat)}

theorem freeFrames_self (n : Nat) (a : Nat → Option Nat) : freeFrames n n a = a :=
  funext fun _ => if_neg fun h => absurd (h.1.trans_lt h.2) (lt_irrefl n)

theorem allocFrames_spec {nr : Nat} {a : Nat → Option Nat} (h : ∀ i, a i ≠ none ↔ i < nr) (n : Nat)
  (pages : List (Option Nat)) : ∃ ok b q, allocFrames (n-nr) nr a pages = (ok,b,q) ∧ freeFrames nr n b = a ∧
    (ok = true ↔ Populates (n-nr) pages) ∧ (ok = true → q = pages.drop (n-nr) ∧ ∀ i, b i ≠ none ↔ i < max n nr) := by
  have ho := fun j => @allocFrames_outside (n-nr) nr a pages j
  refine ⟨_,_,_,rfl,funext fun j => ?_,allocFrames_ok _ _ _ _,fun hk => ?_⟩
  · unfold freeFrames
    split_ifs with hj
    · by_contra hn
      exact Nat.not_lt.mpr hj.1 ((h j).mp (Ne.symm hn))
    · exact ho j (by omega)
  · obtain ⟨ha,hq⟩ := allocFrames_inside _ _ _ _ hk
    refine ⟨hq,fun i => ?_⟩
    by_cases hi : nr ≤ i ∧ i < nr+(n-nr)
    · exact iff_of_true (ha i hi.1 hi.2) (by omega)
    · rw [ho i hi,h]
      omega

def GrowthAtomic (gt : Table) (req : Nat) (pages : List (Option Nat)) : Prop :=
  (∃ gt', gnttabGrowTable gt req pages = (1,gt') ∧ gt'.nrGrantFrames = req ∧
    ∀ e, e < req*entriesPerPage gt' → Present gt' e) ∨ gnttabGrowTable gt req pages = (0,gt)

theorem grown_iff {a b c : Nat → Option Nat} {nr : Nat}
  (h : gnttabGrowTable gt req pages = (1,⟨gt.gtVersion,req,nr,a,b,c⟩))
  (ha : ∀ i, a i ≠ none ↔ i < max (numActFrames req) (numActFrames gt.nrGrantFrames))
  (hb : ∀ i, b i ≠ none ↔ i < max req gt.nrGrantFrames)
  (hc : 1 < gt.gtVersion → ∀ i, i < grantToStatusFrames req → c i ≠ none) :
  GrowthAtomic gt req pages ↔ EntriesFit gt req := by
  rw [GrowthAtomic,h,EntriesFit]
  constructor
  · rintro (⟨_,⟨⟩,-,hp⟩ | ⟨⟨⟩⟩)
    by_contra hn
    have he := (ha _).mp (hp (actPerPage*max (numActFrames req) (numActFrames gt.nrGrantFrames)) (not_le.mp hn)).active
    rw [Nat.mul_div_cancel_left _ (by decide)] at he
    exact lt_irrefl _ he
  · refine fun hf => .inl ⟨_,rfl,rfl,fun e he => ⟨(hb _).mpr (lt_max_of_lt_left ?_),(ha _).mpr ?_,fun hv => hc hv _ ?_⟩⟩
    · exact Nat.div_lt_of_lt_mul (by rwa [Nat.mul_comm])
    · exact Nat.div_lt_of_lt_mul (he.trans_le hf)
    · rw [entriesPerPage,if_pos hv] at he
      simp only [grantToStatusFrames,grantPerPage,grantStatusPerPage] at he ⊢
      omega

theorem growth_atomic (hgt : WellFormed gt) : GrowthAtomic gt req pages ↔ GrowthSafe gt req pages := by
  obtain ⟨ok,a,q,ha,hf,hg,hq⟩ := allocFrames_spec hgt.active (numActFrames req) pages
  cases ok with
  | false =>
    refine iff_of_true (.inr ?_) fun h => absurd (hg.mpr h) nofun
    simp only [gnttabGrowTable,ha,activeAllocFailed,hf]
  | true =>
    obtain ⟨rfl,hp⟩ := hq rfl
    obtain ⟨ok,b,q,hb,hi,hk,hr⟩ := allocFrames_spec hgt.shared req
      (pages.drop (numActFrames req-numActFrames gt.nrGrantFrames))
    cases ok with
    | false =>
      refine iff_of_true (.inr ?_) fun _ h => absurd (hk.mpr h) nofun
      simp only [gnttabGrowTable,ha,hb,sharedAllocFailed,activeAllocFailed,hf,hi]
    | true =>
      obtain ⟨rfl,hd⟩ := hr rfl
      simp only [GrowthSafe,hg.mp rfl,hk.mp rfl,true_imp_iff]
      obtain ⟨ok,c,q,hc,hj,ho,hl⟩ := allocFrames_spec hgt.status (grantToStatusFrames req)
        ((pages.drop (numActFrames req-numActFrames gt.nrGrantFrames)).drop (req-gt.nrGrantFrames))
      by_cases hv : 1 < gt.gtVersion
      · rw [or_iff_right (Nat.not_le.mpr hv),← ho]
        cases ok with
        | true =>
          have he : gnttabGrowTable gt req pages = (1,⟨gt.gtVersion,req,grantToStatusFrames req,a,b,c⟩) := by
            simp only [gnttabGrowTable,ha,hb,if_pos hv,gnttabPopulateStatusFrames,hc]
          rw [grown_iff he hp hd fun _ i hi => ((hl rfl).2 i).mpr (lt_max_of_lt_left hi)]
          simp
        | false =>
          -- nr_grant_frames has been set already, so the two loops free nothing
          have he : gnttabGrowTable gt req pages = (0,⟨gt.gtVersion,req,gt.nrStatusFrames,a,b,gt.status⟩) := by
            simp only [gnttabGrowTable,ha,hb,if_pos hv,gnttabPopulateStatusFrames,hc,sharedAllocFailed,
              activeAllocFailed,hj,freeFrames_self]
          simp only [GrowthAtomic,he,Bool.false_eq_true,false_imp_iff,not_false_eq_true,true_imp_iff,true_and]
          constructor
          · rintro (⟨_,h,-⟩ | h)
            · cases h
            · exact congrArg (fun r => r.2.nrGrantFrames) h
          · rintro rfl
            rw [freeFrames_self] at hf hi
            rw [hf,hi]
            exact .inr rfl
      · have he : gnttabGrowTable gt req pages = (1,⟨gt.gtVersion,req,gt.nrStatusFrames,a,b,gt.status⟩) := by
          simp only [gnttabGrowTable,ha,hb,if_neg hv]
        rw [grown_iff he hp hd fun h => absurd h hv]
        simp [Nat.not_lt.mp hv]

def grown (nr : Nat) (nrStatus : Nat) : Table := ⟨2,nr,nrStatus,fun i => if i < numActFrames nr then some i else none,
  fun i => if i < nr then some (100+i) else none,fun i => if i < nrStatus then some (200+i) else none⟩

theorem grown_wellFormed (nr nrStatus : Nat) : WellFormed (grown nr nrStatus) := by
  constructor <;> intro i <;> simp [grown]

theorem ninth_frame_added : ∃ gt', gnttabGrowTable (grown 8 1) 9 (replicate 7 (some 300)) = (1,gt') ∧
  gt'.nrGrantFrames = 9 ∧ ∀ e, e < 9*entriesPerPage gt' → Present gt' e := by
  refine ((growth_atomic (grown_wellFormed 8 1)).mpr fun _ _ => ⟨fun _ => ?_,fun h => ?_⟩).resolve_right fun h => ?_
  · simp only [EntriesFit]
    decide
  · exact absurd (.inr (by simp only [Populates]; decide)) h
  · exact absurd (congrArg Prod.fst h) (by decide)

theorem failed_growth_kept : (gnttabGrowTable (grown 8 1) 9 (replicate 6 (some 300))).1 = 0 ∧
  (gnttabGrowTable (grown 8 1) 9 (replicate 6 (some 300))).2.nrGrantFrames = 9 ∧
    (gnttabGrowTable (grown 8 1) 9 (replicate 6 (some 300))).2.sharedRaw 8 = some 300 ∧
    (gnttabGrowTable (grown 8 1) 9 (replicate 6 (some 300))).2.status 1 = none := by decide

end GrantGrow
