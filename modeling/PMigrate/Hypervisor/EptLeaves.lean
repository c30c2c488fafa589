import PMigrate.Hypervisor.Ept
import Mathlib.Tactic

namespace Ept

open Finset List

variable {E : Tree}

def isTable (E : Tree) (q : Path) : Bool := (E q).present && !(E q).sp

def entryLeaves (E : Tree) : Nat → Path → Multiset Path
  | 0,q => if (E q).present then {q} else 0
  | k+1,q =>
    if (E q).present then
      if (E q).sp then {q} else ∑ x ∈ range pagetableEntries, entryLeaves E k (x :: q)
    else 0

def leavesIn (E : Tree) (level : Nat) (page : Path) (lo hi : Nat) : Multiset Path :=
  ∑ x ∈ Ico lo hi, entryLeaves E level (x :: page)

def treeLeaves (E : Tree) : Multiset Path := leavesIn E walkLength [] 0 pagetableEntries

def Mapped (E : Tree) : Path → Prop
  | [] => True
  | i :: p => Mapped E p ∧ i < pagetableEntries ∧ isTable E (i :: p) = true

def PresentLeaf (E : Tree) : Path → Prop
  | [] => False
  | i :: p => Mapped E p ∧ i < pagetableEntries ∧ p.length ≤ walkLength ∧
      (E (i :: p)).present = true ∧ (p.length = walkLength ∨ (E (i :: p)).sp = true)

variable {hi lo i : Nat} {q p : Path}

theorem leavesIn_empty (E : Tree) (level : Nat) (page : Path) (h : hi ≤ lo) :
  leavesIn E level page lo hi = 0 := by simp [leavesIn,h]

theorem leavesIn_step (E : Tree) (level : Nat) (page : Path) (h : i < hi) : leavesIn E level page i hi =
    entryLeaves E level (i :: page)+leavesIn E level page (i+1) hi :=
  sum_eq_sum_Ico_succ_bot h _

theorem leavesIn_split (E : Tree) (level : Nat) (page : Path) {mid : Nat} (h : lo ≤ mid) (h' : mid ≤ hi) :
  leavesIn E level page lo hi = leavesIn E level page lo mid+leavesIn E level page mid hi :=
  (sum_Ico_consecutive _ h h').symm

theorem entryLeaves_absent (k : Nat) (h : (E q).present = false) : entryLeaves E k q = 0 := by
  cases k <;> simp [entryLeaves,h]

theorem entryLeaves_bottom (h : (E q).present = true) : entryLeaves E 0 q = {q} := by simp [entryLeaves,h]

theorem entryLeaves_super (k : Nat) (h : (E q).present = true) (hs : (E q).sp = true) : entryLeaves E k q = {q} := by
  cases k <;> simp [entryLeaves,h,hs]

theorem entryLeaves_table (k : Nat) (h : (E q).present = true) (hs : (E q).sp = false) :
  entryLeaves E (k+1) q = leavesIn E k q 0 pagetableEntries := by
  simp [entryLeaves,leavesIn,h,hs]

theorem mem_leavesIn {level : Nat} {page : Path} :
  q ∈ leavesIn E level page lo hi ↔ ∃ x, lo ≤ x ∧ x < hi ∧ q ∈ entryLeaves E level (x :: page) := by
  simp [leavesIn,Multiset.mem_sum,and_assoc]

theorem entry_cases (E : Tree) (q : Path) : (E q).present = false ∨ (E q).present = true ∧ (E q).sp = true ∨
    (E q).present = true ∧ (E q).sp = false := by
  cases (E q).present <;> cases (E q).sp <;> simp

theorem suffix_of_mem {k : Nat} {q0 : Path} (h : q ∈ entryLeaves E k q0) : q0 <:+ q := by
  induction k generalizing q0 with
  | zero =>
    simp only [entryLeaves] at h
    split at h
    · rw [Multiset.mem_singleton.mp h]
    · cases h
  | succ k ih =>
    rcases entry_cases E q0 with hp | ⟨hp,hs⟩ | ⟨hp,hs⟩
    · rw [entryLeaves_absent _ hp] at h
      cases h
    · rw [entryLeaves_super _ hp hs] at h
      rw [Multiset.mem_singleton.mp h]
    · rw [entryLeaves_table _ hp hs] at h
      obtain ⟨x,_,_,hx⟩ := mem_leavesIn.mp h
      exact (suffix_cons x q0).trans (ih hx)

theorem cons_suffix_inj {x y : Nat} (hx : (x :: p) <:+ q) (hy : (y :: p) <:+ q) : x = y := by
  have := suffix_of_suffix_length_le hx hy (by simp)
  exact (List.cons.inj (this.eq_of_length (by simp))).1

theorem nodup_sum {s : Finset Nat} {f : Nat → Multiset Path} (hf : ∀ x ∈ s, (f x).Nodup)
  (hd : ∀ x ∈ s, ∀ y ∈ s, ∀ q, q ∈ f x → q ∈ f y → x = y) : (∑ x ∈ s, f x).Nodup := by
  induction s using Finset.induction_on with
  | empty => simp
  | insert a s ha ih =>
    rw [sum_insert ha,Multiset.nodup_add]
    refine ⟨hf a (mem_insert_self a s),ih (fun x hx => hf x (mem_insert_of_mem hx)) fun x hx y hy =>
        hd x (mem_insert_of_mem hx) y (mem_insert_of_mem hy),?_⟩
    rw [Multiset.disjoint_left]
    intro q hq hs
    obtain ⟨x,hx,hb⟩ := Multiset.mem_sum.mp hs
    exact ha (hd a (mem_insert_self a s) x (mem_insert_of_mem hx) q hq hb ▸ hx)

theorem nodup_entryLeaves (E : Tree) (k : Nat) (q : Path) : (entryLeaves E k q).Nodup := by
  induction k generalizing q with
  | zero =>
    simp only [entryLeaves]
    split <;> simp
  | succ k ih =>
    rcases entry_cases E q with hp | ⟨hp,hs⟩ | ⟨hp,hs⟩
    · simp [entryLeaves_absent _ hp]
    · simp [entryLeaves_super _ hp hs]
    · rw [entryLeaves_table _ hp hs,leavesIn]
      exact nodup_sum (fun x _ => ih (x :: q)) fun x _ y _ p hx hy =>
        cons_suffix_inj (suffix_of_mem hx) (suffix_of_mem hy)

theorem nodup_treeLeaves (E : Tree) : (treeLeaves E).Nodup := by
  rw [treeLeaves,leavesIn]
  exact nodup_sum (fun _ _ => nodup_entryLeaves E _ _) fun _ _ _ _ _ hx hy =>
    cons_suffix_inj (suffix_of_mem hx) (suffix_of_mem hy)

theorem mapped_of_suffix (h : Mapped E q) (hs : p <:+ q) : Mapped E p := by
  induction q with
  | nil => rwa [suffix_nil.mp hs]
  | cons i q ih =>
    rcases suffix_cons_iff.mp hs with rfl | hs
    · exact h
    · exact ih h.1 hs

theorem PresentLeaf.mapped (h : PresentLeaf E q) (hs : (i :: p) <:+ q) (hn : i :: p ≠ q) : Mapped E (i :: p) := by
  cases q with
  | nil => exact absurd (suffix_nil.mp hs) (cons_ne_nil i p)
  | cons j q => exact mapped_of_suffix h.1 ((suffix_cons_iff.mp hs).resolve_left hn)

theorem exists_cons_suffix (hs : p <:+ q) (hn : p ≠ q) : ∃ x, (x :: p) <:+ q := by
  obtain ⟨t,rfl⟩ := hs
  rcases eq_nil_or_concat t with rfl | ⟨t,x,rfl⟩
  · exact absurd rfl hn
  · exact ⟨x,t,by simp⟩

theorem PresentLeaf.index_lt {x : Nat} (h : PresentLeaf E q) (hs : (x :: p) <:+ q) : x < pagetableEntries := by
  by_cases he : x :: p = q
  · subst he
    exact h.2.1
  · exact (h.mapped hs he).2.1

theorem PresentLeaf.length_le (h : PresentLeaf E q) (hs : p <:+ q) : p.length ≤ walkLength+1 := by
  cases q with
  | nil => exact absurd h id
  | cons i q => exact hs.length_le.trans (Nat.succ_le_succ h.2.2.1)

theorem PresentLeaf.present (h : PresentLeaf E q) (hs : (i :: p) <:+ q) : (E (i :: p)).present = true := by
  by_cases he : i :: p = q
  · subst he
    exact h.2.2.2.1
  have := (h.mapped hs he).2.2
  simp only [isTable,Bool.and_eq_true] at this
  exact this.1

theorem mem_entryLeaves {k : Nat} (hp : Mapped E p) (hi : i < pagetableEntries) (hk : k+p.length = walkLength) :
  q ∈ entryLeaves E k (i :: p) ↔ PresentLeaf E q ∧ (i :: p) <:+ q := by
  induction k generalizing i p with
  | zero =>
    cases hr : (E (i :: p)).present with
    | false =>
      rw [entryLeaves_absent _ hr]
      exact iff_of_false (Multiset.notMem_zero q) fun ⟨h,hs⟩ => by simp [h.present hs] at hr
    | true =>
      rw [entryLeaves_bottom hr,Multiset.mem_singleton]
      constructor
      · rintro rfl
        exact ⟨⟨hp,hi,by omega,hr,.inl (by omega)⟩,suffix_refl _⟩
      rintro ⟨h,hs⟩
      by_contra hn
      obtain ⟨x,hx⟩ := exists_cons_suffix hs (Ne.symm hn)
      have := h.length_le hx
      simp only [length_cons] at this
      omega
  | succ k ih =>
    rcases entry_cases E (i :: p) with hr | ⟨hr,ha⟩ | ⟨hr,ha⟩
    · rw [entryLeaves_absent _ hr]
      exact iff_of_false (Multiset.notMem_zero q) fun ⟨h,hs⟩ => by simp [h.present hs] at hr
    · rw [entryLeaves_super _ hr ha,Multiset.mem_singleton]
      constructor
      · rintro rfl
        exact ⟨⟨hp,hi,by omega,hr,.inr ha⟩,suffix_refl _⟩
      rintro ⟨h,hs⟩
      by_contra hn
      have := (h.mapped hs (Ne.symm hn)).2.2
      simp [isTable,ha] at this
    · have hm : Mapped E (i :: p) := ⟨hp,hi,by simp [isTable,hr,ha]⟩
      have hc (x : Nat) (hx : x < pagetableEntries) :=
        ih (i := x) (p := i :: p) hm hx (by simp only [length_cons]; omega)
      rw [entryLeaves_table _ hr ha,mem_leavesIn]
      constructor
      · rintro ⟨x,_,hx,he⟩
        obtain ⟨h,hs⟩ := (hc x hx).mp he
        exact ⟨h,(suffix_cons x _).trans hs⟩
      rintro ⟨h,hs⟩
      have hn : i :: p ≠ q := by
        rintro rfl
        rcases h.2.2.2.2 with hl | hsp'
        · omega
        · simp [ha] at hsp'
      obtain ⟨x,hx⟩ := exists_cons_suffix hs hn
      exact ⟨x,Nat.zero_le x,h.index_lt hx,(hc x (h.index_lt hx)).mpr ⟨h,hx⟩⟩

theorem mem_treeLeaves : q ∈ treeLeaves E ↔ PresentLeaf E q := by
  have hr (x : Nat) (hx : x < pagetableEntries) :=
    mem_entryLeaves (E := E) (q := q) (p := []) (k := walkLength) trivial hx rfl
  rw [treeLeaves,mem_leavesIn]
  constructor
  · rintro ⟨x,_,hx,hm⟩
    exact ((hr x hx).mp hm).1
  intro h
  have hn : [] ≠ q := by
    rintro rfl
    exact h
  obtain ⟨x,hx⟩ := exists_cons_suffix (nil_suffix (l := q)) hn
  exact ⟨x,Nat.zero_le x,h.index_lt hx,(hr x (h.index_lt hx)).mpr ⟨h,hx⟩⟩

structure Change where
  mmioRo : Nat → Bool
  (ot nt : P2mType)

def entriesLoop (body : Nat → Tree → Tree) : Nat → Nat → Tree → Tree
  | 0,_,E => E
  | n+1,i,E => entriesLoop body n (i+1) (body i E)

namespace Change

variable (C : Change)

def newEntry (e : Entry) : Entry := {e with saP2mt := C.nt}.typeToFlags C.mmioRo C.nt e.access

def retype (e : Entry) : Entry := if e.saP2mt ≠ C.ot then e else C.newEntry e

def changeEntry (E : Tree) (q : Path) : Tree :=
  if (E q).saP2mt ≠ C.ot then E else E.write q (C.newEntry (E q))

def changeEntryTypePage : Nat → Path → Tree → Tree
  | 0,page => entriesLoop (fun i E => if (E (i :: page)).present then C.changeEntry E (i :: page) else E)
      pagetableEntries 0
  | level+1,page => entriesLoop (fun i E =>
        if (E (i :: page)).present then
          if (E (i :: page)).sp then C.changeEntry E (i :: page)
          else changeEntryTypePage level (i :: page) E
        else E)
      pagetableEntries 0

def Changed (E0 : Tree) (D : Multiset Path) (E : Tree) : Prop :=
  ∀ q, (q ∈ D → E q = C.retype (E0 q)) ∧ (q ∉ D → E q = E0 q)

variable {C} {E0 E : Tree} {D R : Multiset Path}

theorem changeEntry_self (q : Path) : C.changeEntry E q q = C.retype (E q) := by
  rw [changeEntry,retype]
  split
  · rfl
  · exact E.write_self q _

variable {q p : Path} {k : Nat}

theorem changeEntry_ne (h : p ≠ q) : C.changeEntry E q p = E p := by
  rw [changeEntry]
  split
  · rfl
  · exact E.write_ne _ h

variable {i : Nat} {E' : Tree}

theorem Changed.add (h : C.Changed E0 D E) (hq : q ∉ D)
  (hs : E' q = C.retype (E q)) (ho : ∀ p, p ≠ q → E' p = E p) : C.Changed E0 (D+{q}) E' := by
  intro p
  by_cases hp : p = q
  · subst hp
    rw [hs,(h p).2 hq]
    simp
  · rw [ho p hp]
    simpa [hp] using h p

theorem not_mem_of_owed (h : D+({q}+R) ≤ treeLeaves E0) : q ∉ D := by
  intro hq
  have hn := Multiset.nodup_of_le h (nodup_treeLeaves E0)
  exact (Multiset.disjoint_left.mp (Multiset.nodup_add.mp hn).2.2) hq (by simp)

theorem presentLeaf_of_mem (h : D+R ≤ treeLeaves E0) (hq : q ∈ D) :
  PresentLeaf E0 q := mem_treeLeaves.mp (Multiset.mem_of_le h (Multiset.mem_add.mpr (.inl hq)))

theorem Changed.read (h : C.Changed E0 D E) (hk : k+p.length = walkLength)
  (ho : D+(entryLeaves E0 k (i :: p)+R) ≤ treeLeaves E0) : E (i :: p) = E0 (i :: p) := by
  refine (h (i :: p)).2 fun hm => ?_
  have hl := presentLeaf_of_mem ho hm
  have hs : entryLeaves E0 k (i :: p) = {i :: p} := by
    rcases hl.2.2.2.2 with he | hp
    · obtain rfl : k = 0 := by omega
      exact entryLeaves_bottom hl.2.2.2.1
    · exact entryLeaves_super k hl.2.2.2.1 hp
  rw [hs] at ho
  exact not_mem_of_owed ho hm

theorem Changed.absent (h : C.Changed E0 D E) (hp : (E0 q).present = false) :
  C.Changed E0 (D+entryLeaves E0 k q) E := by
  rw [entryLeaves_absent k hp,add_zero]
  exact h

theorem Changed.leaf (h : C.Changed E0 D E) (hl : entryLeaves E0 k (i :: p) = {i :: p})
  (ho : D+(entryLeaves E0 k (i :: p)+R) ≤ treeLeaves E0) :
  C.Changed E0 (D+entryLeaves E0 k (i :: p)) (C.changeEntry E (i :: p)) := by
  rw [hl] at ho ⊢
  exact h.add (not_mem_of_owed ho) (changeEntry_self _) fun p hp => changeEntry_ne hp

theorem entriesLoop_changed {page : Path} {body : Nat → Tree → Tree}
  (hb : ∀ i E D R, i < pagetableEntries → C.Changed E0 D E → D+(entryLeaves E0 k (i :: page)+R) ≤ treeLeaves E0 →
    C.Changed E0 (D+entryLeaves E0 k (i :: page)) (body i E)) (n i : Nat) (hn : i+n = pagetableEntries)
    (h : C.Changed E0 D E)
  (ho : D+(leavesIn E0 k page i pagetableEntries+R) ≤ treeLeaves E0) :
  C.Changed E0 (D+leavesIn E0 k page i pagetableEntries) (entriesLoop body n i E) := by
  induction n generalizing i E D with
  | zero =>
    obtain rfl : i = pagetableEntries := hn
    rw [leavesIn_empty _ _ _ le_rfl,add_zero]
    exact h
  | succ n ih =>
    rw [leavesIn_step E0 k page (by omega),add_assoc] at ho
    rw [leavesIn_step E0 k page (by omega),← add_assoc]
    exact ih (i+1) (by omega) (hb i E D _ (by omega) h ho) (by rwa [add_assoc])

theorem changeEntryTypePage_changed (k : Nat) (page : Path) (hk : k+page.length = walkLength) (h : C.Changed E0 D E)
  (ho : D+(leavesIn E0 k page 0 pagetableEntries+R) ≤ treeLeaves E0) :
  C.Changed E0 (D+leavesIn E0 k page 0 pagetableEntries) (C.changeEntryTypePage k page E) := by
  induction k generalizing page E D R with
  | zero =>
    rw [changeEntryTypePage]
    refine entriesLoop_changed (fun i E D R hi h ho => ?_) pagetableEntries 0 rfl h ho
    have hr := h.read hk ho
    rw [hr]
    split_ifs with hp
    · exact h.leaf (entryLeaves_bottom hp) ho
    · exact h.absent (by simpa using hp)
  | succ k ih =>
    rw [changeEntryTypePage]
    refine entriesLoop_changed (fun i E D R hi h ho => ?_) pagetableEntries 0 rfl h ho
    have hr := h.read hk ho
    rw [hr]
    split
    · rename_i hp
      split_ifs with hs
      · exact h.leaf (entryLeaves_super _ hp hs) ho
      · rw [entryLeaves_table k hp (by simpa using hs)] at ho ⊢
        exact ih (i :: page) (by simp only [length_cons]; omega) h ho
    · rename_i hp
      exact h.absent (by simpa using hp)

theorem changed_nil : C.Changed E0 0 E0 := fun _ => ⟨fun h => absurd h (Multiset.notMem_zero _),fun _ => rfl⟩

theorem Changed.unique (h : C.Changed E0 D E) (h' : C.Changed E0 D E') : E = E' := by
  funext q
  by_cases hq : q ∈ D
  · rw [(h q).1 hq,(h' q).1 hq]
  · rw [(h q).2 hq,(h' q).2 hq]

theorem sequential_changed : C.Changed E0 (treeLeaves E0) (C.changeEntryTypePage walkLength [] E0) := by
  have hs : C.Changed E0 0 E0 := changed_nil
  have := changeEntryTypePage_changed (R := 0) walkLength [] rfl hs (by rw [zero_add,add_zero]; exact le_rfl)
  rwa [zero_add] at this

end Change

end Ept
