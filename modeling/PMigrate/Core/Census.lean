import Mathlib.Data.Set.Card

namespace Census

open Function Nat List Bool

def Marked (f : Nat → Bool) : Set Nat := {x | f x = true}

noncomputable def census (f : Nat → Bool) : Nat := (Marked f).ncard

def fill (f : Nat → Bool) (a n : Nat) (b : Bool) : Nat → Bool := fun x => if a ≤ x ∧ x < a+n then b else f x

def tally (f : Nat → Bool) (a n : Nat) : Nat := (List.range n).countP fun i => f (a+i)

variable {f : Nat → Bool} {a n x : Nat} {b : Bool}

theorem marked_update_true : Marked (update f x true) = insert x (Marked f) := by
  ext y
  simp only [Marked,Set.mem_ofPred_eq,Set.mem_insert_iff]
  by_cases hy : y = x
  · rw [hy,update_self]
    exact iff_of_true rfl (Or.inl rfl)
  · rw [update_of_ne hy]
    exact ⟨Or.inr,fun h => h.resolve_left hy⟩

theorem marked_update_false : Marked (update f x false) = Marked f \ {x} := by
  ext y
  simp only [Marked,Set.mem_ofPred_eq,Set.mem_sdiff,Set.mem_singleton_iff]
  by_cases hy : y = x
  · rw [hy,update_self]
    exact iff_of_false false_ne_true fun h => h.2 rfl
  · rw [update_of_ne hy]
    exact ⟨fun h => ⟨h,hy⟩,fun h => h.1⟩

theorem finite_update (hf : (Marked f).Finite) : (Marked (update f x b)).Finite := by
  cases b with
  | true => exact marked_update_true ▸ hf.insert x
  | false => exact marked_update_false ▸ hf.sdiff

theorem census_update (hf : (Marked f).Finite) : census (update f x b)+(f x).toNat = census f+b.toNat := by
  cases b with
  | true =>
    rw [census,census,marked_update_true]
    cases hx : f x with
    | true => rw [Set.insert_eq_of_mem (show x ∈ Marked f from hx)]
    | false =>
      have hn : x ∉ Marked f := fun h => false_ne_true (hx.symm.trans h)
      rw [Set.ncard_insert_of_notMem hn hf]
      rfl
  | false =>
    rw [census,census,marked_update_false]
    cases hx : f x with
    | true => exact Set.ncard_sdiff_singleton_add_one hx hf
    | false =>
      have hn : x ∉ Marked f := fun h => false_ne_true (hx.symm.trans h)
      rw [Set.sdiff_singleton_eq_self hn]

theorem fill_zero : fill f a 0 b = f := by
  funext y
  exact if_neg (by omega)

theorem fill_succ : fill f a (n+1) b = update (fill f a n b) (a+n) b := by
  funext y
  by_cases hy : y = a+n
  · rw [hy,update_self]
    exact if_pos (by omega)
  · rw [update_of_ne hy,fill,fill]
    exact if_congr (by omega) rfl rfl

theorem fill_one : fill f a 1 b = update f a b := by
  rw [fill_succ,fill_zero]
  rfl

theorem tally_succ : tally f a (n+1) = tally f a n+(f (a+n)).toNat := by
  rw [tally,range_succ,countP_append,countP_singleton]
  cases f (a+n) <;> rfl

theorem tally_one : tally f a 1 = (f a).toNat := by
  rw [tally_succ]
  exact zero_add _

theorem census_fill (hf : (Marked f).Finite) (a n : Nat) (b : Bool) :
  (Marked (fill f a n b)).Finite ∧ census (fill f a n b)+tally f a n = census f+n*b.toNat := by
  induction n with
  | zero =>
    rw [fill_zero]
    exact ⟨hf,by rw [zero_mul]; rfl⟩
  | succ n ih =>
    have hl : fill f a n b (a+n) = f (a+n) := if_neg (by omega)
    have hs := census_update (x := a+n) (b := b) ih.1
    rw [hl] at hs
    rw [fill_succ,tally_succ,succ_mul]
    exact ⟨finite_update ih.1,by omega⟩

theorem tally_of_all (h : ∀ i, i < n → f (a+i) = b) : tally f a n = n*b.toNat := by
  induction n with
  | zero => exact (zero_mul _).symm
  | succ n ih => rw [tally_succ,ih fun i hi => h i (lt_succ_of_lt hi),h n (lt_succ_self n),succ_mul]

end Census
