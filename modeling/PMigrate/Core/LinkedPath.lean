import Mathlib.Data.List.Range

namespace LinkedPath

def Path (next : Nat → Nat) : Nat → List Nat → Nat → Prop
  | a,[],b => a = b
  | a,x :: xs,b => a = x ∧ Path next (next x) xs b

variable {next next' : Nat → Nat} {a b : Nat} {L : List Nat}

theorem Path.congr (hp : Path next a L b) (he : ∀ x ∈ L, next' x = next x) : Path next' a L b := by
  induction L generalizing a with
  | nil => exact hp
  | cons x xs ih =>
    refine ⟨hp.1,?_⟩
    rw [he x List.mem_cons_self]
    exact ih hp.2 fun y hy => he y (List.mem_cons_of_mem x hy)

theorem Path.head_mem (hp : Path next a L b) (ha : a ≠ b) : ∃ xs, L = a :: xs ∧ Path next (next a) xs b := by
  cases L with
  | nil => exact absurd hp ha
  | cons x xs =>
    obtain ⟨rfl,hr⟩ := hp
    exact ⟨xs,rfl,hr⟩

theorem Path.snoc (hp : Path next a L b) {c : Nat} (hb : next b = c) : Path next a (L ++ [b]) c := by
  induction L generalizing a with
  | nil => exact ⟨hp,hb⟩
  | cons x xs ih => exact ⟨hp.1,ih hp.2⟩

theorem Path.range (next : Nat → Nat) (a n : Nat) (hq : ∀ x, a ≤ x → x < a+n → next x = x+1) :
  Path next a (List.range' a n) (a+n) := by
  induction n generalizing a with
  | zero => rfl
  | succ n ih =>
    rw [List.range'_succ]
    refine ⟨rfl,?_⟩
    have he : a+(n+1) = a+1+n := by omega
    rw [hq a le_rfl (by omega),he]
    exact ih (a+1) fun x hx hl => hq x (by omega) (by omega)

end LinkedPath
