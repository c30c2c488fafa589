import Mathlib.Tactic

namespace TokenPool

open Function List

variable {τ : Type}

def held (n : Nat) (hold : Nat → Option τ) : List τ := (List.range n).filterMap hold

def tokens (n : Nat) (pool : List τ) (hold : Nat → Option τ) : List τ := pool ++ held n hold

variable {n i j : Nat} {pool : List τ} {hold : Nat → Option τ} {b : τ}

theorem held_succ (n : Nat) (hold : Nat → Option τ) : held (n+1) hold = held n hold ++ (hold n).toList := by
  rw [held,range_succ,filterMap_append,held]
  cases hn : hold n <;> simp [hn]

theorem mem_held : b ∈ held n hold ↔ ∃ i < n, hold i = some b := by simp only [held,mem_filterMap,mem_range]

theorem held_update_of_le (hi : n ≤ i) (x : Option τ) : held n (update hold i x) = held n hold := by
  refine filterMap_congr fun k hk => ?_
  have hl := mem_range.mp hk
  rw [update_of_ne (by omega)]

theorem held_update (hi : i < n) (hn : hold i = none) : (held n (update hold i (some b))).Perm (b :: held n hold) := by
  induction n with
  | zero => exact absurd hi (Nat.not_lt_zero _)
  | succ n ih =>
    rw [held_succ,held_succ]
    by_cases ha : i = n
    · subst ha
      rw [held_update_of_le le_rfl,update_self,hn]
      exact (perm_append_singleton b (held i hold)).trans (by rw [Option.toList_none,append_nil])
    · rw [update_of_ne (Ne.symm ha)]
      exact (ih (by omega)).append_right _

theorem held_release (hi : i < n) (hs : hold i = some b) : (held n hold).Perm (b :: held n (update hold i none)) := by
  have h := held_update (b := b) hi (update_self i none hold)
  rwa [update_idem,update_eq_self_iff.mpr hs.symm] at h

theorem tokens_take (hi : i < n) (hn : hold i = none) :
  (tokens n pool (update hold i (some b))).Perm (tokens n (b :: pool) hold) := by
  rw [tokens,tokens]
  exact ((held_update hi hn).append_left pool).trans perm_middle

theorem tokens_give (hi : i < n) (hs : hold i = some b) :
  (tokens n (pool ++ [b]) (update hold i none)).Perm (tokens n pool hold) := by
  rw [tokens,tokens,append_assoc]
  exact ((held_release hi hs).symm).append_left pool

theorem not_pooled (hn : (tokens n pool hold).Nodup) (hi : i < n) (hs : hold i = some b) : b ∉ pool :=
  fun hb => (nodup_append'.mp hn).2.2 hb (mem_held.mpr ⟨i,hi,hs⟩)

theorem holder_unique (hn : (tokens n pool hold).Nodup) (hi : i < n) (hj : j < n)
  (hs : hold i = some b) (hs' : hold j = some b) : i = j := by
  by_contra he
  have hr : b ∈ held n (update hold i none) :=
    mem_held.mpr ⟨j,hj,by rw [update_of_ne (Ne.symm he)]; exact hs'⟩
  have hh := (held_release hi hs).nodup_iff.mp (nodup_append'.mp hn).2.1
  exact (nodup_cons.mp hh).1 hr

end TokenPool
