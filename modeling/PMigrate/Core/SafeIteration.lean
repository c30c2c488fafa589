import Mathlib.Data.List.Nodup

namespace SafeIteration

open List

variable {A σ : Type} [DecidableEq A]

def succOf : List A → A → Option A
  | [],_ => none
  | y :: ys,x => if y = x then ys.head? else succOf ys x

-- A walk over a list that lives in the state, by a body that may unlink or move the element it is
-- at: the successor is read before the body runs.
def forEachSafe (list : σ → List A) (body : A → σ → Option σ) : Nat → Option A → σ → Option σ
  | _,none,s => some s
  | 0,some _,_ => none
  | n+1,some x,s => (body x s).bind (forEachSafe list body n (succOf (list s) x))

variable {rest : List A} {n : Nat} {x : A}

theorem succOf_append {pre : List A} (h : (pre ++ x :: rest).Nodup) : succOf (pre ++ x :: rest) x = rest.head? := by
  induction pre with
  | nil => exact if_pos rfl
  | cons y ys ih =>
    obtain ⟨hy,hs⟩ := nodup_cons.mp h
    have hn : y ≠ x := fun he => hy (he ▸ mem_append_right _ mem_cons_self)
    exact (if_neg hn).trans (ih hs)

theorem suffix_erase {l : List A} (h : rest <:+ l) (hx : x ∉ rest) : rest <:+ l.erase x := by
  obtain ⟨pre,rfl⟩ := h
  by_cases hp : x ∈ pre
  · rw [erase_append_left _ hp]
    exact suffix_append ..
  · rw [erase_append_right _ hp,erase_of_not_mem hx]
    exact suffix_append ..

variable {list : σ → List A} {body : A → σ → Option σ} {P : List A → σ → Prop} {Bad : Prop}

theorem forEachSafe_rule (ht : ∀ rest s, P rest s → (list s).Nodup ∧ rest <:+ list s)
  (hb : ∀ x rest s, P (x :: rest) s → (∃ s', body x s = some s' ∧ P rest s') ∨ (Bad ∧ body x s = none))
  {s : σ} (hn : rest.length ≤ n) (h : P rest s) : (∃ s', forEachSafe list body n rest.head? s = some s' ∧ P [] s') ∨
    (Bad ∧ forEachSafe list body n rest.head? s = none) := by
  induction rest generalizing n s with
  | nil => exact .inl ⟨s,by cases n <;> rfl,h⟩
  | cons x rest ih =>
    obtain ⟨m,rfl⟩ : ∃ m, n = m+1 := ⟨n-1,by simp only [length_cons] at hn; omega⟩
    have hm : rest.length ≤ m := Nat.le_of_succ_le_succ hn
    obtain ⟨ho,pre,hp⟩ := ht _ _ h
    have hu : succOf (list s) x = rest.head? := by
      rw [← hp]
      exact succOf_append (hp ▸ ho)
    rw [List.head?_cons,forEachSafe,hu]
    rcases hb x rest s h with ⟨s',hs,hP⟩ | ⟨ha,hs⟩
    · rw [hs]
      exact ih hm hP
    · exact .inr ⟨ha,by rw [hs]; rfl⟩

end SafeIteration
