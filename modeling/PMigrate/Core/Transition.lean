import Mathlib.Tactic

namespace Transition

variable {σ α : Type}

section
variable (step : σ → α → Option σ) (allow : σ → α → Prop)

def Rel (s t : σ) : Prop := ∃ a, allow s a ∧ step s a = some t

abbrev Reach : σ → σ → Prop := Relation.ReflTransGen (Rel step allow)

end

variable {s : σ} {step : σ → α → Option σ} {allow : σ → α → Prop} {ok : σ → α → Bool} {as : List α}

theorem reach_invariant {I : σ → Prop} {s0 t : σ} (hi : I s0)
  (hs : ∀ u a v, Reach step allow s0 u → I u → allow u a → step u a = some v → I v) (h : Reach step allow s0 t) :
  I t := by
  induction h with
  | refl => exact hi
  | @tail u v hu hb ih =>
    obtain ⟨a,ha,hv⟩ := hb
    exact hs u a v hu ih ha hv

def runIf (step : σ → α → Option σ) (ok : σ → α → Bool) : σ → List α → Option σ
  | s,[] => some s
  | s,a :: as => if ok s a then (step s a).bind fun t => runIf step ok t as else none

theorem reach_of_runIf (ho : ∀ u a, ok u a = true → allow u a) {t : σ}
  (h : runIf step ok s as = some t) : Reach step allow s t := by
  induction as generalizing s with
  | nil =>
    simp only [runIf,Option.some.injEq] at h
    exact h ▸ .refl
  | cons a as ih =>
    simp only [runIf] at h
    split at h
    · rename_i ha
      obtain ⟨u,hu,hr⟩ := Option.bind_eq_some_iff.mp h
      exact .head ⟨a,ho s a ha,hu⟩ (ih hr)
    · cases h

theorem reach_get (ho : ∀ u a, ok u a = true → allow u a) (h : (runIf step ok s as).isSome = true) :
  Reach step allow s ((runIf step ok s as).get h) := reach_of_runIf ho (Option.some_get h).symm

theorem reach_observed {β : Type} (ho : ∀ u a, ok u a = true → allow u a) {f : σ → β} {x : β}
  (h : (runIf step ok s as).map f = some x) : ∃ t, Reach step allow s t ∧ f t = x := by
  obtain ⟨t,hr,hf⟩ := Option.map_eq_some_iff.mp h
  exact ⟨t,reach_of_runIf ho hr,hf⟩

end Transition
