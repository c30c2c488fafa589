import Mathlib.Data.List.AList

namespace Lookup

variable {α β : Type} [DecidableEq α] {m : AList fun _ : α => β} {k k' : α} {u v : β}

theorem of_insert (h : (m.insert k v).lookup k' = some u) : (k' = k ∧ u = v) ∨ (k' ≠ k ∧ m.lookup k' = some u) := by
  by_cases hk : k' = k
  · rw [hk,AList.lookup_insert] at h
    exact .inl ⟨hk,(Option.some.inj h).symm⟩
  · rw [AList.lookup_insert_ne hk] at h
    exact .inr ⟨hk,h⟩

theorem of_erase (h : (m.erase k).lookup k' = some u) : k' ≠ k ∧ m.lookup k' = some u := by
  by_cases hk : k' = k
  · rw [hk,AList.lookup_erase] at h
    cases h
  · rw [AList.lookup_erase_ne hk] at h
    exact ⟨hk,h⟩

end Lookup
