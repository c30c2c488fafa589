import Mathlib.Data.List.Basic

namespace BlockChain

open List

variable {σ τ α : Type}

def run (k : Nat) (f : σ → List α → σ × List α) : Nat → σ → List α → σ × List α
  | 0,s,_ => (s,[])
  | n+1,s,xs =>
    let r := f s (xs.take k)
    let rest := run k f n r.1 (xs.drop k)
    (rest.1,r.2 ++ rest.2)

structure Inverts (k : Nat) (enc : σ → List α → σ × List α) (dec : τ → List α → τ × List α)
    (inStep : σ → τ → Prop) : Prop where
  length : ∀ s xs, xs.length = k → (enc s xs).2.length = k
  recovers : ∀ s t xs, inStep s t → xs.length = k → (dec t (enc s xs).2).2 = xs
  stays : ∀ s t xs, inStep s t → xs.length = k → inStep (enc s xs).1 (dec t (enc s xs).2).1

section
variable {k : Nat} {f : σ → List α → σ × List α}

variable {xs : List α}

theorem run_append (n m : Nat) (s : σ) (ys : List α) (h : xs.length = n*k) :
  run k f (n+m) s (xs ++ ys) =
    ((run k f m (run k f n s xs).1 ys).1,(run k f n s xs).2 ++ (run k f m (run k f n s xs).1 ys).2) := by
  induction n generalizing s xs with
  | zero =>
    rw [Nat.zero_mul,length_eq_zero_iff] at h
    simp [h,run]
  | succ n ih =>
    rw [Nat.succ_mul] at h
    have hk : k ≤ xs.length := by omega
    have hd : (xs.drop k).length = n*k := by
      rw [length_drop]
      omega
    have hr := ih (f s (xs.take k)).1 hd
    rw [Nat.succ_add,run,take_append_of_le_length hk,drop_append_of_le_length hk,hr]
    simp [run]

theorem run_cut (n : Nat) (s : σ) (ys : List α) (h : xs.length = n*k) : run k f n s (xs ++ ys) = run k f n s xs := by
  have ha := run_append n 0 s ys (f := f) h
  simpa [run] using ha

theorem length_run (hf : ∀ s xs, xs.length = k → (f s xs).2.length = k) (n : Nat) (s : σ)
  (h : xs.length = n*k) : (run k f n s xs).2.length = n*k := by
  induction n generalizing s xs with
  | zero => simp [run]
  | succ n ih =>
    rw [Nat.succ_mul] at h
    have hh := hf s (xs.take k) (length_take_of_le (by omega))
    have hd : (xs.drop k).length = n*k := by
      rw [length_drop]
      omega
    have hr := ih (f s (xs.take k)).1 hd
    rw [run,length_append,hh,hr,Nat.succ_mul,Nat.add_comm]

end

theorem run_inverts {k : Nat} {enc : σ → List α → σ × List α} {dec : τ → List α → τ × List α}
  {inStep : σ → τ → Prop} (hi : Inverts k enc dec inStep) (n : Nat) {s : σ} {t : τ}
  {xs : List α} (hc : inStep s t) (h : xs.length = n*k) : (run k dec n t (run k enc n s xs).2).2 = xs ∧
    inStep (run k enc n s xs).1 (run k dec n t (run k enc n s xs).2).1 := by
  induction n generalizing s t xs with
  | zero =>
    rw [Nat.zero_mul,length_eq_zero_iff] at h
    exact ⟨h.symm,hc⟩
  | succ n ih =>
    rw [Nat.succ_mul] at h
    have hh : (xs.take k).length = k := length_take_of_le (by omega)
    have ho := hi.length s _ hh
    have ht : (xs.drop k).length = n*k := by
      rw [length_drop]
      omega
    obtain ⟨hb,hs⟩ := ih (hi.stays s t _ hc hh) ht
    have ha : ((enc s (xs.take k)).2 ++ (run k enc n (enc s (xs.take k)).1 (xs.drop k)).2).take k =
        (enc s (xs.take k)).2 := take_left' ho
    have hd : ((enc s (xs.take k)).2 ++ (run k enc n (enc s (xs.take k)).1 (xs.drop k)).2).drop k =
        (run k enc n (enc s (xs.take k)).1 (xs.drop k)).2 := drop_left' ho
    simp only [run,ha,hd,hb,hi.recovers s t _ hc hh,take_append_drop]
    exact ⟨trivial,hs⟩

end BlockChain
