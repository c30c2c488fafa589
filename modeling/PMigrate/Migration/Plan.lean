import Mathlib.Data.List.Range

namespace Migration

open Nat List

def maxBatchSize : Nat := 1024

def loadBatch (send : Nat → Bool) : Nat → Nat → Nat → List Nat × Nat
  | 0,_,N => ([],N)
  | _+1,0,N => ([],N)
  | left+1,room+1,N =>
    if send N then
      let r := loadBatch send left room (N+1)
      (N :: r.1,r.2)
    else loadBatch send left (room+1) (N+1)

def pagesIn (send : Nat → Bool) (lo hi : Nat) : List Nat := (List.range' lo (hi-lo)).filter send

theorem pagesIn_empty (send : Nat → Bool) (N : Nat) : pagesIn send N N = [] := by simp [pagesIn]

theorem mem_pagesIn {send : Nat → Bool} {lo hi n : Nat} : n ∈ pagesIn send lo hi ↔ lo ≤ n ∧ n < hi ∧ send n = true := by
  simp only [pagesIn,mem_filter,mem_range'_1]
  constructor
  · rintro ⟨⟨h1,h2⟩,h3⟩
    exact ⟨h1,by omega,h3⟩
  · rintro ⟨h1,h2,h3⟩
    exact ⟨⟨h1,by omega⟩,h3⟩

theorem pagesIn_cons {send : Nat → Bool} {lo hi : Nat} (h : lo < hi) : pagesIn send lo hi =
    if send lo then lo :: pagesIn send (lo+1) hi else pagesIn send (lo+1) hi := by
  obtain ⟨d,hd⟩ : ∃ d, hi-lo = d+1 := ⟨hi-lo-1,by omega⟩
  have hd' : hi-(lo+1) = d := by omega
  simp only [pagesIn,hd,hd',List.range'_succ,filter_cons]

theorem pagesIn_append {send : Nat → Bool} {lo mid hi : Nat} (h1 : lo ≤ mid) (h2 : mid ≤ hi) :
  pagesIn send lo mid ++ pagesIn send mid hi = pagesIn send lo hi := by
  have hs : List.range' lo (hi-lo) = List.range' lo (mid-lo) ++ List.range' mid (hi-mid) := by
    have ha := @List.range'_append lo (mid-lo) (hi-mid) 1
    have hm : lo+1*(mid-lo) = mid := by omega
    have hl : mid-lo+(hi-mid) = hi-lo := by omega
    rw [hm,hl] at ha
    exact ha.symm
  simp only [pagesIn,hs,filter_append]

structure LoadSpec (send : Nat → Bool) (left room N : Nat) (r : List Nat × Nat) : Prop where
  lower : N ≤ r.2
  upper : r.2 ≤ N+left
  pages : r.1 = pagesIn send N r.2
  short : r.1.length ≤ room
  full : r.2 = N+left ∨ r.1.length = room

theorem loadBatch_spec (send : Nat → Bool) (left room N : Nat) :
  LoadSpec send left room N (loadBatch send left room N) := by
  induction left generalizing room N with
  | zero => exact ⟨le_rfl,le_rfl,(pagesIn_empty send N).symm,zero_le _,.inl rfl⟩
  | succ left ih =>
    cases room with
    | zero => exact ⟨le_rfl,le_add_right _ _,(pagesIn_empty send N).symm,le_rfl,.inr rfl⟩
    | succ room =>
      by_cases hN : send N = true
      · obtain ⟨hl,hu,hp,hs,hf⟩ := ih room (N+1)
        simp only [loadBatch,hN,if_true]
        refine ⟨by dsimp only; omega,by dsimp only; omega,?_,?_,?_⟩
        · rw [pagesIn_cons (by omega),if_pos hN,← hp]
        · simpa using hs
        · rcases hf with hf | hf
          · exact .inl (by dsimp only; omega)
          · exact .inr (by simp [hf])
      obtain ⟨hl,hu,hp,hs,hf⟩ := ih (room+1) (N+1)
      simp only [loadBatch,hN]
      refine ⟨by simp; omega,by simp; omega,?_,by simpa using hs,?_⟩
      · simp only [Bool.false_eq_true,if_false]
        rw [pagesIn_cons (by omega),if_neg hN,← hp]
      rcases hf with hf | hf
      · exact .inl (by simp; omega)
      · exact .inr (by simpa using hf)

structure Plan where
  p2mSize : Nat
  rounds : List (Nat → Bool)
  final : Nat → Bool
  resend : Option (Nat → Bool)

namespace Plan

variable (p : Plan)

def iterations : List (Nat → Bool) := p.rounds ++ p.final :: p.resend.toList

def send (k : Nat) : Nat → Bool := p.iterations.getD k (fun _ => false)

def lastIter (k : Nat) : Bool := decide (p.rounds.length ≤ k)

def ends (k : Nat) : Bool := decide (p.iterations.length ≤ k+1)

def batchFrom (k N : Nat) : List Nat × Nat := loadBatch (p.send k) (p.p2mSize-N) maxBatchSize N

def pages (k : Nat) : List Nat := pagesIn (p.send k) 0 p.p2mSize

def Leaks (k : Nat) : Prop :=
  p.pages k ≠ [] ∧ (p.pages k).length%maxBatchSize = 0 ∧ p.send k (p.p2mSize-1) = false

def Sealed : Prop := ∀ k, p.Leaks k → ∀ j, k < j → p.pages j = []

def Aligned (k N : Nat) : Prop :=
  N ≤ p.p2mSize ∧ (N = p.p2mSize ∨ (pagesIn (p.send k) 0 N).length%maxBatchSize = 0)

theorem aligned_zero (k : Nat) : p.Aligned k 0 := ⟨zero_le _,.inr (by simp [pagesIn])⟩

theorem batchFrom_spec (k N : Nat) : LoadSpec (p.send k) (p.p2mSize-N) maxBatchSize N (p.batchFrom k N) :=
  loadBatch_spec _ _ _ _

variable {p}

theorem aligned_next {k N : Nat} (h : p.Aligned k N) (hN : N < p.p2mSize) : p.Aligned k (p.batchFrom k N).2 := by
  obtain ⟨hl,hu,hp,_,hf⟩ := p.batchFrom_spec k N
  refine ⟨by omega,?_⟩
  rcases hf with hf | hf
  · exact .inl (by omega)
  right
  rcases h.2 with he | he
  · omega
  · rw [← pagesIn_append (zero_le N) hl,length_append,← hp,hf,add_mod_right]
    exact he

theorem no_pages_after {k N : Nat} (hN : N < p.p2mSize) (hb : (p.batchFrom k N).1 = []) :
  pagesIn (p.send k) N p.p2mSize = [] := by
  obtain ⟨hl,hu,hp,_,hf⟩ := p.batchFrom_spec k N
  rcases hf with hf | hf
  · have he : (p.batchFrom k N).2 = p.p2mSize := by omega
    rw [he] at hp
    rw [← hp,hb]
  · rw [hb] at hf
    simp [maxBatchSize] at hf

theorem leaks_of_empty_batch {k N : Nat} (h : p.Aligned k N) (hN : N < p.p2mSize)
  (hb : (p.batchFrom k N).1 = []) (hs : pagesIn (p.send k) 0 N ≠ []) : p.Leaks k := by
  have hr := no_pages_after hN hb
  have ha : p.pages k = pagesIn (p.send k) 0 N := by
    rw [pages,← pagesIn_append (zero_le N) hN.le,hr,append_nil]
  refine ⟨ha ▸ hs,?_,?_⟩
  · rw [ha]
    rcases h.2 with he | he
    · omega
    · exact he
  by_contra hl
  have hm : p.p2mSize-1 ∈ pagesIn (p.send k) N p.p2mSize :=
    mem_pagesIn.mpr ⟨by omega,by omega,by simpa using hl⟩
  simp [hr] at hm

end Plan

end Migration
