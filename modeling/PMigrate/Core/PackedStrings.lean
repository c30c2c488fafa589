import Mathlib.Data.List.TakeWhile

namespace PackedStrings

open List

variable {α : Type} {t : α}

def pack (t : α) (ss : List (List α)) : List α := ss.flatMap (· ++ [t])

@[simp] theorem pack_cons (s : List α) (ss : List (List α)) : pack t (s :: ss) = s ++ t :: pack t ss := by
  simp [pack]

theorem pack_concat (s : List α) (ss : List (List α)) : pack t (ss ++ [s]) = pack t ss ++ (s ++ [t]) := by
  simp [pack]

theorem length_le_pack (ss : List (List α)) : ss.length ≤ (pack t ss).length := by
  induction ss with
  | nil => exact le_rfl
  | cons s ss ih =>
    rw [pack_cons,length_append,length_cons,length_cons]
    omega

variable [DecidableEq α]

def unpack (t : α) : List α → List (List α)
  | [] => []
  | c :: cs =>
      if c = t then [] :: unpack t cs
      else match unpack t cs with
        | [] => [[c]]
        | s :: ss => (c :: s) :: ss

def first (t : α) (buf : List α) : List α := buf.takeWhile (· ≠ t)

def afterFirst (t : α) (buf : List α) : List α := buf.drop ((first t buf).length+1)

def cutString (t : α) (key : List α) : Nat → List α → Option (List α)
  | 0,_ => none
  | n+1,buf =>
      if buf = [] then none
      else if first t buf = key then some (afterFirst t buf)
      else (cutString t key n (afterFirst t buf)).map (first t buf ++ t :: ·)

variable {s : List α} {ss : List (List α)}

theorem first_append (hs : t ∉ s) (rest : List α) : first t (s ++ t :: rest) = s := by
  induction s with
  | nil => simp [first]
  | cons c s ih =>
    obtain ⟨hc,hs⟩ := not_or.mp (mt mem_cons.mpr hs)
    rw [first,cons_append,takeWhile_cons_of_pos (by simpa using Ne.symm hc)]
    exact congrArg (c :: ·) (ih hs)

theorem afterFirst_append (hs : t ∉ s) (rest : List α) : afterFirst t (s ++ t :: rest) = rest := by
  rw [afterFirst,first_append hs,← singleton_append,← append_assoc]
  exact drop_left' (by simp)

theorem unpack_append (hs : t ∉ s) (rest : List α) : unpack t (s ++ t :: rest) = s :: unpack t rest := by
  induction s with
  | nil => exact if_pos rfl
  | cons c s ih =>
    obtain ⟨hc,hs⟩ := not_or.mp (mt mem_cons.mpr hs)
    rw [cons_append,unpack,if_neg (Ne.symm hc),ih hs]

theorem unpack_pack (ha : ∀ s ∈ ss, t ∉ s) : unpack t (pack t ss) = ss := by
  induction ss with
  | nil => rfl
  | cons s ss ih =>
    obtain ⟨hs,ha⟩ := forall_mem_cons.mp ha
    rw [pack_cons,unpack_append hs,ih ha]

theorem cutString_pack {key : List α} (ha : ∀ s ∈ ss, t ∉ s) {n : Nat} (hn : ss.length ≤ n) :
  cutString t key n (pack t ss) = if key ∈ ss then some (pack t (ss.erase key)) else none := by
  induction ss generalizing n with
  | nil => cases n <;> rfl
  | cons s ss ih =>
    obtain ⟨hs,ha⟩ := forall_mem_cons.mp ha
    obtain ⟨m,rfl⟩ : ∃ m, n = m+1 := ⟨n-1,by simp only [length_cons] at hn; omega⟩
    rw [cutString,pack_cons,if_neg (by simp),first_append hs,afterFirst_append hs]
    by_cases hk : s = key
    · rw [if_pos hk,hk,if_pos mem_cons_self,erase_cons_head]
    rw [if_neg hk,ih ha (Nat.le_of_succ_le_succ hn)]
    by_cases hm : key ∈ ss
    · rw [if_pos hm,if_pos (mem_cons_of_mem _ hm),erase_cons_tail (by simpa using hk)]
      simp
    · rw [if_neg hm,if_neg (by simp [hm,Ne.symm hk])]
      rfl

end PackedStrings
