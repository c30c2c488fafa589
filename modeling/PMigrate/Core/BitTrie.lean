import Mathlib.Tactic.Common

namespace BitTrie

open Nat

structure Shape where
  (leaf fan : Nat)
  leaf_pos : 0 < leaf
  fan_pos : 0 < fan

def Trie : Nat → Type
  | 0 => Nat → Bool
  | k+1 => Nat → Option (Trie k)

namespace Trie

def blank : (k : Nat) → Trie k
  | 0 => fun _ => false
  | _+1 => fun _ => none

def entry {k : Nat} (node : Option (Trie (k+1))) (i : Nat) : Option (Trie k) := node.bind fun t => t i

def setEntry {k : Nat} (t : Trie (k+1)) (i : Nat) (c : Option (Trie k)) : Trie (k+1) :=
  fun j => if j = i then c else t j

def setBit (l : Trie 0) (i : Nat) : Trie 0 := fun j => if j = i then true else l j

theorem setEntry_self {k : Nat} (t : Trie (k+1)) (i : Nat) : t.setEntry i (entry (some t) i) = t := by
  funext j
  by_cases hj : j = i
  · exact (if_pos hj).trans (congrArg t hj.symm)
  · exact if_neg hj

end Trie

namespace Shape

variable (S : Shape)

def span : Nat → Nat
  | 0 => S.leaf
  | k+1 => span k*S.fan

def index : Nat → Nat → Nat
  | 0,n => n%S.leaf
  | k+1,n => n/S.span k%S.fan

def view : (k : Nat) → Option (Trie k) → Nat → Bool
  | _,none,_ => false
  | 0,some l,n => l (S.index 0 n)
  | k+1,some t,n => view k (t (S.index (k+1) n)) n

theorem span_pos (k : Nat) : 0 < S.span k := by
  induction k with
  | zero => exact S.leaf_pos
  | succ k ih => exact Nat.mul_pos ih S.fan_pos

theorem leaf_dvd_span (k : Nat) : S.leaf ∣ S.span k := by
  induction k with
  | zero => exact Nat.dvd_refl _
  | succ k ih => exact Nat.dvd_mul_right_of_dvd ih _

theorem mod_span_succ (k n : Nat) : n%S.span (k+1) = S.span k*S.index (k+1) n+n%S.span k := by
  rw [span,Nat.mod_mul,Nat.add_comm]
  rfl

theorem index_lt (k n : Nat) : S.index (k+1) n < S.fan := mod_lt _ S.fan_pos

theorem mod_span_succ_eq (k m n : Nat) : m%S.span (k+1) = n%S.span (k+1) ↔
    S.index (k+1) m = S.index (k+1) n ∧ m%S.span k = n%S.span k := by
  have hm := mod_lt m (S.span_pos k)
  have hn := mod_lt n (S.span_pos k)
  constructor
  · intro h
    have hd := congrArg (· / S.span k) h
    have ho := congrArg (· % S.span k) h
    simp only [mod_span_succ,Nat.mul_add_div (S.span_pos k),Nat.div_eq_of_lt hm,Nat.div_eq_of_lt hn,Nat.add_zero] at hd
    simp only [mod_span_succ,mul_add_mod,mod_mod] at ho
    exact ⟨hd,ho⟩
  · rintro ⟨hi,hr⟩
    rw [mod_span_succ,mod_span_succ,hi,hr]

variable {k : Nat}

theorem index_of_offset {b n i : Nat} (hb : S.span (k+1) ∣ b) (hi : i < S.fan)
  (hl : b+S.span k*i ≤ n) (hh : n < b+S.span k*(i+1)) : S.index (k+1) n = i := by
  obtain ⟨q,rfl⟩ := hb
  have hn : n = S.span k*(S.fan*q+i)+(n-S.span k*(S.fan*q+i)) := by
    have : S.span (k+1)*q = S.span k*(S.fan*q) := by rw [span,Nat.mul_assoc]
    have := Nat.mul_add (S.span k) (S.fan*q) i
    omega
  have hr : n-S.span k*(S.fan*q+i) < S.span k := by
    have : S.span (k+1)*q = S.span k*(S.fan*q) := by rw [span,Nat.mul_assoc]
    have := Nat.mul_add (S.span k) (S.fan*q) i
    have := Nat.mul_add (S.span k) i 1
    omega
  rw [index,hn,Nat.mul_add_div (S.span_pos k),Nat.div_eq_of_lt hr,Nat.add_zero,mul_add_mod,mod_eq_of_lt hi]

@[simp] theorem view_none (k n : Nat) : S.view k none n = false := by cases k <;> rfl

theorem view_leaf (l : Trie 0) (n : Nat) : S.view 0 (some l) n = l (S.index 0 n) := rfl

theorem view_node (node : Option (Trie (k+1))) (n : Nat) :
  S.view (k+1) node n = S.view k (Trie.entry node (S.index (k+1) n)) n := by
  cases node with
  | none => simp [Trie.entry]
  | some t => rfl

@[simp] theorem view_blank (k n : Nat) : S.view k (some (Trie.blank k)) n = false := by
  cases k with
  | zero => rfl
  | succ k => exact S.view_none k n

theorem view_setBit (l : Trie 0) (m n : Nat) : S.view 0 (some (l.setBit (S.index 0 n))) m =
    (S.view 0 (some l) m || decide (m%S.span 0 = n%S.span 0)) := by
  change (if m%S.leaf = n%S.leaf then true else l (m%S.leaf)) =
    (l (m%S.leaf) || decide (m%S.leaf = n%S.leaf))
  by_cases h : m%S.leaf = n%S.leaf <;> simp [h]

theorem entry_setEntry (t : Trie (k+1)) (i j : Nat) (c : Option (Trie k)) :
  Trie.entry (some (t.setEntry i c)) j = if j = i then c else Trie.entry (some t) j := rfl

theorem view_setEntry (t : Trie (k+1)) (i n : Nat) (c : Option (Trie k)) : S.view (k+1) (some (t.setEntry i c)) n =
    if S.index (k+1) n = i then S.view k c n else S.view (k+1) (some t) n := by
  rw [view_node,entry_setEntry,view_node S (some t)]
  split <;> rfl

end Shape

end BitTrie
