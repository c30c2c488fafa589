import Mathlib.Tactic

namespace IntervalList

open List

structure Interval where
  (s e : Nat)
  deriving DecidableEq

def Interval.Contains (r : Interval) (n : Nat) : Prop := r.s ≤ n ∧ n ≤ r.e

def Member (l : List Interval) (n : Nat) : Prop := ∃ r ∈ l, r.Contains n

def Before (a b : Interval) : Prop := a.e+1 < b.s

structure Proper (bound : Nat) (r : Interval) : Prop where
  nonempty : r.s ≤ r.e
  bounded : r.e < bound

structure Canonical (bound : Nat) (l : List Interval) : Prop where
  apart : l.Pairwise Before
  proper : ∀ r ∈ l, Proper bound r

variable {bound n : Nat} {l m : List Interval} {r q : Interval}

@[simp] theorem not_member_nil : ¬Member [] n := fun ⟨_,h,_⟩ => by cases h

@[simp] theorem member_cons : Member (r :: l) n ↔ r.Contains n ∨ Member l n := by simp [Member]

@[simp] theorem member_append : Member (l ++ m) n ↔ Member l n ∨ Member m n := by
  simp only [Member,mem_append,or_and_right,exists_or]

theorem canonical_nil : Canonical bound [] := ⟨List.Pairwise.nil,fun _ h => by cases h⟩

theorem canonical_cons : Canonical bound (r :: l) ↔ Proper bound r ∧ Canonical bound l ∧ ∀ q ∈ l, Before r q := by
  refine ⟨fun h => ?_,fun ⟨hr,hl,hb⟩ => ?_⟩
  · obtain ⟨hb,hl⟩ := pairwise_cons.mp h.apart
    exact ⟨h.proper r (by simp),⟨hl,fun q hq => h.proper q (by simp [hq])⟩,hb⟩
  · exact ⟨pairwise_cons.mpr ⟨hb,hl.apart⟩,fun q hq => (mem_cons.mp hq).elim (fun he => he ▸ hr) (hl.proper q)⟩

theorem canonical_append : Canonical bound (l ++ m) ↔ Canonical bound l ∧ Canonical bound m ∧ ∀ a ∈ l, ∀ b ∈ m,
  Before a b := by
  refine ⟨fun h => ?_,fun ⟨hl,hm,hb⟩ => ?_⟩
  · obtain ⟨hl,hm,hb⟩ := pairwise_append.mp h.apart
    exact ⟨⟨hl,fun q hq => h.proper q (by simp [hq])⟩,⟨hm,fun q hq => h.proper q (by simp [hq])⟩,hb⟩
  · exact ⟨pairwise_append.mpr ⟨hl.apart,hm.apart,hb⟩,fun q hq => (mem_append.mp hq).elim (hl.proper q) (hm.proper q)⟩

theorem Before.lt_of_proper (h : Before r q) (hr : r.s ≤ r.e) : r.s < q.s := by
  rw [Before] at h
  omega

theorem Before.trans {p : Interval} (h : Before p r) (hr : r.s ≤ r.e) (hq : Before r q) : Before p q := by
  rw [Before] at h hq ⊢
  omega

theorem before_cons (hr : r.s ≤ r.e) (hl : ∀ q ∈ l, Before r q) {p : Interval} (h : Before p r) :
  ∀ q ∈ r :: l, Before p q := by
  intro q hq
  rcases mem_cons.mp hq with rfl | hq
  · exact h
  · exact h.trans hr (hl q hq)

theorem canonical_link (hl : Canonical bound l) (hm : Canonical bound (r :: m))
  (h : ∀ p ∈ l, Before p r) : Canonical bound (l ++ r :: m) := by
  obtain ⟨hr,-,ha⟩ := canonical_cons.mp hm
  exact canonical_append.mpr ⟨hl,hm,fun p hp => before_cons hr.nonempty ha (h p hp)⟩

theorem Canonical.head_le (h : Canonical bound (r :: l)) (hq : q ∈ r :: l) : r.s ≤ q.s := by
  obtain ⟨hr,-,hb⟩ := canonical_cons.mp h
  rcases mem_cons.mp hq with rfl | hq
  · exact le_rfl
  · exact ((hb q hq).lt_of_proper hr.nonempty).le

theorem Canonical.le_last (h : Canonical bound (l ++ [r])) (hq : q ∈ l ++ [r]) : q.e ≤ r.e := by
  obtain ⟨-,hr,hb⟩ := canonical_append.mp h
  have hp := (hr.proper r (by simp)).nonempty
  rcases mem_append.mp hq with hq | hq
  · have he := hb q hq r (by simp)
    rw [Before] at he
    omega
  · rw [mem_singleton.mp hq]

end IntervalList
