import Mathlib.Data.List.Nodup

namespace BackLinked

open Function List

def Linked (next prev : Nat → Nat) : Nat → Nat → List Nat → Prop
  | _,h,[] => h = 0
  | a,h,x :: xs => h = x ∧ x ≠ 0 ∧ prev x = a ∧ Linked next prev x (next x) xs

structure Chain (next prev : Nat → Nat) (head : Nat) (L : List Nat) : Prop where
  linked : Linked next prev 0 head L
  nodup : L.Nodup

variable {next prev next' prev' : Nat → Nat} {a h x : Nat} {L : List Nat}

variable (hl : Linked next prev a h L)
include hl

theorem Linked.congr (hn : ∀ y ∈ L, next' y = next y) (ha : ∀ y ∈ L, prev' y = prev y) : Linked next' prev' a h L := by
  induction L generalizing a h with
  | nil => exact hl
  | cons x xs ih =>
    obtain ⟨hh,hx,hp,hr⟩ := hl
    refine ⟨hh,hx,(ha x mem_cons_self).trans hp,?_⟩
    rw [hn x mem_cons_self]
    exact ih hr (fun y hy => hn y (mem_cons_of_mem x hy)) fun y hy => ha y (mem_cons_of_mem x hy)

theorem Linked.ne_zero : ∀ y ∈ L, y ≠ 0 := by
  induction L generalizing a h with
  | nil => exact fun _ hy => absurd hy not_mem_nil
  | cons x xs ih =>
    intro y hy
    rcases mem_cons.mp hy with rfl | hy
    · exact hl.2.1
    · exact ih hl.2.2.2 y hy

theorem Linked.head_mem (hn : h ≠ 0) : h ∈ L := by
  cases L with
  | nil => exact absurd hl hn
  | cons x xs => exact hl.1 ▸ mem_cons_self

theorem Linked.next_mem (hx : x ∈ L) : next x ≠ 0 → next x ∈ L := by
  induction L generalizing a h with
  | nil => exact absurd hx not_mem_nil
  | cons y ys ih =>
    intro hn
    rcases mem_cons.mp hx with rfl | hm
    · exact mem_cons_of_mem _ (hl.2.2.2.head_mem hn)
    · exact mem_cons_of_mem _ (ih hl.2.2.2 hm hn)

theorem Linked.prev_mem (hx : x ∈ L) : prev x = a ∨ prev x ∈ L := by
  induction L generalizing a h with
  | nil => exact absurd hx not_mem_nil
  | cons y ys ih =>
    rcases mem_cons.mp hx with rfl | hm
    · exact Or.inl hl.2.2.1
    right
    rcases ih hl.2.2.2 hm with he | hi
    · exact he ▸ mem_cons_self
    · exact mem_cons_of_mem _ hi

theorem Linked.relink (hn : L.Nodup) (b : Nat) : Linked next (update prev h b) b h L := by
  cases L with
  | nil => exact hl
  | cons x xs =>
    obtain ⟨rfl,hx,-,hr⟩ := hl
    refine ⟨rfl,hx,update_self ..,hr.congr (fun _ _ => rfl) fun y hy => ?_⟩
    exact update_of_ne (ne_of_mem_of_not_mem hy (nodup_cons.mp hn).1) ..

omit hl

section
variable (next prev : Nat → Nat)

def unlinkNext (x : Nat) : Nat → Nat := if prev x ≠ 0 then update next (prev x) (next x) else next

def unlinkPrev (x : Nat) : Nat → Nat := if next x ≠ 0 then update prev (next x) (prev x) else prev

def unlinkHead (head x : Nat) : Nat := if prev x ≠ 0 then head else next x

end

theorem unlinkNext_of_ne {y : Nat} (hy : y ≠ prev x) : unlinkNext next prev x y = next y := by
  rw [unlinkNext]
  split
  · exact update_of_ne hy ..
  · rfl

theorem unlinkPrev_of_ne {y : Nat} (hy : y ≠ next x) : unlinkPrev next prev x y = prev y := by
  rw [unlinkPrev]
  split
  · exact update_of_ne hy ..
  · rfl

theorem Linked.unlink_head {xs : List Nat} (hl : Linked next prev a x (x :: xs)) (hn : (x :: xs).Nodup)
  (ha : a ∉ x :: xs) :
  Linked (unlinkNext next prev x) (unlinkPrev next prev x) a (next x) xs := by
  obtain ⟨-,-,hp,hr⟩ := hl
  have he : ∀ y ∈ xs, unlinkNext next prev x y = next y := fun y hy =>
    unlinkNext_of_ne (hp ▸ ne_of_mem_of_not_mem (mem_cons_of_mem x hy) ha)
  rw [unlinkPrev]
  split
  · rw [hp]
    exact (hr.relink (nodup_cons.mp hn).2 a).congr he fun _ _ => rfl
  rename_i hz
  cases xs with
  | nil => exact hr
  | cons z zs => exact absurd (hr.1 ▸ hr.2.1) hz

theorem Linked.unlink (hl : Linked next prev a h L) (hn : L.Nodup) (ha : a ∉ L) (hx : x ∈ L) :
  Linked (unlinkNext next prev x) (unlinkPrev next prev x) a (if x = h then next x else h) (L.erase x) := by
  induction L generalizing a h with
  | nil => exact absurd hx not_mem_nil
  | cons y ys ih =>
    obtain ⟨hy,ho'⟩ := nodup_cons.mp hn
    have hh := hl.1
    by_cases hb : x = y
    · subst hb
      subst hh
      rw [if_pos rfl,erase_cons_head]
      exact hl.unlink_head hn ha
    have hm : x ∈ ys := (mem_cons.mp hx).resolve_left hb
    obtain ⟨-,hy0,hp,hr⟩ := hl
    have hc : y ≠ next x := fun he =>
      hy (he ▸ hr.next_mem hm (he ▸ hy0))
    rw [hh,if_neg hb,erase_cons_tail (by simpa using Ne.symm hb)]
    refine ⟨rfl,hy0,(unlinkPrev_of_ne hc).trans hp,?_⟩
    have hi : unlinkNext next prev x y = if x = next y then next x else next y := by
      split_ifs with hs
      · have hd : prev x = y := by
          cases ys with
          | nil => exact absurd hm not_mem_nil
          | cons z zs => rw [hs,hr.1,hr.2.2.1]
        rw [unlinkNext,hd,if_pos hy0,update_self]
      refine unlinkNext_of_ne fun he => hs ?_
      cases ys with
      | nil => exact absurd hm not_mem_nil
      | cons z zs =>
        rcases mem_cons.mp hm with rfl | hf
        · exact hr.1.symm
        rcases hr.2.2.2.prev_mem hf with hz | hz
        · exact absurd (by rw [he,hz]; exact mem_cons_self) hy
        · exact absurd (he ▸ mem_cons_of_mem z hz) hy
    rw [hi]
    exact ih hr ho' hy hm

theorem Chain.unlink (hc : Chain next prev h L) (hx : x ∈ L) :
  Chain (unlinkNext next prev x) (unlinkPrev next prev x) (unlinkHead next prev h x) (L.erase x) := by
  refine ⟨?_,hc.nodup.erase x⟩
  have hz : 0 ∉ L := fun hm => hc.linked.ne_zero 0 hm rfl
  have hw := hc.linked.unlink hc.nodup hz hx
  have hh : unlinkHead next prev h x = if x = h then next x else h := by
    rw [unlinkHead]
    cases L with
    | nil => exact absurd hx not_mem_nil
    | cons y ys =>
      obtain ⟨rfl,hy,hp,hr⟩ := hc.linked
      by_cases ha : x = h
      · rw [ha,if_neg (by rw [hp]; exact fun hn => hn rfl),if_pos rfl]
      have hm : x ∈ ys := (mem_cons.mp hx).resolve_left ha
      have hb : prev x ≠ 0 := by
        rcases hr.prev_mem hm with he | hi
        · exact he ▸ hy
        · exact hr.ne_zero _ hi
      rw [if_pos hb,if_neg ha]
  rw [hh]
  exact hw

def linkNext (next : Nat → Nat) (head x : Nat) : Nat → Nat := update next x head

def linkPrev (prev : Nat → Nat) (head x : Nat) : Nat → Nat :=
  if head ≠ 0 then update (update prev x 0) head x else update prev x 0

theorem Chain.link (hc : Chain next prev h L) (hx : x ∉ L) (hx0 : x ≠ 0) :
  Chain (linkNext next h x) (linkPrev prev h x) x (x :: L) := by
  have hold : Linked next (update prev x 0) 0 h L :=
    hc.linked.congr (fun _ _ => rfl) fun y hy =>
      update_of_ne (ne_of_mem_of_not_mem hy hx) ..
  have hn : ∀ y ∈ L, linkNext next h x y = next y := fun y hy =>
    update_of_ne (ne_of_mem_of_not_mem hy hx) ..
  refine ⟨⟨rfl,hx0,?_,?_⟩,nodup_cons.mpr ⟨hx,hc.nodup⟩⟩
  · rw [linkPrev]
    split_ifs with ha
    · have hh : x ≠ h := fun he => hx (he ▸ hc.linked.head_mem ha)
      rw [update_of_ne hh,update_self]
    · exact update_self ..
  rw [linkNext,update_self,← linkNext,linkPrev]
  split
  · exact (hold.relink hc.nodup x).congr hn fun _ _ => rfl
  rename_i hz
  cases L with
  | nil => exact hc.linked
  | cons z zs => exact absurd (hc.linked.1 ▸ hc.linked.2.1) hz

theorem Chain.congr (hc : Chain next prev h L) (hn : ∀ y ∈ L, next' y = next y)
  (hp : ∀ y ∈ L, prev' y = prev y) : Chain next' prev' h L :=
  ⟨hc.linked.congr hn hp,hc.nodup⟩

end BackLinked
