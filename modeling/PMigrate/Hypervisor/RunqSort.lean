import PMigrate.Core.LinkedRing

namespace RunqSort

open LinkedRing Function List

variable {A : Type} [DecidableEq A]

def priTsUnder : Int := -1

structure Links (A : Type) where
  (next prev : A → A)

structure Pcpu (A : Type) where
  links : Links A
  runqSortLast : Nat

section
variable (l : Links A) (elem : A)

-- LIST_POISON is not written: list_add sets both fields of the element again
def listDel : Links A := ⟨update l.next (l.prev elem) (l.next elem),update l.prev (l.next elem) (l.prev elem)⟩

def listAdd (head : A) : Links A := ⟨insertNext l.next head elem,insertPrev l.next l.prev head elem⟩

def moveUp (lastUnder : A) : Links A :=
  if l.prev elem ≠ lastUnder then listAdd (listDel l elem) elem lastUnder else l

end

-- none: the walk has not come back to the queue's head
def sortFrom (pri : A → Int) (runq : A) : Nat → A → A → Links A → Option (Links A)
  | 0,_,_,_ => none
  | fuel+1,elem,lastUnder,l =>
    if elem = runq then some l
    else if priTsUnder ≤ pri elem then sortFrom pri runq fuel (l.next elem) elem (moveUp l elem lastUnder)
    else sortFrom pri runq fuel (l.next elem) lastUnder l

def cschedRunqSort (pri : A → Int) (runq : A) (fuel sortEpoch : Nat) (spc : Pcpu A) : Option (Pcpu A) :=
  if sortEpoch = spc.runqSortLast then some spc
  else (sortFrom pri runq fuel (spc.links.next runq) runq spc.links).map fun l => ⟨l,sortEpoch⟩

abbrev Links.Queue (l : Links A) (runq : A) (body : List A) : Prop := Ring l.next l.prev runq body

section
variable {l : Links A} {a e : A} {xs ys : List A}

theorem moveUp_queue (h : l.Queue a (xs ++ e :: ys)) : (moveUp l e a).Queue a (e :: (xs ++ ys)) := by
  have hx := (Linked.append_cons.mp h.linked).1
  rw [moveUp]
  split
  · refine Ring.insert h.delete fun hm => ?_
    have hn : (a :: xs ++ e :: ys).Nodup := h.nodup
    exact (nodup_cons.mp (perm_middle.nodup_iff.mp hn)).1 hm
  · rename_i hp
    cases xs with
    | nil => exact h
    | cons x xs =>
      have hm : l.prev e ∈ x :: xs := hx.2.2.prev_mem
      rw [not_not.mp hp] at hm
      exact absurd (mem_append_left _ hm) (nodup_cons.mp h.nodup).1

variable {runq : A} {T U : List A}

omit [DecidableEq A] in
theorem next_eq (h : l.Queue a (xs ++ e :: (ys ++ T))) (ht : T ++ [a] = runq :: U) :
  (ys ++ [runq]).head? = some (l.next e) := by
  have hn := (Linked.append_cons.mp h.linked).2.next_head
  rw [append_assoc,ht] at hn
  simpa [head?_append] using hn

omit [DecidableEq A] in
theorem queue_from_head (h : l.Queue a (xs ++ T)) (ht : T ++ [a] = runq :: U) : l.Queue runq (U ++ xs) := by
  cases T with
  | nil =>
    obtain ⟨rfl,rfl⟩ := cons.inj ht
    simpa using h
  | cons t T =>
    obtain ⟨rfl,rfl⟩ := cons.inj ht
    simpa using Ring.rotate h

-- The queue as seen from last_under: the vcpus passed over, those still to be visited, then the
-- head and the vcpus already moved up.
theorem sortFrom_spec (pri : A → Int) {elem : A} {fuel : Nat}
  (h : l.Queue a (xs ++ (ys ++ T))) (ht : T ++ [a] = runq :: U) (he : (ys ++ [runq]).head? = some elem)
  (hf : ys.length < fuel) :
  ∃ l', sortFrom pri runq fuel elem a l = some l' ∧ l'.Queue runq
    (U ++ ys.filter (priTsUnder ≤ pri ·) ++ (xs ++ ys.filter fun x => !decide (priTsUnder ≤ pri x))) := by
  induction ys generalizing l a xs elem U T fuel with
  | nil =>
    obtain ⟨fuel,rfl⟩ := Nat.exists_eq_add_of_lt hf
    cases he
    exact ⟨l,by simp [sortFrom],by simpa using queue_from_head h ht⟩
  | cons e ys ih =>
    obtain ⟨fuel,rfl⟩ := Nat.exists_eq_add_of_lt hf
    cases he
    have hn : e ≠ runq := by
      rintro rfl
      have hm : e ∈ T ++ [a] := by simp [ht]
      have hd := h.nodup
      simp [nodup_append] at hd hm
      grind
    have ha := next_eq h ht
    rw [sortFrom,if_neg hn]
    have hl : ys.length < (e :: ys).length+fuel := by grind
    split
    · rename_i hu
      have hq : (moveUp l e a).Queue a ([] ++ e :: (xs ++ (ys ++ T))) := moveUp_queue h
      obtain ⟨l',hs,hr⟩ := ih (by simpa using hq.rotate) (by rw [ht,cons_append]) ha hl
      exact ⟨l',hs,by simpa [hu] using hr⟩
    · rename_i hu
      have hq : l.Queue a ((xs ++ [e]) ++ (ys ++ T)) := by simpa using h
      obtain ⟨l',hs,hr⟩ := ih hq ht ha hl
      exact ⟨l',hs,by simpa [hu] using hr⟩

end

theorem runq_sort_stable_partition (pri : A → Int) {spc : Pcpu A} {runq : A} {body : List A} {fuel sortEpoch : Nat}
  (h : spc.links.Queue runq body) (he : sortEpoch ≠ spc.runqSortLast) (hf : body.length < fuel) :
  ∃ spc', cschedRunqSort pri runq fuel sortEpoch spc = some spc' ∧ spc'.runqSortLast = sortEpoch ∧ spc'.links.Queue runq
      (body.filter (priTsUnder ≤ pri ·) ++ body.filter fun x => !decide (priTsUnder ≤ pri x)) := by
  have hq : spc.links.Queue runq ([] ++ (body ++ [])) := by simpa using h
  obtain ⟨l,hs,hr⟩ := sortFrom_spec pri hq rfl h.linked.next_head hf
  exact ⟨⟨l,sortEpoch⟩,by simp [cschedRunqSort,he,hs],rfl,hr⟩

def threeQueued : Pcpu Nat := ⟨⟨fun x => if x = 3 then 0 else x+1,fun x => if x = 0 then 3 else x-1⟩,0⟩

theorem runq_sort_three_queued :
  ∃ spc', cschedRunqSort (fun x : Nat => (x : Int)-3) 0 4 1 threeQueued = some spc' ∧ spc'.runqSortLast = 1 ∧
    spc'.links.Queue 0 [2,3,1] :=
  runq_sort_stable_partition _ (show threeQueued.links.Queue 0 [1,2,3] from
    ⟨⟨rfl,rfl,rfl,rfl,rfl,rfl,rfl,rfl⟩,by decide⟩) (by decide) (by decide)

end RunqSort
