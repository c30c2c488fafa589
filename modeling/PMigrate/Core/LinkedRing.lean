import Mathlib.Tactic

namespace LinkedRing

open Function List

variable {A : Type}

def Linked (next prev : A → A) : A → List A → A → Prop
  | a,[],b => next a = b ∧ prev b = a
  | a,c :: cs,b => next a = c ∧ prev c = a ∧ Linked next prev c cs b

structure Ring (next prev : A → A) (head : A) (body : List A) : Prop where
  linked : Linked next prev head body head
  nodup : (head :: body).Nodup

variable {next prev : A → A} {a b c : A}

section
variable {next' prev' : A → A} {cs : List A}

variable (h : Linked next prev a cs b)
include h

theorem Linked.congr (he : ∀ x ∈ a :: cs, next' x = next x) (hr : ∀ x ∈ cs ++ [b], prev' x = prev x) :
  Linked next' prev' a cs b := by
  induction cs generalizing a with
  | nil =>
    obtain ⟨hn,hp⟩ := h
    exact ⟨(he a (by simp)).trans hn,(hr b (by simp)).trans hp⟩
  | cons c cs ih =>
    obtain ⟨hn,hp,h⟩ := h
    refine ⟨(he a (by simp)).trans hn,(hr c (by simp)).trans hp,ih h ?_ ?_⟩
    · exact fun x hx => he x (by simp [mem_cons.mp hx])
    · exact fun x hx => hr x (mem_cons_of_mem _ hx)

omit h in
theorem Linked.append_cons {ds : List A} :
  Linked next prev a (cs ++ c :: ds) b ↔ Linked next prev a cs c ∧ Linked next prev c ds b := by
  induction cs generalizing a with
  | nil => simp [Linked,and_assoc]
  | cons d cs ih => simp [Linked,ih,and_assoc]

theorem Linked.next_head : (cs ++ [b]).head? = some (next a) := by
  cases cs with
  | nil | cons c cs => simp [h.1]

theorem Linked.prev_mem : prev b ∈ a :: cs := by
  induction cs generalizing a with
  | nil => simp [h.2]
  | cons c cs ih => exact mem_cons_of_mem _ (ih h.2.2)

theorem Linked.inverse : (∀ x ∈ a :: cs, prev (next x) = x) ∧ ∀ x ∈ cs ++ [b], next (prev x) = x := by
  induction cs generalizing a with
  | nil =>
    obtain ⟨hn,hp⟩ := h
    exact ⟨by simp [hn,hp],by simp [hn,hp]⟩
  | cons c cs ih =>
    obtain ⟨hn,hp,h⟩ := h
    obtain ⟨hf,hb⟩ := ih h
    refine ⟨fun x hx => ?_,fun x hx => ?_⟩
    · rcases mem_cons.mp hx with rfl | hx
      · rw [hn,hp]
      · exact hf x hx
    rcases mem_cons.mp hx with rfl | hx
    · rw [hp,hn]
    · exact hb x hx

theorem Linked.reachable : ∀ x ∈ a :: cs, ∃ i, next^[i] a = x := by
  induction cs generalizing a with
  | nil =>
    intro x hx
    exact ⟨0,(mem_singleton.mp hx).symm⟩
  | cons c cs ih =>
    obtain ⟨hn,-,h⟩ := h
    intro x hx
    rcases mem_cons.mp hx with rfl | hx
    · exact ⟨0,rfl⟩
    · obtain ⟨i,hi⟩ := ih h x hx
      exact ⟨i+1,by rw [iterate_succ_apply,hn,hi]⟩

end

variable {head : A} {body : List A}

variable (h : Ring next prev head body)
include h

theorem Ring.next_ne (ha : a ∉ head :: body) : a ≠ next head := by
  rintro rfl
  have hm := mem_of_head? h.linked.next_head
  exact ha (by simpa [or_comm] using hm)

theorem Ring.next_eq_head_iff : next head = head ↔ body = [] := by
  cases body with
  | nil => exact ⟨fun _ => rfl,fun _ => h.linked.1⟩
  | cons c cs =>
    have ha : head ≠ c := fun he => (nodup_cons.mp h.nodup).1 (by simp [he])
    rw [h.linked.1]
    exact ⟨fun he => absurd he.symm ha,fun hn => by cases hn⟩

theorem Ring.congr {next' prev' : A → A} (hn : ∀ x ∈ head :: body, next' x = next x)
  (hp : ∀ x ∈ head :: body, prev' x = prev x) :
  Ring next' prev' head body :=
  ⟨h.linked.congr hn fun x hx => hp x (by simpa [or_comm] using hx),h.nodup⟩

theorem Ring.inverse {x : A} (hx : x ∈ head :: body) : prev (next x) = x ∧ next (prev x) = x := by
  obtain ⟨hf,hb⟩ := h.linked.inverse
  exact ⟨hf x hx,hb x (by simpa [or_comm] using hx)⟩

theorem Ring.reachable {x : A} (hx : x ∈ head :: body) : ∃ i, next^[i] head = x := h.linked.reachable x hx

omit h in
theorem Ring.rotate {xs ys : List A} (h : Ring next prev head (xs ++ a :: ys)) :
  Ring next prev a (ys ++ head :: xs) := by
  obtain ⟨hx,hy⟩ := Linked.append_cons.mp h.linked
  have hn : (head :: xs ++ a :: ys).Nodup := h.nodup
  exact ⟨Linked.append_cons.mpr ⟨hy,hx⟩,nodup_append_comm.mp hn⟩

omit h

section
variable [DecidableEq A]

def insertNext (next : A → A) (head a : A) : A → A := update (update next a (next head)) head a

def insertPrev (next prev : A → A) (head a : A) : A → A := update (update prev a head) (next head) a

def removeNext (next prev : A → A) (head : A) : A → A := update next (prev (prev head)) head

def removePrev (prev : A → A) (head : A) : A → A := update prev head (prev (prev head))

theorem Ring.insert (h : Ring next prev head body) (ha : a ∉ head :: body) :
  Ring (insertNext next head a) (insertPrev next prev head a) head (a :: body) := by
  have hf := h.next_ne ha
  have hh : a ≠ head := fun he => ha (by simp [he])
  refine ⟨⟨?_,?_,?_⟩,?_⟩
  · simp [insertNext]
  · simp [insertPrev,update_of_ne hf]
  · cases body with
    | nil =>
      obtain ⟨hn,-⟩ := h.linked
      refine ⟨?_,?_⟩
      · simp [insertNext,update_of_ne hh,hn]
      · simp [insertPrev,hn]
    | cons c cs =>
      obtain ⟨hn,-,hr⟩ := h.linked
      have ho := h.nodup
      simp only [nodup_cons,mem_cons,not_or] at ho
      obtain ⟨⟨hd,hs⟩,hc,-⟩ := ho
      refine ⟨?_,?_,hr.congr (fun x hx => ?_) fun x hx => ?_⟩
      · simp [insertNext,update_of_ne hh,hn]
      · simp [insertPrev,hn]
      · have hg : x ≠ head := by
          rintro rfl
          exact (mem_cons.mp hx).elim hd hs
        have hb : x ≠ a := by
          rintro rfl
          exact ha (mem_cons_of_mem _ hx)
        rw [insertNext,update_of_ne hg,update_of_ne hb]
      · have hi : x ≠ next head := by
          rw [hn]
          rintro rfl
          rcases mem_append.mp hx with hx | hx
          · exact hc hx
          · exact hd (mem_singleton.mp hx).symm
        have hb : x ≠ a := by
          rintro rfl
          rcases mem_append.mp hx with hx | hx
          · exact ha (by simp [hx])
          · exact hh (mem_singleton.mp hx)
        rw [insertPrev,update_of_ne hi,update_of_ne hb]
  · exact nodup_cons.mpr ⟨by simpa [hh.symm] using (nodup_cons.mp h.nodup).1,
      nodup_cons.mpr ⟨fun hm => ha (by simp [hm]),(nodup_cons.mp h.nodup).2⟩⟩

theorem Linked.redirect (h : Linked next prev a body c) (ho : (a :: body).Nodup) (hb : b ∉ body) :
  Linked (update next (prev c) b) (update prev b (prev c)) a body b := by
  induction body generalizing a with
  | nil =>
    obtain ⟨-,hp⟩ := h
    exact ⟨by simp [hp],by simp [hp]⟩
  | cons d ds ih =>
    obtain ⟨hn,hp,h⟩ := h
    have ha : a ≠ prev c := by
      rintro rfl
      exact (nodup_cons.mp ho).1 h.prev_mem
    have hd : d ≠ b := fun he => hb (by simp [he])
    refine ⟨?_,?_,ih h (nodup_cons.mp ho).2 fun hm => hb (by simp [hm])⟩
    · rw [update_of_ne ha,hn]
    · rw [update_of_ne hd,hp]

theorem Ring.remove (h : Ring next prev head (body ++ [c])) :
  prev head = c ∧ Ring (removeNext next prev head) (removePrev prev head) head body := by
  obtain ⟨hi,-,hl⟩ := Linked.append_cons.mp h.linked
  have hn : (head :: body).Nodup := h.nodup.sublist (cons_sublist_cons.mpr (sublist_append_left ..))
  refine ⟨hl,?_,hn⟩
  rw [removeNext,removePrev,hl]
  exact hi.redirect hn (nodup_cons.mp hn).1

theorem Ring.delete {xs ys : List A} (h : Ring next prev head (xs ++ a :: ys)) :
  Ring (update next (prev a) (next a)) (update prev (next a) (prev a)) head (xs ++ ys) := by
  cases ys with
  | nil =>
    obtain ⟨-,hn,-⟩ := Linked.append_cons.mp h.linked
    obtain ⟨hp,hr⟩ := h.remove
    simpa [removeNext,removePrev,hp,hn] using hr
  | cons y ys =>
    obtain ⟨-,hn,-⟩ := Linked.append_cons.mp h.linked
    have ht : Ring next prev y ((ys ++ head :: xs) ++ [a]) := by
      simpa using (show Ring next prev head ((xs ++ [a]) ++ y :: ys) by simpa using h).rotate
    obtain ⟨hp,hr⟩ := ht.remove
    rw [removeNext,removePrev,hp] at hr
    rw [hn]
    exact hr.rotate

end

end LinkedRing
