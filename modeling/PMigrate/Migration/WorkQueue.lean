import PMigrate.Core.LinkedRing

namespace WorkQueue

open LinkedRing Function List Option

inductive Queue where
  | sendArgu
  | recvPagebuf
  | applyQueue
  | pagebufPool
  deriving DecidableEq

structure ListItem (w : Nat) where
  (item next prev : BitVec w)

structure Heads (w : Nat) where
  head : Queue → BitVec w
  injective : Function.Injective head

structure State (w : Nat) where
  mem : BitVec w → ListItem w
  allocated : BitVec w → Bool
  sendArguHeadCnt : BitVec w

variable {w : Nat}

namespace State

def item (s : State w) (a : BitVec w) : BitVec w := (s.mem a).item

def next (s : State w) (a : BitVec w) : BitVec w := (s.mem a).next

def prev (s : State w) (a : BitVec w) : BitVec w := (s.mem a).prev

section
variable (s : State w)

def setItem (a x : BitVec w) : State w := {s with mem := update s.mem a {s.mem a with item := x}}

def setNext (a x : BitVec w) : State w := {s with mem := update s.mem a {s.mem a with next := x}}

def setPrev (a x : BitVec w) : State w := {s with mem := update s.mem a {s.mem a with prev := x}}

def malloc (a : BitVec w) : State w := {s with allocated := update s.allocated a true}

def free (a : BitVec w) : State w := {s with allocated := update s.allocated a false}

def initListHead (head : BitVec w) : State w := ((s.setItem head 0).setNext head head).setPrev head head

def enqueue (head a x : BitVec w) : State w :=
  let s := s.malloc a
  let s := s.setItem a x
  let s := s.setNext a (s.next head)
  let s := s.setPrev a head
  let s := s.setPrev (s.next a) a
  s.setNext head a

def dequeue (head : BitVec w) : Option (BitVec w × State w) :=
  if s.next head = head then none
  else
    let item := s.prev head
    let argu := s.item item
    let s := s.setPrev head (s.prev item)
    let s := s.setNext (s.prev head) head
    some (argu,s.free item)

end

end State

inductive Op (w : Nat) where
  | enqueue (q : Queue) (x a : BitVec w)
  | dequeue (q : Queue)

inductive Reply (w : Nat) where
  | enqueued
  | empty
  | item (x : BitVec w)
  deriving DecidableEq

namespace Heads

variable (hd : Heads w)

section
variable (s : State w)

def sendArguEnqueue (a argu : BitVec w) : State w :=
  let s := s.enqueue (hd.head .sendArgu) a argu
  {s with sendArguHeadCnt := s.sendArguHeadCnt+1#w}

def sendArguDequeue : Option (BitVec w × State w) :=
  match s.dequeue (hd.head .sendArgu) with
  | none => none
  | some (argu,s) => some (argu,{s with sendArguHeadCnt := s.sendArguHeadCnt-1#w})

def recvPagebufEnqueue (a pagebuf : BitVec w) : State w := s.enqueue (hd.head .recvPagebuf) a pagebuf

def recvPagebufDequeue : Option (BitVec w × State w) := s.dequeue (hd.head .recvPagebuf)

def applyEnqueue (a argu : BitVec w) : State w := s.enqueue (hd.head .applyQueue) a argu

def applyDequeue : Option (BitVec w × State w) := s.dequeue (hd.head .applyQueue)

def pagebufPoolEnqueue (a pagebuf : BitVec w) : State w := s.enqueue (hd.head .pagebufPool) a pagebuf

def pagebufPoolDequeue : Option (BitVec w × State w) := s.dequeue (hd.head .pagebufPool)

def enqueueOn : Queue → BitVec w → BitVec w → State w
  | .sendArgu => hd.sendArguEnqueue s
  | .recvPagebuf => hd.recvPagebufEnqueue s
  | .applyQueue => hd.applyEnqueue s
  | .pagebufPool => hd.pagebufPoolEnqueue s

def dequeueOn : Queue → Option (BitVec w × State w)
  | .sendArgu => hd.sendArguDequeue s
  | .recvPagebuf => hd.recvPagebufDequeue s
  | .applyQueue => hd.applyDequeue s
  | .pagebufPool => hd.pagebufPoolDequeue s

def step : Op w → Option (State w × Reply w)
  | .enqueue q x a => if s.allocated a then none else some (hd.enqueueOn s q a x,.enqueued)
  | .dequeue q =>
    match hd.dequeueOn s q with
    | none => some (s,.empty)
    | some (x,s) => some (s,.item x)

end

def run (s : State w) : List (Op w) → Option (State w × List (Reply w))
  | [] => some (s,[])
  | op :: ops => do
    let (s,r) ← hd.step s op
    let (s,rs) ← run s ops
    some (s,r :: rs)

def start (mem : BitVec w → ListItem w) (allocated : BitVec w → Bool) : State w :=
  let s : State w := ⟨mem,allocated,0⟩
  let s := (s.malloc (hd.head .sendArgu)).initListHead (hd.head .sendArgu)
  let s := (s.malloc (hd.head .recvPagebuf)).initListHead (hd.head .recvPagebuf)
  let s := (s.malloc (hd.head .applyQueue)).initListHead (hd.head .applyQueue)
  (s.malloc (hd.head .pagebufPool)).initListHead (hd.head .pagebufPool)

end Heads

namespace Fifo

def step (f : Queue → List (BitVec w)) : Op w → (Queue → List (BitVec w)) × Reply w
  | .enqueue q x _ => (update f q (f q ++ [x]),.enqueued)
  | .dequeue q =>
    match f q with
    | [] => (f,.empty)
    | x :: xs => (update f q xs,.item x)

def run (f : Queue → List (BitVec w)) : List (Op w) → (Queue → List (BitVec w)) × List (Reply w)
  | [] => (f,[])
  | op :: ops =>
    let (f,r) := step f op
    let (f,rs) := run f ops
    (f,r :: rs)

end Fifo

def enqueuedOn (q : Queue) : List (Op w) → List (BitVec w)
  | [] => []
  | .enqueue q' x _ :: ops => if q' = q then x :: enqueuedOn q ops else enqueuedOn q ops
  | .dequeue _ :: ops => enqueuedOn q ops

def returnedOn (q : Queue) : List (Op w) → List (Reply w) → List (BitVec w)
  | .dequeue q' :: ops,.item x :: rs => if q' = q then x :: returnedOn q ops rs else returnedOn q ops rs
  | _ :: ops,_ :: rs => returnedOn q ops rs
  | _,_ => []

namespace State

variable {s : State w} {head a x : BitVec w}

theorem update_field {β : Type} (f : ListItem w → β) (c : ListItem w) :
  (fun b => f (update s.mem a c b)) = update (fun b => f (s.mem b)) a (f c) :=
  comp_update f s.mem a c

theorem update_field_self {β : Type} (f : ListItem w → β) (c : ListItem w) (h : f c = f (s.mem a)) :
  (fun b => f (update s.mem a c b)) = fun b => f (s.mem b) := by
  rw [update_field,h]
  exact update_eq_self a _

@[simp] theorem setItem_item : (s.setItem a x).item = update s.item a x := update_field ListItem.item _
@[simp] theorem setItem_next : (s.setItem a x).next = s.next := update_field_self ListItem.next _ rfl
@[simp] theorem setItem_prev : (s.setItem a x).prev = s.prev := update_field_self ListItem.prev _ rfl

@[simp] theorem setNext_item : (s.setNext a x).item = s.item := update_field_self ListItem.item _ rfl
@[simp] theorem setNext_next : (s.setNext a x).next = update s.next a x := update_field ListItem.next _
@[simp] theorem setNext_prev : (s.setNext a x).prev = s.prev := update_field_self ListItem.prev _ rfl

@[simp] theorem setPrev_item : (s.setPrev a x).item = s.item := update_field_self ListItem.item _ rfl
@[simp] theorem setPrev_next : (s.setPrev a x).next = s.next := update_field_self ListItem.next _ rfl
@[simp] theorem setPrev_prev : (s.setPrev a x).prev = update s.prev a x := update_field ListItem.prev _

@[simp] theorem malloc_item : (s.malloc a).item = s.item := rfl
@[simp] theorem malloc_next : (s.malloc a).next = s.next := rfl
@[simp] theorem malloc_prev : (s.malloc a).prev = s.prev := rfl

@[simp] theorem free_item : (s.free a).item = s.item := rfl
@[simp] theorem free_next : (s.free a).next = s.next := rfl
@[simp] theorem free_prev : (s.free a).prev = s.prev := rfl

theorem enqueue_next : (s.enqueue head a x).next = insertNext s.next head a := by simp [enqueue,insertNext]

theorem enqueue_prev : (s.enqueue head a x).prev = insertPrev s.next s.prev head a := by
  simp [enqueue,insertPrev]

theorem enqueue_item : (s.enqueue head a x).item = update s.item a x := by simp [enqueue]

theorem dequeue_none (h : s.next head = head) : s.dequeue head = none := if_pos h

theorem dequeue_some (h : s.next head ≠ head) : ∃ s', s.dequeue head = some (s.item (s.prev head),s') ∧
    s'.next = removeNext s.next s.prev head ∧ s'.prev = removePrev s.prev head ∧
    s'.item = s.item ∧ s'.allocated = update s.allocated (s.prev head) false ∧
    s'.sendArguHeadCnt = s.sendArguHeadCnt := by
  refine ⟨_,if_neg h,?_,?_,?_,rfl,rfl⟩
  · simp [removeNext]
  · simp [removePrev]
  · simp

end State

structure Holds (hd : Heads w) (s : State w) (body f : Queue → List (BitVec w)) : Prop where
  ring : ∀ q, Ring s.next s.prev (hd.head q) (body q)
  items : ∀ q, ((body q).map s.item).reverse = f q
  apart : ∀ q q', q ≠ q' → ∀ a ∈ hd.head q :: body q, a ∉ hd.head q' :: body q'
  allocated : ∀ q, ∀ a ∈ hd.head q :: body q, s.allocated a = true
  cnt : s.sendArguHeadCnt = BitVec.ofNat w (f .sendArgu).length

variable {hd : Heads w}

section
variable {s s' : State w} {body f : Queue → List (BitVec w)} {q : Queue} {a x : BitVec w}

variable (h : Holds hd s body f)
include h

theorem Holds.not_mem (ha : s.allocated a = false) (q : Queue) :
  a ∉ hd.head q :: body q := fun hm => by simp [h.allocated q a hm] at ha

theorem Holds.next_mem (q : Queue) : s.next (hd.head q) ∈ hd.head q :: body q := by
  simpa [or_comm] using mem_of_head? (h.ring q).linked.next_head

theorem Holds.ne_of_mem {q' : Queue} (hq : q' ≠ q) {c d : BitVec w}
  (hc : c ∈ hd.head q' :: body q') (hd' : d ∈ hd.head q :: body q) : c ≠ d := by
  rintro rfl
  exact h.apart q' q hq c hc hd'

variable {y : BitVec w} {l : List (BitVec w)}

omit h in
theorem map_item_of_not_mem (ha : a ∉ l) : l.map (update s.item a x) = l.map s.item :=
  map_congr_left fun c hc => update_of_ne (fun he : c = a => ha (he ▸ hc)) x s.item

theorem Holds.enqueue (ha : s.allocated a = false)
  (hn : s'.next = insertNext s.next (hd.head q) a) (hr : s'.prev = insertPrev s.next s.prev (hd.head q) a)
  (hi : s'.item = update s.item a x) (hl : s'.allocated = update s.allocated a true)
  (hf : s'.sendArguHeadCnt = if q = .sendArgu then s.sendArguHeadCnt+1#w else s.sendArguHeadCnt) :
  Holds hd s' (update body q (a :: body q)) (update f q (f q ++ [x])) where
  ring := by
    intro q'
    rw [hn,hr]
    by_cases hq : q' = q
    · subst hq
      rw [update_self]
      exact (h.ring q').insert (h.not_mem ha q')
    rw [update_of_ne hq]
    refine (h.ring q').congr (fun c hc => ?_) fun c hc => ?_
    · have hb : c ≠ a := fun he => h.not_mem ha q' (he ▸ hc)
      rw [insertNext,update_of_ne (h.ne_of_mem hq hc (by simp)),update_of_ne hb]
    · have hb : c ≠ a := fun he => h.not_mem ha q' (he ▸ hc)
      rw [insertPrev,update_of_ne (h.ne_of_mem hq hc (h.next_mem q)),update_of_ne hb]
  items := by
    intro q'
    have hk : (body q').map s'.item = (body q').map s.item := by
      rw [hi]
      exact map_item_of_not_mem fun hm => h.not_mem ha q' (mem_cons_of_mem _ hm)
    by_cases hq : q' = q
    · subst hq
      rw [update_self,update_self,map_cons,hk,reverse_cons,h.items,hi,update_self]
    · rw [update_of_ne hq,update_of_ne hq,hk,h.items]
  apart := by
    have hm : ∀ p c, c ∈ hd.head p :: update body q (a :: body q) p → c = a ∧ p = q ∨ c ∈ hd.head p :: body p := by
      intro p c hc
      by_cases hp : p = q
      · subst hp
        rw [update_self] at hc
        simp only [mem_cons] at hc ⊢
        tauto
      · rw [update_of_ne hp] at hc
        exact .inr hc
    intro p p' hp c hc hc'
    rcases hm p c hc with ⟨hb,hg⟩ | hold <;> rcases hm p' c hc' with ⟨hca',hpq'⟩ | ho'
    · exact hp (hg.trans hpq'.symm)
    · exact h.not_mem ha p' (hb ▸ ho')
    · exact h.not_mem ha p (hca' ▸ hold)
    · exact h.apart p p' hp c hold ho'
  allocated := by
    intro p c hc
    rw [hl,update_apply]
    split
    · rfl
    rename_i hb
    refine h.allocated p c ?_
    by_cases hp : p = q
    · subst hp
      simpa [hb] using hc
    · rwa [update_of_ne hp] at hc
  cnt := by
    rw [hf]
    split_ifs with hq
    · subst hq
      rw [update_self,length_append,length_singleton,h.cnt,BitVec.ofNat_add]
    · rw [update_of_ne (Ne.symm hq),h.cnt]

theorem Holds.dequeue {z : BitVec w} (hb : body q = l ++ [z]) (he : s'.next = removeNext s.next s.prev (hd.head q))
  (hg : s'.prev = removePrev s.prev (hd.head q)) (hi : s'.item = s.item)
  (ha : s'.allocated = update s.allocated (s.prev (hd.head q)) false)
  (hk : s'.sendArguHeadCnt = if q = .sendArgu then s.sendArguHeadCnt-1#w else s.sendArguHeadCnt) :
  Holds hd s' (update body q l) (update f q (f q).tail) := by
  have hr : Ring s.next s.prev (hd.head q) (l ++ [z]) := hb ▸ h.ring q
  obtain ⟨hz,ht⟩ := hr.remove
  have hf : f q = s.item z :: (l.map s.item).reverse := by
    rw [← h.items q,hb]
    simp
  have hs : ∀ p c, c ∈ hd.head p :: update body q l p → c ∈ hd.head p :: body p := by
    intro p c hc
    by_cases hp : p = q
    · subst hp
      rw [update_self] at hc
      rw [hb]
      simp only [mem_cons,mem_append] at hc ⊢
      tauto
    · rwa [update_of_ne hp] at hc
  have hl : ∀ p c, c ∈ hd.head p :: update body q l p → c ≠ z := by
    intro p c hc
    by_cases hp : p = q
    · subst hp
      rw [update_self] at hc
      have hn := hr.nodup
      rw [← cons_append] at hn
      rintro rfl
      exact (nodup_append.mp hn).2.2 c hc c (by simp) rfl
    · rw [update_of_ne hp] at hc
      exact h.ne_of_mem hp hc (by simp [hb])
  refine ⟨fun p => ?_,fun p => ?_,fun p p' hp c hc hc' => ?_,fun p c hc => ?_,?_⟩
  · rw [he,hg]
    by_cases hp : p = q
    · subst hp
      rwa [update_self]
    rw [update_of_ne hp]
    refine (h.ring p).congr (fun c hc => ?_) fun c hc => ?_
    · have ho : s.prev (s.prev (hd.head q)) ∈ hd.head q :: body q := by
        rw [hz,hb]
        have hm := (Linked.append_cons.mp hr.linked).1.prev_mem
        simp only [mem_cons,mem_append] at hm ⊢
        tauto
      rw [removeNext,update_of_ne (h.ne_of_mem hp hc ho)]
    · rw [removePrev,update_of_ne (h.ne_of_mem hp hc (by simp))]
  · rw [hi]
    by_cases hp : p = q
    · subst hp
      rw [update_self,update_self,hf,tail_cons]
    · rw [update_of_ne hp,update_of_ne hp,h.items]
  · exact h.apart p p' hp c (hs p c hc) (hs p' c hc')
  · rw [ha,hz,update_of_ne (hl p c hc)]
    exact h.allocated p c (hs p c hc)
  · rw [hk]
    split_ifs with hq
    · subst hq
      rw [update_self,h.cnt,hf,tail_cons,length_cons,BitVec.ofNat_add,BitVec.add_sub_cancel]
    · rw [update_of_ne (Ne.symm hq),h.cnt]

theorem Holds.empty_iff (q : Queue) : s.next (hd.head q) = hd.head q ↔ f q = [] := by
  rw [(h.ring q).next_eq_head_iff,← h.items q]
  simp

omit h in
theorem enqueueOn_eq : hd.enqueueOn s q a x = {s.enqueue (hd.head q) a x with sendArguHeadCnt :=
  if q = .sendArgu then s.sendArguHeadCnt+1#w else s.sendArguHeadCnt} := by
  cases q <;> rfl

theorem enqueueOn_holds (ha : s.allocated a = false) :
  Holds hd (hd.enqueueOn s q a x) (update body q (a :: body q)) (update f q (f q ++ [x])) := by
  rw [enqueueOn_eq]
  exact h.enqueue ha (State.enqueue_next (x := x)) State.enqueue_prev State.enqueue_item rfl rfl

theorem dequeueOn_none (hf : f q = []) : hd.dequeueOn s q = none := by
  have hn : s.dequeue (hd.head q) = none := State.dequeue_none ((h.empty_iff q).mpr hf)
  cases q with
  | sendArgu => simp only [Heads.dequeueOn,Heads.sendArguDequeue,hn]
  | recvPagebuf | applyQueue | pagebufPool => exact hn

omit h in
theorem dequeueOn_eq (hs : s.dequeue (hd.head q) = some (y,s')) : hd.dequeueOn s q = some (y,{s' with sendArguHeadCnt :=
    if q = .sendArgu then s'.sendArguHeadCnt-1#w else s'.sendArguHeadCnt}) := by
  cases q with
  | sendArgu => simp only [Heads.dequeueOn,Heads.sendArguDequeue,hs,if_true]
  | recvPagebuf | applyQueue | pagebufPool => exact hs

theorem dequeueOn_some {ys : List (BitVec w)} (hf : f q = y :: ys) :
  ∃ s' body', hd.dequeueOn s q = some (y,s') ∧ Holds hd s' body' (update f q ys) := by
  have hg : s.next (hd.head q) ≠ hd.head q := fun he => by simp [(h.empty_iff q).mp he] at hf
  obtain ⟨s',hs,hn,hp,hi,ha,hc⟩ := State.dequeue_some hg
  rcases eq_nil_or_concat (body q) with hk | ⟨l,z,hb⟩
  · rw [← h.items q,hk] at hf
    cases hf
  rw [concat_eq_append] at hb
  have hz : s.prev (hd.head q) = z := by
    have hr : Ring s.next s.prev (hd.head q) (l ++ [z]) := hb ▸ h.ring q
    exact hr.remove.1
  have hy : s.item z = y := by
    rw [← h.items q,hb] at hf
    simp only [map_append,map_cons,map_nil,reverse_append,reverse_cons,
      reverse_nil,nil_append,cons_append,List.cons.injEq] at hf
    exact hf.1
  rw [hz,hy] at hs
  refine ⟨_,update body q l,dequeueOn_eq hs,?_⟩
  have ho := @Holds.dequeue w hd s {s' with sendArguHeadCnt :=
    if q = .sendArgu then s'.sendArguHeadCnt-1#w else s'.sendArguHeadCnt} body f q h l z hb
    hn hp hi ha (by rw [hc])
  rwa [hf,tail_cons] at ho

theorem step_refines {op : Op w} {r : Reply w} (hs : hd.step s op = some (s',r)) :
  ∃ body', (Fifo.step f op).2 = r ∧ Holds hd s' body' (Fifo.step f op).1 := by
  cases op with
  | enqueue q x a =>
    simp only [Heads.step] at hs
    split at hs
    · cases hs
    rename_i ha
    cases hs
    exact ⟨_,rfl,enqueueOn_holds h (by simpa using ha)⟩
  | dequeue q =>
    cases hf : f q with
    | nil =>
      simp only [Heads.step,dequeueOn_none h hf,some.injEq,Prod.mk.injEq] at hs
      obtain ⟨rfl,rfl⟩ := hs
      simp only [Fifo.step,hf]
      exact ⟨body,trivial,h⟩
    | cons y ys =>
      obtain ⟨s'',body',he,hh⟩ := dequeueOn_some h hf
      simp only [Heads.step,he,some.injEq,Prod.mk.injEq] at hs
      obtain ⟨rfl,rfl⟩ := hs
      simp only [Fifo.step,hf]
      exact ⟨body',trivial,hh⟩

theorem run_refines {ops : List (Op w)} {rs : List (Reply w)}
  (hu : hd.run s ops = some (s',rs)) : ∃ body', (Fifo.run f ops).2 = rs ∧ Holds hd s' body' (Fifo.run f ops).1 := by
  induction ops generalizing s body f rs with
  | nil =>
    cases hu
    exact ⟨body,rfl,h⟩
  | cons op ops ih =>
    obtain ⟨⟨s1,r⟩,hs,hu⟩ := bind_eq_some_iff.mp hu
    obtain ⟨⟨s2,rs'⟩,he,hu⟩ := bind_eq_some_iff.mp hu
    cases hu
    obtain ⟨body1,hr,h1⟩ := step_refines h hs
    obtain ⟨body2,ha,h2⟩ := ih h1 he
    exact ⟨body2,by simp only [Fifo.run,hr,ha],h2⟩

theorem Holds.length_lt (q : Queue) : (f q).length < 2^w := by
  have hn : ((hd.head q :: body q).map BitVec.toFin).Nodup :=
    (h.ring q).nodup.map fun _ _ he => BitVec.eq_of_toFin_eq he
  have hc := hn.length_le_card
  have hl : (f q).length = (body q).length := by rw [← h.items q,length_reverse,length_map]
  simp only [length_map,length_cons,Fintype.card_fin] at hc
  omega

end

theorem start_holds (mem : BitVec w → ListItem w) (allocated : BitVec w → Bool) :
  Holds hd (hd.start mem allocated) (fun _ => []) fun _ => [] := by
  have hn : ∀ q q', q ≠ q' → hd.head q ≠ hd.head q' := fun q q' h he => h (hd.injective he)
  refine ⟨fun q => ⟨?_,by simp⟩,fun q => rfl,fun q q' h a ha ha' => ?_,fun q a ha => ?_,rfl⟩
  · cases q <;> simp [Linked,Heads.start,State.initListHead,hn]
  · simp only [mem_singleton] at ha ha'
    exact hn q q' h (ha.symm.trans ha')
  · rw [mem_singleton.mp ha]
    cases q <;> simp [Heads.start,State.initListHead,State.malloc,State.setItem,State.setNext,
        State.setPrev,update_apply]

theorem enqueuedOn_eq (f : Queue → List (BitVec w)) (ops : List (Op w)) (q : Queue) :
  f q ++ enqueuedOn q ops = returnedOn q ops (Fifo.run f ops).2 ++ (Fifo.run f ops).1 q := by
  induction ops generalizing f with
  | nil => simp [enqueuedOn,returnedOn,Fifo.run]
  | cons op ops ih =>
    cases op with
    | enqueue q' x a =>
      have hi := ih (update f q' (f q' ++ [x]))
      simp only [Fifo.run,Fifo.step,enqueuedOn,returnedOn]
      rw [← hi]
      by_cases hq : q' = q
      · subst hq
        simp
      · rw [if_neg hq,update_of_ne (Ne.symm hq)]
    | dequeue q' =>
      cases hf : f q' with
      | nil =>
        simp only [Fifo.run,Fifo.step,hf,enqueuedOn,returnedOn]
        exact ih f
      | cons y ys =>
        have hi := ih (update f q' ys)
        simp only [Fifo.run,Fifo.step,hf,enqueuedOn,returnedOn]
        by_cases hq : q' = q
        · subst hq
          rw [update_self] at hi
          rw [if_pos rfl,hf,cons_append,cons_append,hi]
        · rw [update_of_ne (Ne.symm hq)] at hi
          rw [if_neg hq,hi]

theorem queues_refine_fifo (hd : Heads w) (mem : BitVec w → ListItem w)
  (allocated : BitVec w → Bool) (ops : List (Op w)) {s : State w} {replies : List (Reply w)}
  (h : hd.run (hd.start mem allocated) ops = some (s,replies)) :
  ∃ queued : Queue → List (BitVec w), Fifo.run (fun _ => []) ops = (queued,replies) ∧
    s.sendArguHeadCnt.toNat = (queued .sendArgu).length ∧
    ∀ q, enqueuedOn q ops = returnedOn q ops replies ++ queued q ∧ (hd.dequeueOn s q = none ↔ queued q = []) ∧
      ∃ body, Ring s.next s.prev (hd.head q) body ∧ (body.map s.item).reverse = queued q ∧
        ∀ a ∈ hd.head q :: body, s.prev (s.next a) = a ∧ s.next (s.prev a) = a ∧ ∃ i, s.next^[i] (hd.head q) = a := by
  obtain ⟨body,he,hh⟩ := run_refines (start_holds mem allocated) h
  refine ⟨(Fifo.run (fun _ => []) ops).1,by rw [← he],?_,fun q => ⟨?_,?_,body q,?_⟩⟩
  · rw [hh.cnt,BitVec.toNat_ofNat,Nat.mod_eq_of_lt (hh.length_lt .sendArgu)]
  · have hc := enqueuedOn_eq (fun _ => []) ops q
    rwa [nil_append,he] at hc
  · refine ⟨fun hn => ?_,dequeueOn_none hh⟩
    by_contra hb
    obtain ⟨y,ys,hf⟩ := exists_cons_of_ne_nil hb
    obtain ⟨s',body',hs,-⟩ := dequeueOn_some hh hf
    rw [hn] at hs
    cases hs
  · have hr := hh.ring q
    exact ⟨hr,hh.items q,fun a ha =>
      ⟨(hr.inverse ha).1,(hr.inverse ha).2,hr.reachable ha⟩⟩

def fourHeads : Heads 8 where
  head
    | .sendArgu => 1#8
    | .recvPagebuf => 2#8
    | .applyQueue => 3#8
    | .pagebufPool => 4#8
  injective := by
    intro q q' h
    cases q <;> cases q' <;> first | rfl | exact absurd h (by decide)

def twoBatches : List (Op 8) := [.enqueue .sendArgu 7#8 10#8,.enqueue .recvPagebuf 5#8 12#8,.enqueue .sendArgu 9#8 11#8,
    .dequeue .sendArgu,.enqueue .sendArgu 6#8 10#8,.dequeue .sendArgu]

theorem two_batches_in_order : ∃ s, fourHeads.run (fourHeads.start (fun _ => ⟨0,0,0⟩) fun _ => false) twoBatches =
      some (s,[.enqueued,.enqueued,.enqueued,.item 7#8,.enqueued,.item 9#8]) ∧ s.sendArguHeadCnt.toNat = 1 := by
  obtain ⟨s,hs⟩ : ∃ s, fourHeads.run (fourHeads.start (fun _ => ⟨0,0,0⟩) fun _ => false) twoBatches =
      some (s,[.enqueued,.enqueued,.enqueued,.item 7#8,.enqueued,.item 9#8]) := ⟨_,rfl⟩
  obtain ⟨queued,hr,hc,-⟩ := queues_refine_fifo fourHeads _ _ twoBatches hs
  have hq : queued = (Fifo.run (fun _ => []) twoBatches).1 := (congrArg Prod.fst hr).symm
  exact ⟨s,hs,by rw [hc,hq]; rfl⟩

end WorkQueue
