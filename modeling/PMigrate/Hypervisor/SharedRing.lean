import PMigrate.Core.Transition

namespace SharedRing

open Transition

abbrev RingIdx := BitVec 32

inductive Direction where
  | requests
  | responses
  deriving DecidableEq

inductive Pushing where
  | idle
  | loaded (old new : RingIdx)
  | stored (old new : RingIdx)

inductive Checking where
  | running
  | emptyOnce
  | armed
  -- with room at the final check, or with nothing left to process then
  | asleep (ready : Bool)

structure Channel where
  (prod event prodPvt cons : RingIdx)
  pushing : Pushing
  checking : Checking
  notified : Bool

structure Ring where
  size : RingIdx
  (req rsp : Channel)

namespace Ring

section
variable (r : Ring)

def channel : Direction → Channel
  | .requests => r.req
  | .responses => r.rsp

def put : Direction → Channel → Ring
  | .requests,c => {r with req := c}
  | .responses,c => {r with rsp := c}

def unanswered : RingIdx := r.req.cons-r.rsp.prodPvt

def roomForRequests : RingIdx := r.size-r.unanswered

def hasUnconsumedRequests : RingIdx :=
  let req := r.req.prod-r.req.cons
  let rsp := r.roomForRequests
  if req < rsp then req else rsp

def hasUnconsumedResponses : RingIdx := r.rsp.prod-r.rsp.cons

def hasUnconsumed : Direction → RingIdx
  | .requests => r.hasUnconsumedRequests
  | .responses => r.hasUnconsumedResponses

def hasRoom : Direction → Bool
  | .requests => decide (r.roomForRequests ≠ 0)
  | .responses => true

end

end Ring

def checkNotify (new event old : RingIdx) : Bool := decide (new-event < new-old)

inductive Action where
  | fill (k : RingIdx)
  | load
  | store
  | notify
  | consume (k : RingIdx)
  | check
  | arm
  | recheck
  | wake

def Channel.produce (size : RingIdx) (c : Channel) : Action → Option Channel
  | .fill k =>
    match c.pushing with
    | .idle => if k ≤ size then some {c with prodPvt := c.prodPvt+k} else none
    | _ => none
  | .load =>
    match c.pushing with
    | .idle => some {c with pushing := .loaded c.prod c.prodPvt}
    | _ => none
  | .store =>
    match c.pushing with
    | .loaded old new => some {c with prod := new,pushing := .stored old new}
    | _ => none
  | .notify =>
    match c.pushing with
    | .stored old new => some {c with pushing := .idle,notified := c.notified || checkNotify new c.event old}
    | _ => none
  | _ => none

def Channel.receive (unconsumed : RingIdx) (room : Bool) (c : Channel) : Action → Option Channel
  | .consume k =>
    match c.checking with
    | .running => if k ≤ unconsumed then some {c with cons := c.cons+k} else none
    | _ => none
  | .check =>
    match c.checking with
    | .running => if unconsumed = 0 then some {c with checking := .emptyOnce} else some c
    | _ => none
  | .arm =>
    match c.checking with
    | .emptyOnce => some {c with event := c.cons+1,checking := .armed,notified := false}
    | _ => none
  | .recheck =>
    match c.checking with
    | .armed =>
      if unconsumed = 0 then some {c with checking := .asleep (room || decide (c.prod = c.cons))}
      else some {c with checking := .running}
    | _ => none
  | .wake =>
    match c.checking with
    | .asleep _ => some {c with checking := .running}
    | _ => none
  | _ => none

def step (r : Ring) (a : Direction × Action) : Option Ring :=
  let c := r.channel a.1
  match c.produce r.size a.2 with
  | some c => some (r.put a.1 c)
  | none => (c.receive (r.hasUnconsumed a.1) (r.hasRoom a.1) a.2).map (r.put a.1)

structure Start (r : Ring) : Prop where
  pushing : ∀ d, (r.channel d).pushing = .idle
  checking : ∀ d, (r.channel d).checking = .running

inductive Move (r : Ring) (d : Direction) : Action → Channel → Prop where
  | fill (k : RingIdx) (hidle : (r.channel d).pushing = .idle) (hk : k ≤ r.size) :
      Move r d (.fill k) {r.channel d with prodPvt := (r.channel d).prodPvt+k}
  | load (hidle : (r.channel d).pushing = .idle) :
      Move r d .load {r.channel d with pushing := .loaded (r.channel d).prod (r.channel d).prodPvt}
  | store (old new : RingIdx) (hpush : (r.channel d).pushing = .loaded old new) :
      Move r d .store {r.channel d with prod := new,pushing := .stored old new}
  | notify (old new : RingIdx) (hpush : (r.channel d).pushing = .stored old new) : Move r d .notify {r.channel d with
        pushing := .idle
        notified := (r.channel d).notified || checkNotify new (r.channel d).event old}
  | consume (k : RingIdx) (hrun : (r.channel d).checking = .running) (hk : k ≤ r.hasUnconsumed d) :
      Move r d (.consume k) {r.channel d with cons := (r.channel d).cons+k}
  | busy (hrun : (r.channel d).checking = .running) (hwork : r.hasUnconsumed d ≠ 0) : Move r d .check (r.channel d)
  | check (hrun : (r.channel d).checking = .running) (hnone : r.hasUnconsumed d = 0) :
      Move r d .check {r.channel d with checking := .emptyOnce}
  | arm (hempty : (r.channel d).checking = .emptyOnce) : Move r d .arm {r.channel d with
        event := (r.channel d).cons+1
        checking := .armed
        notified := false}
  | sleep (harmed : (r.channel d).checking = .armed) (hnone : r.hasUnconsumed d = 0) :
      Move r d .recheck {r.channel d with checking := .asleep (r.hasRoom d ||
        decide ((r.channel d).prod = (r.channel d).cons))}
  | resume (harmed : (r.channel d).checking = .armed) (hwork : r.hasUnconsumed d ≠ 0) :
      Move r d .recheck {r.channel d with checking := .running}
  | wake (ready : Bool) (hasleep : (r.channel d).checking = .asleep ready) :
      Move r d .wake {r.channel d with checking := .running}

variable {r : Ring} {d : Direction} {c : Channel}

section
variable {r' : Ring} {c' : Channel} {act : Action}

theorem move_of_produce (h : (r.channel d).produce r.size act = some c) : Move r d act c := by
  cases act with
  | fill k =>
    simp only [Channel.produce] at h
    split at h
    · rename_i hi
      split at h
      · cases h
        exact .fill k hi ‹_›
      · cases h
    · cases h
  | load =>
    simp only [Channel.produce] at h
    split at h
    · cases h
      exact .load ‹_›
    · cases h
  | store =>
    simp only [Channel.produce] at h
    split at h
    · cases h
      exact .store _ _ ‹_›
    · cases h
  | notify =>
    simp only [Channel.produce] at h
    split at h
    · cases h
      exact .notify _ _ ‹_›
    · cases h
  | consume k | check | arm | recheck | wake => cases h

theorem move_of_receive (h : (r.channel d).receive (r.hasUnconsumed d) (r.hasRoom d) act = some c) :
  Move r d act c := by
  cases act with
  | consume k =>
    simp only [Channel.receive] at h
    split at h
    · rename_i hr
      split at h
      · cases h
        exact .consume k hr ‹_›
      · cases h
    · cases h
  | check =>
    simp only [Channel.receive] at h
    split at h
    · rename_i hr
      split at h
      · cases h
        exact .check hr ‹_›
      · cases h
        exact .busy hr ‹_›
    · cases h
  | arm =>
    simp only [Channel.receive] at h
    split at h
    · cases h
      exact .arm ‹_›
    · cases h
  | recheck =>
    simp only [Channel.receive] at h
    split at h
    · rename_i ha
      split at h
      · cases h
        exact .sleep ha ‹_›
      · cases h
        exact .resume ha ‹_›
    · cases h
  | wake =>
    simp only [Channel.receive] at h
    split at h
    · cases h
      exact .wake _ ‹_›
    · cases h
  | fill k | load | store | notify => cases h

theorem step_move {a : Direction × Action} (h : step r a = some r') : ∃ c, Move r a.1 a.2 c ∧ r' = r.put a.1 c := by
  simp only [step] at h
  split at h
  · cases h
    exact ⟨_,move_of_produce ‹_›,rfl⟩
  · obtain ⟨c,hc,rfl⟩ := Option.map_eq_some_iff.mp h
    exact ⟨c,move_of_receive hc,rfl⟩

@[simp] theorem channel_put_self : (r.put d c).channel d = c := by cases d <;> rfl

theorem channel_put_of_ne {d' : Direction} (h : d' ≠ d) : (r.put d c).channel d' = r.channel d' := by
  cases d <;> cases d' <;> first | rfl | exact absurd rfl h

end

def Channel.Woken (c : Channel) : Prop :=
  c.notified = true ∨ ∃ old, c.pushing = .stored old c.prod ∧ checkNotify c.prod c.event old = true

structure Channel.Inv (c : Channel) : Prop where
  loaded : ∀ old new, c.pushing = .loaded old new → old = c.prod
  stored : ∀ old new, c.pushing = .stored old new → new = c.prod
  armed : c.checking = .armed → c.event = c.cons+1
  event : ∀ ready, c.checking = .asleep ready → c.event = c.cons+1
  woken : c.checking = .asleep true → c.prod = c.cons ∨ c.Woken

theorem checkNotify_of_ne {prod cons : RingIdx} (h : prod ≠ cons) : checkNotify prod (cons+1) cons = true := by
  simp only [checkNotify,decide_eq_true_eq]
  bv_omega

variable {d : Direction} {r : Ring}

theorem prod_eq_cons (hn : r.hasUnconsumed d = 0) (hr : r.hasRoom d = true) :
  (r.channel d).prod = (r.channel d).cons := by
  cases d with
  | requests =>
    simp only [Ring.hasRoom,decide_eq_true_eq] at hr
    simp only [Ring.hasUnconsumed,Ring.hasUnconsumedRequests] at hn
    split at hn
    · simp only [Ring.channel]
      bv_omega
    · exact absurd hn hr
  | responses =>
    simp only [Ring.hasUnconsumed,Ring.hasUnconsumedResponses] at hn
    simp only [Ring.channel]
    bv_omega

theorem Channel.Inv.move {act : Action} {c : Channel} (h : (r.channel d).Inv) (hm : Move r d act c) : c.Inv := by
  cases hm with
  | fill k hi hk => exact ⟨h.loaded,h.stored,h.armed,h.event,h.woken⟩
  | load hi =>
    refine ⟨fun old new hq => ?_,fun old new hq => (by cases hq),h.armed,h.event,fun hs => ?_⟩
    · cases hq
      rfl
    rcases h.woken hs with hq | ho | ⟨old,hp,-⟩
    · exact .inl hq
    · exact .inr (.inl ho)
    · rw [hi] at hp
      cases hp
  | store old new hp =>
    refine ⟨fun old' new' hq => (by cases hq),fun old' new' hq => ?_,h.armed,h.event,fun hs => ?_⟩
    · cases hq
      rfl
    have hold := h.loaded old new hp
    rcases h.woken hs with hq | ho | ⟨old',hu',-⟩
    · by_cases hd : new = (r.channel d).cons
      · exact .inl hd
      refine .inr (.inr ⟨old,rfl,?_⟩)
      have hv := h.event true hs
      rw [hq] at hold
      rw [hv,hold]
      exact checkNotify_of_ne hd
    · exact .inr (.inl ho)
    · rw [hp] at hu'
      cases hu'
  | notify old new hp =>
    refine ⟨fun old' new' hq => (by cases hq),fun old' new' hq => (by cases hq),h.armed,h.event,
      fun hs => ?_⟩
    rcases h.woken hs with hq | ho | ⟨old',hu',hc⟩
    · exact .inl hq
    · exact .inr (.inl (by simp [ho]))
    · rw [hp] at hu'
      cases hu'
      exact .inr (.inl (by simp [hc]))
  | consume k hu hk =>
    refine ⟨h.loaded,h.stored,fun hs => ?_,fun ready hs => ?_,fun hs => ?_⟩ <;>
      · dsimp only at hs
        rw [hu] at hs
        cases hs
  | busy hu hw => exact h
  | check hu hn | resume ha hw | wake ready hg =>
    exact ⟨h.loaded,h.stored,fun hs => (by cases hs),fun ready hs => (by cases hs),fun hs => (by cases hs)⟩
  | arm he => exact ⟨h.loaded,h.stored,fun _ => rfl,fun ready hs => (by cases hs),fun hs => (by cases hs)⟩
  | sleep ha hn =>
    refine ⟨h.loaded,h.stored,fun hs => (by cases hs),fun _ _ => h.armed ha,fun hs => ?_⟩
    injection hs with hs
    rcases Bool.or_eq_true_iff.mp hs with hr | he
    · exact .inl (prod_eq_cons hn hr)
    · exact .inl (of_decide_eq_true he)

theorem Start.inv (h : Start r) (d : Direction) : (r.channel d).Inv := by
  refine ⟨fun old new he => ?_,fun old new he => ?_,fun hs => ?_,fun ready hs => ?_,fun hs => ?_⟩
  · rw [h.pushing d] at he
    cases he
  · rw [h.pushing d] at he
    cases he
  · rw [h.checking d] at hs
    cases hs
  · rw [h.checking d] at hs
    cases hs
  · rw [h.checking d] at hs
    cases hs

theorem inv_step {r' : Ring} {a : Direction × Action} (h : ∀ d, (r.channel d).Inv) (hs : step r a = some r')
  (d : Direction) : (r'.channel d).Inv := by
  obtain ⟨c,hm,rfl⟩ := step_move hs
  by_cases hd : d = a.1
  · subst hd
    rw [channel_put_self]
    exact (h a.1).move hm
  · rw [channel_put_of_ne hd]
    exact h d

theorem Channel.Woken.notifies (h : (r.channel d).Woken) : (r.channel d).notified = true ∨
    ∃ old, (r.channel d).pushing = .stored old (r.channel d).prod ∧
      ∃ r', step r (d,.notify) = some r' ∧ (r'.channel d).notified = true := by
  rcases h with hn | ⟨old,hp,hc⟩
  · exact .inl hn
  refine .inr ⟨old,hp,r.put d {r.channel d with
    pushing := .idle
    notified := (r.channel d).notified || checkNotify (r.channel d).prod (r.channel d).event old},?_,?_⟩
  · simp only [step,Channel.produce,hp]
  · rw [channel_put_self]
    simp [hc]

def anyAction (_ : Ring) (_ : Direction × Action) : Prop := True

theorem no_lost_wakeup {r0 r : Ring} (h0 : Start r0) (h : Reach step anyAction r0 r)
  (d : Direction) (hasleep : (r.channel d).checking = .asleep true)
  (hpublished : (r.channel d).prod ≠ (r.channel d).cons) : (r.channel d).notified = true ∨
    ∃ old, (r.channel d).pushing = .stored old (r.channel d).prod ∧
      ∃ r', step r (d,.notify) = some r' ∧ (r'.channel d).notified = true := by
  have hi := reach_invariant (I := fun u => ∀ d, (u.channel d).Inv) h0.inv (fun _ _ _ _ hu _ hv => inv_step hu hv) h
  rcases (hi d).woken hasleep with he | hw
  · exact absurd he hpublished
  · exact hw.notifies

def freshChannel (i : RingIdx) : Channel where
  prod := i
  event := i+1
  prodPvt := i
  cons := i
  pushing := .idle
  checking := .running
  notified := false

def freshRing : Ring where
  size := 32
  req := freshChannel 0xffffffff
  rsp := freshChannel 0xffffffff

def sleepThenPush : List (Direction × Action) :=
  [(.requests,.check),(.requests,.arm),(.requests,.fill 3),(.requests,.load),(.requests,.recheck),
    (.requests,.store),(.requests,.notify)]

theorem sleeper_notified_across_wrap : ∃ r, runIf step (fun _ _ => true) freshRing sleepThenPush = some r ∧
    r.req.prod = 2 ∧ r.req.notified = true := by
  obtain ⟨r,hr,hp,ha,hi⟩ : ∃ r,
      runIf step (fun _ _ => true) freshRing sleepThenPush = some r ∧ r.req.prod = 2 ∧
        r.req.checking = .asleep true ∧ r.req.pushing = .idle := ⟨_,rfl,rfl,rfl,rfl⟩
  have hc : r.req.cons = 0xffffffff := by
    cases hr
    rfl
  have hs : Start freshRing := ⟨fun d => by cases d <;> rfl,fun d => by cases d <;> rfl⟩
  have he : Reach step anyAction freshRing r := reach_of_runIf (fun _ _ _ => trivial) hr
  have hb : (r.channel .requests).prod ≠ (r.channel .requests).cons := by
    show r.req.prod ≠ r.req.cons
    rw [hp,hc]
    decide
  rcases no_lost_wakeup hs he .requests ha hb with hn | ⟨old,hu,-⟩
  · exact ⟨r,hr,hp,hn⟩
  · rw [show (r.channel .requests).pushing = .idle from hi] at hu
    cases hu

end SharedRing
