import PMigrate.Core.Transition

namespace EventPending

open Transition

structure Config where
  (bitsPerEvtchnWord maxVcpus : Nat)
  portIsValid : Nat → Bool

def Config.word (C : Config) (port : Nat) : Nat := port/C.bitsPerEvtchnWord

inductive Call where
  | returned (rc : Int)
  | setPending (port : Nat)
  | testMask (port : Nat)
  | select (port : Nat)
  | markEvents (port : Nat)
  | pollEmpty (port : Nat)
  | pollFind (port vcpuid : Nat)
  | pollWake (port vcpuid : Nat)
  | clearMask (port : Nat)
  | testPending (port : Nat)
  | unmaskSelect (port : Nat)
  | unmaskMarkEvents

inductive Event where
  | selected (word : Nat)
  | upcall (alreadyPending : Bool)

structure State where
  (evtchnPending evtchnMask evtchnPendingSel : Nat → Bool)
  evtchnUpcallPending : Bool
  pollMask : Nat → Bool
  pollEvtchn : Nat → Int
  calls : Nat → Call
  log : List Event

inductive Action where
  | send (thread port : Nat)
  | unmask (thread port : Nat)
  | run (thread : Nat)
  | guestMask (port : Nat)
  | guestPoll (vcpuid : Nat) (evtchn : Int)

def setBit (f : Nat → Bool) (i : Nat) : Nat → Bool := fun j => if j = i then true else f j

def clearBit (f : Nat → Bool) (i : Nat) : Nat → Bool := fun j => if j = i then false else f j

namespace State

def goto (s : State) (t : Nat) (c : Call) : State := {s with calls := fun u => if u = t then c else s.calls u}

def setSel (s : State) (w : Nat) : State :=
  {s with evtchnPendingSel := setBit s.evtchnPendingSel w,log := Event.selected w :: s.log}

def vcpuMarkEventsPending (s : State) : State :=
  {s with evtchnUpcallPending := true,log := Event.upcall s.evtchnUpcallPending :: s.log}

def findNextBit (C : Config) (s : State) (from_ : Nat) : Option Nat :=
  (List.range C.maxVcpus).find? fun v => decide (from_ ≤ v) && s.pollMask v

def wake (s : State) (v : Nat) : State :=
  {s with pollMask := clearBit s.pollMask v,pollEvtchn := fun u => if u = v then 0 else s.pollEvtchn u}

def advance (C : Config) (s : State) (t : Nat) : Option State :=
  match s.calls t with
  | .returned _ => none
  | .setPending port =>
    if s.evtchnPending port then some (s.goto t (.returned 1))
    else some ({s with evtchnPending := setBit s.evtchnPending port}.goto t (.testMask port))
  | .testMask port => some (s.goto t (if s.evtchnMask port then .pollEmpty port else .select port))
  | .select port =>
    if s.evtchnPendingSel (C.word port) then some (s.goto t (.pollEmpty port))
    else some ((s.setSel (C.word port)).goto t (.markEvents port))
  | .markEvents port => some (s.vcpuMarkEventsPending.goto t (.pollEmpty port))
  | .pollEmpty port =>
    match s.findNextBit C 0 with
    | none => some (s.goto t (.returned 0))
    | some _ => some (s.goto t (.pollFind port 0))
  | .pollFind port v =>
    match s.findNextBit C v with
    | none => some (s.goto t (.returned 0))
    | some v => some (s.goto t (.pollWake port v))
  | .pollWake port v =>
    if (s.pollEvtchn v ≤ 0 ∨ s.pollEvtchn v = port) ∧ s.pollMask v then
      some ((s.wake v).goto t (.pollFind port (v+1)))
    else some (s.goto t (.pollFind port (v+1)))
  | .clearMask port =>
    if s.evtchnMask port then
      some ({s with evtchnMask := clearBit s.evtchnMask port}.goto t (.testPending port))
    else some (s.goto t (.returned 0))
  | .testPending port => some (s.goto t (if s.evtchnPending port then .unmaskSelect port else .returned 0))
  | .unmaskSelect port =>
    if s.evtchnPendingSel (C.word port) then some (s.goto t (.returned 0))
    else some ((s.setSel (C.word port)).goto t .unmaskMarkEvents)
  | .unmaskMarkEvents => some (s.vcpuMarkEventsPending.goto t (.returned 0))

end State

def step (C : Config) (s : State) : Action → Option State
  | .send t port =>
    match s.calls t with
    | .returned _ => some (s.goto t (.setPending port))
    | _ => none
  | .unmask t port =>
    match s.calls t with
    | .returned _ =>
      if C.portIsValid port then some (s.goto t (.clearMask port))
      else some (s.goto t (.returned (-22)))
    | _ => none
  | .run t => s.advance C t
  | .guestMask port => some {s with evtchnMask := setBit s.evtchnMask port}
  | .guestPoll v evtchn =>
    some {s with
      pollMask := setBit s.pollMask v
      pollEvtchn := fun u => if u = v then evtchn else s.pollEvtchn u}

def Call.inProgress : Call → Bool
  | .returned _ => false
  | _ => true

structure Start (s : State) : Prop where
  calls : ∀ t, (s.calls t).inProgress = false
  sel : ∀ w, s.evtchnPendingSel w = false
  log : s.log = []

def RaisedAfter (log : List Event) (w : Nat) : Prop :=
  ∃ later already earlier, log = later ++ Event.upcall already :: earlier ∧ Event.selected w ∈ earlier

def Call.watches (port : Nat) : Call → Bool
  | .testMask p => p == port
  | .select p => p == port
  | .testPending p => p == port
  | .unmaskSelect p => p == port
  | _ => false

def Call.marks : Call → Bool
  | .markEvents _ => true
  | .unmaskMarkEvents => true
  | _ => false

structure Inv (C : Config) (port : Nat) (s : State) : Prop where
  watched : s.evtchnPending port = true → s.evtchnMask port = false →
    s.evtchnPendingSel (C.word port) = true ∨ ∃ t, (s.calls t).watches port = true
  recorded : ∀ w, s.evtchnPendingSel w = true → Event.selected w ∈ s.log
  raised : ∀ w, s.evtchnPendingSel w = true → RaisedAfter s.log w ∨ ∃ t, (s.calls t).marks = true

section
variable {s : State} {t : Nat} {c : Call} {P : Call → Bool}

theorem calls_goto_self : (s.goto t c).calls t = c := if_pos rfl

theorem calls_goto_other {u : Nat} (h : u ≠ t) : (s.goto t c).calls u = s.calls u := if_neg h

theorem some_call_entered (hc : P c = true) : ∃ u, P ((s.goto t c).calls u) = true :=
  ⟨t,by rw [calls_goto_self,hc]⟩

theorem some_call_kept (h : ∃ u, P (s.calls u) = true) (hc : P (s.calls t) = true → P c = true) :
  ∃ u, P ((s.goto t c).calls u) = true := by
  obtain ⟨u,hu⟩ := h
  by_cases ht : u = t
  · subst ht
    exact some_call_entered (hc hu)
  · exact ⟨u,by rw [calls_goto_other ht,hu]⟩

end

theorem raised_now {log : List Event} {w : Nat} (already : Bool) (h : Event.selected w ∈ log) :
  RaisedAfter (Event.upcall already :: log) w :=
  ⟨[],already,log,rfl,h⟩

namespace Inv
variable {C : Config} {port p w t : Nat} {s : State} {c : Call}

theorem init (h : Start s) (hp : s.evtchnPending port = true → s.evtchnMask port = true) : Inv C port s where
  watched he hm := by
    rw [hp he] at hm
    cases hm
  recorded w hw := by
    rw [h.sel w] at hw
    cases hw
  raised w hw := by
    rw [h.sel w] at hw
    cases hw

variable (h : Inv C port s)
include h

theorem goto (ha : (s.calls t).watches port = true → c.watches port = true ∨
    (s.evtchnPending port = true → s.evtchnMask port = false → s.evtchnPendingSel (C.word port) = true))
  (hb : (s.calls t).marks = true → c.marks = true) : Inv C port (s.goto t c) where
  watched hp hm := by
    rcases h.watched hp hm with hs | ⟨u,hu⟩
    · exact .inl hs
    by_cases ht : u = t
    · subst ht
      rcases ha hu with hc | hs
      · exact .inr (some_call_entered hc)
      · exact .inl (hs hp hm)
    · exact .inr ⟨u,by rw [calls_goto_other ht,hu]⟩
  recorded := h.recorded
  raised w hw := (h.raised w hw).imp_right fun hd => some_call_kept hd hb

theorem setPending (hc : s.calls t = .setPending p) :
  Inv C port ({s with evtchnPending := setBit s.evtchnPending p}.goto t (.testMask p)) where
  watched he ha := by
    by_cases hp : p = port
    · exact .inr (some_call_entered (by simp [Call.watches,hp]))
    have hold : s.evtchnPending port = true := by simpa [State.goto,setBit,Ne.symm hp] using he
    refine (h.watched hold ha).imp_right fun hw => ?_
    refine @some_call_kept {s with evtchnPending := setBit s.evtchnPending p} t _ _ hw fun hw => ?_
    simp [hc,Call.watches] at hw
  recorded := h.recorded
  raised w hw := by
    refine (h.raised w hw).imp_right fun hm => ?_
    refine @some_call_kept {s with evtchnPending := setBit s.evtchnPending p} t _ _ hm fun hm => ?_
    simp [hc,Call.marks] at hm

theorem clearMask (hc : s.calls t = .clearMask p) :
  Inv C port ({s with evtchnMask := clearBit s.evtchnMask p}.goto t (.testPending p)) where
  watched he ha := by
    by_cases hp : p = port
    · exact .inr (some_call_entered (by simp [Call.watches,hp]))
    have hold : s.evtchnMask port = false := by simpa [State.goto,clearBit,Ne.symm hp] using ha
    refine (h.watched he hold).imp_right fun hw => ?_
    refine @some_call_kept {s with evtchnMask := clearBit s.evtchnMask p} t _ _ hw fun hw => ?_
    simp [hc,Call.watches] at hw
  recorded := h.recorded
  raised w hw := by
    refine (h.raised w hw).imp_right fun hm => ?_
    refine @some_call_kept {s with evtchnMask := clearBit s.evtchnMask p} t _ _ hm fun hm => ?_
    simp [hc,Call.marks] at hm

theorem select (hc : c.marks = true) (ha : (s.calls t).watches port = true → C.word port = w) :
  Inv C port ((s.setSel w).goto t c) where
  watched hp hm := by
    by_cases hw : C.word port = w
    · exact .inl (if_pos hw)
    rcases h.watched hp hm with hs | hd
    · exact .inl (by simpa [State.goto,State.setSel,setBit,hw] using hs)
    · exact .inr (@some_call_kept (s.setSel w) t _ _ hd fun ht => absurd (ha ht) hw)
  recorded v hv := by
    by_cases hb : v = w
    · rw [hb]
      exact List.mem_cons_self
    have hold : s.evtchnPendingSel v = true := by simpa [State.goto,State.setSel,setBit,hb] using hv
    exact List.mem_cons_of_mem _ (h.recorded v hold)
  raised _ _ := .inr (some_call_entered hc)

theorem markEvents (hc : (s.calls t).watches port = false) : Inv C port (s.vcpuMarkEventsPending.goto t c) where
  watched hp hm := by
    refine (h.watched hp hm).imp_right fun hw => ?_
    refine @some_call_kept s.vcpuMarkEventsPending t _ _ hw fun hw => ?_
    have hn : (s.calls t).watches port = true := hw
    rw [hc] at hn
    cases hn
  recorded v hv := List.mem_cons_of_mem _ (h.recorded v hv)
  raised v hv := .inl (raised_now _ (h.recorded v hv))

theorem guestMask : Inv C port {s with evtchnMask := setBit s.evtchnMask p} where
  watched he hm := by
    have hold : s.evtchnMask port = false := by
      by_cases hp : port = p
      · simp [setBit,hp] at hm
      · simpa [setBit,hp] using hm
    exact h.watched he hold
  recorded := h.recorded
  raised := h.raised

theorem polled {mask : Nat → Bool} {evtchn : Nat → Int} :
  Inv C port {s with pollMask := mask,pollEvtchn := evtchn} := ⟨h.watched,h.recorded,h.raised⟩

theorem advance {s' : State} (hs : s.advance C t = some s') : Inv C port s' := by
  rw [State.advance] at hs
  cases hc : s.calls t with
  | returned rc =>
    rw [hc] at hs
    cases hs
  | setPending p =>
    simp only [hc] at hs
    split at hs
    · cases hs
      exact h.goto (by simp [hc,Call.watches]) (by simp [hc,Call.marks])
    · cases hs
      exact h.setPending hc
  | testMask p =>
    simp only [hc] at hs
    cases hs
    refine h.goto (fun hw => ?_) (by simp [hc,Call.marks])
    have hp : p = port := by simpa [hc,Call.watches] using hw
    subst hp
    cases hm : s.evtchnMask p with
    | true => exact .inr fun _ hn => nomatch hn
    | false => exact .inl (by simp [Call.watches])
  | select p | unmaskSelect p =>
    simp only [hc] at hs
    have hp : (s.calls t).watches port = true → p = port := by simp [hc,Call.watches]
    split_ifs at hs with he
    · cases hs
      exact h.goto (fun hw => .inr fun _ _ => hp hw ▸ he) (by simp [hc,Call.marks])
    · cases hs
      exact h.select rfl fun hw => by rw [hp hw]
  | markEvents p | unmaskMarkEvents =>
    simp only [hc] at hs
    cases hs
    exact h.markEvents (by simp [hc,Call.watches])
  | pollEmpty p | pollFind p v =>
    simp only [hc] at hs
    split at hs
    all_goals
      cases hs
      exact h.goto (by simp [hc,Call.watches]) (by simp [hc,Call.marks])
  | pollWake p v =>
    simp only [hc] at hs
    split at hs
    · cases hs
      have ha : Inv C port (s.wake v) := h.polled
      exact ha.goto (by simp [State.wake,hc,Call.watches]) (by simp [State.wake,hc,Call.marks])
    · cases hs
      exact h.goto (by simp [hc,Call.watches]) (by simp [hc,Call.marks])
  | clearMask p =>
    simp only [hc] at hs
    split at hs
    · cases hs
      exact h.clearMask hc
    · cases hs
      exact h.goto (by simp [hc,Call.watches]) (by simp [hc,Call.marks])
  | testPending p =>
    simp only [hc] at hs
    cases hs
    refine h.goto (fun hw => ?_) (by simp [hc,Call.marks])
    have hp : p = port := by simpa [hc,Call.watches] using hw
    subst hp
    cases hb : s.evtchnPending p with
    | true => exact .inl (by simp [Call.watches])
    | false => exact .inr fun hn => nomatch hn

theorem step {s' : State} {a : Action} (hs : step C s a = some s') : Inv C port s' := by
  cases a with
  | send t p =>
    simp only [EventPending.step] at hs
    split at hs
    · rename_i rc hc
      cases hs
      exact h.goto (by simp [hc,Call.watches]) (by simp [hc,Call.marks])
    · cases hs
  | unmask t p =>
    simp only [EventPending.step] at hs
    split at hs
    · rename_i rc hc
      split at hs
      all_goals
        cases hs
        exact h.goto (by simp [hc,Call.watches]) (by simp [hc,Call.marks])
    · cases hs
  | run t => exact h.advance hs
  | guestMask p =>
    cases hs
    exact h.guestMask
  | guestPoll v evtchn =>
    cases hs
    exact h.polled

end Inv

theorem no_event_lost (C : Config) (port : Nat) {s t : State} (hstart : Start s)
  (hport : s.evtchnPending port = true → s.evtchnMask port = true)
  (h : Reach (step C) (fun _ _ => True) s t) (hquiet : ∀ i, (t.calls i).inProgress = false)
  (hpend : t.evtchnPending port = true) (hmask : t.evtchnMask port = false) :
  t.evtchnPendingSel (C.word port) = true ∧ RaisedAfter t.log (C.word port) := by
  have hn : Inv C port t := reach_invariant (.init hstart hport) (fun _ _ _ _ hu _ hv => hu.step hv) h
  have hd {P : Call → Bool} (hP : ∀ c, P c = true → c.inProgress = true) : ¬∃ i, P (t.calls i) = true := by
    rintro ⟨i,hi⟩
    have hb := hP _ hi
    rw [hquiet i] at hb
    cases hb
  have hs : t.evtchnPendingSel (C.word port) = true :=
    (hn.watched hpend hmask).resolve_right
      (hd fun c hc => by cases c <;> first | rfl | cases hc)
  exact ⟨hs,(hn.raised _ hs).resolve_right
    (hd fun c hc => by cases c <;> first | rfl | cases hc)⟩

def oneVcpu : Config := ⟨64,1,fun port => decide (port < 4096)⟩

def fresh (pending masked : Bool) : State where
  evtchnPending := fun _ => pending
  evtchnMask := fun _ => masked
  evtchnPendingSel := fun _ => false
  evtchnUpcallPending := false
  pollMask := fun _ => false
  pollEvtchn := fun _ => 0
  calls := fun _ => .returned 0
  log := []

theorem fresh_start (pending masked : Bool) : Start (fresh pending masked) := ⟨fun _ => rfl,fun _ => rfl,rfl⟩

def sendThenUnmask : List Action := [.send 0 70,.run 0,.run 0,.unmask 1 70,.run 1,.run 0,.run 1,.run 1,.run 1]

def afterUnmask : State := (runIf (step oneVcpu) (fun _ _ => true) (fresh false true) sendThenUnmask).get rfl

theorem masked_event_is_raised : (∀ i, (afterUnmask.calls i).inProgress = false) ∧ afterUnmask.evtchnPending 70 = true ∧
  afterUnmask.evtchnMask 70 = false ∧ afterUnmask.evtchnPendingSel 1 = true ∧ RaisedAfter afterUnmask.log 1 := by
  have hq : ∀ i, (afterUnmask.calls i).inProgress = false
    | 0 => rfl
    | 1 => rfl
    | _+2 => rfl
  exact ⟨hq,rfl,rfl,no_event_lost oneVcpu 70 (fresh_start false true) nofun
    (reach_get (fun _ _ _ => trivial) _) hq rfl rfl⟩

theorem already_pending_is_not_selected : ∃ t,
  Start (fresh true false) ∧ Reach (step oneVcpu) (fun _ _ => True) (fresh true false) t ∧
  (∀ i, (t.calls i).inProgress = false) ∧ t.evtchnPending 70 = true ∧ t.evtchnMask 70 = false ∧
  t.calls 0 = .returned 1 ∧ t.evtchnPendingSel 1 = false := by
  have hr : runIf (step oneVcpu) (fun _ _ => true) (fresh true false) [.send 0 70,.run 0] =
      some (((fresh true false).goto 0 (.setPending 70)).goto 0 (.returned 1)) := rfl
  refine ⟨_,fresh_start true false,reach_of_runIf (fun _ _ _ => trivial) hr,fun i => ?_,rfl,rfl,rfl,rfl⟩
  by_cases h0 : i = 0 <;> simp [State.goto,h0,fresh,Call.inProgress]

end EventPending
