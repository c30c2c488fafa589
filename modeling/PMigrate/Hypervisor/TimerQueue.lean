import PMigrate.Core.IndexedHeap
import PMigrate.Core.Transition

namespace TimerQueue

open Transition IndexedHeap List

inductive Status where
  | invalid
  | inactive
  | killed
  | inHeap
  | inList
  deriving DecidableEq

structure Timer where
  expires : Int
  heapOffset : Nat
  cpu : Option Nat
  status : Status

def Timer.active (t : Timer) : Bool := t.status == .inHeap || t.status == .inList

structure Timers where
  slots : Nat → Nat
  (size limit : Nat)
  (list inactive : List Nat)

inductive Softirq where
  | idle
  | grow (oldLimit : Nat)
  | ready
  | heapCallback (now : Int)
  | listCallback (now : Int)

structure State where
  timer : Nat → Timer
  timers : Nat → Timers
  running : Nat → Option Nat
  softirq : Nat → Softirq
  pending : Nat → Bool
  deadline : Nat → Int

def u16 (n : Nat) : Nat := n%2^16

def stimeMax : Int := 2^63-1

def timerSlop : Int := 50000

def insertSorted (expires : Nat → Int) (t : Nat) : List Nat → List Nat
  | [] => [t]
  | u :: us => if expires u ≤ expires t then u :: insertSorted expires t us else t :: u :: us

namespace State

def expires (s : State) (t : Nat) : Int := (s.timer t).expires

section
variable (s : State)

def setTimer (t : Nat) (f : Timer → Timer) : State :=
  {s with timer := fun u => if u = t then f (s.timer u) else s.timer u}

def setTimers (cpu : Nat) (f : Timers → Timers) : State :=
  {s with timers := fun c => if c = cpu then f (s.timers c) else s.timers c}

def setStatus (t : Nat) (status : Status) : State := s.setTimer t fun timer => {timer with status}

def setCpu (t : Nat) (cpu : Option Nat) : State := s.setTimer t fun timer => {timer with cpu}

def heap (cpu : Nat) : Slots Nat := ⟨(s.timers cpu).slots,fun t => (s.timer t).heapOffset⟩

def putHeap (cpu : Nat) (h : Slots Nat) (size : Nat) : State := {s with
    timer := fun t => {s.timer t with heapOffset := h.offset t}
    timers := fun c => if c = cpu then {s.timers c with slots := h.slot,size} else s.timers c}

end

def removeFromHeap (s : State) (cpu t : Nat) : State × Bool :=
  let sz := (s.timers cpu).size
  (s.putHeap cpu ((s.heap cpu).removeFromHeap s.expires sz t) (u16 (sz-1)),(s.timer t).heapOffset == 1)

def addToHeap (s : State) (cpu t : Nat) : State × Bool :=
  let sz := (s.timers cpu).size
  if sz = (s.timers cpu).limit then (s,false)
  else
    let h := (s.heap cpu).addToHeap s.expires sz t
    (s.putHeap cpu h (u16 (sz+1)),h.offset t == 1)

section
variable (s : State)

def removeFromList (cpu t : Nat) : State × Bool :=
  (s.setTimers cpu fun ts => {ts with list := ts.list.erase t},(s.timers cpu).list.head? == some t)

def addToList (cpu t : Nat) : State × Bool :=
  (s.setTimers cpu fun ts => {ts with list := insertSorted s.expires t ts.list},
    (insertSorted s.expires t (s.timers cpu).list).head? == some t)

def listDel (t : Nat) : State :=
  match (s.timer t).cpu with
  | none => s
  | some cpu => s.setTimers cpu fun ts => {ts with inactive := ts.inactive.erase t}

def listAdd (cpu t : Nat) : State := s.setTimers cpu fun ts => {ts with inactive := t :: ts.inactive}

def removeEntry (t : Nat) : State × Bool :=
  match (s.timer t).cpu,(s.timer t).status with
  | some cpu,.inHeap =>
    let (s,rc) := s.removeFromHeap cpu t
    (s.setStatus t .invalid,rc)
  | some cpu,.inList =>
    let (s,rc) := s.removeFromList cpu t
    (s.setStatus t .invalid,rc)
  | _,_ => (s.setStatus t .invalid,false)

def addEntry (t : Nat) : State × Bool :=
  match (s.timer t).cpu with
  | none => (s,false)
  | some cpu =>
    let (s,rc) := (s.setTimer t fun timer => {timer with heapOffset := 0,status := .inHeap}).addToHeap
      cpu t
    if (s.timer t).heapOffset ≠ 0 then (s,rc)
    else (s.setStatus t .inList).addToList cpu t

def raiseSoftirq (cpu : Option Nat) (rc : Bool) : State :=
  {s with pending := fun c => s.pending c || (rc && cpu == some c)}

def activateTimer (t : Nat) : State :=
  let (s,rc) := ((s.setStatus t .invalid).listDel t).addEntry t
  s.raiseSoftirq (s.timer t).cpu rc

def deactivateTimer (t : Nat) : State :=
  let (s,rc) := s.removeEntry t
  let s := (s.raiseSoftirq (s.timer t).cpu rc).setStatus t .inactive
  match (s.timer t).cpu with
  | none => s
  | some cpu => s.listAdd cpu t

def deactivateActive (t : Nat) : State := if (s.timer t).active then s.deactivateTimer t else s

def initTimer (t cpu : Nat) : State := (s.setTimer t fun _ => ⟨0,0,some cpu,.inactive⟩).listAdd cpu t

def timerSet (t : Nat) (expires : Int) : State :=
  match (s.timer t).cpu with
  | none => s
  | some _ => ((s.deactivateActive t).setTimer t fun timer => {timer with expires}).activateTimer t

def stopTimer (t : Nat) : State :=
  match (s.timer t).cpu with
  | none => s
  | some _ => s.deactivateActive t

def migrateTimer (t newCpu : Nat) : State :=
  match (s.timer t).cpu with
  | none => s
  | some oldCpu =>
    if oldCpu = newCpu then s
    else
      let s' := (((s.deactivateActive t).listDel t).setCpu t (some newCpu)).listAdd newCpu t
      if (s.timer t).active then s'.activateTimer t else s'

def killTimer (t : Nat) : State :=
  match (s.timer t).cpu with
  | none => s
  | some _ => (((s.deactivateActive t).listDel t).setStatus t .killed).setCpu t none

def executeTimer (cpu t : Nat) (resume : Softirq) : State :=
  let s := (s.setStatus t .inactive).listAdd cpu t
  {s with
    running := fun c => if c = cpu then some t else s.running c
    softirq := fun c => if c = cpu then resume else s.softirq c}

end

def refill (s : State) : List Nat → State
  | [] => s
  | t :: ts => refill ((s.setStatus t .invalid).addEntry t).1 ts

section
variable (s : State) (cpu : Nat)

def earliest : Int :=
  let ts := s.timers cpu
  let deadline := if ts.size ≠ 0 then s.expires (ts.slots 1) else stimeMax
  match ts.list with
  | [] => deadline
  | t :: _ => if s.expires t < deadline then s.expires t else deadline

def finishSoftirq (reprogrammed : Bool) : State :=
  let next := (s.timers cpu).list
  let s := (s.setTimers cpu fun ts => {ts with list := []}).refill next
  let deadline := s.earliest cpu
  {s with
    deadline := fun c =>
      if c = cpu then if deadline = stimeMax then 0 else deadline+timerSlop else s.deadline c
    pending := fun c => s.pending c || (!reprogrammed && c == cpu)
    softirq := fun c => if c = cpu then .idle else s.softirq c}

def listLoop (now : Int) (reprogrammed : Bool) : State :=
  match (s.timers cpu).list with
  | [] => s.finishSoftirq cpu reprogrammed
  | t :: rest =>
    if s.expires t < now then
      (s.setTimers cpu fun ts => {ts with list := rest}).executeTimer cpu t (.listCallback now)
    else s.finishSoftirq cpu reprogrammed

def heapLoop (now : Int) (reprogrammed : Bool) : State :=
  if (s.timers cpu).size ≠ 0 ∧ s.expires ((s.timers cpu).slots 1) < now then
    let t := (s.timers cpu).slots 1
    (s.removeFromHeap cpu t).1.executeTimer cpu t (.heapCallback now)
  else s.listLoop cpu now reprogrammed

end

def growHeap (s : State) (cpu oldLimit : Nat) (fresh : Nat → Nat) : State :=
  let s := s.setTimers cpu fun ts => {ts with
    slots := fun i => if i ≤ oldLimit then ts.slots i else fresh i
    limit := u16 (((oldLimit+1) <<< 4)-1)}
  {s with softirq := fun c => if c = cpu then .ready else s.softirq c}

def nextOn (s : State) (cpu : Nat) : Option Nat :=
  let ts := s.timers cpu
  if ts.size ≠ 0 then some (ts.slots 1) else ts.list.head?

def moveActive (oldCpu newCpu : Nat) : Nat → State × Bool → State × Bool
  | 0,r => r
  | n+1,(s,notify) =>
    match s.nextOn oldCpu with
    | none => (s,notify)
    | some t =>
      let (s,rc) := ((s.removeEntry t).1.setCpu t (some newCpu)).addEntry t
      moveActive oldCpu newCpu n (s,notify || rc)

def moveInactive (oldCpu newCpu : Nat) : Nat → State → State
  | 0,s => s
  | n+1,s =>
    match (s.timers oldCpu).inactive with
    | [] => s
    | t :: _ => moveInactive oldCpu newCpu n (((s.listDel t).setCpu t (some newCpu)).listAdd newCpu t)

def migrateTimersFromCpu (s : State) (oldCpu newCpu : Nat) : State :=
  let ts := s.timers oldCpu
  let (s,notify) := moveActive oldCpu newCpu (ts.size+ts.list.length) (s,false)
  (moveInactive oldCpu newCpu ts.inactive.length s).raiseSoftirq (some newCpu) notify

end State

inductive Action where
  | initTimer (t cpu : Nat)
  | setTimer (t : Nat) (expires : Int)
  | stopTimer (t : Nat)
  | migrateTimer (t newCpu : Nat)
  | killTimer (self t : Nat)
  | softirq (cpu : Nat) (allocated : Bool)
  | grow (cpu : Nat) (fresh : Nat → Nat)
  | enter (cpu : Nat) (now : Int) (reprogrammed : Bool)
  | callbackReturns (cpu : Nat) (reprogrammed : Bool)
  | cpuDead (oldCpu newCpu : Nat)

namespace State

def initialised (s : State) (t : Nat) : Bool := (s.timer t).status != .invalid

def step (s : State) : Action → Option State
  | .initTimer t cpu =>
    match (s.timer t).status with
    | .invalid | .killed => some (s.initTimer t cpu)
    | _ => none
  | .setTimer t expires => if s.initialised t then some (s.timerSet t expires) else none
  | .stopTimer t => if s.initialised t then some (s.stopTimer t) else none
  | .migrateTimer t newCpu => if s.initialised t then some (s.migrateTimer t newCpu) else none
  | .killTimer self t => if s.initialised t ∧ s.running self ≠ some t then some (s.killTimer t) else none
  | .softirq cpu allocated =>
    match s.softirq cpu with
    | .idle =>
      some {s with
        pending := fun c => if c = cpu then false else s.pending c
        softirq := fun c =>
          if c = cpu then
            if (s.timers cpu).list ≠ [] ∧ allocated then .grow (s.timers cpu).limit else .ready
          else s.softirq c}
    | _ => none
  | .grow cpu fresh =>
    match s.softirq cpu with
    | .grow oldLimit => some (s.growHeap cpu oldLimit fresh)
    | _ => none
  | .enter cpu now reprogrammed =>
    match s.softirq cpu with
    | .ready => some (s.heapLoop cpu now reprogrammed)
    | _ => none
  | .callbackReturns cpu reprogrammed =>
    let s' := {s with running := fun c => if c = cpu then none else s.running c}
    match s.softirq cpu with
    | .heapCallback now => some (s'.heapLoop cpu now reprogrammed)
    | .listCallback now => some (s'.listLoop cpu now reprogrammed)
    | _ => none
  | .cpuDead oldCpu newCpu =>
    match s.softirq oldCpu with
    | .idle => if oldCpu ≠ newCpu then some (s.migrateTimersFromCpu oldCpu newCpu) else none
    | _ => none

end State

structure Frame where
  limit : Nat → Nat
  softirq : Nat → Softirq
  armed : Nat → Option Int

namespace State

def On (s : State) (status : Status) (cpu t : Nat) : Prop := (s.timer t).status = status ∧ (s.timer t).cpu = some cpu

def armed (s : State) (t : Nat) : Option Int := if (s.timer t).active then some (s.timer t).expires else none

end State

abbrev Status.Placed (status : Status) : Prop := status ≠ .invalid ∧ status ≠ .killed

def State.Settled (s : State) (F : Frame) (t : Nat) : Prop :=
  s.armed t = F.armed t ∧ ((s.timer t).status.Placed ↔ (s.timer t).cpu ≠ none)

structure Queue (L : Nat → Prop) (s : State) (c : Nat) : Prop where
  heap : Heap s.expires (s.heap c).offset (fun u => ¬L u ∧ s.On .inHeap c u) (s.heap c) (s.timers c).size
  list : ∀ u, u ∈ (s.timers c).list ↔ ¬L u ∧ s.On .inList c u
  inactive : ∀ u, u ∈ (s.timers c).inactive ↔ ¬L u ∧ s.On .inactive c u
  sorted : (s.timers c).list.Pairwise fun u v => s.expires u ≤ s.expires v
  listNodup : (s.timers c).list.Nodup
  inactiveNodup : (s.timers c).inactive.Nodup
  size : (s.timers c).size ≤ (s.timers c).limit

structure Wf (L : Nat → Prop) (F : Frame) (s : State) : Prop where
  queue : ∀ c, Queue L s c
  limit : ∀ c, (s.timers c).limit = F.limit c
  limits : ∀ c, F.limit c ∈ [0,15,255,4095,65535]
  softirq : s.softirq = F.softirq
  settled : ∀ u, ¬L u → s.Settled F u

section

variable {L L' : Nat → Prop} {F : Frame} {s s' : State} {c t : Nat}

theorem Queue.of_agree (h : Queue L s c) (ht : s'.timers c = s.timers c)
  (hn : ∀ status u, status.Placed → (¬L' u ∧ s'.On status c u ↔ ¬L u ∧ s.On status c u))
  (ho : ∀ u, ¬L u → s.On .inHeap c u → (s'.timer u).heapOffset = (s.timer u).heapOffset)
  (he : ∀ u, ¬L u → s'.expires u = s.expires u) : Queue L' s' c := by
  refine ⟨?_,fun u => ?_,fun u => ?_,?_,?_,?_,?_⟩
  · rw [ht]
    exact h.heap.congr (fun _ _ => by rw [State.heap,State.heap,ht])
      (fun u hu => ho u hu.1 hu.2) (fun u hu => he u hu.1)
      fun u => hn .inHeap u (by decide)
  · rw [ht,h.list,hn .inList u (by decide)]
  · rw [ht,h.inactive,hn .inactive u (by decide)]
  · rw [ht]
    refine h.sorted.imp_of_mem fun {u v} hu hv ha => ?_
    rw [he u ((h.list u).mp hu).1,he v ((h.list v).mp hv).1]
    exact ha
  · exact ht ▸ h.listNodup
  · exact ht ▸ h.inactiveNodup
  · exact ht ▸ h.size

theorem Wf.of_agree (h : Wf L F s) (ht : s'.timers = s.timers)
  (hs : s'.softirq = s.softirq) (ha : ∀ u, ¬L u → s'.timer u = s.timer u) : Wf L F s' where
  queue c := (h.queue c).of_agree (congrFun ht c)
    (fun status u _ => and_congr_right fun hu => by rw [State.On,State.On,ha u hu])
    (fun u hu _ => congrArg Timer.heapOffset (ha u hu))
    fun u hu => congrArg Timer.expires (ha u hu)
  limit c := ht ▸ h.limit c
  limits := h.limits
  softirq := hs.trans h.softirq
  settled u hu := by
    rw [State.Settled,State.armed,ha u hu]
    exact h.settled u hu

theorem Wf.setTimer (h : Wf L F s) (ht : L t) (f : Timer → Timer) : Wf L F (s.setTimer t f) :=
  h.of_agree rfl rfl fun _ hu => if_neg (by rintro rfl; exact hu ht)

variable {status : Status} {u : Nat} {f : Timers → Timers} {l : List Nat} {expires : Nat → Int}

theorem loose_congr (hL : s.On status c u → (L' u ↔ L u)) : ¬L' u ∧ s.On status c u ↔ ¬L u ∧ s.On status c u :=
  and_congr_left fun ho => not_congr (hL ho)

theorem State.On.unique {status' : Status} {d : Nat} (h : s.On status c u) (h' : s.On status' d u) :
  status = status' ∧ c = d :=
  ⟨h.1.symm.trans h'.1,Option.some.inj (h.2.symm.trans h'.2)⟩

variable (h : Wf L F s)
include h

theorem Wf.relabel (hL : ∀ status c u, status.Placed → s.On status c u → (L' u ↔ L u))
  (hs : ∀ u, ¬L' u → s.Settled F u) : Wf L' F s where
  queue c := (h.queue c).of_agree rfl
    (fun status u hp => loose_congr (hL status c u hp)) (fun _ _ _ => rfl) fun _ _ => rfl
  limit := h.limit
  limits := h.limits
  softirq := h.softirq
  settled := hs

theorem Wf.putHeap {S : Slots Nat} {n : Nat}
  (hh : Heap s.expires (s.heap c).offset (fun u => ¬L' u ∧ s.On .inHeap c u) S n)
  (hn : n ≤ (s.timers c).limit) (hL : ∀ u, ¬s.On .inHeap c u → (L' u ↔ L u))
  (hs : ∀ u, ¬L' u → s.Settled F u) : Wf L' F (s.putHeap c S n) := by
  have he : (s.putHeap c S n).timers c = {s.timers c with slots := S.slot,size := n} := if_pos rfl
  refine ⟨fun d => ?_,fun d => ?_,h.limits,h.softirq,hs⟩
  · by_cases hd : d = c
    · rw [hd]
      have hq := h.queue c
      have ho {status : Status} (hb : status ≠ .inHeap) (u : Nat) : ¬L u ∧ s.On status c u ↔ ¬L' u ∧ s.On status c u :=
        (loose_congr fun ha => hL u fun hon' => hb (ha.unique hon').1).symm
      refine ⟨?_,fun u => ?_,fun u => ?_,?_,?_,?_,?_⟩ <;> rw [he]
      · exact hh.congr (fun i _ => congrFun (congrArg Timers.slots he) i) (fun _ _ => rfl) (fun _ _ => rfl)
          fun _ => Iff.rfl
      · exact (hq.list u).trans (ho (by decide) u)
      · exact (hq.inactive u).trans (ho (by decide) u)
      · exact hq.sorted
      · exact hq.listNodup
      · exact hq.inactiveNodup
      · exact hn
    refine (h.queue d).of_agree (if_neg hd) (fun status u _ => loose_congr fun ha =>
      hL u fun hon' => hd (ha.unique hon').2) (fun u _ ha => ?_) fun _ _ => rfl
    exact hh.tracks.frame u fun hm => hd (ha.unique hm.2).2
  rw [← h.limit d]
  simp only [State.putHeap]
  split <;> rfl

theorem Wf.setTimers (status : Status) (hc : Queue L' (s.setTimers c f) c)
  (hl : (f (s.timers c)).limit = (s.timers c).limit)
  (hL : ∀ u, ¬s.On status c u → (L' u ↔ L u)) (hs : ∀ u, ¬L' u → s.Settled F u) : Wf L' F (s.setTimers c f) := by
  refine ⟨fun d => ?_,fun d => ?_,h.limits,h.softirq,hs⟩
  · by_cases hd : d = c
    · exact hd ▸ hc
    · exact (h.queue d).of_agree (if_neg hd) (fun status u _ => loose_congr fun ho =>
        hL u fun ho' => hd (ho.unique ho').2) (fun _ _ _ => rfl) fun _ _ => rfl
  rw [← h.limit d]
  simp only [State.setTimers]
  split_ifs with hd
  · rw [hd,hl]
  · rfl

theorem Wf.setList (hf : f (s.timers c) = {s.timers c with list := l}) (hm : ∀ u, u ∈ l ↔ ¬L' u ∧ s.On .inList c u)
  (ha : l.Pairwise fun u v => s.expires u ≤ s.expires v) (hn : l.Nodup)
  (hL : ∀ u, ¬s.On .inList c u → (L' u ↔ L u))
  (hs : ∀ u, ¬L' u → s.Settled F u) : Wf L' F (s.setTimers c f) := by
  have hq := h.queue c
  have he : (s.setTimers c f).timers c = {s.timers c with list := l} := (if_pos rfl).trans hf
  have ho {status : Status} (hb : status ≠ .inList) (u : Nat) : ¬L' u ∧ s.On status c u ↔ ¬L u ∧ s.On status c u :=
    loose_congr fun hc => hL u fun hon' => hb (hc.unique hon').1
  refine h.setTimers .inList ⟨?_,fun u => ?_,fun u => ?_,?_,?_,?_,?_⟩ (by rw [hf]) hL hs <;> rw [he]
  · exact hq.heap.congr (fun _ _ => by simp only [State.heap,he]) (fun _ _ => rfl) (fun _ _ => rfl) (ho (by decide))
  · exact hm u
  · exact (hq.inactive u).trans (ho (by decide) u).symm
  · exact ha
  · exact hn
  · exact hq.inactiveNodup
  · exact hq.size

theorem Wf.setInactive (hf : f (s.timers c) = {s.timers c with inactive := l})
  (hm : ∀ u, u ∈ l ↔ ¬L' u ∧ s.On .inactive c u) (hn : l.Nodup)
  (hL : ∀ u, ¬s.On .inactive c u → (L' u ↔ L u))
  (hs : ∀ u, ¬L' u → s.Settled F u) : Wf L' F (s.setTimers c f) := by
  have hq := h.queue c
  have he : (s.setTimers c f).timers c = {s.timers c with inactive := l} := (if_pos rfl).trans hf
  have ho {status : Status} (ha : status ≠ .inactive) (u : Nat) : ¬L' u ∧ s.On status c u ↔ ¬L u ∧ s.On status c u :=
    loose_congr fun hb => hL u fun hon' => ha (hb.unique hon').1
  refine h.setTimers .inactive ⟨?_,fun u => ?_,fun u => ?_,?_,?_,?_,?_⟩ (by rw [hf]) hL hs <;> rw [he]
  · exact hq.heap.congr (fun _ _ => by simp only [State.heap,he]) (fun _ _ => rfl) (fun _ _ => rfl) (ho (by decide))
  · exact (hq.list u).trans (ho (by decide) u).symm
  · exact hm u
  · exact hq.sorted
  · exact hq.listNodup
  · exact hn
  · exact hq.size

omit h in
theorem mem_insertSorted : u ∈ insertSorted expires t l ↔ u = t ∨ u ∈ l := by
  induction l with
  | nil => simp [insertSorted]
  | cons v vs ih =>
    rw [insertSorted]
    split
    · rw [mem_cons,ih,mem_cons]
      tauto
    · rw [mem_cons]

omit h in
theorem sorted_insertSorted (h : l.Pairwise fun u v => expires u ≤ expires v) :
  (insertSorted expires t l).Pairwise fun u v => expires u ≤ expires v := by
  induction l with
  | nil => simp [insertSorted]
  | cons v vs ih =>
    obtain ⟨hv,hs⟩ := pairwise_cons.mp h
    rw [insertSorted]
    split
    · rename_i hl
      refine pairwise_cons.mpr ⟨fun u hu => ?_,ih hs⟩
      rcases mem_insertSorted.mp hu with rfl | hu
      · exact hl
      · exact hv u hu
    rename_i hg
    refine pairwise_cons.mpr ⟨fun u hu => ?_,h⟩
    have ht : expires t ≤ expires v := by omega
    rcases mem_cons.mp hu with rfl | hu
    · exact ht
    · exact Int.le_trans ht (hv u hu)

omit h in
theorem nodup_insertSorted (h : l.Nodup) (ht : t ∉ l) : (insertSorted expires t l).Nodup := by
  induction l with
  | nil => simp [insertSorted]
  | cons v vs ih =>
    obtain ⟨hv,hs⟩ := nodup_cons.mp h
    obtain ⟨ha,hb⟩ := not_or.mp (mt mem_cons.mpr ht)
    rw [insertSorted]
    split
    · refine nodup_cons.mpr ⟨fun hm => ?_,ih hs hb⟩
      rcases mem_insertSorted.mp hm with he | hm
      · exact ha he.symm
      · exact hv hm
    · exact nodup_cons.mpr ⟨ht,h⟩

omit h in
theorem State.armed_of_active (h : (s.timer t).status = .inHeap ∨ (s.timer t).status = .inList) :
  s.armed t = some (s.expires t) := by
  rw [State.armed,Timer.active]
  rcases h with h | h <;> simp [h,State.expires]

omit h in
theorem State.armed_of_idle (h : (s.timer t).status ≠ .inHeap) (h' : (s.timer t).status ≠ .inList) :
  s.armed t = none := by
  simp [State.armed,Timer.active,h,h']

omit h in
theorem State.On.settled (ho : s.On status c t) (hp : status.Placed) (ha : s.armed t = F.armed t) : s.Settled F t := by
  refine ⟨ha,iff_of_true (ho.1 ▸ hp) ?_⟩
  rw [ho.2]
  exact Option.some_ne_none c

theorem Wf.settled_loosen (hu : ¬(L u ∨ u = t)) : s.Settled F u := h.settled u fun hL => hu (.inl hL)

theorem Wf.settled_tighten (ht : s.Settled F t) (hu : ¬(L u ∧ u ≠ t)) : s.Settled F u := by
  by_cases ha : u = t
  · exact ha ▸ ht
  · exact h.settled u fun hL => hu ⟨hL,ha⟩

theorem limit_lt (c : Nat) : (s.timers c).limit < 2^16 := by
  have := h.limits c
  rw [h.limit c]
  simp only [mem_cons,not_mem_nil,or_false] at this
  omega

theorem Wf.removeFromHeap (ht : ¬L t) (ho : s.On .inHeap c t) :
  Wf (fun u => L u ∨ u = t) F (s.removeFromHeap c t).1 := by
  have hq := h.queue c
  have hr := removeFromHeap_heap hq.heap ⟨ht,ho⟩
  have hs : u16 ((s.timers c).size-1) = (s.timers c).size-1 := by
    have := hq.size
    have := limit_lt h c
    exact Nat.mod_eq_of_lt (by omega)
  refine h.putHeap ?_ ?_ (fun u hu => ?_) fun u hu => h.settled_loosen hu
  · rw [hs]
    refine hr.of_iff fun u => ?_
    tauto
  · have := hq.size
    omega
  · have : u ≠ t := by
      rintro rfl
      exact hu ho
    tauto

theorem Wf.addToHeap (ht : L t) (ho : s.On .inHeap c t)
  (hr : (s.timers c).size ≠ (s.timers c).limit) (ha : F.armed t = some (s.expires t)) :
  Wf (fun u => L u ∧ u ≠ t) F (s.addToHeap c t).1 := by
  have hq := h.queue c
  have hd := addToHeap_heap hq.heap (t := t) fun hm => hm.1 ht
  have hs : u16 ((s.timers c).size+1) = (s.timers c).size+1 := by
    have := hq.size
    have := limit_lt h c
    exact Nat.mod_eq_of_lt (by omega)
  rw [State.addToHeap,if_neg hr,hs]
  refine h.putHeap ?_ ?_ (fun u hu => ?_) fun u hu => h.settled_tighten ?_ hu
  · refine hd.of_iff fun u => ?_
    constructor
    · rintro ⟨hL,ho'⟩
      tauto
    rintro (⟨hL,ho'⟩ | rfl)
    · tauto
    · tauto
  · have := hq.size
    omega
  · have : u ≠ t := by
      rintro rfl
      exact hu ho
    tauto
  · exact ho.settled (by decide) (ha ▸ State.armed_of_active (.inl ho.1))

theorem Wf.removeFromList (ht : ¬L t) (ho : s.On .inList c t) :
  Wf (fun u => L u ∨ u = t) F (s.removeFromList c t).1 := by
  have hq := h.queue c
  simp only [State.removeFromList]
  refine h.setList rfl (fun u => ?_) (hq.sorted.sublist erase_sublist)
    (hq.listNodup.erase t) (fun u hu => ?_) fun u hu => h.settled_loosen hu
  · rw [hq.listNodup.mem_erase_iff,hq.list]
    tauto
  have : u ≠ t := by
    rintro rfl
    exact hu ho
  tauto

theorem Wf.addToList (ht : L t) (ho : s.On .inList c t) (ha : F.armed t = some (s.expires t)) :
  Wf (fun u => L u ∧ u ≠ t) F (s.addToList c t).1 := by
  have hq := h.queue c
  simp only [State.addToList]
  refine h.setList rfl (fun u => ?_) (sorted_insertSorted hq.sorted)
    (nodup_insertSorted hq.listNodup fun hm => ((hq.list t).mp hm).1 ht) (fun u hu => ?_)
    fun u hu => h.settled_tighten ?_ hu
  · rw [mem_insertSorted,hq.list]
    constructor
    · rintro (rfl | hu)
      · tauto
      · tauto
    · tauto
  · have : u ≠ t := by
      rintro rfl
      exact hu ho
    tauto
  · exact ho.settled (by decide) (ha ▸ State.armed_of_active (.inr ho.1))

theorem Wf.listDel (ht : ¬L t) (ho : s.On .inactive c t) : Wf (fun u => L u ∨ u = t) F (s.listDel t) := by
  have hq := h.queue c
  rw [State.listDel,ho.2]
  refine h.setInactive rfl (fun u => ?_) (hq.inactiveNodup.erase t) (fun u hu => ?_) fun u hu => h.settled_loosen hu
  · rw [hq.inactiveNodup.mem_erase_iff,hq.inactive]
    tauto
  have : u ≠ t := by
    rintro rfl
    exact hu ho
  tauto

theorem Wf.listAdd (ht : L t) (ho : s.On .inactive c t)
  (ha : F.armed t = none) : Wf (fun u => L u ∧ u ≠ t) F (s.listAdd c t) := by
  have hq := h.queue c
  refine h.setInactive rfl (fun u => ?_) (nodup_cons.mpr ⟨fun hm => ((hq.inactive t).mp hm).1 ht,hq.inactiveNodup⟩)
    (fun u hu => ?_) fun u hu => h.settled_tighten ?_ hu
  · rw [mem_cons,hq.inactive]
    constructor
    · rintro (rfl | hu)
      · tauto
      · tauto
    · tauto
  · have : u ≠ t := by
      rintro rfl
      exact hu ho
    tauto
  · refine ho.settled (by decide) (ha ▸ State.armed_of_idle ?_ ?_) <;> rw [ho.1] <;> decide

end

end TimerQueue
