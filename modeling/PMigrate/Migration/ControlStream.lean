import PMigrate.Migration.Delivery

namespace Migration

open List Transition Bool

variable {n : Nat}

inductive Chunk where
  | tmem
  | tmemExtra
  | tscInfo
  | enableVerifyMode
  | vcpuInfo
  | hvmIdentPt
  | hvmVm86Tss
  | hvmConsolePfn
  | hvmAcpiIoportsLocation
  | lastCheckpoint
  | zero
  | tail
deriving DecidableEq

inductive Outcome where
  | again
  | returned
  | misread
deriving DecidableEq

def Chunk.outcome : Chunk → Outcome
  | .tscInfo => .returned
  | .zero => .returned
  | .tail => .misread
  | _ => .again

structure Config where
  (tmem hvm identPt vm86Tss consolePfn acpiIoports checkpoint : Bool)
deriving DecidableEq

def Chunk.when (x : Chunk) (cond : Bool) : List Chunk := if cond then [x] else []

namespace Config

variable (c : Config) (p : Plan)

def opening : List Chunk := Chunk.tmem.when c.tmem

def extra : List Chunk := Chunk.tmemExtra.when (c.tmem && !p.lastIter 0) ++ [Chunk.tscInfo]

def lead : List Chunk := c.opening ++ c.extra p

def sofar (late : Bool) : List Chunk := bif late then c.lead p else c.opening

def body : List Chunk :=
  Chunk.enableVerifyMode.when p.resend.isSome ++ .vcpuInfo ::
    (Chunk.hvmIdentPt.when (c.hvm && c.identPt) ++ Chunk.hvmVm86Tss.when (c.hvm && c.vm86Tss) ++
      Chunk.hvmConsolePfn.when (c.hvm && c.consolePfn) ++ Chunk.hvmAcpiIoportsLocation.when (c.hvm && c.acpiIoports) ++
      Chunk.lastCheckpoint.when (!c.checkpoint)) ++ [Chunk.zero]

def announce : MasterPc → List Chunk
  | .skip k => if !p.lastIter k && p.lastIter (k+1) then c.extra p else []
  | _ => []

end Config

inductive RestorePc where
  | lastTest
  | first
  | finishTest
  | second
  | tail
  | lost
deriving DecidableEq

structure Sys (n : Nat) where
  proto : State n
  (stream toWrite consumed : List Chunk)
  everLastIter : Bool
  pc : RestorePc

inductive SysAct (n : Nat) where
  | proto (a : Act n)
  | put
  | restore
deriving DecidableEq

namespace Sys

variable (c : Config) (p : Plan) (live : Bool)

def init (n : Nat) : Sys n :=
  ⟨State.init n,c.sofar p (p.lastIter 0),c.body p ++ [Chunk.tail],[],false,.lastTest⟩

def locked (s : Sys n) : Act n → Bool
  | .receiver i .run =>
    decide (s.pc = .first) && decide ((s.proto.links i).recv = .recv) &&
      decide ((s.proto.links i).chan.head? = some .lastIterFirst)
  | _ => false

def writes (s : Sys n) : Act n → List Chunk
  | .master => c.announce p s.proto.master
  | _ => []

def pagebufGetOne (s : Sys n) (next : RestorePc) : Option (Sys n) :=
  match s.stream with
  | [] => none
  | x :: st =>
    let t := {s with stream := st,consumed := s.consumed ++ [x]}
    match x.outcome with
    | .again => some t
    | .returned => some {t with pc := next}
    | .misread => some {t with pc := .lost}

def restoreStep (s : Sys n) : Option (Sys n) :=
  match s.pc with
  | .lastTest =>
    if !s.everLastIter && s.proto.mcLastIter then
      some {s with everLastIter := true,pc := .first}
    else some {s with pc := .finishTest}
  | .first => s.pagebufGetOne .finishTest
  | .finishTest =>
    if s.proto.recvFinishCnt < n then some {s with pc := .lastTest}
    else some {s with pc := .second}
  | .second => s.pagebufGetOne .tail
  | .tail => none
  | .lost => none

def step (s : Sys n) : SysAct n → Option (Sys n)
  | .proto a =>
    if s.locked a then none
    else (s.proto.step p live a).map fun t =>
      {s with proto := t,stream := s.stream ++ s.writes c p a}
  | .put =>
    match s.toWrite with
    | [] => none
    | x :: xs =>
      if s.proto.master = .done then some {s with stream := s.stream ++ [x],toWrite := xs}
      else none
  | .restore => s.restoreStep

end Sys

def State.finishing (s : State n) (i : Fin n) : Prop :=
  (s.links i).recv = .recv ∧ (s.links i).chan.head? = some .paraMigrEnd

structure InTime (s : Sys n) (a : Act n) : Prop where
  clean : a.clean = true
  relayed : a = .release → s.proto.master = .waitEnd → ∃ i, (s.proto.links i).everLastIter = true
  noRace : ∀ i, a = .receiver i .run → s.proto.finishing i → s.proto.recvFinishCnt+1 = n →
    ¬(s.pc = .finishTest ∧ s.everLastIter = false)

def Timely (s : Sys n) (a : SysAct n) : Prop := ∀ b, a = .proto b → InTime s b

inductive Segment : List Chunk → Prop
  | last (x : Chunk) (hx : x.outcome = .returned) : Segment [x]
  | more (x : Chunk) {l : List Chunk} (hx : x.outcome = .again) (hl : Segment l) : Segment (x :: l)

def Again (u : List Chunk) : Prop := ∀ x ∈ u, x.outcome = .again

theorem Again.append {u v : List Chunk} (hu : Again u) (hv : Again v) : Again (u ++ v) := by
  intro x hx
  rcases mem_append.mp hx with h | h
  · exact hu x h
  · exact hv x h

variable {x : Chunk} {l st rest : List Chunk} {t : State n} {a : Act n} {i : Fin n} {c : Config}
  {s : Sys n}

theorem again_when (cond : Bool) (hx : x.outcome = .again) : Again (x.when cond) := by
  intro y hy
  cases cond with
  | false => cases hy
  | true =>
    rw [mem_singleton.mp hy]
    exact hx

theorem Segment.append {u : List Chunk} (hu : Again u) (hl : Segment l) : Segment (u ++ l) := by
  induction u with
  | nil => exact hl
  | cons x u ih => exact .more x (hu x mem_cons_self) (ih fun y hy => hu y (mem_cons_of_mem x hy))

theorem Segment.pop (h : Segment (x :: l)) : (x.outcome = .returned ∧ l = []) ∨ (x.outcome = .again ∧ Segment l) := by
  cases h with
  | last _ hx => exact .inl ⟨hx,rfl⟩
  | more _ hx hl => exact .inr ⟨hx,hl⟩

theorem Segment.exists_cons (h : Segment l) : ∃ x u, l = x :: u := by
  cases h with
  | last x hx => exact ⟨x,[],rfl⟩
  | more x hx hl => exact ⟨x,_,rfl⟩

theorem lead_segment (c : Config) (p : Plan) : Segment (c.lead p) :=
  .append (again_when _ rfl) (.append (again_when _ rfl) (.last .tscInfo rfl))

theorem body_segment (c : Config) (p : Plan) : Segment (c.body p) := by
  have hh := ((((again_when (c.hvm && c.identPt) (x := .hvmIdentPt) rfl).append
    (again_when (c.hvm && c.vm86Tss) (x := .hvmVm86Tss) rfl)).append
    (again_when (c.hvm && c.consolePfn) (x := .hvmConsolePfn) rfl)).append
    (again_when (c.hvm && c.acpiIoports) (x := .hvmAcpiIoportsLocation) rfl)).append
    (again_when (!c.checkpoint) (x := .lastCheckpoint) rfl)
  rw [Config.body,append_assoc]
  exact .append (again_when _ rfl) (.more .vcpuInfo rfl (.append hh (.last .zero rfl)))

def MasterPc.late (p : Plan) : MasterPc → Bool
  | .scan k _ => p.lastIter k
  | .enqueue k _ _ => p.lastIter k
  | .raiseOne k => p.lastIter k
  | .waitOne k => p.lastIter k
  | .lowerOne k => p.lastIter k
  | .raiseTwo k => p.lastIter k
  | .waitTwo k => p.lastIter k
  | .lowerTwo k => p.lastIter k
  | .skip k => p.lastIter k
  | .raiseEnd => true
  | .waitEnd => true
  | .done => true

variable {p : Plan}

theorem lastIter_mono {k : Nat} (h : p.lastIter k = true) : p.lastIter (k+1) = true := by
  simp only [Plan.lastIter,decide_eq_true_eq] at h ⊢
  omega

theorem lastIter_of_ends {k : Nat} (h : p.ends k = true) : p.lastIter k = true := by
  simp only [Plan.ends,Plan.iterations,Plan.lastIter,decide_eq_true_eq,length_append,length_cons] at h ⊢
  omega

theorem late_master {s : State n} (h : MasterMove p s t) (hl : s.master.late p = true) : t.master.late p = true := by
  cases h with
  | skipNext k hm hk =>
    rw [hm] at hl
    exact lastIter_mono hl
  | skipLast k hm hk => rfl
  | raiseEnd hm => rfl
  | _ => simp_all [MasterPc.late]

theorem late_release {m m' : MasterPc} (h : State.released m = some m') : m'.late p = m.late p := by
  rcases released_cases h with ⟨k,rfl,rfl⟩ | ⟨k,rfl,rfl⟩ | ⟨rfl,rfl⟩ <;> rfl

theorem late_move {s : State n} (h : Move p s a t) (hl : s.master.late p = true) : t.master.late p = true := by
  cases h with
  | master h => exact late_master h hl
  | release m ha hm =>
    rw [State.releaseTo_master,late_release hm]
    exact hl
  | recvRelease ha => exact hl
  | slave i _ h | receiver i h => rw [h.master_eq]; exact hl

structure Relayed (p : Plan) (s : State n) : Prop where
  batch : ∀ b ∈ s.enqueued, b.lastIter = true → s.master.late p = true
  loaded : ∀ k N b, s.master = .enqueue k N b → b.lastIter = p.lastIter k
  relay : ∀ i, (s.links i).everLastIter = true → s.mcLastIter = true ∨ .lastIterFirst ∈ (s.links i).chan
  posted : ∀ i, .lastIterFirst ∈ (s.links i).chan → s.master.late p = true
  seen : s.mcLastIter = true → s.master.late p = true

theorem relayed_init : Relayed p (State.init n) := by
  refine ⟨fun b hb => ?_,fun k N b hm => ?_,fun i hi => ?_,fun i hi => ?_,fun h => ?_⟩
  · cases hb
  · cases hm
  · cases hi
  · cases hi
  · cases h

theorem relayed_master {s : State n} (hs : Relayed p s) (h : MasterMove p s t) : Relayed p t := by
  have hl := h.links_eq
  have hc : t.mcLastIter = s.mcLastIter := by cases h <;> rfl
  have ha := late_master h
  refine ⟨fun b hb hd => ?_,fun k N b hm => ?_,fun i hi => ?_,fun i hi => ?_,fun he => ?_⟩
  · cases h with
    | enqueue k N b' hm =>
      rcases mem_cons.mp hb with rfl | hb
      · rw [hs.loaded k N _ hm] at hd
        exact hd
      · exact ha (hs.batch b hb hd)
    | _ => exact ha (hs.batch b hb hd)
  · cases h with
    | load k' N' hm' hN hb => cases hm; rfl
    | _ => cases hm
  · rw [hl] at hi ⊢
    rw [hc]
    exact hs.relay i hi
  · rw [hl] at hi
    exact ha (hs.posted i hi)
  · rw [hc] at he
    exact ha (hs.seen he)

theorem relayed_local {s : State n} (hs : Relayed p s) (hm : t.master = s.master)
  (he : t.enqueued = s.enqueued) (hn : ∀ j, j ≠ i → t.links j = s.links j)
  (hc : s.mcLastIter = true → t.mcLastIter = true)
  (hr : (t.links i).everLastIter = true → t.mcLastIter = true ∨ .lastIterFirst ∈ (t.links i).chan)
  (hp : .lastIterFirst ∈ (t.links i).chan → s.master.late p = true)
  (ha : t.mcLastIter = true → s.master.late p = true) : Relayed p t := by
  refine ⟨fun b hb => ?_,fun k N b hk => ?_,fun j hj => ?_,fun j hj => ?_,fun h => ?_⟩
  · rw [hm]; exact hs.batch b (he ▸ hb)
  · exact hs.loaded k N b (hm ▸ hk)
  · by_cases hi : j = i
    · subst hi; exact hr hj
    · rw [hn j hi] at hj ⊢
      exact (hs.relay j hj).imp_left hc
  · rw [hm]
    by_cases hi : j = i
    · subst hi; exact hp hj
    · exact hs.posted j (hn j hi ▸ hj)
  · rw [hm]; exact ha h

theorem relayed_slave {s : State n} (ha : Accounted s) (hs : Relayed p s) (h : SlaveMove s i t) : Relayed p t := by
  have hc : t.mcLastIter = s.mcLastIter := by cases h <;> rfl
  refine relayed_local hs h.master_eq (slave_carries h).enqueued (fun j hj => h.links_ne hj)
    (fun hs => hc ▸ hs) (fun he => ?_) (fun hm => ?_) fun hd => hs.seen (hc ▸ hd)
  · rw [hc]
    have hf := hs.relay i
    cases h with
    | relay b hp hb => exact .inr (by simp [Link.post])
    | _ => simp_all [Link.post]
  have hf := hs.posted i
  cases h with
  | relay b hp hb =>
    have hn : b ∈ s.enqueued := (ha b).mpr (.inl (.inr ⟨i,by simp [Link.held,hp,SendPc.hand]⟩))
    exact hs.batch b hn hb
  | _ => simp_all [Link.post]

theorem relayed_recv {s : State n} (hs : Relayed p s) (h : RecvMove s i t) : Relayed p t := by
  have hr := hs.relay i
  have hp := hs.posted i
  have ha := hs.seen
  refine relayed_local hs h.master_eq (recv_carries h).enqueued (fun j hj => h.links_ne hj)
    (fun hm => ?_) (fun he => ?_) (fun hb => ?_) fun hm => ?_
  all_goals cases h <;> simp_all

theorem relayed_move {s : State n} (ha : Accounted s) (hs : Relayed p s) (h : Move p s a t) : Relayed p t := by
  cases h with
  | master h => exact relayed_master hs h
  | release m hc hm =>
    refine ⟨fun b hb hl => ?_,fun k N b hk => ?_,hs.relay,fun i hi => ?_,fun he => ?_⟩
    · rw [State.releaseTo_master,late_release hm]; exact hs.batch b hb hl
    · rw [State.releaseTo_master] at hk
      rcases released_cases hm with ⟨_,_,h⟩ | ⟨_,_,h⟩ | ⟨_,h⟩ <;> simp [h] at hk
    · rw [State.releaseTo_master,late_release hm]; exact hs.posted i hi
    · rw [State.releaseTo_master,late_release hm]; exact hs.seen he
  | recvRelease hc => exact ⟨hs.batch,hs.loaded,hs.relay,hs.posted,hs.seen⟩
  | slave i _ h => exact relayed_slave ha hs h
  | receiver i h => exact relayed_recv hs h

inductive SysMove (c : Config) (p : Plan) (s : Sys n) : SysAct n → Sys n → Prop
  | proto (a : Act n) (t : State n) (ha : InTime s a) (h : Move p s.proto a t) :
      SysMove c p s (.proto a) {s with proto := t,stream := s.stream ++ s.writes c p a}
  | put (x : Chunk) (xs : List Chunk) (hw : s.toWrite = x :: xs) (hd : s.proto.master = .done) :
      SysMove c p s .put {s with stream := s.stream ++ [x],toWrite := xs}
  | seeLast (hpc : s.pc = .lastTest) (he : s.everLastIter = false) (hm : s.proto.mcLastIter = true) :
      SysMove c p s .restore {s with everLastIter := true,pc := .first}
  | missLast (hpc : s.pc = .lastTest) (hm : s.everLastIter = true ∨ s.proto.mcLastIter = false) :
      SysMove c p s .restore {s with pc := .finishTest}
  | notFinished (hpc : s.pc = .finishTest) (hc : s.proto.recvFinishCnt < n) :
      SysMove c p s .restore {s with pc := .lastTest}
  | finished (hpc : s.pc = .finishTest) (hc : n ≤ s.proto.recvFinishCnt) :
      SysMove c p s .restore {s with pc := .second}
  | read (x : Chunk) (st : List Chunk) (next pc : RestorePc) (hst : s.stream = x :: st)
      (hpc : s.pc = .first ∧ next = .finishTest ∨ s.pc = .second ∧ next = .tail)
      (hx : x.outcome = .again ∧ pc = s.pc ∨ x.outcome = .returned ∧ pc = next ∨ x.outcome = .misread ∧ pc = .lost) :
      SysMove c p s .restore {s with stream := st,consumed := s.consumed ++ [x],pc := pc}

theorem pagebufGetOne_move {t : Sys n} {next : RestorePc}
  (hp : s.pc = .first ∧ next = .finishTest ∨ s.pc = .second ∧ next = .tail)
  (h : s.pagebufGetOne next = some t) : SysMove c p s .restore t := by
  unfold Sys.pagebufGetOne at h
  split at h
  · cases h
  rename_i x st hs
  split at h
  · rename_i hx
    cases h
    exact .read x st next s.pc hs hp (.inl ⟨hx,rfl⟩)
  · rename_i hx
    cases h
    exact .read x st next next hs hp (.inr (.inl ⟨hx,rfl⟩))
  · rename_i hx
    cases h
    exact .read x st next .lost hs hp (.inr (.inr ⟨hx,rfl⟩))

theorem restoreStep_move {t : Sys n} (h : s.restoreStep = some t) : SysMove c p s .restore t := by
  unfold Sys.restoreStep at h
  split at h
  · rename_i hp
    split_ifs at h with hb
    · simp only [and_eq_true,not_eq_true'] at hb
      cases h
      exact .seeLast hp hb.1 hb.2
    cases h
    refine .missLast hp ?_
    by_contra hn
    obtain ⟨he,hm⟩ := not_or.mp hn
    simp [he,hm] at hb
  · rename_i hp; exact pagebufGetOne_move (.inl ⟨hp,rfl⟩) h
  · rename_i hp
    split at h
    · rename_i hc; cases h; exact .notFinished hp hc
    · rename_i hc; cases h; exact .finished hp (by omega)
  · rename_i hp; exact pagebufGetOne_move (.inr ⟨hp,rfl⟩) h
  all_goals cases h

theorem sys_step_move {live : Bool} {t : Sys n} {a : SysAct n} (ha : Timely s a)
  (h : s.step c p live a = some t) : SysMove c p s a t := by
  cases a with
  | proto a =>
    simp only [Sys.step] at h
    split at h
    · cases h
    obtain ⟨u,hu,ht⟩ := Option.map_eq_some_iff.mp h
    have hi := ha a rfl
    exact ht ▸ .proto a u hi (step_move hi.clean hu)
  | put =>
    simp only [Sys.step] at h
    split at h
    · cases h
    rename_i x xs hw
    split at h
    · rename_i hd; cases h; exact .put x xs hw hd
    · cases h
  | restore => exact restoreStep_move h

theorem everLastIter_kept {s : State n} (h : Move p s a t)
  (hi : (s.links i).everLastIter = true) : (t.links i).everLastIter = true := by
  cases h with
  | master h => rw [h.links_eq]; exact hi
  | release m ha hm | recvRelease ha => exact hi
  | slave j _ h =>
    by_cases hj : i = j
    · subst hj
      cases h <;> simp_all [Link.post]
    · rw [h.links_ne hj]; exact hi
  | receiver j h =>
    by_cases hj : i = j
    · subst hj
      cases h <;> simp_all
    · rw [h.links_ne hj]; exact hi

def Told (s : State n) : Prop := s.master = .done → ∃ i, (s.links i).everLastIter = true

theorem told_move (ha : InTime s a) (hs : Told s.proto) (h : Move p s.proto a t) : Told t := by
  intro hd
  by_cases ho : s.proto.master = .done
  · obtain ⟨i,hi⟩ := hs ho
    exact ⟨i,everLastIter_kept h hi⟩
  cases h with
  | master h => cases h <;> cases hd
  | release m hl hm =>
    rw [State.releaseTo_master] at hd
    exact ha.relayed rfl (released_done (hd ▸ hm))
  | recvRelease hl => exact absurd hd ho
  | slave i _ h | receiver i h => exact absurd (h.master_eq ▸ hd) ho

structure Grounded (p : Plan) (s : State n) : Prop where
  synced : Synced s
  phased : Phased s
  accounted : Accounted s
  tallied : Tallied s
  relayed : Relayed p s
  told : Told s

theorem grounded_init : Grounded p (State.init n) :=
  ⟨synced_init,phased_init,accounted_init,tallied_init,relayed_init,fun h => by cases h⟩

theorem grounded_move (ha : InTime s a) (hs : Grounded p s.proto) (h : Move p s.proto a t) : Grounded p t :=
  ⟨synced_move hs.synced h,phased_move hs.phased h,accounted_move hs.accounted h,
    tallied_move hs.tallied h,relayed_move hs.accounted hs.relayed h,told_move ha hs.told h⟩

theorem finish_count_le {s : State n} (hs : Tallied s) : s.recvFinishCnt ≤ n := by
  have hc := Finset.card_le_univ (finishers s)
  rw [Fintype.card_fin] at hc
  rw [hs]
  exact hc

theorem done_of_finished {s : State n} (hp : 0 < n) (hs : Grounded p s)
  (hf : n ≤ s.recvFinishCnt) : s.master = .done ∧ ∀ i, (s.links i).chan = [] := by
  have hq : s.recvFinishCnt = n := le_antisymm (finish_count_le hs.tallied) hf
  have he : ∀ i, (s.links i).pc = .stopped ∧ (s.links i).chan = [] := by
    intro i
    have hr := all_finished hs.tallied hq i
    cases hs.synced.stage i with
    | ended ha hc => exact ⟨ha,hc⟩
    | _ => simp_all [RecvPc.busy]
  exact ⟨hs.phased.ended ⟨0,hp⟩ (.inr (he _).1),fun i => (he i).2⟩

theorem unfinished_of_unaware {s : State n} (hp : 0 < n) (hs : Grounded p s)
  (hm : s.mcLastIter = false) : s.recvFinishCnt < n := by
  by_contra hf
  obtain ⟨hd,hc⟩ := done_of_finished hp hs (not_lt.mp hf)
  obtain ⟨i,hi⟩ := hs.told hd
  rcases hs.relayed.relay i hi with h | h
  · simp [hm] at h
  · simp [hc i] at h

structure Written (c : Config) (p : Plan) (s : Sys n) : Prop where
  whole : ∃ w, w ++ s.toWrite = c.body p ++ [Chunk.tail] ∧
    s.consumed ++ s.stream = c.sofar p (s.proto.master.late p) ++ w
  held : s.proto.master ≠ .done → s.toWrite = c.body p ++ [Chunk.tail]

theorem written_init : Written c p (Sys.init c p n) :=
  ⟨⟨[],rfl,by simp [Sys.init,State.init,MasterPc.late]⟩,fun _ => rfl⟩

theorem announce_late {s : State n} (h : MasterMove p s t) :
  c.sofar p (t.master.late p) = c.sofar p (s.master.late p) ++ c.announce p s.master := by
  cases h with
  | skipNext k hm hk =>
    rw [hm]
    cases h0 : p.lastIter k with
    | true => simp [MasterPc.late,Config.announce,Config.sofar,h0,lastIter_mono h0]
    | false =>
      cases h1 : p.lastIter (k+1) <;> simp [MasterPc.late,Config.announce,Config.sofar,Config.lead,h0,h1]
  | skipLast k hm hk =>
    have h0 := lastIter_of_ends hk
    simp [hm,MasterPc.late,Config.announce,h0]
  | _ => simp_all [MasterPc.late,Config.announce]

theorem writes_late (h : Move p s.proto a t) :
  c.sofar p (t.master.late p) = c.sofar p (s.proto.master.late p) ++ s.writes c p a := by
  cases h with
  | master h => exact announce_late h
  | release m ha hm => simp [Sys.writes,late_release hm]
  | recvRelease ha => exact (append_nil _).symm
  | slave i _ h | receiver i h => simp [Sys.writes,h.master_eq]

theorem done_stable {s : State n} (h : Move p s a t) (hd : s.master = .done) : t.master = .done := by
  cases h with
  | master h => cases h <;> simp_all
  | release m ha hm => simp [hd,State.released] at hm
  | recvRelease ha => exact hd
  | slave i _ h | receiver i h => rw [h.master_eq]; exact hd

theorem written_move {t : Sys n} {a : SysAct n} (hs : Written c p s) (h : SysMove c p s a t) : Written c p t := by
  obtain ⟨⟨w,hw,hu⟩,hh⟩ := hs
  cases h with
  | proto a t ha h =>
    refine ⟨⟨w,hw,?_⟩,fun he => hh fun hd => he (done_stable h hd)⟩
    have hc : w ++ s.writes c p a = s.writes c p a ++ w := by
      by_cases hd : s.proto.master = .done
      · have hn : s.writes c p a = [] := by cases a <;> simp [Sys.writes,Config.announce,hd]
        simp [hn]
      rw [hh hd] at hw
      have hn : w = [] := by simpa using hw
      simp [hn]
    rw [← append_assoc,hu,writes_late h,append_assoc,hc,append_assoc]
  | put x xs hx hd =>
    refine ⟨⟨w ++ [x],?_,?_⟩,fun he => absurd hd he⟩
    · rw [← hw,hx]; simp
    · rw [← append_assoc,hu,append_assoc]
  | read x st next pc ht hp hx =>
    refine ⟨⟨w,hw,?_⟩,hh⟩
    rw [← hu,ht]
    simp
  | _ => exact ⟨⟨w,hw,hu⟩,hh⟩

inductive Position (c : Config) (p : Plan) (s : Sys n) : Prop
  | unaware (he : s.everLastIter = false) (hc : s.consumed = [])
      (hpc : s.pc = .lastTest ∨ s.pc = .finishTest ∧ s.proto.recvFinishCnt < n)
  | first (rest : List Chunk) (he : s.everLastIter = true) (hpc : s.pc = .first)
      (hl : s.proto.master.late p = true) (hr : Segment rest) (hc : s.consumed ++ rest = c.lead p)
  | between (he : s.everLastIter = true) (hpc : s.pc = .lastTest ∨ s.pc = .finishTest)
      (hl : s.proto.master.late p = true) (hc : s.consumed = c.lead p)
  | second (rest : List Chunk) (hpc : s.pc = .second) (hd : s.proto.master = .done)
      (hr : Segment rest) (hc : c.lead p ++ c.body p = s.consumed ++ rest)
      (hp : c.lead p <+: s.consumed)
  | tail (hpc : s.pc = .tail) (hc : s.consumed = c.lead p ++ c.body p)

theorem finish_step (ha : InTime s a) (h : Move p s.proto a t) (hc : s.proto.recvFinishCnt < n)
  (hp : s.pc = .finishTest) (he : s.everLastIter = false) : t.recvFinishCnt < n := by
  cases h with
  | master h | slave i _ h => cases h <;> exact hc
  | release m hb hm | recvRelease hb => exact hc
  | receiver i h =>
    cases h with
    | finish c hr hh =>
      have hd := ha.noRace i rfl ⟨hr,by simp [hh]⟩
      have hl : s.proto.recvFinishCnt+1 ≠ n := fun hn => hd hn ⟨hp,he⟩
      have hs : s.proto.recvFinishCnt+1 < n := by omega
      exact hs
    | _ => exact hc

theorem position_proto (ha : InTime s a) (hs : Position c p s) (h : Move p s.proto a t) :
  Position c p {s with proto := t,stream := st} := by
  cases hs with
  | unaware he hc hb =>
    refine .unaware he hc (hb.imp_right fun hf => ⟨hf.1,?_⟩)
    exact finish_step ha h hf.2 hf.1 he
  | first rest he hb hl hr hc => exact .first rest he hb (late_move h hl) hr hc
  | between he hb hl hc => exact .between he hb (late_move h hl) hc
  | second rest hb hd hr hc hp => exact .second rest hb (done_stable h hd) hr hc hp
  | tail hb hc => exact .tail hb hc

theorem late_of_done {m : MasterPc} (h : m = .done) : m.late p = true := by
  subst h
  rfl

theorem Written.total (hw : Written c p s) (hl : s.proto.master.late p = true) :
  s.consumed ++ (s.stream ++ s.toWrite) = c.lead p ++ (c.body p ++ [Chunk.tail]) := by
  obtain ⟨⟨w,hh,hu⟩,_⟩ := hw
  have hs : c.sofar p (s.proto.master.late p) = c.lead p := by rw [hl]; rfl
  rw [← append_assoc,hu,hs,append_assoc,hh]

theorem next_chunk (hw : Written c p s) (hl : s.proto.master.late p = true) (hs : s.stream = x :: st)
  (hr : Segment rest)
  (hc : s.consumed ++ rest = c.lead p ∨ s.consumed ++ rest = c.lead p ++ c.body p) : ∃ rest', rest = x :: rest' := by
  obtain ⟨y,u,hu⟩ := hr.exists_cons
  have ha := hw.total hl
  rw [hs] at ha
  have hh : ∃ v, x :: st ++ s.toWrite = rest ++ v := by
    rcases hc with hc | hc
    · rw [← hc,append_assoc] at ha
      exact ⟨_,append_cancel_left ha⟩
    · rw [← append_assoc (c.lead p),← hc,append_assoc] at ha
      exact ⟨_,append_cancel_left ha⟩
  obtain ⟨v,hv⟩ := hh
  rw [hu,cons_append,cons_append,List.cons.injEq] at hv
  exact ⟨u,by rw [hu,hv.1]⟩

theorem position_read {next pc : RestorePc} (hw : Written c p s) (hs : Position c p s) (hm : s.stream = x :: st)
  (hb : s.pc = .first ∧ next = .finishTest ∨ s.pc = .second ∧ next = .tail)
  (hx : x.outcome = .again ∧ pc = s.pc ∨ x.outcome = .returned ∧ pc = next ∨ x.outcome = .misread ∧ pc = .lost) :
  Position c p {s with stream := st,consumed := s.consumed ++ [x],pc := pc} := by
  cases hs with
  | unaware he hc hpc' => rcases hpc' with h | h <;> simp_all
  | first rest he hf hl hr hc =>
    obtain ⟨rest',hk⟩ := next_chunk hw hl hm hr (.inl hc)
    subst hk
    have hn : next = .finishTest := by simpa [hf] using hb
    have ho : s.consumed ++ [x] ++ rest' = c.lead p := by simpa using hc
    rcases hr.pop with ⟨ht,hi⟩ | ⟨ha,hg⟩
    · have hpc' : pc = .finishTest := by simpa [ht,hn] using hx
      exact .between he (.inr hpc') hl (by simpa [hi] using ho)
    · have hpc' : pc = .first := by simpa [ha,hf] using hx
      exact .first rest' he hpc' hl hg ho
  | between he hpc' hl hc => rcases hpc' with h | h <;> simp [h] at hb
  | second rest hq hd hr hc hp =>
    obtain ⟨rest',hk⟩ := next_chunk hw (late_of_done hd) hm hr (.inr hc.symm)
    subst hk
    have hn : next = .tail := by simpa [hq] using hb
    have ho : c.lead p ++ c.body p = s.consumed ++ [x] ++ rest' := by simpa using hc
    rcases hr.pop with ⟨ht,hi⟩ | ⟨ha,hg⟩
    · have hpc' : pc = .tail := by simpa [ht,hn] using hx
      exact .tail hpc' (by simpa [hi] using ho.symm)
    · have hpc' : pc = .second := by simpa [ha,hq] using hx
      exact .second rest' hpc' hd hg ho (hp.trans (prefix_append _ _))
  | tail hpc' hc => simp [hpc'] at hb

theorem position_move {t : Sys n} {a : SysAct n} (ho : 0 < n)
  (hg : Grounded p s.proto) (hw : Written c p s) (hs : Position c p s) (h : SysMove c p s a t) : Position c p t := by
  cases h with
  | proto a t ha h => exact position_proto ha hs h
  | put x xs hx hd =>
    cases hs with
    | unaware he hc hb => exact .unaware he hc hb
    | first rest he hb hl hr hc => exact .first rest he hb hl hr hc
    | between he hb hl hc => exact .between he hb hl hc
    | second rest hb hd hr hc hp => exact .second rest hb hd hr hc hp
    | tail hb hc => exact .tail hb hc
  | seeLast hb he hm =>
    cases hs with
    | unaware _ hc _ => exact .first (c.lead p) rfl rfl (hg.relayed.seen hm) (lead_segment c p) (by simp [hc])
    | _ => simp_all
  | missLast hb hm =>
    cases hs with
    | unaware he hc _ =>
      have hf : s.proto.mcLastIter = false := hm.resolve_left (by simp [he])
      exact .unaware he hc (.inr ⟨rfl,unfinished_of_unaware ho hg hf⟩)
    | between he _ hl hc => exact .between he (.inr rfl) hl hc
    | _ => simp_all
  | notFinished hb hn =>
    cases hs with
    | unaware he hc _ => exact .unaware he hc (.inl rfl)
    | between he _ hl hc => exact .between he (.inl rfl) hl hc
    | _ => simp_all
  | finished hb hn =>
    cases hs with
    | unaware he hc hpc' =>
      rcases hpc' with h | h
      · simp [h] at hb
      · omega
    | between he _ hl hc =>
      exact .second (c.body p) rfl (done_of_finished ho hg hn).1 (body_segment c p) (by rw [hc]) (by rw [hc])
    | _ => simp_all
  | read x st next pc ht hb hx => exact position_read hw hs ht hb hx

structure InStep (c : Config) (p : Plan) (s : Sys n) : Prop where
  order : s.consumed <+: c.lead p ++ c.body p
  synced : s.pc ≠ .lost
  first : s.pc = .first → s.stream ≠ []
  second : s.pc = .second → c.lead p <+: s.consumed ∧ (s.stream ≠ [] ∨ s.proto.master = .done ∧ s.toWrite ≠ [])
  tail : s.pc = .tail → s.consumed = c.lead p ++ c.body p

theorem first_fed (hw : Written c p s)
  (hl : s.proto.master.late p = true) (hr : Segment rest) (hc : s.consumed ++ rest = c.lead p) : s.stream ≠ [] := by
  obtain ⟨⟨w,_,ha⟩,_⟩ := hw
  obtain ⟨x,u,hu⟩ := hr.exists_cons
  have hs : c.sofar p (s.proto.master.late p) = c.lead p := by rw [hl]; rfl
  rw [hs,← hc,append_assoc] at ha
  rw [append_cancel_left ha,hu]
  simp

theorem second_fed (hw : Written c p s) (hd : s.proto.master = .done) (hc : c.lead p ++ c.body p = s.consumed ++ rest) :
  s.stream ≠ [] ∨ s.proto.master = .done ∧ s.toWrite ≠ [] := by
  have ha := hw.total (late_of_done hd)
  rw [← append_assoc (c.lead p),hc,append_assoc] at ha
  have hr : s.stream ++ s.toWrite = rest ++ [Chunk.tail] := append_cancel_left ha
  by_cases hs : s.stream = []
  · right
    refine ⟨hd,fun hn => ?_⟩
    simp [hs,hn] at hr
  · exact .inl hs

theorem in_step_of_position (hw : Written c p s) (hs : Position c p s) : InStep c p s := by
  cases hs with
  | unaware he hc ha | between he ha hl hc =>
    refine ⟨by simp [hc],?_,?_,?_,?_⟩ <;> intro h <;> simp [h] at ha
  | first rest he ha hl hr hc =>
    refine ⟨?_,by simp [ha],fun _ => first_fed hw hl hr hc,by simp [ha],by simp [ha]⟩
    exact (hc ▸ prefix_append s.consumed rest).trans (prefix_append _ _)
  | second rest ha hd hr hc hp =>
    refine ⟨?_,by simp [ha],by simp [ha],fun _ => ⟨hp,second_fed hw hd hc⟩,by simp [ha]⟩
    rw [hc]
    exact prefix_append _ _
  | tail ha hc => exact ⟨by simp [hc],by simp [ha],by simp [ha],by simp [ha],fun _ => hc⟩

structure Tracked (c : Config) (p : Plan) (s : Sys n) : Prop where
  grounded : Grounded p s.proto
  written : Written c p s
  position : Position c p s

theorem tracked_init : Tracked c p (Sys.init c p n) :=
  ⟨grounded_init,written_init,.unaware rfl rfl (.inl rfl)⟩

theorem tracked_move {t : Sys n} {a : SysAct n} (hp : 0 < n) (hs : Tracked c p s) (h : SysMove c p s a t) :
  Tracked c p t := by
  refine ⟨?_,written_move hs.written h,position_move hp hs.grounded hs.written hs.position h⟩
  cases h with
  | proto a t ha h => exact grounded_move ha hs.grounded h
  | _ => exact hs.grounded

theorem control_stream_in_step {c : Config} {live : Bool} {s : Sys n} (hpos : 0 < n)
  (h : Reach (Sys.step c p live) Timely (Sys.init c p n) s) : InStep c p s := by
  have ht : Tracked c p s := reach_invariant tracked_init
    (fun u a _ _ hi ha hv => tracked_move hpos hi (sys_step_move ha hv)) h
  exact in_step_of_position ht.written ht.position

def InTime.check (s : Sys n) (a : Act n) : Bool :=
  a.clean && !(decide (a = .release) && decide (s.proto.master = .waitEnd) &&
      !decide (∃ i, (s.proto.links i).everLastIter = true)) &&
    match a with
    | .receiver i .run =>
      !(decide ((s.proto.links i).chan.head? = some .paraMigrEnd) &&
        decide (s.proto.recvFinishCnt+1 = n) && decide (s.pc = .finishTest) && !s.everLastIter)
    | _ => true

theorem InTime.of_check (h : InTime.check s a = true) : InTime s a := by
  simp only [InTime.check,and_eq_true] at h
  obtain ⟨⟨hc,he⟩,hr⟩ := h
  refine ⟨hc,fun ha hm => ?_,fun i ha hf hn hp => ?_⟩
  · simpa [ha,hm] using he
  · subst ha
    simp [hf.2,hn,hp.1,hp.2] at hr

def Timely.check (s : Sys n) : SysAct n → Bool
  | .proto a => InTime.check s a
  | _ => true

theorem Timely.of_check {a : SysAct n} (h : Timely.check s a = true) : Timely s a := by
  rintro b rfl
  exact InTime.of_check h

def pvConfig : Config := ⟨false,false,false,false,false,false,false⟩

def latePlan (send : Nat → Bool) : Plan := ⟨1,[fun _ => false],send,none⟩

def lastIteration : List (SysAct 1) := [SysAct.proto .master,SysAct.proto .master] ++ handOver.map SysAct.proto

def closeIteration : List (Act 1) :=
  meetOnce ++ [Act.release,Act.master,Act.master] ++ meetOnce ++ [Act.release] ++ partAndFinish

def endOfSave : List (SysAct 1) := closeIteration.map .proto

def emptySave : List (Act 1) :=
  [.master,.master,.master,.master,.master,.slave lone .run,.slave lone .run,.slave lone .run,.release,
    .slave lone .run,.receiver lone .run]

theorem one_page_stream_in_step : ∃ s : Sys 1,Reach (Sys.step pvConfig (latePlan fun _ => true) true) Timely
      (Sys.init pvConfig (latePlan fun _ => true) 1) s ∧
    s.pc = .tail ∧ s.consumed = [.tscInfo,.vcpuInfo,.lastCheckpoint,.zero] ∧
    InStep pvConfig (latePlan fun _ => true) s := by
  have hu : ((runIf (Sys.step pvConfig (latePlan fun _ => true) true) Timely.check
      (Sys.init pvConfig (latePlan fun _ => true) 1)
      (lastIteration ++ [SysAct.restore,SysAct.restore] ++ endOfSave ++
        [SysAct.restore,SysAct.put,SysAct.restore,SysAct.put,SysAct.restore,SysAct.put,SysAct.put,SysAct.restore])).map
      fun s => (s.pc,s.consumed)) = some (.tail,[.tscInfo,.vcpuInfo,.lastCheckpoint,.zero]) := by decide
  obtain ⟨s,hr,ho⟩ := reach_observed (fun _ _ => Timely.of_check) hu
  simp only [Prod.mk.injEq] at ho
  exact ⟨s,hr,ho.1,ho.2,control_stream_in_step (by decide) hr⟩

def NoError (_ : Sys n) (a : SysAct n) : Prop := ∀ b, a = .proto b → b.clean = true

def NoError.check (_ : Sys n) : SysAct n → Bool
  | .proto b => b.clean
  | _ => true

theorem out_of_step_of_run {send : Nat → Bool} (as : List (SysAct 1))
  (hu : ((runIf (Sys.step c (latePlan send) true) NoError.check
    (Sys.init c (latePlan send) 1) as).map fun s => (s.pc,s.consumed)) = some (.tail,[.tscInfo])) :
  ∃ s : Sys 1, Reach (Sys.step c (latePlan send) true) NoError
    (Sys.init c (latePlan send) 1) s ∧ s.pc = .tail ∧ s.consumed = [.tscInfo] ∧ ¬InStep c (latePlan send) s := by
  have hk : ∀ (u : Sys 1) a, NoError.check u a = true → NoError u a := by
    rintro u a h b rfl
    exact h
  obtain ⟨s,hr,ho⟩ := reach_observed hk hu
  simp only [Prod.mk.injEq] at ho
  refine ⟨s,hr,ho.1,ho.2,fun hi => ?_⟩
  have ha := hi.tail ho.1
  rw [ho.2] at ha
  have hl := congrArg List.length ha
  simp only [Config.lead,Config.extra,Config.body,length_append,length_cons,length_nil] at hl
  omega

theorem control_stream_misread : (∃ s : Sys 1,Reach (Sys.step pvConfig (latePlan fun _ => false) true) NoError
      (Sys.init pvConfig (latePlan fun _ => false) 1) s ∧
    s.pc = .tail ∧ s.consumed = [.tscInfo] ∧ ¬InStep pvConfig (latePlan fun _ => false) s) ∧
  ∃ s : Sys 1,Reach (Sys.step pvConfig (latePlan fun _ => true) true) NoError
  (Sys.init pvConfig (latePlan fun _ => true) 1) s ∧
    s.pc = .tail ∧ s.consumed = [.tscInfo] ∧ ¬InStep pvConfig (latePlan fun _ => true) s := by
  refine ⟨out_of_step_of_run
    (emptySave.map SysAct.proto ++ [SysAct.restore,SysAct.restore,SysAct.restore]) ?_,out_of_step_of_run
      (SysAct.restore :: lastIteration ++ endOfSave ++ [SysAct.restore,SysAct.restore]) ?_⟩
  · decide
  · decide

end Migration
