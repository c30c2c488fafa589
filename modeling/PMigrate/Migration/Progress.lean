import PMigrate.Migration.Account

namespace Migration

open Transition

variable {n : Nat} {p : Plan} {live : Bool}

def MasterPc.resetting : MasterPc → Bool
  | .lowerTwo _ => true
  | _ => false

def MasterPc.gathering : MasterPc → Bool
  | .waitOne _ => true
  | .lowerOne _ => true
  | .raiseTwo _ => true
  | .waitTwo _ => true
  | _ => false

def SendPc.working : SendPc → Bool
  | .poll => true
  | .testOne => true
  | .testTwo => true
  | .work _ => true
  | .write _ => true
  | _ => false

def NoStaleTest (s : State n) (a : Act n) : Prop :=
  a.clean = true ∧ ∀ i x, a = .slave i x → (s.links i).pc = .testOne → s.master.resetting = false

def State.idle (s : State n) (i : Fin n) : Bool :=
  match (s.links i).pc with
  | .poll => decide (s.queue = [])
  | .testOne => decide (s.cnt ≠ 1)
  | .testTwo => decide (s.cnt ≠ 2)
  | _ => false

def Spins (s : State n) (a : Act n) : Prop := ∃ i, a = .slave i .run ∧ s.idle i = true

def Advances (p : Plan) (live : Bool) (s : State n) (a : Act n) : Prop :=
  a.clean = true ∧ (s.step p live a).isSome = true ∧ ¬Spins s a

def Progress (p : Plan) (live : Bool) (s : State n) : Prop :=
  ∃ t, Reach (State.step p live) Spins s t ∧ ∃ a, Advances p live t a

def Done (s : State n) : Prop := s.master = .done ∧ ∀ i, (s.links i).pc = .stopped

structure Gathered (s : State n) : Prop where
  gathering : ∀ i, (s.links i).pc = .ack ∨ (s.links i).pc = .barrier → s.master.gathering = true
  leaving : s.master = .done → ∀ i, (s.links i).pc = .out ∨ (s.links i).pc = .stopped

theorem gathered_init : Gathered (State.init n) := by
  refine ⟨fun i h => ?_,fun h => ?_⟩
  · rcases h with h | h <;> cases h
  · cases h

variable {s t : State n} {m : MasterPc} {i : Fin n} {a : Act n}

theorem gathered_master (hs : Gathered s) (h : MasterMove p s t) : Gathered t := by
  have hl := h.links_eq
  have ho : t.master ≠ .done := by cases h <;> simp
  refine ⟨fun i hi => ?_,fun hd => absurd hd ho⟩
  have hg := hs.gathering i (hl ▸ hi)
  cases h <;> simp_all [MasterPc.gathering]

theorem flag_one (h : m.flag = 1) (hr : m.resetting = false) : m.gathering = true := by
  cases m <;> simp_all [MasterPc.flag,MasterPc.resetting,MasterPc.gathering]

theorem gathered_local (hs : Gathered s) (hm : t.master = s.master) (hn : ∀ j, j ≠ i → t.links j = s.links j)
  (hg : (t.links i).pc = .ack ∨ (t.links i).pc = .barrier → s.master.gathering = true)
  (hl : (s.links i).pc = .out ∨ (s.links i).pc = .stopped →
    (t.links i).pc = .out ∨ (t.links i).pc = .stopped) : Gathered t := by
  refine ⟨fun j hj => ?_,fun hd j => ?_⟩
  · rw [hm]
    by_cases hi : j = i
    · subst hi; exact hg hj
    · exact hs.gathering j (hn j hi ▸ hj)
  have ho := hs.leaving (hm ▸ hd) j
  by_cases hi : j = i
  · subst hi; exact hl ho
  · rw [hn j hi]; exact ho

theorem gathered_slave (hh : Phased s) (hs : Gathered s)
  (ht : (s.links i).pc = .testOne → s.master.resetting = false) (h : SlaveMove s i t) : Gathered t := by
  refine gathered_local hs h.master_eq (fun j hj => h.links_ne hj) (fun hi => ?_) fun ho => ?_
  · cases h with
    | seeOne hp hc => exact flag_one (hh.flag ▸ hc) (ht hp)
    | readAck a hp ha => exact hs.gathering i (.inl hp)
    | _ => simp [Link.post] at hi
  · cases h <;> simp_all [Link.post]

theorem gathered_recv (hs : Gathered s) (h : RecvMove s i t) : Gathered t := by
  have hp : (t.links i).pc = (s.links i).pc := by cases h <;> simp
  refine gathered_local hs h.master_eq (fun j hj => h.links_ne hj) (fun hi => ?_) fun ho => ?_
  · exact hs.gathering i (hp ▸ hi)
  · rw [hp]; exact ho

theorem gathered_release (hs : Gathered s) (ha : ∀ i, (s.links i).pc = .barrier ∨ (s.links i).pc = .endBarrier)
  (hm : State.released s.master = some m) : Gathered (s.releaseTo m) := by
  refine ⟨fun i hi => ?_,fun hd i => ?_⟩
  · rcases release_pc (ha i) with ⟨_,h⟩ | ⟨_,h⟩ <;> simp [h] at hi
  rw [State.releaseTo_master] at hd
  have he : s.master = .waitEnd := released_done (hd ▸ hm)
  rcases release_pc (ha i) with ⟨h,_⟩ | ⟨_,h⟩
  · have hg := hs.gathering i (.inr h)
    simp [he,MasterPc.gathering] at hg
  · exact .inl h

theorem gathered_move (hp : Phased s) (hs : Gathered s) (ha : NoStaleTest s a) (h : Move p s a t) : Gathered t := by
  cases h with
  | master h => exact gathered_master hs h
  | release m hl hm => exact gathered_release hs hl hm
  | recvRelease hl => exact ⟨hs.gathering,hs.leaving⟩
  | slave i _ h => exact gathered_slave hp hs (ha.2 i _ rfl) h
  | receiver i h => exact gathered_recv hs h

theorem Progress.now (h : Advances p live s a) : Progress p live s := ⟨s,.refl,a,h⟩

theorem Progress.after_spin (hi : s.idle i = true) (hs : s.slaveRun i = some t) (h : Progress p live t) :
  Progress p live s := by
  obtain ⟨u,hu,a,ha⟩ := h
  exact ⟨u,hu.head ⟨.slave i .run,⟨i,rfl,hi⟩,hs⟩,a,ha⟩

theorem Progress.slave (hb : s.idle i = false) (hs : (s.slaveRun i).isSome = true) : Progress p live s := by
  refine .now (a := .slave i .run) ⟨rfl,hs,?_⟩
  rintro ⟨j,hj,hi⟩
  cases hj
  simp [hb] at hi

theorem Progress.other (ha : a.clean = true)
  (ht : (s.step p live a).isSome = true) (hs : ∀ i, a ≠ .slave i .run) : Progress p live s :=
  .now ⟨ha,ht,fun ⟨i,hi,_⟩ => hs i hi⟩

theorem Progress.master (h : (s.masterStep p).isSome = true) : Progress p live s :=
  .other (a := .master) rfl h fun i => by simp

theorem Progress.receiver (h : (s.recvRun i).isSome = true) : Progress p live s :=
  .other (a := .receiver i .run) rfl h fun j => by simp

theorem progress_testOne_of_flag (hp : (s.links i).pc = .testOne) (hc : s.cnt = 1) : Progress p live s :=
  .slave (i := i) (by simp [State.idle,hp,hc]) (by simp [State.slaveRun,hp,hc])

theorem progress_testTwo_of_flag (hp : (s.links i).pc = .testTwo) (hc : s.cnt = 2) : Progress p live s :=
  .slave (i := i) (by simp [State.idle,hp,hc]) (by simp [State.slaveRun,hp,hc])

theorem progress_poll_of_queue (hp : (s.links i).pc = .poll) (hq : s.queue ≠ []) : Progress p live s := by
  obtain ⟨b,q,hb⟩ := List.exists_cons_of_ne_nil hq
  exact .slave (i := i) (by simp [State.idle,hp,hb]) (by simp [State.slaveRun,hp,hb])

theorem progress_poll (hp : (s.links i).pc = .poll) (hw : s.queue ≠ [] ∨ s.cnt = 1 ∨ s.cnt = 2) :
  Progress p live s := by
  by_cases hq : s.queue = []
  · have hs : s.slaveRun i = some (s.setLink i {s.links i with pc := .testOne}) := by
      simp [State.slaveRun,hp,hq]
    refine .after_spin (by simp [State.idle,hp,hq]) hs ?_
    rcases hw.resolve_left (not_not.mpr hq) with hc | hc
    · exact progress_testOne_of_flag (i := i) (by simp) hc
    refine .after_spin (i := i) (t := (s.setLink i {s.links i with pc := .testOne}).setLink i
        {s.links i with pc := .testTwo})
      (by simp [State.idle,hc]) (by simp [State.slaveRun,hc]) ?_
    exact progress_testTwo_of_flag (i := i) (by simp) hc
  · exact progress_poll_of_queue hp hq

theorem progress_testTwo (hp : (s.links i).pc = .testTwo) (hw : s.queue ≠ [] ∨ s.cnt = 1 ∨ s.cnt = 2) :
  Progress p live s := by
  by_cases hc : s.cnt = 2
  · exact progress_testTwo_of_flag hp hc
  refine .after_spin (i := i) (t := s.setLink i {s.links i with pc := .poll})
    (by simp [State.idle,hp,hc]) (by simp [State.slaveRun,hp,hc]) ?_
  exact progress_poll (i := i) (by simp) hw

theorem progress_testOne (hp : (s.links i).pc = .testOne) (hw : s.queue ≠ [] ∨ s.cnt = 1 ∨ s.cnt = 2) :
  Progress p live s := by
  by_cases hc : s.cnt = 1
  · exact progress_testOne_of_flag hp hc
  refine .after_spin (i := i) (t := s.setLink i {s.links i with pc := .testTwo})
    (by simp [State.idle,hp,hc]) (by simp [State.slaveRun,hp,hc]) ?_
  exact progress_testTwo (i := i) (by simp) hw

theorem progress_working (hp : (s.links i).pc.working = true)
  (hw : s.queue ≠ [] ∨ s.cnt = 1 ∨ s.cnt = 2) : Progress p live s := by
  cases h : (s.links i).pc with
  | poll => exact progress_poll h hw
  | testOne => exact progress_testOne h hw
  | testTwo => exact progress_testTwo h hw
  | work b =>
    refine .slave (i := i) (by simp [State.idle,h]) ?_
    simp only [State.slaveRun,h]
    split <;> rfl
  | write b => exact .slave (i := i) (by simp [State.idle,h]) (by simp [State.slaveRun,h])
  | _ => simp [h,SendPc.working] at hp

theorem progress_asked {c : List Msg} (hr : (s.links i).recv.busy = true)
  (hc : (s.links i).chan = c ++ [Msg.iterationBarrier])
  (hp : Payload c) : Progress p live s := by
  refine .receiver (i := i) ?_
  cases h : (s.links i).recv with
  | recv =>
    cases c with
    | nil => simp [State.recvRun,h,hc]
    | cons x c =>
      have hx := hp x List.mem_cons_self
      cases x with
      | data b | lastIterFirst => simp [State.recvRun,h,hc]
      | _ => cases hx
  | applying b => simp [State.recvRun,h]
  | _ => simp [h,RecvPc.busy] at hr

structure Sound (s : State n) : Prop where
  synced : Synced s
  phased : Phased s
  gathered : Gathered s

section
variable (hs : Sound s)
include hs

theorem working_of_free (hf : (s.links i).pc.free = true)
  (he : (s.links i).pc ≠ .endBarrier) (hm : s.master ≠ .done) : (s.links i).pc.working = true := by
  have ho := hs.phased.ended i
  cases h : (s.links i).pc <;> simp_all [SendPc.free,SendPc.working]

theorem progress_halted (hc : s.cnt = 1) (hd : ¬(s.links i).past) : Progress p live s := by
  have hm := hs.phased.not_ending hc
  by_cases hl : ∀ j, (s.links j).recv = .barrier
  · exact .other (a := .recvRelease) rfl (by simp [State.step,State.recvReleaseStep,hl]) fun j => by simp
  obtain ⟨j,hj⟩ := not_forall.mp hl
  have hn : ¬(s.links j).past := fun h => hd (hs.synced.together j i h)
  cases hs.synced.stage j with
  | free hf =>
    refine progress_working (working_of_free hs hf (fun he => ?_) hm.2) (.inr (.inl hc))
    rcases hs.phased.ending j he with h | h
    · exact hm.1 h
    · exact hm.2 h
  | asked c _ hh hp _ hb => exact progress_asked hb hh hp
  | halted _ _ _ h => exact absurd h hj
  | passed _ _ _ h => exact absurd (.inl h) hn
  | acked _ _ ha _ => exact absurd (.inr (.inl (by omega))) hn
  | arrived h => exact absurd (.inr (.inr h)) hn
  | ending _ h | ended h => exact absurd (hs.phased.ended j (.inr h)) hm.2

theorem progress_gathering (hc : s.cnt = 1) (hm : State.released s.master = some m) : Progress p live s := by
  have hn := hs.phased.not_ending hc
  by_cases hl : ∀ i, (s.links i).pc = .barrier ∨ (s.links i).pc = .endBarrier
  · exact .other (a := .release) rfl (by simp [State.step,State.releaseStep,hl,hm]) fun j => by simp
  obtain ⟨i,hi⟩ := not_forall.mp hl
  obtain ⟨hb,he⟩ := not_or.mp hi
  cases hs.synced.stage i with
  | free hd => exact progress_working (working_of_free hs hd he hn.2) (.inr (.inl hc))
  | asked c _ hh hp _ hb => exact progress_asked hb hh hp
  | halted hd _ ha hr => exact progress_halted (i := i) hs hc (by simp [Link.past,hd,ha,hr])
  | passed hd hh ha hr => exact .receiver (i := i) (by simp [State.recvRun,hr])
  | acked hd hh ha hr => exact .slave (i := i) (by simp [State.idle,hd]) (by simp [State.slaveRun,hd,ha])
  | arrived h => exact absurd h hb
  | ending _ h | ended h => exact absurd (hs.phased.ended i (.inr h)) hn.2

theorem free_of_not_gathering (hg : s.master.gathering = false) (hm : s.master ≠ .done) :
  (s.links i).pc.free = true := by
  have ha := hs.gathered.gathering i
  have ho := hs.phased.ended i
  cases h : (s.links i).pc <;> simp_all [SendPc.free]

theorem progress_waitEnd (hm : s.master = .waitEnd) : Progress p live s := by
  by_cases ha : ∀ i, (s.links i).pc = .barrier ∨ (s.links i).pc = .endBarrier
  · exact .other (a := .release) rfl (by simp [State.step,State.releaseStep,ha,hm,State.released]) fun j => by simp
  obtain ⟨i,hi⟩ := not_forall.mp ha
  have hf : (s.links i).pc.free = true := free_of_not_gathering hs (by rw [hm]; rfl) (by simp [hm])
  have hw := working_of_free hs hf (fun he => hi (.inr he)) (by simp [hm])
  exact progress_working hw (.inr (.inr (by simp [hs.phased.flag,hm,MasterPc.flag])))

end

theorem progress_scan {k N : Nat} (hp : 0 < n) (hs : Sound s) (hm : s.master = .scan k N) : Progress p live s := by
  by_cases hN : N < p.p2mSize
  · cases hb : s.backPressure p k with
    | false =>
      refine .master ?_
      simp only [State.masterStep,hm,hN,hb,if_true,Bool.false_eq_true,if_false]
      split <;> rfl
    | true =>
      have hq : s.queue ≠ [] := by
        intro hq
        simp [State.backPressure,hq] at hb
      have hf : (s.links ⟨0,hp⟩).pc.free = true := free_of_not_gathering hs (by rw [hm]; rfl) (by simp [hm])
      refine progress_working (working_of_free hs hf (fun he => ?_) (by simp [hm])) (.inl hq)
      have hn := hs.phased.ending _ he
      simp [hm] at hn
  · exact .master (by simp [State.masterStep,hm,hN])

theorem progress_of_sound (hp : 0 < n) (hs : Sound s) : Done s ∨ Progress p live s := by
  have hf := hs.phased.flag
  cases hm : s.master with
  | scan k N => exact .inr (progress_scan hp hs hm)
  | waitOne k =>
    exact .inr (progress_gathering (m := .lowerOne k) hs (by simp [hf,hm,MasterPc.flag]) (by simp [hm,State.released]))
  | waitTwo k =>
    exact .inr (progress_gathering (m := .lowerTwo k) hs (by simp [hf,hm,MasterPc.flag]) (by simp [hm,State.released]))
  | waitEnd => exact .inr (progress_waitEnd hs hm)
  | done =>
    by_cases ha : ∀ i, (s.links i).pc = .stopped
    · exact .inl ⟨hm,ha⟩
    obtain ⟨i,hi⟩ := not_forall.mp ha
    have ho := (hs.gathered.leaving hm i).resolve_right hi
    exact .inr (.slave (i := i) (by simp [State.idle,ho]) (by simp [State.slaveRun,ho]))
  | skip k =>
    refine .inr (.master ?_)
    simp only [State.masterStep,hm]
    split <;> rfl
  | _ => exact .inr (.master (by simp [State.masterStep,hm]))

theorem reachable_sound (h : Reach (State.step p live) NoStaleTest (State.init n) s) : Sound s := by
  have hl : ∀ (u : State n) a, NoStaleTest u a → a.clean = true := fun _ _ ha => ha.1
  refine ⟨reachable_synced hl h,reachable_phased hl h,?_⟩
  exact reach_invariant gathered_init (fun u a _ hu hi ha hv => gathered_move (reachable_phased hl hu) hi ha
      (step_move ha.1 hv)) h

theorem Progress.enabled (h : Progress p live s) : ∃ a, a.clean = true ∧ (s.step p live a).isSome = true := by
  obtain ⟨t,ht,a,ha⟩ := h
  rcases Relation.ReflTransGen.cases_head ht with rfl | ⟨u,⟨b,⟨i,hb,_⟩,hu⟩,_⟩
  · exact ⟨a,ha.1,ha.2.1⟩
  · exact ⟨b,by rw [hb]; rfl,by simp [hu]⟩

theorem barrier_protocol_never_stuck {s : State n} (hpos : 0 < n)
  (h : Reach (State.step p live) NoStaleTest (State.init n) s) : Done s ∨
    (∃ a, a.clean = true ∧ (s.step p live a).isSome = true) ∧ Progress p live s := by
  rcases progress_of_sound hpos (reachable_sound h) with hd | hp
  · exact .inl hd
  · exact .inr ⟨hp.enabled,hp⟩

def lastPagePlan : Plan := ⟨1,[],fun _ => true,none⟩

abbrev lone : Fin 1 := 0

def handOver : List (Act 1) := [.master,.master,.slave 0 .run,.slave 0 .run,.slave 0 .run,
    .receiver 0 .run,.receiver 0 .run,.receiver 0 .run,.master,.master]

def meetOnce : List (Act 1) :=
  [.slave 0 .run,.slave 0 .run,.receiver 0 .run,.recvRelease,.receiver 0 .run,.slave 0 .run]

def NoStaleTest.check (s : State n) (a : Act n) : Bool :=
  a.clean && match a with
    | .slave i _ => !(decide ((s.links i).pc = .testOne) && s.master.resetting)
    | _ => true

theorem NoStaleTest.of_check (h : NoStaleTest.check s a = true) : NoStaleTest s a := by
  simp only [NoStaleTest.check,Bool.and_eq_true] at h
  refine ⟨h.1,fun i x ha hp => ?_⟩
  have h2 := h.2
  subst ha
  simpa [hp] using h2

theorem single_slave_waits_for_barrier :
  ∃ s : State 1, Reach (State.step lastPagePlan true) NoStaleTest (State.init 1) s ∧
    s.master = .waitOne 0 ∧ (s.links 0).pc = .ack ∧ (Done s ∨
      (∃ a, a.clean = true ∧ (s.step lastPagePlan true a).isSome = true) ∧ Progress lastPagePlan true s) := by
  have hu : ((runIf (State.step lastPagePlan true) NoStaleTest.check (State.init 1)
      (handOver ++ meetOnce.take 2)).map fun s => (s.master,(s.links 0).pc)) = some (.waitOne 0,.ack) := by decide
  obtain ⟨s,hr,ho⟩ := reach_observed (fun _ _ => NoStaleTest.of_check) hu
  simp only [Prod.mk.injEq] at ho
  exact ⟨s,hr,ho.1,ho.2,barrier_protocol_never_stuck (by decide) hr⟩

theorem stale_flag_deadlock : ∃ s : State 1, Reach (State.step lastPagePlan true) Quiet (State.init 1) s ∧
    ¬Done s ∧ ∀ a, s.step lastPagePlan true a = none := by
  have hu : ((runIf (State.step lastPagePlan true) (fun _ a => a.clean) (State.init 1)
      (handOver ++ meetOnce ++ [Act.release,Act.master,Act.master] ++ meetOnce ++ [Act.release] ++
        meetOnce ++ [Act.master,Act.master,Act.master,Act.release,Act.slave 0 .run,Act.slave 0 .run,
          Act.slave 0 .run])).map
      fun s => (s.master,s.links 0)) = some (.done,⟨.endBarrier,true,[],0,.recv⟩) := by decide
  obtain ⟨s,hr,ho⟩ := reach_observed (fun _ _ h => h) hu
  simp only [Prod.mk.injEq] at ho
  obtain ⟨hm,hl⟩ := ho
  refine ⟨s,hr,fun hd => ?_,fun a => ?_⟩
  · have hs := hd.2 0
    simp [hl] at hs
  cases a with
  | master => simp [State.step,State.masterStep,hm]
  | release => simp [State.step,State.releaseStep,State.released,hm]
  | recvRelease => simp [State.step,State.recvReleaseStep,hl]
  | slave i a =>
    rw [Subsingleton.elim i 0]
    cases a <;> simp [State.step,State.slaveRun,State.slaveBail,State.slaveFail,hl]
  | receiver i a =>
    rw [Subsingleton.elim i 0]
    cases a <;> simp [State.step,State.recvRun,State.recvFail,hl]

end Migration
