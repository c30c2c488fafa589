import PMigrate.Migration.Rounds

namespace Migration

open List Transition

variable {n : Nat}

def MasterPc.flag : MasterPc → Nat
  | .waitOne _ => 1
  | .lowerOne _ => 1
  | .waitTwo _ => 1
  | .lowerTwo _ => 1
  | .waitEnd => 2
  | .done => 2
  | _ => 0

structure Phased (s : State n) : Prop where
  flag : s.cnt = s.master.flag
  ending : ∀ i, (s.links i).pc = .endBarrier → s.master = .waitEnd ∨ s.master = .done
  ended : ∀ i, (s.links i).pc = .out ∨ (s.links i).pc = .stopped → s.master = .done

variable {m : MasterPc} {s t : State n} {p : Plan} {i : Fin n}

theorem flag_two (h : m.flag = 2) : m = .waitEnd ∨ m = .done := by cases m <;> simp_all [MasterPc.flag]

theorem Phased.not_ending (hs : Phased s) (hc : s.cnt = 1) : s.master ≠ .waitEnd ∧ s.master ≠ .done := by
  have hf := hs.flag
  constructor
  all_goals
    intro hm
    simp [hc,hm,MasterPc.flag] at hf

theorem phased_init : Phased (State.init n) :=
  ⟨rfl,fun _ h => (by cases h),fun _ h => (by rcases h with h | h <;> cases h)⟩

theorem phased_master (hs : Phased s) (h : MasterMove p s t) : Phased t := by
  have he : s.master ≠ .waitEnd ∧ s.master ≠ .done := by cases h <;> simp_all
  have hl := h.links_eq
  refine ⟨?_,fun i hi => ?_,fun i hi => ?_⟩
  · have hf := hs.flag
    cases h <;> simp_all [MasterPc.flag]
  · rcases hs.ending i (hl ▸ hi) with h' | h'
    · exact absurd h' he.1
    · exact absurd h' he.2
  · exact absurd (hs.ended i (hl ▸ hi)) he.2

theorem phased_local (hs : Phased s) (hc : t.cnt = s.cnt) (hm : t.master = s.master)
  (hn : ∀ j, j ≠ i → t.links j = s.links j)
  (he : (t.links i).pc = .endBarrier → (s.links i).pc = .endBarrier ∨ s.cnt = 2)
  (ha : (t.links i).pc = .out ∨ (t.links i).pc = .stopped → (s.links i).pc = .out ∨ (s.links i).pc = .stopped) :
  Phased t := by
  refine ⟨by rw [hc,hm,hs.flag],fun j hj => ?_,fun j hj => ?_⟩
  · rw [hm]
    by_cases hi : j = i
    · subst hi
      rcases he hj with h | h
      · exact hs.ending j h
      · exact flag_two (hs.flag ▸ h)
    · exact hs.ending j (hn j hi ▸ hj)
  rw [hm]
  by_cases hi : j = i
  · subst hi
    exact hs.ended j (ha hj)
  · exact hs.ended j (hn j hi ▸ hj)

theorem phased_slave (hs : Phased s) (h : SlaveMove s i t) : Phased t := by
  have hn : ∀ j, j ≠ i → t.links j = s.links j := fun j hj => h.links_ne hj
  cases h <;> refine phased_local hs rfl rfl hn ?_ ?_ <;> simp_all [Link.post]

theorem phased_recv (hs : Phased s) (h : RecvMove s i t) : Phased t := by
  have hn : ∀ j, j ≠ i → t.links j = s.links j := fun j hj => h.links_ne hj
  cases h <;> refine phased_local hs rfl rfl hn ?_ ?_ <;> simp_all

variable {m' : MasterPc} {l : Link} {b : Batch} {a : Act n}

theorem released_flag (h : State.released m = some m') : m'.flag = m.flag := by
  rcases released_cases h with ⟨k,rfl,rfl⟩ | ⟨k,rfl,rfl⟩ | ⟨rfl,rfl⟩ <;> rfl

theorem released_end (h : State.released m = some m') (hm : m = .waitEnd ∨ m = .done) : m' = .done := by
  rcases hm with rfl | rfl <;> simp_all [State.released]

theorem release_pc (h : l.pc = .barrier ∨ l.pc = .endBarrier) :
  (l.pc = .barrier ∧ l.release.pc = .poll) ∨ (l.pc = .endBarrier ∧ l.release.pc = .out) := by
  rcases h with h | h
  · exact .inl ⟨h,by simp [Link.release,h]⟩
  · exact .inr ⟨h,by simp [Link.release,h]⟩

theorem phased_move (hs : Phased s) (h : Move p s a t) : Phased t := by
  cases h with
  | master h => exact phased_master hs h
  | release m ha hm =>
    refine ⟨by simpa [released_flag hm] using hs.flag,fun i hi => ?_,fun i hi => ?_⟩
    · rcases release_pc (ha i) with ⟨_,h⟩ | ⟨_,h⟩ <;> simp [h] at hi
    rcases release_pc (ha i) with ⟨_,h⟩ | ⟨h',_⟩
    · simp [h] at hi
    · exact released_end hm (hs.ending i h')
  | recvRelease ha => exact ⟨hs.flag,hs.ending,hs.ended⟩
  | slave i _ h => exact phased_slave hs h
  | receiver i h => exact phased_recv hs h

def SendPc.hand : SendPc → List Batch
  | .work b => [b]
  | .write b => [b]
  | _ => []

def Msg.batches : Msg → List Batch
  | .data b => [b]
  | .cut b => [b]
  | _ => []

def RecvPc.inHand : RecvPc → List Batch
  | .applying b => [b]
  | _ => []

def Link.held (l : Link) : List Batch := l.recv.inHand ++ l.chan.flatMap Msg.batches ++ l.pc.hand

def State.inFlight (s : State n) (b : Batch) : Prop := b ∈ s.queue ∨ ∃ i, b ∈ (s.links i).held

def State.discharged (s : State n) (b : Batch) : Prop := b ∈ s.applied ∨ b ∈ s.bailed

def Accounted (s : State n) : Prop := ∀ b, b ∈ s.enqueued ↔ s.inFlight b ∨ s.discharged b

theorem accounted_init : Accounted (State.init n) := by
  intro b
  simp [State.init,State.inFlight,State.discharged,Link.init,Link.held,RecvPc.inHand,SendPc.hand]

def State.pipe (s : State n) (i : Fin n) : List Batch := (s.links i).held ++ s.queue

theorem inFlight_split (s : State n) (i : Fin n) (b : Batch) :
  s.inFlight b ↔ b ∈ s.pipe i ∨ ∃ j, j ≠ i ∧ b ∈ (s.links j).held := by
  simp only [State.pipe,mem_append]
  constructor
  · rintro (h | ⟨j,h⟩)
    · exact .inl (.inr h)
    by_cases hj : j = i
    · subst hj; exact .inl (.inl h)
    · exact .inr ⟨j,hj,h⟩
  rintro ((h | h) | ⟨j,_,h⟩)
  · exact .inr ⟨i,h⟩
  · exact .inl h
  · exact .inr ⟨j,h⟩

inductive Flow (s t : State n) (i : Fin n) : Prop
  | keep (hp : t.pipe i = s.pipe i) (ha : t.applied = s.applied) (hb : t.bailed = s.bailed)
  | bail (b : Batch) (u v : List Batch) (hs : s.pipe i = u ++ b :: v) (ht : t.pipe i = u ++ v)
      (ha : t.applied = s.applied) (hb : t.bailed = b :: s.bailed)
  | apply (b : Batch) (hs : s.pipe i = b :: t.pipe i) (hr : (s.links i).recv = .applying b)
      (ha : t.applied = b :: s.applied) (hb : t.bailed = s.bailed)

structure Carries (s t : State n) (i : Fin n) : Prop where
  enqueued : t.enqueued = s.enqueued
  others : ∀ j, j ≠ i → t.links j = s.links j
  flow : Flow s t i

theorem Flow.pipe_sub (h : Flow s t i) (hb : b ∈ t.pipe i) : b ∈ s.pipe i := by
  cases h with
  | keep hp => exact hp ▸ hb
  | bail b' u v hs ht =>
    rw [ht,mem_append] at hb
    rw [hs]
    simp only [mem_append,mem_cons]
    tauto
  | apply b' hs => rw [hs]; exact mem_cons_of_mem _ hb

theorem Flow.whole (h : Flow s t i) (b : Batch) :
  (b ∈ t.pipe i ∨ t.discharged b) ↔ (b ∈ s.pipe i ∨ s.discharged b) := by
  cases h with
  | keep hp ha hb => rw [State.discharged,State.discharged,hp,ha,hb]
  | bail b' u v hs ht ha hb =>
    rw [State.discharged,State.discharged,hs,ht,ha,hb]
    simp only [mem_append,mem_cons]
    tauto
  | apply b' hs _ ha hb =>
    rw [State.discharged,State.discharged,hs,ha,hb]
    simp only [mem_cons]
    tauto

theorem Carries.others_iff (h : Carries s t i) (b : Batch) :
  (∃ j, j ≠ i ∧ b ∈ (t.links j).held) ↔ ∃ j, j ≠ i ∧ b ∈ (s.links j).held := by
  constructor
  · rintro ⟨j,hj,hb⟩; exact ⟨j,hj,h.others j hj ▸ hb⟩
  · rintro ⟨j,hj,hb⟩; exact ⟨j,hj,(h.others j hj).symm ▸ hb⟩

theorem Carries.inFlight_sub (h : Carries s t i) (hb : t.inFlight b) : s.inFlight b := by
  rw [inFlight_split t i] at hb
  rw [inFlight_split s i]
  rcases hb with hb | hb
  · exact .inl (h.flow.pipe_sub hb)
  · exact .inr ((h.others_iff b).mp hb)

theorem Carries.accounted (h : Carries s t i) (hs : Accounted s) : Accounted t := by
  intro b
  have hw := h.flow.whole b
  have ho := h.others_iff b
  have hb := hs b
  rw [inFlight_split s i] at hb
  rw [h.enqueued,hb,inFlight_split t i,ho,or_right_comm,← hw,or_right_comm]

theorem slave_flow (h : SlaveMove s i t) : Flow s t i := by
  cases h with
  | pollEmpty hp | missOne hp | seeTwo hp | missTwo hp | prepare b hp | readAck a hp =>
    exact .keep (by simp [State.pipe,Link.held,hp,SendPc.hand]) rfl rfl
  | dequeue b q hp hq => exact .keep (by simp [State.pipe,Link.held,hp,hq,SendPc.hand]) rfl rfl
  | seeOne hp | relay b hp | write b hp | finish hp =>
    exact .keep (by simp [State.pipe,Link.held,Link.post,hp,SendPc.hand,Msg.batches]) rfl rfl
  | bail b hp =>
    refine .bail b ((s.links i).recv.inHand ++ (s.links i).chan.flatMap Msg.batches) s.queue
      ?_ ?_ rfl rfl
    · simp [State.pipe,Link.held,hp,SendPc.hand]
    · simp [State.pipe,Link.held,SendPc.hand]

theorem recv_flow (h : RecvMove s i t) : Flow s t i := by
  cases h with
  | data b c hr hc | barrier c hr hc | finish c hr hc =>
    exact .keep (by simp [State.pipe,Link.held,hr,hc,RecvPc.inHand,Msg.batches]) rfl rfl
  | lastIter c hr hc => exact .keep (by simp [State.pipe,Link.held,hc,Msg.batches]) rfl rfl
  | apply b hr => exact .apply b (by simp [State.pipe,Link.held,hr,RecvPc.inHand]) hr rfl rfl
  | sendAck hr => exact .keep (by simp [State.pipe,Link.held,hr,RecvPc.inHand]) rfl rfl

theorem slave_carries (h : SlaveMove s i t) : Carries s t i :=
  ⟨by cases h <;> rfl,fun _ hj => h.links_ne hj,slave_flow h⟩

theorem recv_carries (h : RecvMove s i t) : Carries s t i :=
  ⟨by cases h <;> rfl,fun _ hj => h.links_ne hj,recv_flow h⟩

theorem release_held (h : l.pc = .barrier ∨ l.pc = .endBarrier) : l.release.held = l.held := by
  rcases h with h | h <;> simp [Link.held,Link.release,h,SendPc.hand]

theorem inFlight_congr (hq : t.queue = s.queue) (hl : ∀ i, (t.links i).held = (s.links i).held) (b : Batch) :
  t.inFlight b ↔ s.inFlight b := by
  simp only [State.inFlight,hq,hl]

theorem inFlight_releaseTo (ha : ∀ i, (s.links i).pc = .barrier ∨ (s.links i).pc = .endBarrier) (b : Batch) :
  (s.releaseTo m).inFlight b ↔ s.inFlight b :=
  inFlight_congr (s := s) (t := s.releaseTo m) rfl (fun i => release_held (ha i)) b

theorem inFlight_recvReleased (ha : ∀ i, (s.links i).recv = .barrier) (b : Batch) :
  s.recvReleased.inFlight b ↔ s.inFlight b :=
  inFlight_congr (s := s) (t := s.recvReleased) rfl
    (fun i => by simp [Link.held,ha i,RecvPc.inHand]) b

theorem accounted_move (hs : Accounted s) (h : Move p s a t) : Accounted t := by
  cases h with
  | master h =>
    intro b
    cases h with
    | enqueue k N b' hm =>
      have hb := hs b
      simp only [State.inFlight,State.discharged,mem_cons,mem_append,mem_nil_iff,or_false] at hb ⊢
      rw [hb,or_right_comm (b := b = b'),or_assoc (b := b = b'),or_left_comm]
    | _ => exact hs b
  | release m ha hm =>
    intro b
    rw [inFlight_releaseTo ha]
    exact hs b
  | recvRelease ha =>
    intro b
    rw [inFlight_recvReleased ha]
    exact hs b
  | slave i _ h => exact (slave_carries h).accounted hs
  | receiver i h => exact (recv_carries h).accounted hs

def Quiet (_ : State n) (a : Act n) : Prop := a.clean = true

section

variable {p : Plan} {live : Bool} {allow : State n → Act n → Prop} {s : State n}

variable (hallow : ∀ u a, allow u a → a.clean = true)
include hallow

variable (h : Reach (State.step p live) allow (State.init n) s)
include h

theorem reachable_synced : Synced s :=
  reach_invariant synced_init
    (fun u a _ _ hi ha hv => synced_move hi (step_move (hallow u a ha) hv)) h

theorem reachable_phased : Phased s :=
  reach_invariant phased_init
    (fun u a _ _ hi ha hv => phased_move hi (step_move (hallow u a ha) hv)) h

theorem reachable_accounted : Accounted s :=
  reach_invariant accounted_init
    (fun u a _ _ hi ha hv => accounted_move hi (step_move (hallow u a ha) hv)) h

end

end Migration
