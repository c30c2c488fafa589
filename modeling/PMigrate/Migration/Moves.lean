import PMigrate.Migration.Protocol

namespace Migration

variable {n : Nat}

inductive MasterMove (p : Plan) (s : State n) : State n → Prop
  | load (k N : Nat) (hm : s.master = .scan k N) (hN : N < p.p2mSize) (hb : (p.batchFrom k N).1 ≠ []) :
      MasterMove p s {s with
        master := .enqueue k (p.batchFrom k N).2 ⟨k,(p.batchFrom k N).1,p.lastIter k⟩}
  | gotoSkip (k N : Nat) (hm : s.master = .scan k N) (hN : N < p.p2mSize)
      (hb : (p.batchFrom k N).1 = []) : MasterMove p s {s with master := .skip k}
  | scanned (k N : Nat) (hm : s.master = .scan k N) (hN : p.p2mSize ≤ N) :
      MasterMove p s {s with master := .raiseOne k}
  | enqueue (k N : Nat) (b : Batch) (hm : s.master = .enqueue k N b) : MasterMove p s
        {s with master := .scan k N,queue := s.queue ++ [b],enqueued := b :: s.enqueued}
  | raiseOne (k : Nat) (hm : s.master = .raiseOne k) : MasterMove p s {s with master := .waitOne k,cnt := 1}
  | lowerOne (k : Nat) (hm : s.master = .lowerOne k) : MasterMove p s {s with master := .raiseTwo k,cnt := 0}
  | raiseTwo (k : Nat) (hm : s.master = .raiseTwo k) : MasterMove p s {s with master := .waitTwo k,cnt := 1}
  | lowerTwo (k : Nat) (hm : s.master = .lowerTwo k) : MasterMove p s {s with master := .skip k,cnt := 0}
  | skipNext (k : Nat) (hm : s.master = .skip k) (hk : p.ends k = false) :
      MasterMove p s {s with master := .scan (k+1) 0}
  | skipLast (k : Nat) (hm : s.master = .skip k) (hk : p.ends k = true) : MasterMove p s {s with master := .raiseEnd}
  | raiseEnd (hm : s.master = .raiseEnd) : MasterMove p s {s with master := .waitEnd,cnt := 2}

inductive SlaveMove (s : State n) (i : Fin n) : State n → Prop
  | pollEmpty (hpc : (s.links i).pc = .poll) (hq : s.queue = []) :
      SlaveMove s i (s.setLink i {s.links i with pc := .testOne})
  | dequeue (b : Batch) (q : List Batch) (hpc : (s.links i).pc = .poll) (hq : s.queue = b :: q) :
      SlaveMove s i ({s with queue := q}.setLink i {s.links i with pc := .work b})
  | seeOne (hpc : (s.links i).pc = .testOne) (hc : s.cnt = 1) :
      SlaveMove s i (s.setLink i ((s.links i).post .iterationBarrier .ack))
  | missOne (hpc : (s.links i).pc = .testOne) (hc : s.cnt ≠ 1) :
      SlaveMove s i (s.setLink i {s.links i with pc := .testTwo})
  | seeTwo (hpc : (s.links i).pc = .testTwo) (hc : s.cnt = 2) :
      SlaveMove s i (s.setLink i {s.links i with pc := .endBarrier})
  | missTwo (hpc : (s.links i).pc = .testTwo) (hc : s.cnt ≠ 2) :
      SlaveMove s i (s.setLink i {s.links i with pc := .poll})
  | relay (b : Batch) (hpc : (s.links i).pc = .work b) (hb : b.lastIter = true) : SlaveMove s i
        (s.setLink i ({s.links i with everLastIter := true}.post .lastIterFirst (.write b)))
  | prepare (b : Batch) (hpc : (s.links i).pc = .work b) (hb : b.lastIter = true → (s.links i).everLastIter = true) :
      SlaveMove s i (s.setLink i {s.links i with pc := .write b})
  | write (b : Batch) (hpc : (s.links i).pc = .write b) : SlaveMove s i (s.setLink i ((s.links i).post (.data b) .poll))
  | bail (b : Batch) (hpc : (s.links i).pc = .write b) :
      SlaveMove s i ({s with bailed := b :: s.bailed}.setLink i {s.links i with pc := .poll})
  | readAck (a : Nat) (hpc : (s.links i).pc = .ack) (ha : (s.links i).acks = a+1) :
      SlaveMove s i (s.setLink i {s.links i with acks := a,pc := .barrier})
  | finish (hpc : (s.links i).pc = .out) : SlaveMove s i (s.setLink i ((s.links i).post .paraMigrEnd .stopped))

inductive RecvMove (s : State n) (i : Fin n) : State n → Prop
  | data (b : Batch) (c : List Msg) (hr : (s.links i).recv = .recv) (hc : (s.links i).chan = .data b :: c) :
      RecvMove s i (s.setLink i {s.links i with chan := c,recv := .applying b})
  | lastIter (c : List Msg) (hr : (s.links i).recv = .recv) (hc : (s.links i).chan = .lastIterFirst :: c) :
      RecvMove s i ({s with mcLastIter := true}.setLink i {s.links i with chan := c})
  | barrier (c : List Msg) (hr : (s.links i).recv = .recv) (hc : (s.links i).chan = .iterationBarrier :: c) :
      RecvMove s i (s.setLink i {s.links i with chan := c,recv := .barrier})
  | finish (c : List Msg) (hr : (s.links i).recv = .recv) (hc : (s.links i).chan = .paraMigrEnd :: c) :
      RecvMove s i ({s with recvFinishCnt := s.recvFinishCnt+1}.setLink i
        {s.links i with chan := c,recv := .finished})
  | apply (b : Batch) (hr : (s.links i).recv = .applying b) :
      RecvMove s i ({s with applied := b :: s.applied}.setLink i {s.links i with recv := .recv})
  | sendAck (hr : (s.links i).recv = .ack) : RecvMove s i (s.setLink i
        {s.links i with acks := (s.links i).acks+1,recv := .recv})

inductive Move (p : Plan) (s : State n) : Act n → State n → Prop
  | master {t : State n} (h : MasterMove p s t) : Move p s .master t
  | release (m : MasterPc) (hall : ∀ i, (s.links i).pc = .barrier ∨ (s.links i).pc = .endBarrier)
      (hm : State.released s.master = some m) : Move p s .release (s.releaseTo m)
  | recvRelease (hall : ∀ i, (s.links i).recv = .barrier) : Move p s .recvRelease s.recvReleased
  | slave (i : Fin n) {a : SlaveAct} {t : State n} (ha : a = .run ∨ a = .bail)
      (h : SlaveMove s i t) : Move p s (.slave i a) t
  | receiver (i : Fin n) {t : State n} (h : RecvMove s i t) : Move p s (.receiver i .run) t

def Act.clean : Act n → Bool
  | .slave _ (.fail _) => false
  | .receiver _ .fail => false
  | _ => true

variable {s t : State n} {i : Fin n}

theorem masterStep_move {p : Plan} (h : s.masterStep p = some t) : MasterMove p s t := by
  unfold State.masterStep at h
  split at h
  · rename_i k N hm
    split at h
    · rename_i hN
      split at h
      · cases h
      dsimp only at h
      split_ifs at h with hb
      · cases h
        exact .gotoSkip k N hm hN hb
      · cases h
        exact .load k N hm hN hb
    rename_i hN
    cases h
    exact .scanned k N hm (by omega)
  · rename_i k N b hm; cases h; exact .enqueue k N b hm
  · rename_i k hm; cases h; exact .raiseOne k hm
  · rename_i k hm; cases h; exact .lowerOne k hm
  · rename_i k hm; cases h; exact .raiseTwo k hm
  · rename_i k hm; cases h; exact .lowerTwo k hm
  · rename_i k hm
    split at h
    · rename_i hk; cases h; exact .skipLast k hm hk
    · rename_i hk; cases h; exact .skipNext k hm (by simpa using hk)
  · rename_i hm; cases h; exact .raiseEnd hm
  all_goals cases h

theorem released_cases {m m' : MasterPc} (h : State.released m = some m') :
  (∃ k, m = .waitOne k ∧ m' = .lowerOne k) ∨ (∃ k, m = .waitTwo k ∧ m' = .lowerTwo k) ∨
  (m = .waitEnd ∧ m' = .done) := by
  cases m with
  | waitOne k => cases h; exact .inl ⟨k,rfl,rfl⟩
  | waitTwo k => cases h; exact .inr (.inl ⟨k,rfl,rfl⟩)
  | waitEnd => cases h; exact .inr (.inr ⟨rfl,rfl⟩)
  | _ => cases h

theorem released_done {m : MasterPc} (h : State.released m = some .done) : m = .waitEnd := by
  rcases released_cases h with ⟨k,_,hd⟩ | ⟨k,_,hd⟩ | ⟨hm,_⟩
  · cases hd
  · cases hd
  · exact hm

theorem slaveRun_move (h : s.slaveRun i = some t) : SlaveMove s i t := by
  unfold State.slaveRun at h
  dsimp only at h
  split at h
  · rename_i hp
    split at h
    · rename_i hq; cases h; exact .pollEmpty hp hq
    · rename_i b q hq; cases h; exact .dequeue b q hp hq
  · rename_i hp
    split at h
    · rename_i hc; cases h; exact .seeOne hp hc
    · rename_i hc; cases h; exact .missOne hp hc
  · rename_i hp
    split at h
    · rename_i hc; cases h; exact .seeTwo hp hc
    · rename_i hc; cases h; exact .missTwo hp hc
  · rename_i b hp
    split_ifs at h with hb
    · simp only [Bool.and_eq_true] at hb
      cases h; exact .relay b hp hb.2
    cases h
    refine .prepare b hp fun hl => ?_
    by_contra he
    simp [hl,he] at hb
  · rename_i b hp; cases h; exact .write b hp
  · rename_i hp
    split at h
    · cases h
    · rename_i a ha; cases h; exact .readAck a hp ha
  · rename_i hp; cases h; exact .finish hp
  all_goals cases h

theorem slaveBail_move (h : s.slaveBail i = some t) : SlaveMove s i t := by
  unfold State.slaveBail at h
  split at h
  · rename_i b hp; cases h; exact .bail b hp
  · cases h

theorem recvRun_move (h : s.recvRun i = some t) : RecvMove s i t := by
  unfold State.recvRun at h
  dsimp only at h
  split at h
  · rename_i hr
    split at h
    · rename_i b c hc; cases h; exact .data b c hr hc
    · rename_i c hc; cases h; exact .lastIter c hr hc
    · rename_i c hc; cases h; exact .barrier c hr hc
    · rename_i c hc; cases h; exact .finish c hr hc
    all_goals cases h
  · rename_i b hr; cases h; exact .apply b hr
  · rename_i hr; cases h; exact .sendAck hr
  all_goals cases h

theorem step_move {p : Plan} {live : Bool} {a : Act n} (ha : a.clean = true) (h : s.step p live a = some t) :
  Move p s a t := by
  cases a with
  | master => exact .master (masterStep_move h)
  | release =>
    simp only [State.step,State.releaseStep] at h
    split at h
    · rename_i hl
      obtain ⟨m,hm,ht⟩ := Option.map_eq_some_iff.mp h
      exact ht ▸ .release m hl hm
    · cases h
  | recvRelease =>
    simp only [State.step,State.recvReleaseStep] at h
    split at h
    · rename_i hl; cases h; exact .recvRelease hl
    · cases h
  | slave i a =>
    cases a with
    | run => exact .slave i (.inl rfl) (slaveRun_move h)
    | bail => exact .slave i (.inr rfl) (slaveBail_move h)
    | fail why => cases ha
  | receiver i a =>
    cases a with
    | run => exact .receiver i (recvRun_move h)
    | fail => cases ha

end Migration
