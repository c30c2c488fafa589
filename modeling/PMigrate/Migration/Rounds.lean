import PMigrate.Migration.Moves

namespace Migration

open List

variable {n : Nat}

namespace State

@[simp] theorem setLink_self (s : State n) (i : Fin n) (l : Link) : (s.setLink i l).links i = l := by
  simp [setLink]

theorem setLink_ne (s : State n) {i j : Fin n} (l : Link) (h : j ≠ i) : (s.setLink i l).links j = s.links j := by
  simp [setLink,h]

end State

variable {s t : State n} {i : Fin n}

variable {c : List Msg} {j : Fin n} {p : Plan} {m : Msg}

theorem MasterMove.links_eq (h : MasterMove p s t) : t.links = s.links := by cases h <;> rfl

theorem SlaveMove.links_ne (h : SlaveMove s i t) (hj : j ≠ i) : t.links j = s.links j := by
  cases h <;> exact State.setLink_ne _ _ hj

theorem SlaveMove.master_eq (h : SlaveMove s i t) : t.master = s.master := by cases h <;> rfl

theorem RecvMove.links_ne (h : RecvMove s i t) (hj : j ≠ i) : t.links j = s.links j := by
  cases h <;> exact State.setLink_ne _ _ hj

theorem RecvMove.master_eq (h : RecvMove s i t) : t.master = s.master := by cases h <;> rfl

def Msg.payload : Msg → Bool
  | .data _ => true
  | .lastIterFirst => true
  | _ => false

def SendPc.free : SendPc → Bool
  | .ack => false
  | .barrier => false
  | .stopped => false
  | _ => true

def RecvPc.busy : RecvPc → Bool
  | .recv => true
  | .applying _ => true
  | _ => false

def Payload (c : List Msg) : Prop := ∀ m ∈ c, m.payload = true

theorem payload_nil : Payload [] := by
  intro m hm
  cases hm

theorem payload_append (hc : Payload c) (hm : m.payload = true) : Payload (c ++ [m]) := by
  intro x hx
  rcases mem_append.mp hx with h | h
  · exact hc x h
  · rw [mem_singleton.mp h]
    exact hm

theorem payload_tail (h : Payload (m :: c)) : Payload c :=
  fun x hx => h x (mem_cons_of_mem _ hx)

inductive Stage : Link → Prop
  | free {l : Link} (hpc : l.pc.free = true) (hc : Payload l.chan) (ha : l.acks = 0) (hr : l.recv.busy = true) : Stage l
  | asked {l : Link} (c : List Msg) (hpc : l.pc = .ack) (hc : l.chan = c ++ [Msg.iterationBarrier])
      (hp : Payload c) (ha : l.acks = 0) (hr : l.recv.busy = true) : Stage l
  | halted {l : Link} (hpc : l.pc = .ack) (hc : l.chan = []) (ha : l.acks = 0) (hr : l.recv = .barrier) : Stage l
  | passed {l : Link} (hpc : l.pc = .ack) (hc : l.chan = []) (ha : l.acks = 0) (hr : l.recv = .ack) : Stage l
  | acked {l : Link} (hpc : l.pc = .ack) (hc : l.chan = []) (ha : l.acks = 1) (hr : l.recv = .recv) : Stage l
  | arrived {l : Link} (hpc : l.pc = .barrier) (hc : l.chan = []) (ha : l.acks = 0) (hr : l.recv = .recv) : Stage l
  | ending {l : Link} (c : List Msg) (hpc : l.pc = .stopped) (hc : l.chan = c ++ [Msg.paraMigrEnd])
      (hp : Payload c) (ha : l.acks = 0) (hr : l.recv.busy = true) : Stage l
  | ended {l : Link} (hpc : l.pc = .stopped) (hc : l.chan = []) (ha : l.acks = 0) (hr : l.recv = .finished) : Stage l

namespace Stage

variable {l : Link} {m : Msg}

theorem of_free (h : Stage l) (hf : l.pc.free = true) : Payload l.chan ∧ l.acks = 0 ∧ l.recv.busy = true := by
  cases h with
  | free _ hc ha hr => exact ⟨hc,ha,hr⟩
  | _ => simp_all [SendPc.free]

theorem free_of {l' : Link} (h : Stage l) (hf : l.pc.free = true) (hf' : l'.pc.free = true)
  (hc : l'.chan = l.chan) (ha : l'.acks = l.acks) (hr : l'.recv = l.recv) : Stage l' := by
  obtain ⟨h1,h2,h3⟩ := h.of_free hf
  exact .free hf' (hc ▸ h1) (ha ▸ h2) (hr ▸ h3)

theorem post_free {pc : SendPc} (h : Stage l) (hf : l.pc.free = true)
  (hm : m.payload = true) (hp : pc.free = true) : Stage (l.post m pc) := by
  obtain ⟨h1,h2,h3⟩ := h.of_free hf
  exact .free hp (payload_append h1 hm) h2 h3

variable {s t : State n} {c : List Msg} {i : Fin n}

theorem slave (h : SlaveMove s i t) (hs : Stage (s.links i)) : Stage (t.links i) := by
  cases h with
  | pollEmpty hp | dequeue b q hp | missOne hp | seeTwo hp | missTwo hp | prepare b hp | bail b hp =>
    exact State.setLink_self _ _ _ ▸ hs.free_of (by rw [hp]; rfl) rfl rfl rfl rfl
  | seeOne hp =>
    obtain ⟨h1,h2,h3⟩ := hs.of_free (by rw [hp]; rfl)
    exact State.setLink_self _ _ _ ▸ .asked _ rfl rfl h1 h2 h3
  | relay b hp =>
    obtain ⟨h1,h2,h3⟩ := hs.of_free (by rw [hp]; rfl)
    exact State.setLink_self _ _ _ ▸ .free rfl (payload_append h1 rfl) h2 h3
  | write b hp => exact State.setLink_self _ _ _ ▸ hs.post_free (by rw [hp]; rfl) rfl rfl
  | readAck a hp ha =>
    cases hs with
    | acked _ hc ha' hr => exact State.setLink_self _ _ _ ▸ .arrived rfl hc (by dsimp only; omega) hr
    | free hf => simp [hp,SendPc.free] at hf
    | _ => simp_all
  | finish hp =>
    obtain ⟨h1,h2,h3⟩ := hs.of_free (by rw [hp]; rfl)
    exact State.setLink_self _ _ _ ▸ .ending _ rfl rfl h1 h2 h3

theorem recv_payload {r : RecvPc} (hs : Stage l)
  (hc : l.chan = m :: c) (hm : m.payload = true) (hr : r.busy = true) : Stage {l with chan := c,recv := r} := by
  cases hs with
  | free hb hp ha _ => exact .free hb (payload_tail (hc ▸ hp)) ha hr
  | asked d hb hd hp ha _ =>
    rw [hd] at hc
    cases d with
    | nil => simp at hc; simp [← hc.1,Msg.payload] at hm
    | cons x d =>
      simp only [cons_append,List.cons.injEq] at hc
      exact .asked d hb hc.2.symm (payload_tail hp) ha hr
  | ending d hb hd hp ha _ =>
    rw [hd] at hc
    cases d with
    | nil => simp at hc; simp [← hc.1,Msg.payload] at hm
    | cons x d =>
      simp only [cons_append,List.cons.injEq] at hc
      exact .ending d hb hc.2.symm (payload_tail hp) ha hr
  | halted _ hd | passed _ hd | acked _ hd | arrived _ hd | ended _ hd => simp [hd] at hc

theorem control_head (hs : Stage l) (hc : l.chan = m :: c) (hm : m.payload = false) :
  c = [] ∧ l.acks = 0 ∧ ((l.pc = .ack ∧ m = .iterationBarrier) ∨ (l.pc = .stopped ∧ m = .paraMigrEnd)) := by
  cases hs with
  | free hb hp ha _ => simp [hp m (by simp [hc])] at hm
  | asked d hb hd hp ha _ =>
    rw [hd] at hc
    cases d with
    | nil =>
      simp only [nil_append,List.cons.injEq] at hc
      exact ⟨hc.2.symm,ha,.inl ⟨hb,hc.1.symm⟩⟩
    | cons x d =>
      simp only [cons_append,List.cons.injEq] at hc
      simp [← hc.1,hp x (by simp)] at hm
  | ending d hb hd hp ha _ =>
    rw [hd] at hc
    cases d with
    | nil =>
      simp only [nil_append,List.cons.injEq] at hc
      exact ⟨hc.2.symm,ha,.inr ⟨hb,hc.1.symm⟩⟩
    | cons x d =>
      simp only [cons_append,List.cons.injEq] at hc
      simp [← hc.1,hp x (by simp)] at hm
  | halted _ hd | passed _ hd | acked _ hd | arrived _ hd | ended _ hd => simp [hd] at hc

theorem receiver (h : RecvMove s i t) (hs : Stage (s.links i)) : Stage (t.links i) := by
  cases h with
  | data b c hr hc => exact State.setLink_self _ _ _ ▸ hs.recv_payload hc rfl rfl
  | lastIter c hr hc =>
    have h' := hs.recv_payload (r := (s.links i).recv) hc rfl (by rw [hr]; rfl)
    exact State.setLink_self _ _ _ ▸ h'
  | barrier c hr hc =>
    obtain ⟨h1,h2,⟨h3,_⟩ | ⟨_,h4⟩⟩ := hs.control_head hc rfl
    · exact State.setLink_self _ _ _ ▸ .halted h3 h1 h2 rfl
    · cases h4
  | finish c hr hc =>
    obtain ⟨h1,h2,⟨_,h4⟩ | ⟨h3,_⟩⟩ := hs.control_head hc rfl
    · cases h4
    · exact State.setLink_self _ _ _ ▸ .ended h3 h1 h2 rfl
  | apply b hr =>
    rw [State.setLink_self]
    cases hs with
    | free hb hc ha _ => exact .free hb hc ha rfl
    | asked c hb hc hp ha _ => exact .asked c hb hc hp ha rfl
    | ending c hb hc hp ha _ => exact .ending c hb hc hp ha rfl
    | _ => simp_all
  | sendAck hr =>
    rw [State.setLink_self]
    cases hs with
    | passed hb hc ha _ => exact .acked hb hc (by simp [ha]) rfl
    | _ => simp_all [RecvPc.busy]

theorem recv_barrier (hs : Stage l) (h : l.recv = .barrier) : Stage {l with recv := .ack} := by
  cases hs with
  | halted hp hc ha _ => exact .passed hp hc ha rfl
  | _ => simp_all [RecvPc.busy]

theorem release (hs : Stage l) (h : l.pc = .barrier ∨ l.pc = .endBarrier) : Stage l.release := by
  rcases h with h | h
  · cases hs with
    | arrived _ hc ha hr =>
      exact .free (by simp [Link.release,h,SendPc.free]) (by simp [Link.release,hc,payload_nil]) ha
        (by simp [Link.release,hr,RecvPc.busy])
    | _ => simp_all [SendPc.free]
  · exact hs.free_of (by rw [h]; rfl) (by simp [Link.release,h,SendPc.free]) rfl rfl rfl

end Stage

def Link.past (l : Link) : Prop := l.recv = .ack ∨ l.acks ≠ 0 ∨ l.pc = .barrier

theorem past_of_free {l : Link} (hs : Stage l) (hf : l.pc.free = true) : ¬l.past := by
  obtain ⟨_,ha,hr⟩ := hs.of_free hf
  rintro (h | h | h)
  · simp [h,RecvPc.busy] at hr
  · exact h ha
  · simp [h,SendPc.free] at hf

structure Synced (s : State n) : Prop where
  stage : ∀ i, Stage (s.links i)
  together : ∀ i j, (s.links i).past → (s.links j).past

theorem Synced.local_step (hs : Synced s) (hn : ∀ j, j ≠ i → t.links j = s.links j) (ht : Stage (t.links i))
  (hp : (t.links i).past ↔ (s.links i).past) : Synced t := by
  have ha : ∀ j, (t.links j).past ↔ (s.links j).past := by
    intro j
    by_cases hj : j = i
    · subst hj; exact hp
    · rw [hn j hj]
  refine ⟨fun j => ?_,fun j k h => (ha k).mpr (hs.together j k ((ha j).mp h))⟩
  by_cases hj : j = i
  · subst hj; exact ht
  · rw [hn j hj]; exact hs.stage j

theorem slave_past (h : SlaveMove s i t) (hs : Stage (s.links i)) : (t.links i).past ↔ (s.links i).past := by
  have ht := Stage.slave h hs
  have hb (h1 : (s.links i).pc.free = true) (h2 : (t.links i).pc.free = true) : (t.links i).past ↔ (s.links i).past :=
    iff_of_false (past_of_free ht h2) (past_of_free hs h1)
  cases h with
  | pollEmpty hp | dequeue b q hp | missOne hp | seeTwo hp | missTwo hp | relay b hp | prepare b hp
  | write b hp | bail b hp => exact hb (by rw [hp]; rfl) (by rw [State.setLink_self]; rfl)
  | seeOne hp | finish hp =>
    have hf : (s.links i).pc.free = true := by rw [hp]; rfl
    obtain ⟨_,ha,hr⟩ := hs.of_free hf
    refine iff_of_false ?_ (past_of_free hs hf)
    rw [State.setLink_self]
    rintro (h | h | h)
    · simp [Link.post] at h; simp [h,RecvPc.busy] at hr
    · exact h ha
    · cases h
  | readAck a hp ha =>
    refine iff_of_true ?_ (.inr (.inl (by omega)))
    rw [State.setLink_self]
    exact .inr (.inr rfl)

theorem recv_past (h : RecvMove s i t) : (t.links i).past ↔ (s.links i).past := by
  cases h with
  | data b c hr hc | barrier c hr hc | finish c hr hc | apply b hr | sendAck hr =>
    rw [State.setLink_self]; simp [Link.past,hr]
  | lastIter c hr hc => rw [State.setLink_self]; simp [Link.past]

theorem synced_init : Synced (State.init n) :=
  ⟨fun _ => .free rfl payload_nil rfl rfl,fun _ _ h => absurd h (by simp [State.init,Link.init,Link.past])⟩

theorem synced_move {a : Act n} (hs : Synced s) (h : Move p s a t) : Synced t := by
  cases h with
  | master h =>
    have hl := h.links_eq
    exact ⟨fun i => hl ▸ hs.stage i,fun i j => hl ▸ hs.together i j⟩
  | release m ha hm =>
    refine ⟨fun i => (hs.stage i).release (ha i),fun i j hi => ?_⟩
    have ht := (hs.stage i).release (ha i)
    exact absurd hi (past_of_free ht (by simp only [State.releaseTo_links,Link.release]; split <;> rfl))
  | recvRelease ha => exact ⟨fun i => (hs.stage i).recv_barrier (ha i),fun _ _ _ => .inl rfl⟩
  | slave i _ h =>
    exact hs.local_step (fun j hj => h.links_ne hj) (Stage.slave h (hs.stage i)) (slave_past h (hs.stage i))
  | receiver i h =>
    exact hs.local_step (fun j hj => h.links_ne hj) (Stage.receiver h (hs.stage i)) (recv_past h)

end Migration
