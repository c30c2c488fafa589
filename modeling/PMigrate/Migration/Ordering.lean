import PMigrate.Migration.Account

namespace Migration

open List Transition

variable {n : Nat} {p : Plan}

def Upto (s : State n) (k : Nat) : Prop := ∀ b ∈ s.enqueued, b.round ≤ k

def Started (p : Plan) (s : State n) (k N : Nat) : Prop := (∃ b ∈ s.enqueued, b.round = k) → pagesIn (p.send k) 0 N ≠ []

inductive Numbered (p : Plan) (s : State n) : MasterPc → Prop
  | scan (k N : Nat) (ha : p.Aligned k N) (hu : Upto s k) (hn : Started p s k N) : Numbered p s (.scan k N)
  | enqueue (k N : Nat) (b : Batch) (ha : p.Aligned k N) (hu : Upto s k)
      (hn : pagesIn (p.send k) 0 N ≠ []) (hb : b.round = k) : Numbered p s (.enqueue k N b)
  | raiseOne (k : Nat) (hu : Upto s k) : Numbered p s (.raiseOne k)
  | waitOne (k : Nat) (hu : Upto s k) : Numbered p s (.waitOne k)
  | lowerOne (k : Nat) (hu : Upto s k) : Numbered p s (.lowerOne k)
  | raiseTwo (k : Nat) (hu : Upto s k) : Numbered p s (.raiseTwo k)
  | waitTwo (k : Nat) (hu : Upto s k) : Numbered p s (.waitTwo k)
  | lowerTwo (k : Nat) (hu : Upto s k) : Numbered p s (.lowerTwo k)
  | skip (k : Nat) (hu : Upto s k) : Numbered p s (.skip k)
  | raiseEnd : Numbered p s .raiseEnd
  | waitEnd : Numbered p s .waitEnd
  | done : Numbered p s .done

variable {s t : State n} {m : MasterPc} {k N : Nat} {a : Act n} {i : Fin n} {b : Batch}

theorem Numbered.congr (h : Numbered p s m) (he : t.enqueued = s.enqueued) : Numbered p t m := by
  have hu {k : Nat} (h : Upto s k) : Upto t k := fun b hb => h b (he ▸ hb)
  cases h with
  | scan k N ha h hn => exact .scan k N ha (hu h) fun hx => hn (he ▸ hx)
  | enqueue k N b ha h hn hb => exact .enqueue k N b ha (hu h) hn hb
  | raiseOne k h => exact .raiseOne k (hu h)
  | waitOne k h => exact .waitOne k (hu h)
  | lowerOne k h => exact .lowerOne k (hu h)
  | raiseTwo k h => exact .raiseTwo k (hu h)
  | waitTwo k h => exact .waitTwo k (hu h)
  | lowerTwo k h => exact .lowerTwo k (hu h)
  | skip k h => exact .skip k (hu h)
  | raiseEnd => exact .raiseEnd
  | waitEnd => exact .waitEnd
  | done => exact .done

theorem numbered_init : Numbered p (State.init n) (State.init n).master :=
  .scan 0 0 (p.aligned_zero 0) (fun _ hb => by cases hb) fun ⟨_,hb,_⟩ => by cases hb

theorem pages_grow (hb : (p.batchFrom k N).1 ≠ []) : pagesIn (p.send k) 0 (p.batchFrom k N).2 ≠ [] := by
  have hs := p.batchFrom_spec k N
  rw [← pagesIn_append (Nat.zero_le N) hs.lower,← hs.pages]
  simp [hb]

theorem numbered_master (hs : Numbered p s s.master) (h : MasterMove p s t) : Numbered p t t.master := by
  cases h with
  | load k N hm hN hb =>
    rw [hm] at hs
    cases hs with
    | scan _ _ ha hu hn => exact .enqueue k _ _ (Plan.aligned_next ha hN) hu (pages_grow hb) rfl
  | gotoSkip k N hm hN hb =>
    rw [hm] at hs
    cases hs with
    | scan _ _ ha hu hn => exact .skip k hu
  | scanned k N hm hN =>
    rw [hm] at hs
    cases hs with
    | scan _ _ ha hu hn => exact .raiseOne k hu
  | enqueue k N b hm =>
    rw [hm] at hs
    cases hs with
    | enqueue _ _ _ ha hu hn hb =>
      refine .scan k N ha (fun b' hb' => ?_) fun _ => hn
      rcases mem_cons.mp hb' with rfl | hb'
      · exact hb.le
      · exact hu b' hb'
  | raiseOne k hm => rw [hm] at hs; cases hs with | raiseOne _ hu => exact .waitOne k hu
  | lowerOne k hm => rw [hm] at hs; cases hs with | lowerOne _ hu => exact .raiseTwo k hu
  | raiseTwo k hm => rw [hm] at hs; cases hs with | raiseTwo _ hu => exact .waitTwo k hu
  | lowerTwo k hm => rw [hm] at hs; cases hs with | lowerTwo _ hu => exact .skip k hu
  | skipNext k hm hk =>
    rw [hm] at hs
    cases hs with
    | skip _ hu =>
      refine .scan (k+1) 0 (p.aligned_zero _) (fun b hb => (hu b hb).trans (Nat.le_succ k)) ?_
      rintro ⟨b,hb,hr⟩
      have := hu b hb
      omega
  | skipLast k hm hk => exact .raiseEnd
  | raiseEnd hm => exact .waitEnd

theorem numbered_move (hs : Numbered p s s.master) (h : Move p s a t) : Numbered p t t.master := by
  cases h with
  | master h => exact numbered_master hs h
  | release m ha hm =>
    generalize s.master = m0 at hs hm
    cases hs with
    | waitOne k hu => cases hm; exact .lowerOne k hu
    | waitTwo k hu => cases hm; exact .lowerTwo k hu
    | waitEnd => cases hm; exact .done
    | _ => simp [State.released] at hm
  | recvRelease ha => exact hs.congr rfl
  | slave i _ h => rw [h.master_eq]; exact hs.congr (slave_carries h).enqueued
  | receiver i h => rw [h.master_eq]; exact hs.congr (recv_carries h).enqueued

def Clear (s : State n) (k : Nat) : Prop := ∀ b, s.inFlight b → k ≤ b.round

def NoMore (p : Plan) (k : Nat) : Prop := ∀ j, k ≤ j → p.pages j = []

def SendPc.polled : SendPc → Bool
  | .testOne => true
  | .testTwo => true
  | .ack => true
  | .barrier => true
  | _ => false

def Drained (s : State n) : Prop := ∀ i, (s.links i).pc.polled = true → s.queue = []

inductive Sequence (p : Plan) (s : State n) : MasterPc → Prop
  | scan (k N : Nat) (hc : Clear s k ∨ NoMore p k) : Sequence p s (.scan k N)
  | enqueue (k N : Nat) (b : Batch) (hc : Clear s k) : Sequence p s (.enqueue k N b)
  | raiseOne (k : Nat) : Sequence p s (.raiseOne k)
  | waitOne (k : Nat) : Sequence p s (.waitOne k)
  | lowerOne (k : Nat) (hd : Drained s) : Sequence p s (.lowerOne k)
  | raiseTwo (k : Nat) (hd : Drained s) : Sequence p s (.raiseTwo k)
  | waitTwo (k : Nat) (hd : Drained s) : Sequence p s (.waitTwo k)
  | lowerTwo (k : Nat) (hf : ∀ b, ¬s.inFlight b) : Sequence p s (.lowerTwo k)
  | skip (k : Nat) (hc : Clear s (k+1) ∨ NoMore p (k+1)) : Sequence p s (.skip k)
  | raiseEnd : Sequence p s .raiseEnd
  | waitEnd : Sequence p s .waitEnd
  | done : Sequence p s .done

theorem Sequence.mono (h : Sequence p s m)
  (hf : ∀ b, t.inFlight b → s.inFlight b) (hd : Drained s → Drained t) : Sequence p t m := by
  have hc {k : Nat} (h : Clear s k) : Clear t k := fun b hb => h b (hf b hb)
  cases h with
  | scan k N h => exact .scan k N (h.imp_left hc)
  | enqueue k N b h => exact .enqueue k N b (hc h)
  | lowerOne k h => exact .lowerOne k (hd h)
  | raiseTwo k h => exact .raiseTwo k (hd h)
  | waitTwo k h => exact .waitTwo k (hd h)
  | lowerTwo k h => exact .lowerTwo k fun b hb => h b (hf b hb)
  | skip k h => exact .skip k (h.imp_left hc)
  | _ => constructor

theorem drained_slave (h : SlaveMove s i t) (hs : Drained s) : Drained t := by
  intro j hj
  by_cases hi : j = i
  · subst hi
    cases h with
    | pollEmpty hp hq => exact hq
    | seeOne hp | missOne hp | readAck a hp => exact hs j (by rw [hp]; rfl)
    | _ => simp [SendPc.polled,Link.post] at hj
  rw [h.links_ne hi] at hj
  have hq := hs j hj
  cases h with
  | dequeue b q hp hq' => simp [hq] at hq'
  | _ => exact hq

theorem drained_recv (h : RecvMove s i t) (hs : Drained s) : Drained t := by
  have hp : ∀ j, (t.links j).pc = (s.links j).pc := by
    intro j
    by_cases hi : j = i
    · subst hi
      cases h <;> simp
    · rw [h.links_ne hi]
  have hq : t.queue = s.queue := by cases h <;> rfl
  intro j hj
  rw [hq]
  exact hs j (hp j ▸ hj)

structure Sequenced (p : Plan) (s : State n) : Prop where
  newest : ∀ b, s.inFlight b → ∀ b' ∈ s.enqueued, b'.round ≤ b.round
  order : Sequence p s s.master

theorem sequenced_init : Sequenced p (State.init n) := by
  refine ⟨fun _ _ b' hb' => ?_,.scan 0 0 (.inl fun _ _ => Nat.zero_le _)⟩
  cases hb'

theorem clear_after_skip (hs : p.Sealed) (hd : Accounted s)
  (ha : p.Aligned k N) (hu : Upto s k) (hn : Started p s k N) (hN : N < p.p2mSize)
  (hb : (p.batchFrom k N).1 = []) (hc : Clear s k ∨ NoMore p k) : Clear s (k+1) ∨ NoMore p (k+1) := by
  by_cases hk : ∃ b ∈ s.enqueued, b.round = k
  · right
    intro j hj
    exact hs k (Plan.leaks_of_empty_batch ha hN hb (hn hk)) j hj
  rcases hc with hc | hc
  · left
    intro b hf
    have he : b ∈ s.enqueued := (hd b).mpr (.inl hf)
    have hl := hu b he
    have hg := hc b hf
    exact absurd ⟨b,he,le_antisymm hl hg⟩ hk
  · exact .inr fun j hj => hc j (by omega)

theorem clear_of_load (hN : N < p.p2mSize) (hb : (p.batchFrom k N).1 ≠ []) (hc : Clear s k ∨ NoMore p k) :
  Clear s k := by
  rcases hc with hc | hc
  · exact hc
  have hs := p.batchFrom_spec k N
  have hd : pagesIn (p.send k) N (p.batchFrom k N).2 ≠ [] := hs.pages ▸ hb
  have ha : p.pages k = [] := hc k le_rfl
  obtain ⟨x,hx⟩ := exists_mem_of_ne_nil _ hd
  obtain ⟨_,h2,h3⟩ := mem_pagesIn.mp hx
  have hu := hs.upper
  have hm : x ∈ p.pages k := mem_pagesIn.mpr ⟨Nat.zero_le x,by omega,h3⟩
  simp [ha] at hm

theorem enqueue_inFlight {b' : Batch} : State.inFlight
    {s with master := m,queue := s.queue ++ [b],enqueued := b :: s.enqueued} b' ↔ s.inFlight b' ∨ b' = b := by
  simp only [State.inFlight,mem_append,mem_singleton]
  tauto

theorem sequenced_master (hp : p.Sealed) (hq : Accounted s)
  (hi : Numbered p s s.master) (hs : Sequenced p s) (h : MasterMove p s t) : Sequenced p t := by
  obtain ⟨hg,ho⟩ := hs
  cases h with
  | load k N hm hN hb =>
    rw [hm] at ho
    cases ho with
    | scan _ _ hc => exact ⟨hg,.enqueue k _ _ (clear_of_load hN hb hc)⟩
  | gotoSkip k N hm hN hb =>
    rw [hm] at ho hi
    cases ho with
    | scan _ _ hc =>
      cases hi with
      | scan _ _ ha hu hn => exact ⟨hg,.skip k (clear_after_skip hp hq ha hu hn hN hb hc)⟩
  | scanned k N hm hN => exact ⟨hg,.raiseOne k⟩
  | enqueue k N b hm =>
    rw [hm] at ho hi
    cases ho with
    | enqueue _ _ _ hc =>
      cases hi with
      | enqueue _ _ _ ha hu hn hb =>
        refine ⟨fun b' hf b'' he => ?_,.scan k N (.inl fun b' hf => ?_)⟩
        · have hl : b''.round ≤ k := by
            rcases mem_cons.mp he with rfl | he
            · exact hb.le
            · exact hu b'' he
          rcases enqueue_inFlight.mp hf with hf | rfl
          · exact hl.trans (hc b' hf)
          · exact hl.trans hb.ge
        rcases enqueue_inFlight.mp hf with hf | rfl
        · exact hc b' hf
        · exact hb.ge
  | raiseOne k hm => exact ⟨hg,.waitOne k⟩
  | lowerOne k hm => rw [hm] at ho; cases ho with | lowerOne _ hd => exact ⟨hg,.raiseTwo k hd⟩
  | raiseTwo k hm => rw [hm] at ho; cases ho with | raiseTwo _ hd => exact ⟨hg,.waitTwo k hd⟩
  | lowerTwo k hm =>
    rw [hm] at ho
    cases ho with
    | lowerTwo _ hf => exact ⟨hg,.skip k (.inl fun b hb => absurd hb (hf b))⟩
  | skipNext k hm hk =>
    rw [hm] at ho
    cases ho with
    | skip _ hc => exact ⟨hg,.scan (k+1) 0 hc⟩
  | skipLast k hm hk => exact ⟨hg,.raiseEnd⟩
  | raiseEnd hm => exact ⟨hg,.waitEnd⟩

theorem all_arrived (hs : Synced s) (hp : Phased s) (ha : ∀ i, (s.links i).pc = .barrier ∨ (s.links i).pc = .endBarrier)
  (hm : s.master ≠ .waitEnd ∧ s.master ≠ .done) (i : Fin n) : (s.links i).pc = .barrier ∧ (s.links i).held = [] := by
  rcases ha i with h | h
  · refine ⟨h,?_⟩
    cases hs.stage i with
    | arrived _ hc _ hr => simp [Link.held,h,hc,hr,RecvPc.inHand,SendPc.hand]
    | _ => simp_all [SendPc.free]
  rcases hp.ending i h with h' | h'
  · exact absurd h' hm.1
  · exact absurd h' hm.2

theorem sequenced_release (hp : 0 < n) (hy : Synced s) (hh : Phased s) (hs : Sequenced p s)
  (hl : ∀ i, (s.links i).pc = .barrier ∨ (s.links i).pc = .endBarrier)
  (hm : State.released s.master = some m) : Sequenced p (s.releaseTo m) := by
  obtain ⟨hn,ho⟩ := hs
  have hf : ∀ b, (s.releaseTo m).inFlight b → s.inFlight b := fun b => (inFlight_releaseTo hl b).mp
  refine ⟨fun b hb => hn b (hf b hb),?_⟩
  generalize hc : s.master = m0 at ho hm
  cases ho with
  | waitOne k =>
    cases hm
    refine .lowerOne k fun i hi => ?_
    have ha := all_arrived hy hh hl (by simp [hc]) i
    simp [Link.release,ha.1,SendPc.polled] at hi
  | waitTwo k hd =>
    cases hm
    have ha := all_arrived hy hh hl (by simp [hc])
    have hq : s.queue = [] := hd ⟨0,hp⟩ (by rw [(ha _).1]; rfl)
    refine .lowerTwo k fun b hb => ?_
    rcases hf b hb with h | ⟨i,h⟩
    · simp [hq] at h
    · simp [(ha i).2] at h
  | waitEnd => cases hm; exact .done
  | _ => simp [State.released] at hm

theorem sequenced_move (hp : 0 < n) (he : p.Sealed)
  (hy : Synced s) (hh : Phased s) (hg : Accounted s) (hn : Numbered p s s.master)
  (hs : Sequenced p s) (h : Move p s a t) : Sequenced p t := by
  cases h with
  | master h => exact sequenced_master he hg hn hs h
  | release m ha hm => exact sequenced_release hp hy hh hs ha hm
  | recvRelease ha =>
    have hf : ∀ b, s.recvReleased.inFlight b → s.inFlight b := fun b => (inFlight_recvReleased ha b).mp
    exact ⟨fun b hb => hs.newest b (hf b hb),hs.order.mono hf fun hd => hd⟩
  | slave i _ h =>
    have hc := slave_carries h
    refine ⟨fun b hb => hc.enqueued ▸ hs.newest b (hc.inFlight_sub hb),?_⟩
    rw [h.master_eq]
    exact hs.order.mono (fun b => hc.inFlight_sub) (drained_slave h)
  | receiver i h =>
    have hc := recv_carries h
    refine ⟨fun b hb => hc.enqueued ▸ hs.newest b (hc.inFlight_sub hb),?_⟩
    rw [h.master_eq]
    exact hs.order.mono (fun b => hc.inFlight_sub) (drained_recv h)


structure Lined (s : State n) : Prop where
  sorted : ∀ i, (s.pipe i).Pairwise fun b b' => b.round ≤ b'.round
  behind : ∀ i, ∀ b ∈ s.applied, ∀ b' ∈ s.pipe i, b.round ≤ b'.round
  manned : s.applied ≠ [] → 0 < n

theorem lined_init : Lined (State.init n) := by
  refine ⟨fun i => ?_,fun i b hb => ?_,fun h => absurd rfl h⟩
  · simp [State.pipe,State.init,Link.init,Link.held,RecvPc.inHand,SendPc.hand]
  · cases hb

theorem lined_congr (hs : Lined s) (hp : ∀ i, t.pipe i = s.pipe i) (ha : t.applied = s.applied) : Lined t :=
  ⟨fun i => (hp i).symm ▸ hs.sorted i,fun i => ha.symm ▸ (hp i).symm ▸ hs.behind i,ha.symm ▸ hs.manned⟩

theorem lined_flow (hn : n ≤ 1) (hs : Lined s) (h : Flow s t i) : Lined t := by
  have ho : ∀ j : Fin n, j = i := by
    intro j
    apply Fin.ext
    omega
  have hd : 0 < n := i.pos
  cases h with
  | keep hp ha => exact lined_congr hs (fun j => ho j ▸ hp) ha
  | bail b u v hb ht ha =>
    have hu : (t.pipe i).Sublist (s.pipe i) := by
      rw [hb,ht]
      exact (List.Sublist.refl u).append (sublist_cons_self b v)
    refine ⟨fun j => ?_,fun j b' hb' b'' hb'' => ?_,fun _ => hd⟩
    · rw [ho j]; exact (hs.sorted i).sublist hu
    · rw [ho j] at hb''
      exact hs.behind i b' (ha ▸ hb') b'' (hu.subset hb'')
  | apply b hb hr ha =>
    have hc := hs.sorted i
    rw [hb,pairwise_cons] at hc
    refine ⟨fun j => ?_,fun j b' hb' b'' hb'' => ?_,fun _ => hd⟩
    · rw [ho j]; exact hc.2
    rw [ho j] at hb''
    rw [ha] at hb'
    rcases mem_cons.mp hb' with rfl | hb'
    · exact hc.1 b'' hb''
    · exact hs.behind i b' hb' b'' (hb ▸ mem_cons_of_mem _ hb'')

theorem lined_enqueue (ha : Accounted s) (hu : Upto s k) (hb : b.round = k) (hs : Lined s)
  (ht : t = {s with master := .scan k N,queue := s.queue ++ [b],enqueued := b :: s.enqueued}) : Lined t := by
  have hp : ∀ i, t.pipe i = s.pipe i ++ [b] := fun i => by subst ht; simp [State.pipe]
  have hl : ∀ i, ∀ b' ∈ s.pipe i, b'.round ≤ b.round := fun i b' hb' =>
    hb.symm ▸ hu b' ((ha b').mpr (.inl ((inFlight_split s i b').mpr (.inl hb'))))
  subst ht
  refine ⟨fun i => ?_,fun i b' hb' b'' hb'' => ?_,hs.manned⟩
  · rw [hp i,pairwise_append]
    refine ⟨hs.sorted i,pairwise_singleton _ _,fun x hx y hy => ?_⟩
    rw [mem_singleton.mp hy]
    exact hl i x hx
  rw [hp i,mem_append,mem_singleton] at hb''
  rcases hb'' with hb'' | rfl
  · exact hs.behind i b' hb' b'' hb''
  · exact hb.symm ▸ hu b' ((ha b').mpr (.inr (.inl hb')))

theorem lined_move (ho : n ≤ 1) (hc : Accounted s) (hd : Numbered p s s.master) (hs : Lined s) (h : Move p s a t) :
  Lined t := by
  cases h with
  | master h =>
    cases h with
    | enqueue k N b hm =>
      rw [hm] at hd
      cases hd with
      | enqueue _ _ _ ha hu hn hb => exact lined_enqueue hc hu hb hs rfl
    | _ => exact lined_congr hs (fun _ => rfl) rfl
  | release m hl hm =>
    refine lined_congr hs (fun i => ?_) rfl
    rw [State.pipe,State.releaseTo_links,release_held (hl i)]
    rfl
  | recvRelease hl =>
    refine lined_congr hs (fun i => ?_) rfl
    simp only [State.pipe,Link.held,State.recvReleased_links,hl i,RecvPc.inHand]
    rfl
  | slave i _ h => exact lined_flow ho hs (slave_flow h)
  | receiver i h => exact lined_flow ho hs (recv_flow h)

def Touched (s : State n) (b : Batch) : Prop := b ∈ s.applied ∨ ∃ i, (s.links i).recv = .applying b

def Settling (s : State n) : Prop := ∀ b, Touched s b → ∀ b', s.inFlight b' → b.round ≤ b'.round

theorem applying_pipe (h : (s.links i).recv = .applying b) : ∃ v, s.pipe i = b :: v :=
  ⟨(s.links i).chan.flatMap Msg.batches ++ (s.links i).pc.hand ++ s.queue,
    by simp [State.pipe,Link.held,h,RecvPc.inHand]⟩

theorem applying_inFlight (h : (s.links i).recv = .applying b) : s.inFlight b := by
  obtain ⟨v,hv⟩ := applying_pipe h
  exact (inFlight_split s i b).mpr (.inl (by rw [hv]; exact mem_cons_self))

theorem settling_of_sequenced (ha : Accounted s) (hs : Sequenced p s) : Settling s := by
  intro b hb b' hb'
  apply hs.newest b' hb' b
  rcases hb with hb | ⟨i,hb⟩
  · exact (ha b).mpr (.inr (.inl hb))
  · exact (ha b).mpr (.inl (applying_inFlight hb))

theorem settling_of_lined (hn : n ≤ 1) (hs : Lined s) : Settling s := by
  intro b hb b' hb'
  have hi : ∃ i : Fin n, True := by
    rcases hb with hb | ⟨i,_⟩
    · exact ⟨⟨0,hs.manned (ne_nil_of_mem hb)⟩,trivial⟩
    · exact ⟨i,trivial⟩
  obtain ⟨i,_⟩ := hi
  have ho : ∀ j : Fin n, j = i := fun j => Fin.ext (by omega)
  have hp : b' ∈ s.pipe i := by
    rcases (inFlight_split s i b').mp hb' with h | ⟨j,hj,_⟩
    · exact h
    · exact absurd (ho j) hj
  rcases hb with hb | ⟨j,hb⟩
  · exact hs.behind i b hb b' hp
  obtain ⟨v,hv⟩ := applying_pipe (ho j ▸ hb)
  have ha := hs.sorted i
  rw [hv,pairwise_cons] at ha
  rw [hv] at hp
  rcases mem_cons.mp hp with rfl | h
  · exact le_rfl
  · exact ha.1 b' h

def Ordered (s : State n) : Prop := ∀ b, Touched s b → ∀ b' ∈ s.enqueued, b'.round < b.round → s.discharged b'

def State.copyOf (s : State n) (pfn : Nat) : Option Batch := s.applied.find? fun b => decide (pfn ∈ b.pfns)

def LatestCopies (s : State n) : Prop :=
  ∀ pfn b, s.copyOf pfn = some b → ∀ b' ∈ s.enqueued, pfn ∈ b'.pfns → b'.round ≤ b.round ∨ s.inFlight b' ∨ b' ∈ s.bailed

def NewestFirst (s : State n) : Prop := s.applied.Pairwise fun b b' => b'.round ≤ b.round

theorem ordered_of_settling (ha : Accounted s) (hs : Settling s) : Ordered s := by
  intro b hb b' he hl
  rcases (ha b').mp he with h | h
  · have := hs b hb b' h
    omega
  · exact h

theorem newestFirst_move (he : Settling s) (hs : NewestFirst s) (h : Move p s a t) : NewestFirst t := by
  have hl {i : Fin n} (hf : Flow s t i) : NewestFirst t := by
    cases hf with
    | keep _ ha | bail _ _ _ _ _ ha => rw [NewestFirst,ha]; exact hs
    | apply b _ hr ha =>
      rw [NewestFirst,ha,pairwise_cons]
      exact ⟨fun b' hb' => he b' (.inl hb') b (applying_inFlight hr),hs⟩
  cases h with
  | master h => cases h <;> exact hs
  | release m hb hm | recvRelease hb => exact hs
  | slave i _ h => exact hl (slave_flow h)
  | receiver i h => exact hl (recv_flow h)

theorem latest_of_newestFirst (hd : Accounted s) (hs : NewestFirst s) : LatestCopies s := by
  intro pfn b hc b' he hp
  rcases (hd b').mp he with h | h | h
  · exact .inr (.inl h)
  · left
    rw [State.copyOf,List.find?_eq_some_iff_append] at hc
    obtain ⟨_,as,bs,ha,hb⟩ := hc
    rw [NewestFirst,ha,pairwise_append,pairwise_cons] at hs
    rw [ha,mem_append,mem_cons] at h
    rcases h with h | rfl | h
    · have := hb b' h
      simp [hp] at this
    · exact le_rfl
    · exact hs.2.1.1 b' h
  · exact .inr (.inr h)

section

variable {live : Bool} {allow : State n → Act n → Prop} {s : State n}

theorem reachable_numbered (hl : ∀ u a, allow u a → a.clean = true)
  (h : Reach (State.step p live) allow (State.init n) s) : Numbered p s s.master :=
  reach_invariant (I := fun s => Numbered p s s.master) numbered_init
    (fun u a _ _ hi ha hv => numbered_move hi (step_move (hl u a ha) hv)) h

theorem reachable_sequenced (hp : 0 < n) (hs : p.Sealed) (hl : ∀ u a, allow u a → a.clean = true)
  (h : Reach (State.step p live) allow (State.init n) s) : Sequenced p s :=
  reach_invariant sequenced_init (fun u a _ hu hi ha hv => sequenced_move hp hs (reachable_synced hl hu)
      (reachable_phased hl hu) (reachable_accounted hl hu) (reachable_numbered hl hu)
      hi (step_move (hl u a ha) hv)) h

theorem reachable_lined (ho : n ≤ 1) (hl : ∀ u a, allow u a → a.clean = true)
  (h : Reach (State.step p live) allow (State.init n) s) : Lined s :=
  reach_invariant lined_init (fun u a _ hu hi ha hv => lined_move ho (reachable_accounted hl hu)
      (reachable_numbered hl hu) hi (step_move (hl u a ha) hv)) h

theorem reachable_settling (hc : n ≤ 1 ∨ p.Sealed) (ha : ∀ u a, allow u a → a.clean = true)
  (h : Reach (State.step p live) allow (State.init n) s) : Settling s := by
  by_cases ho : n ≤ 1
  · exact settling_of_lined ho (reachable_lined ho ha h)
  · exact settling_of_sequenced (reachable_accounted ha h) (reachable_sequenced (by omega) (hc.resolve_left ho) ha h)

end

theorem iterations_apply_in_order {live : Bool} {s : State n} (hcond : n ≤ 1 ∨ p.Sealed)
  (h : Reach (State.step p live) Quiet (State.init n) s) : Ordered s ∧ LatestCopies s := by
  have hl : ∀ (u : State n) a, Quiet u a → a.clean = true := fun _ _ ha => ha
  have hc := reachable_accounted hl h
  refine ⟨ordered_of_settling hc (reachable_settling hcond hl h),latest_of_newestFirst hc ?_⟩
  have hn : NewestFirst (State.init n) := List.Pairwise.nil
  exact reach_invariant hn (fun u a _ hu hi ha hv => newestFirst_move (reachable_settling hcond hl hu) hi
      (step_move ha hv)) h

theorem sealed_of_small (hp : p.p2mSize < maxBatchSize) : p.Sealed := by
  rintro k ⟨hs,hm,_⟩
  have hl : (p.pages k).length ≤ p.p2mSize := by
    simpa [Plan.pages,pagesIn] using length_filter_le (p.send k) (List.range' 0 p.p2mSize)
  rw [Nat.mod_eq_of_lt (by omega)] at hm
  exact absurd (length_eq_zero_iff.mp hm) hs

def onePagePlan : Plan := ⟨1,[fun _ => true],fun _ => true,none⟩

def deliverOne : List (Act 2) :=
  [.master,.master,.slave 0 .run,.slave 0 .run,.slave 0 .run,.receiver 0 .run,.receiver 0 .run]

theorem one_page_applied_in_order : ∃ s : State 2, Reach (State.step onePagePlan true) Quiet (State.init 2) s ∧
    s.applied = [⟨0,[0],false⟩] ∧ Ordered s ∧ LatestCopies s := by
  obtain ⟨s,hs,ha⟩ : ∃ s, runIf (State.step onePagePlan true) (fun _ a => a.clean)
      (State.init 2) deliverOne = some s ∧ s.applied = [⟨0,[0],false⟩] := ⟨_,rfl,rfl⟩
  have hr : Reach (State.step onePagePlan true) Quiet (State.init 2) s :=
    reach_of_runIf (fun _ _ h => h) hs
  have he : onePagePlan.Sealed := sealed_of_small (by decide)
  exact ⟨s,hr,ha,iterations_apply_in_order (.inr he) hr⟩

def leakyPlan : Plan := ⟨1025,[fun n => decide (n < 1024)],fun n => decide (n = 0),none⟩

def overtake : List (Act 2) := [.master,.master,.slave 0 .run,.master,.master,.master,.master,
    .slave 1 .run,.slave 1 .run,.slave 1 .run,.receiver 1 .run,.receiver 1 .run,.receiver 1 .run]

def catchUp : List (Act 2) := [.slave 0 .run,.slave 0 .run,.receiver 0 .run,.receiver 0 .run]

def staleBatch : Batch := ⟨0,List.range 1024,false⟩

def freshBatch : Batch := ⟨1,[0],true⟩

theorem later_iteration_overtakes : ∃ s t : State 2, Reach (State.step leakyPlan true) Quiet (State.init 2) s ∧
    freshBatch ∈ s.applied ∧ staleBatch ∈ s.enqueued ∧ ¬s.discharged staleBatch ∧
    freshBatch.round = staleBatch.round+1 ∧ Reach (State.step leakyPlan true) Quiet s t ∧
    t.applied = [staleBatch,freshBatch] ∧ t.copyOf 0 = some staleBatch := by
  have hu : ((runIf (State.step leakyPlan true) (fun _ a => a.clean)
      (State.init 2) overtake).map fun s => (s.applied,s.enqueued,s.bailed)) =
      some ([freshBatch],[freshBatch,staleBatch],[]) := by decide +kernel
  have hr : ((runIf (State.step leakyPlan true) (fun _ a => a.clean)
      (State.init 2) overtake).bind fun s => (runIf (State.step leakyPlan true)
        (fun _ a => a.clean) s catchUp).map State.applied) =
      some [staleBatch,freshBatch] := by decide +kernel
  obtain ⟨s,hs,ho⟩ := Option.map_eq_some_iff.mp hu
  rw [hs,Option.bind_some] at hr
  obtain ⟨t,ht,hp⟩ := Option.map_eq_some_iff.mp hr
  simp only [Prod.mk.injEq] at ho
  obtain ⟨ha,he,hb⟩ := ho
  have hc : ∀ (u : State 2) a, Act.clean a = true → Quiet u a := fun _ _ h => h
  refine ⟨s,t,reach_of_runIf hc hs,?_,?_,?_,rfl,reach_of_runIf hc ht,hp,?_⟩
  · simp [ha]
  · simp [he]
  · simp [State.discharged,ha,hb,staleBatch,freshBatch]
  · rw [State.copyOf,hp,List.find?_cons_of_pos]
    simp only [staleBatch,mem_range,decide_eq_true_eq]
    omega

end Migration
