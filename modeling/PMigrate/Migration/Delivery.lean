import PMigrate.Migration.Progress

namespace Migration

open Transition

variable {n : Nat} {p : Plan} {live : Bool}

def finishers (s : State n) : Finset (Fin n) := Finset.univ.filter fun i => (s.links i).recv = .finished

variable {s t : State n} {i : Fin n} {a : Act n}

theorem mem_finishers : i ∈ finishers s ↔ (s.links i).recv = .finished := by simp [finishers]

def Tallied (s : State n) : Prop := s.recvFinishCnt = (finishers s).card

theorem tallied_init : Tallied (State.init n) := by simp [Tallied,finishers,State.init,Link.init]

variable (hs : Tallied s)
include hs

theorem tallied_congr (hc : t.recvFinishCnt = s.recvFinishCnt)
  (hf : ∀ i, (t.links i).recv = .finished ↔ (s.links i).recv = .finished) : Tallied t := by
  have he : finishers t = finishers s := by
    ext i
    rw [mem_finishers,mem_finishers,hf i]
  rw [Tallied,he,hc]
  exact hs

theorem tallied_local (hc : t.recvFinishCnt = s.recvFinishCnt) (hn : ∀ j, j ≠ i → t.links j = s.links j)
  (hf : (t.links i).recv = .finished ↔ (s.links i).recv = .finished) : Tallied t := by
  refine tallied_congr hs hc fun j => ?_
  by_cases hj : j = i
  · subst hj; exact hf
  · rw [hn j hj]

theorem tallied_finish (hc : t.recvFinishCnt = s.recvFinishCnt+1) (he : ∀ j, j ≠ i → t.links j = s.links j)
  (hb : (s.links i).recv ≠ .finished) (ha : (t.links i).recv = .finished) : Tallied t := by
  have hd : finishers t = insert i (finishers s) := by
    ext j
    rw [Finset.mem_insert,mem_finishers,mem_finishers]
    by_cases hj : j = i
    · subst hj; simp [ha]
    · rw [he j hj]; simp [hj]
  have hn : i ∉ finishers s := fun h => hb (mem_finishers.mp h)
  rw [Tallied,hd,Finset.card_insert_of_notMem hn,hc,hs]

theorem tallied_recv (h : RecvMove s i t) : Tallied t := by
  have hn : ∀ j, j ≠ i → t.links j = s.links j := fun j hj => h.links_ne hj
  cases h with
  | data b c hr hc | barrier c hr hc | apply b hr | sendAck hr => exact tallied_local hs rfl hn (by simp [hr])
  | lastIter c hr hc => exact tallied_local hs rfl hn (by simp)
  | finish c hr hc => exact tallied_finish hs rfl hn (by simp [hr]) (by simp)

theorem tallied_move (h : Move p s a t) : Tallied t := by
  cases h with
  | master h =>
    have hl := h.links_eq
    have hc : t.recvFinishCnt = s.recvFinishCnt := by cases h <;> rfl
    exact tallied_congr hs hc fun i => by rw [hl]
  | release m ha hm => exact tallied_congr hs rfl fun i => Iff.rfl
  | recvRelease ha =>
    refine tallied_congr (t := s.recvReleased) hs rfl fun i => ?_
    simp [ha i]
  | slave i _ h =>
    have hc : t.recvFinishCnt = s.recvFinishCnt := by cases h <;> rfl
    have hr : (t.links i).recv = (s.links i).recv := by cases h <;> simp [Link.post]
    exact tallied_local hs hc (fun j hj => h.links_ne hj) (by rw [hr])
  | receiver i h => exact tallied_recv hs h

theorem all_finished (hf : s.recvFinishCnt = n) (i : Fin n) : (s.links i).recv = .finished := by
  have hc : (finishers s).card = Fintype.card (Fin n) := by
    rw [Fintype.card_fin,← hs]
    exact hf
  have ha : finishers s = Finset.univ := (Finset.card_eq_iff_eq_univ _).mp hc
  exact mem_finishers.mp (ha ▸ Finset.mem_univ i)

omit hs

def EmptyAtEnd (s : State n) (a : Act n) : Prop :=
  a.clean = true ∧ (a = .release → s.master = .waitEnd → s.queue = [])

def Emptied (s : State n) : Prop := s.master = .done → s.queue = []

theorem emptied_move (ha : EmptyAtEnd s a) (hs : Emptied s) (h : Move p s a t) : Emptied t := by
  intro hd
  cases h with
  | master h => cases h <;> cases hd
  | release m hl hm =>
    rw [State.releaseTo_master] at hd
    exact ha.2 rfl (released_done (hd ▸ hm))
  | recvRelease hl => exact hs hd
  | slave i _ h =>
    have hq := hs (h.master_eq ▸ hd)
    cases h with
    | dequeue b q hp hq' => simp [hq] at hq'
    | _ => exact hq
  | receiver i h =>
    have hq := hs (h.master_eq ▸ hd)
    cases h <;> exact hq

theorem finished_held {l : Link} (hs : Stage l) (hr : l.recv = .finished) : l.pc = .stopped ∧ l.held = [] := by
  cases hs with
  | ended hp hc => exact ⟨hp,by simp [Link.held,hr,hc,hp,RecvPc.inHand,SendPc.hand]⟩
  | _ => simp_all [RecvPc.busy]

theorem nothing_in_flight (hp : 0 < n) (hy : Synced s) (hh : Phased s)
  (ht : Tallied s) (he : Emptied s) (hf : s.recvFinishCnt = n) (b : Batch) : ¬s.inFlight b := by
  have hl : ∀ i, (s.links i).pc = .stopped ∧ (s.links i).held = [] :=
    fun i => finished_held (hy.stage i) (all_finished ht hf i)
  have hd : s.master = .done := hh.ended ⟨0,hp⟩ (.inr (hl _).1)
  rintro (h | ⟨i,h⟩)
  · simp [he hd] at h
  · simp [(hl i).2] at h

theorem finish_count_means_delivered {s : State n} (hpos : 0 < n)
  (h : Reach (State.step p live) EmptyAtEnd (State.init n) s)
  (hfin : s.recvFinishCnt = n) : ∀ b ∈ s.enqueued, b ∉ s.bailed → b ∈ s.applied := by
  have hl : ∀ (u : State n) a, EmptyAtEnd u a → a.clean = true := fun _ _ ha => ha.1
  have ht : Tallied s := reach_invariant tallied_init (fun u a _ _ hi ha hv => tallied_move hi (step_move ha.1 hv)) h
  have hn : Emptied (State.init n) := fun hd => by cases hd
  have he : Emptied s := reach_invariant hn (fun u a _ _ hi ha hv => emptied_move ha hi (step_move ha.1 hv)) h
  intro b hq hc
  rcases (reachable_accounted hl h b).mp hq with hb | hb | hb
  · exact absurd hb (nothing_in_flight hpos (reachable_synced hl h) (reachable_phased hl h) ht he hfin b)
  · exact hb
  · exact absurd hb hc

def EmptyAtEnd.check (s : State n) (a : Act n) : Bool :=
  a.clean && !(decide (a = .release) && decide (s.master = .waitEnd) && !s.queue.isEmpty)

theorem EmptyAtEnd.of_check (h : EmptyAtEnd.check s a = true) : EmptyAtEnd s a := by
  simp only [EmptyAtEnd.check,Bool.and_eq_true] at h
  refine ⟨h.1,fun ha hm => ?_⟩
  simpa [ha,hm] using h.2

def partAndFinish : List (Act 1) :=
  [.master,.master,.master,.slave lone .run,.slave lone .run,.slave lone .run,.release,.slave lone .run,
    .receiver lone .run]

theorem single_page_delivered : ∃ s : State 1, Reach (State.step lastPagePlan true) EmptyAtEnd (State.init 1) s ∧
    s.recvFinishCnt = 1 ∧ s.enqueued = [⟨0,[0],true⟩] ∧ ∀ b ∈ s.enqueued, b ∉ s.bailed → b ∈ s.applied := by
  have hu : ((runIf (State.step lastPagePlan true) EmptyAtEnd.check (State.init 1)
      (handOver ++ meetOnce ++ [Act.release,Act.master,Act.master] ++ meetOnce ++ [Act.release] ++
        partAndFinish)).map fun s => (s.recvFinishCnt,s.enqueued)) =
      some (1,[⟨0,[0],true⟩]) := by decide
  obtain ⟨s,hr,ho⟩ := reach_observed (fun _ _ => EmptyAtEnd.of_check) hu
  simp only [Prod.mk.injEq] at ho
  exact ⟨s,hr,ho.1,ho.2,finish_count_means_delivered (by decide) hr ho.1⟩

def fullBatchPlan : Plan := ⟨1025,[],fun n => decide (n < 1024),none⟩

def failToMap : List (Act 1) :=
  [.master,.master,.slave lone .run,.slave lone (.fail .mapBatch),.slave lone .run,.receiver lone .run]

def failToApply : List (Act 1) :=
  handOver.take 7 ++ [Act.receiver lone .fail] ++ handOver.drop 8 ++ meetOnce ++
    [Act.release,Act.master,Act.master] ++ meetOnce ++ [Act.release] ++ partAndFinish

def leaveQueued : List (Act 1) :=
  [.slave lone .run,.slave lone .run,.master,.master,.master,.master,.master,.slave lone .run,.release,
    .slave lone .run,.receiver lone .run]

def Lost (s : State n) (b : Batch) : Prop :=
  s.recvFinishCnt = n ∧ b ∈ s.enqueued ∧ b ∉ s.applied ∧ b ∉ s.bailed

theorem lost_of_run {p : Plan} {allow : State n → Act n → Prop} (ok : State n → Act n → Bool)
  (as : List (Act n)) {b : Batch} (hk : ∀ u a, ok u a = true → allow u a)
  (hu : ((runIf (State.step p true) ok (State.init n) as).map fun s =>
    (s.recvFinishCnt,s.enqueued,s.applied,s.bailed)) = some (n,[b],[],[])) :
  ∃ s : State n, Reach (State.step p true) allow (State.init n) s ∧ Lost s b := by
  obtain ⟨s,hr,ho⟩ := reach_observed hk hu
  simp only [Prod.mk.injEq] at ho
  obtain ⟨hf,he,ha,hb⟩ := ho
  exact ⟨s,hr,hf,by simp [he],by simp [ha],by simp [hb]⟩

theorem finish_count_hides_loss : (∃ s : State 1, Reach (State.step lastPagePlan true)
    (fun _ a => a ≠ .receiver 0 .fail) (State.init 1) s ∧ Lost s ⟨0,[0],true⟩) ∧
  (∃ s : State 1, Reach (State.step lastPagePlan true)
    (fun _ a => ∀ why, a ≠ .slave 0 (.fail why)) (State.init 1) s ∧ Lost s ⟨0,[0],true⟩) ∧
  ∃ s : State 1, Reach (State.step fullBatchPlan true) Quiet (State.init 1) s ∧ Lost s ⟨0,List.range 1024,true⟩ := by
  refine ⟨?_,?_,?_⟩
  · refine lost_of_run (fun _ a => decide (a ≠ .receiver 0 .fail)) failToMap (fun _ _ h => by simpa using h) ?_
    decide
  · refine lost_of_run (fun _ a => !(decide (a = .slave 0 (.fail .mapBatch)) ||
      decide (a = .slave 0 (.fail .pfnType)) || decide (a = .slave 0 (.fail .ptRace))))
      failToApply (fun _ a h why => ?_) ?_
    · rintro rfl
      cases why <;> simp at h
    · decide
  · refine lost_of_run (fun _ a => a.clean) leaveQueued (fun _ _ h => h) ?_
    decide +kernel

open Finset List

-- Every copy of a batch is in one place: queued, on a link, applied or given up.
def Conserved (s : State n) : Prop :=
  ∀ b, s.enqueued.count b = (s.queue ++ s.applied ++ s.bailed).count b+∑ i, (s.links i).held.count b

theorem Flow.count_eq (h : Flow s t i) (b : Batch) :
  (t.pipe i ++ t.applied ++ t.bailed).count b = (s.pipe i ++ s.applied ++ s.bailed).count b := by
  cases h with
  | keep hp ha hb => rw [hp,ha,hb]
  | bail | apply =>
    simp only [*,count_append,count_cons]
    omega

theorem Carries.conserved (h : Carries s t i) (hs : Conserved s) : Conserved t := by
  intro b
  have hb := hs b
  have hf := h.flow.count_eq b
  have ho : ∑ j ∈ univ.erase i, (t.links j).held.count b = ∑ j ∈ univ.erase i, (s.links j).held.count b :=
    sum_congr rfl fun j hj => by rw [h.others j (ne_of_mem_erase hj)]
  rw [← add_sum_erase _ _ (mem_univ i)] at hb ⊢
  simp only [State.pipe,count_append] at hf hb ⊢
  rw [h.enqueued,ho]
  omega

theorem conserved_move (hs : Conserved s) (h : Move p s a t) : Conserved t := by
  cases h with
  | master h =>
    cases h with
    | enqueue k N b' hm =>
      intro b
      have hb := hs b
      simp only [count_append,count_cons,count_nil] at hb ⊢
      omega
    | _ => exact hs
  | release m ha hm => simpa [Conserved,State.releaseTo,release_held (ha _)] using hs
  | recvRelease ha => simpa [Conserved,State.recvReleased,Link.held,ha,RecvPc.inHand] using hs
  | slave i _ h => exact (slave_carries h).conserved hs
  | receiver i h => exact (recv_carries h).conserved hs

theorem each_batch_in_one_place (h : Reach (State.step p live) Quiet (State.init n) s) : Conserved s := by
  refine reach_invariant (fun b => ?_) (fun u a _ _ hi ha hv => conserved_move hi (step_move ha hv)) h
  simp [State.init,Link.init,Link.held,RecvPc.inHand,SendPc.hand]

theorem last_page_in_one_place : ∃ s : State 1, Reach (State.step lastPagePlan true) Quiet (State.init 1) s ∧
    s.enqueued = [⟨0,[0],true⟩] ∧ Conserved s := by
  have hu : (runIf (State.step lastPagePlan true) (fun _ a => a.clean) (State.init 1) handOver).map State.enqueued =
    some [⟨0,[0],true⟩] := by decide
  exact (reach_observed (fun _ _ h => h) hu).imp fun s h => ⟨h.1,h.2,each_batch_in_one_place h.1⟩

end Migration
