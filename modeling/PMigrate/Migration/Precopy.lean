import PMigrate.Migration.Plan
import PMigrate.Core.Transition

namespace Precopy

open Function Transition List

def defMaxIters : Nat := 29

def defMaxFactor : Nat := 3

structure Params where
  (p2mSize maxIters maxFactor : Nat)
  (live debug : Bool)

def Params.iters (prm : Params) : Nat := if prm.maxIters = 0 then defMaxIters else prm.maxIters

def Params.factor (prm : Params) : Nat := if prm.maxFactor = 0 then defMaxFactor else prm.maxFactor

inductive Pc where
  | peek
  | load
  | ended
  | suspend
  | clean
  | finished
deriving DecidableEq

structure State where
  (dirty mapped : Nat → Bool)
  ver : Nat → Nat
  running : Bool
  (toSend toSkip toFix : Nat → Bool)
  N : Nat
  (batch pending : List Nat)
  reads : Nat → Option Nat
  (lastIter debug : Bool)
  (iter sentThisIter skipThisIter sentLastIter totalSent : Nat)
  pc : Pc

structure Guest where
  (dirty mapped toSkip : Nat → Bool)

inductive Act where
  | write (n : Nat)
  | map (n : Nat)
  | read (n : Nat)
  | save (rateIsMax : Bool)
deriving DecidableEq

def init (prm : Params) (g : Guest) : State where
  dirty n := prm.live && g.dirty n
  mapped := g.mapped
  ver _ := 0
  running := prm.live
  toSend _ := true
  toSkip := g.toSkip
  toFix _ := false
  N := 0
  batch := []
  pending := []
  reads _ := none
  lastIter := !prm.live
  debug := prm.debug
  iter := 1
  sentThisIter := 0
  skipThisIter := 0
  sentLastIter := prm.p2mSize
  totalSent := 0
  pc := .peek

namespace State

def selected (s : State) (n : Nat) : Bool :=
  (s.toSend n && !s.toSkip n) || (s.toSend n && s.lastIter) || (s.toFix n && s.lastIter)

def countSkip (s : State) : Nat :=
  if !s.lastIter && s.toSend s.N && s.toSkip s.N then s.skipThisIter+1 else s.skipThisIter

def visit (s : State) : State :=
  if s.selected s.N then
    if s.mapped s.N then
      {s with toFix := update s.toFix s.N false,batch := s.batch ++ [s.N],
               skipThisIter := s.countSkip,N := s.N+1}
    else
      {s with toFix := update s.toFix s.N true,skipThisIter := s.countSkip,
               N := s.N+1}
  else {s with skipThisIter := s.countSkip,N := s.N+1}

def nextIter (s : State) : State :=
  {s with iter := s.iter+1,sentThisIter := 0,skipThisIter := 0,N := 0,pc := .peek}

section
variable (prm : Params) (s : State)

def startLast (rateIsMax : Bool) : Bool :=
  (decide (s.sentLastIter < s.sentThisIter) && rateIsMax) || decide (prm.iters ≤ s.iter) ||
    decide (s.sentThisIter+s.skipThisIter < 50) ||
    decide (prm.p2mSize*prm.factor < s.totalSent+s.sentThisIter)

def save (rateIsMax : Bool) : Option State :=
  match s.pc with
  | .peek =>
    if s.N < prm.p2mSize then
      if s.lastIter then some {s with pc := .load}
      else some {s with toSkip := s.dirty,pc := .load}
    else some {s with pc := .ended}
  | .load =>
    if s.batch.length < Migration.maxBatchSize ∧ s.N < prm.p2mSize then some s.visit
    else if s.batch = [] then some {s with pc := .ended}
    else some {s with pending := s.pending ++ s.batch,batch := [],
                       sentThisIter := s.sentThisIter+s.batch.length,pc := .peek}
  | .ended =>
    if s.lastIter then
      if s.debug then
        some {s with totalSent := s.totalSent+s.sentThisIter,toSend := fun _ => true,
                      debug := false}.nextIter
      else some {s with totalSent := s.totalSent+s.sentThisIter,pc := .finished}
    else if s.startLast prm rateIsMax then
      some {s with totalSent := s.totalSent+s.sentThisIter,lastIter := true,pc := .suspend}
    else some {s with totalSent := s.totalSent+s.sentThisIter,pc := .clean}
  | .suspend => some {s with running := false,pc := .clean}
  | .clean =>
    some {s with toSend := s.dirty,dirty := fun _ => false,
                  sentLastIter := s.sentThisIter}.nextIter
  | .finished => none

def step : Act → Option State
  | .write n =>
    if s.running && s.mapped n then
      some {s with ver := update s.ver n (s.ver n+1),
                    dirty := update s.dirty n true}
    else none
  | .map n =>
    if s.running && !s.mapped n then
      some {s with mapped := update s.mapped n true,
                    ver := update s.ver n (s.ver n+1)}
    else none
  | .read n =>
    if n ∈ s.pending then
      some {s with pending := s.pending.erase n,
                    reads := update s.reads n (some (s.ver n))}
    else none
  | .save rateIsMax => s.save prm rateIsMax

end

def Fresh (s : State) (n : Nat) : Prop := s.reads n = some (s.ver n)

end State

inductive Move (prm : Params) (s : State) : State → Prop
  | write (n : Nat) (hr : s.running = true) (hm : s.mapped n = true) :
      Move prm s {s with ver := update s.ver n (s.ver n+1),
                          dirty := update s.dirty n true}
  | map (n : Nat) (hr : s.running = true) (hm : s.mapped n = false) :
      Move prm s {s with mapped := update s.mapped n true,
                          ver := update s.ver n (s.ver n+1)}
  | read (n : Nat) (hp : n ∈ s.pending) :
      Move prm s {s with pending := s.pending.erase n,
                          reads := update s.reads n (some (s.ver n))}
  | peekLast (hpc : s.pc = .peek) (hl : s.lastIter = true) :
      Move prm s {s with pc := .load}
  | peek (hpc : s.pc = .peek) (hl : s.lastIter = false) :
      Move prm s {s with toSkip := s.dirty,pc := .load}
  | scanned (hpc : s.pc = .peek ∨ s.pc = .load ∧ s.batch = []) (hN : prm.p2mSize ≤ s.N) :
      Move prm s {s with pc := .ended}
  | visit (hpc : s.pc = .load) (hN : s.N < prm.p2mSize) : Move prm s s.visit
  | enqueue (hpc : s.pc = .load) :
      Move prm s {s with pending := s.pending ++ s.batch,batch := [],
                          sentThisIter := s.sentThisIter+s.batch.length,pc := .peek}
  | resend (hpc : s.pc = .ended) (hl : s.lastIter = true) (hd : s.debug = true) :
      Move prm s {s with totalSent := s.totalSent+s.sentThisIter,toSend := fun _ => true,
                          debug := false}.nextIter
  | finish (hpc : s.pc = .ended) (hl : s.lastIter = true) :
      Move prm s {s with totalSent := s.totalSent+s.sentThisIter,pc := .finished}
  | startLast (hpc : s.pc = .ended) (hl : s.lastIter = false) :
      Move prm s {s with totalSent := s.totalSent+s.sentThisIter,lastIter := true,
                          pc := .suspend}
  | another (hpc : s.pc = .ended) (hl : s.lastIter = false) (hi : s.iter < prm.iters) :
      Move prm s {s with totalSent := s.totalSent+s.sentThisIter,pc := .clean}
  | suspend (hpc : s.pc = .suspend) : Move prm s {s with running := false,pc := .clean}
  | clean (hpc : s.pc = .clean) :
      Move prm s {s with toSend := s.dirty,dirty := fun _ => false,
                          sentLastIter := s.sentThisIter}.nextIter

variable {prm : Params} {s t : State} {n : Nat}

theorem save_move {rateIsMax : Bool} (h : s.save prm rateIsMax = some t) : Move prm s t := by
  unfold State.save at h
  split at h
  · rename_i hp
    split at h
    · split at h
      · rename_i hl; cases h; exact .peekLast hp hl
      · rename_i hl; cases h; exact .peek hp (by simpa using hl)
    · rename_i hN; cases h; exact .scanned (.inl hp) (by omega)
  · rename_i hp
    split at h
    · rename_i ho; cases h; exact .visit hp ho.2
    rename_i ho
    split_ifs at h with hb
    · cases h
      refine .scanned (.inr ⟨hp,hb⟩) ?_
      simp only [hb,length_nil,Migration.maxBatchSize] at ho
      omega
    · cases h; exact .enqueue hp
  · rename_i hp
    split at h
    · rename_i hl
      split at h
      · rename_i hd; cases h; exact .resend hp hl hd
      · cases h; exact .finish hp hl
    rename_i hl
    split at h
    · cases h; exact .startLast hp (by simpa using hl)
    rename_i hs
    cases h
    refine .another hp (by simpa using hl) ?_
    simp only [State.startLast,Bool.or_eq_true,decide_eq_true_eq,not_or] at hs
    omega
  · rename_i hp; cases h; exact .suspend hp
  · rename_i hp; cases h; exact .clean hp
  · cases h

theorem step_move {a : Act} (h : s.step prm a = some t) : Move prm s t := by
  cases a with
  | write n =>
    simp only [State.step] at h
    split at h
    · rename_i hg
      simp only [Bool.and_eq_true] at hg
      cases h
      exact .write n hg.1 hg.2
    · cases h
  | map n =>
    simp only [State.step] at h
    split at h
    · rename_i hg
      simp only [Bool.and_eq_true,Bool.not_eq_true'] at hg
      cases h
      exact .map n hg.1 hg.2
    · cases h
  | read n =>
    simp only [State.step] at h
    split at h
    · rename_i hp; cases h; exact .read n hp
    · cases h
  | save rateIsMax => exact save_move h

inductive Visited (s : State) : State → Prop
  | taken {t : State} (hsel : s.selected s.N = true) (hm : s.mapped s.N = true)
      (hfix : t.toFix = update s.toFix s.N false) (hb : t.batch = s.batch ++ [s.N]) :
      Visited s t
  | fixup {t : State} (hsel : s.selected s.N = true) (hm : s.mapped s.N = false)
      (hfix : t.toFix = update s.toFix s.N true) (hb : t.batch = s.batch) : Visited s t
  | passed {t : State} (hsel : s.selected s.N = false) (hfix : t.toFix = s.toFix)
      (hb : t.batch = s.batch) : Visited s t

theorem visit_cases (s : State) : Visited s s.visit := by
  cases hs : s.selected s.N with
  | false => exact .passed hs (by simp [State.visit,hs]) (by simp [State.visit,hs])
  | true =>
    cases hm : s.mapped s.N with
    | false => exact .fixup hs hm (by simp [State.visit,hs,hm]) (by simp [State.visit,hs,hm])
    | true => exact .taken hs hm (by simp [State.visit,hs,hm]) (by simp [State.visit,hs,hm])

structure SameGuest (s t : State) : Prop where
  dirty : t.dirty = s.dirty
  mapped : t.mapped = s.mapped
  ver : t.ver = s.ver
  running : t.running = s.running
  toSend : t.toSend = s.toSend
  toSkip : t.toSkip = s.toSkip
  pending : t.pending = s.pending
  reads : t.reads = s.reads
  lastIter : t.lastIter = s.lastIter
  pc : t.pc = s.pc
  N : t.N = s.N+1

theorem visit_frame (s : State) : SameGuest s s.visit := by
  unfold State.visit
  split
  · split <;> exact ⟨rfl,rfl,rfl,rfl,rfl,rfl,rfl,rfl,rfl,rfl,rfl⟩
  · exact ⟨rfl,rfl,rfl,rfl,rfl,rfl,rfl,rfl,rfl,rfl,rfl⟩

def State.final (s : State) : Prop := s.lastIter = true ∧ s.pc ≠ .suspend ∧ s.pc ≠ .clean

structure Phase (prm : Params) (s : State) : Prop where
  skip : s.pc = .load → s.lastIter = false → ∀ n, s.toSkip n = true → s.dirty n = true
  batch : s.pc ≠ .load → s.batch = []
  scanned : s.pc ≠ .peek → s.pc ≠ .load → prm.p2mSize ≤ s.N
  halted : s.lastIter = true → s.pc ≠ .suspend → s.running = false
  quiet : s.final → ∀ n, s.dirty n = false
  fixed : s.final → ∀ n, n < s.N → s.mapped n = true → s.toFix n = false
  last : s.pc = .suspend ∨ s.pc = .finished → s.lastIter = true

theorem phase_init (prm : Params) (g : Guest) : Phase prm (init prm g) := by
  refine ⟨?_,?_,?_,?_,?_,?_,?_⟩
  · intro h; cases h
  · intro _; rfl
  · intro h; exact absurd rfl h
  · intro h _; simpa [init] using h
  · rintro ⟨h,_⟩ n
    have hl : prm.live = false := by simpa [init] using h
    simp [init,hl]
  · intro _ n h; exact absurd h (Nat.not_lt_zero n)
  · rintro (h | h) <;> cases h

theorem phase_visit (hs : Phase prm s) (hp : s.pc = .load) : Phase prm s.visit := by
  have hf := visit_frame s
  have hd : s.visit.final → s.final := by
    rintro ⟨hl,h1,h2⟩
    exact ⟨hf.lastIter ▸ hl,hf.pc ▸ h1,hf.pc ▸ h2⟩
  refine ⟨?_,?_,?_,?_,?_,?_,?_⟩
  · rw [hf.pc,hf.lastIter,hf.toSkip,hf.dirty]; exact hs.skip
  · intro h; rw [hf.pc] at h; exact absurd hp h
  · intro _ h; rw [hf.pc] at h; exact absurd hp h
  · rw [hf.lastIter,hf.pc,hf.running]; exact hs.halted
  · intro h; rw [hf.dirty]; exact hs.quiet (hd h)
  · intro h n hn hm
    have hg := (hd h).1
    have hold := hs.fixed (hd h) n
    rw [hf.mapped] at hm
    rw [hf.N] at hn
    cases visit_cases s with
    | taken he ha hi hb =>
      rw [hi]
      by_cases hc : n = s.N
      · simp [hc]
      · rw [update_of_ne hc]; exact hold (by omega) hm
    | fixup he ha hi hb =>
      have hc : n ≠ s.N := by rintro rfl; simp [ha] at hm
      rw [hi,update_of_ne hc]
      exact hold (by omega) hm
    | passed he hi hb =>
      rw [hi]
      by_cases hc : n = s.N
      · subst hc
        simp only [State.selected,hg,Bool.and_true,Bool.or_eq_false_iff] at he
        exact he.2
      · exact hold (by omega) hm
  · intro h
    rw [hf.pc,hp] at h
    rcases h with h | h <;> cases h

theorem Phase.not_final (hs : Phase prm s) (hr : s.running = true) : ¬s.final := by
  rintro ⟨hl,h1,_⟩
  simp [hs.halted hl h1] at hr

theorem phase_move (hs : Phase prm s) (h : Move prm s t) : Phase prm t := by
  cases h with
  | write n hr hm =>
    have ha := hs.not_final hr
    refine ⟨fun hc hl m hm => ?_,hs.batch,hs.scanned,hs.halted,fun h => (ha h).elim,fun h => (ha h).elim,hs.last⟩
    have hd := hs.skip hc hl m hm
    by_cases he : m = n
    · simp [he]
    · simpa [he] using hd
  | map n hr hm =>
    exact ⟨hs.skip,hs.batch,hs.scanned,hs.halted,hs.quiet,fun h => (hs.not_final hr h).elim,hs.last⟩
  | read n hp => exact ⟨hs.skip,hs.batch,hs.scanned,hs.halted,hs.quiet,hs.fixed,hs.last⟩
  | visit hc hN => exact phase_visit hs hc
  | peekLast hc hl =>
    have hf : s.final := ⟨hl,by simp [hc],by simp [hc]⟩
    refine ⟨fun _ h => ?_,fun h => absurd rfl h,fun _ h => absurd rfl h,?_,fun _ => hs.quiet hf,
      fun _ => hs.fixed hf,?_⟩
    · simp [hl] at h
    · intro _ _; exact hs.halted hl hf.2.1
    · rintro (h | h) <;> cases h
  | peek hc hl =>
    refine ⟨fun _ _ n h => h,fun h => absurd rfl h,fun _ h => absurd rfl h,?_,?_,?_,?_⟩
    · intro h; simp [hl] at h
    · rintro ⟨h,_⟩; simp [hl] at h
    · rintro ⟨h,_⟩; simp [hl] at h
    · rintro (h | h) <;> cases h
  | scanned hc hN =>
    have hn : s.pc ≠ .suspend ∧ s.pc ≠ .clean := by rcases hc with h | h <;> simp [h]
    have hb : s.batch = [] := by
      rcases hc with h | h
      · exact hs.batch (by simp [h])
      · exact h.2
    refine ⟨?_,fun _ => hb,fun _ _ => hN,fun hl _ => hs.halted hl hn.1,?_,?_,?_⟩
    · intro h; cases h
    · rintro ⟨hl,_⟩; exact hs.quiet ⟨hl,hn⟩
    · rintro ⟨hl,_⟩; exact hs.fixed ⟨hl,hn⟩
    · rintro (h | h) <;> cases h
  | enqueue hc =>
    have hn : s.pc ≠ .suspend ∧ s.pc ≠ .clean := by simp [hc]
    refine ⟨?_,fun _ => rfl,fun h => absurd rfl h,fun hl _ => hs.halted hl hn.1,?_,?_,?_⟩
    · intro h; cases h
    · rintro ⟨hl,_⟩; exact hs.quiet ⟨hl,hn⟩
    · rintro ⟨hl,_⟩; exact hs.fixed ⟨hl,hn⟩
    · rintro (h | h) <;> cases h
  | resend hc hl hd =>
    have hf : s.final := ⟨hl,by simp [hc],by simp [hc]⟩
    refine ⟨?_,fun _ => hs.batch (by simp [hc]),fun h => absurd rfl h,
      fun _ _ => hs.halted hl hf.2.1,fun _ => hs.quiet hf,?_,?_⟩
    · intro h; cases h
    · intro _ n h; exact absurd h (Nat.not_lt_zero n)
    · rintro (h | h) <;> cases h
  | finish hc hl =>
    have hf : s.final := ⟨hl,by simp [hc],by simp [hc]⟩
    refine ⟨?_,fun _ => hs.batch (by simp [hc]),fun _ _ => hs.scanned (by simp [hc])
      (by simp [hc]),fun _ _ => hs.halted hl hf.2.1,fun _ => hs.quiet hf,
      fun _ => hs.fixed hf,fun _ => hl⟩
    intro h; cases h
  | startLast hc hl =>
    refine ⟨?_,fun _ => hs.batch (by simp [hc]),fun _ _ => hs.scanned (by simp [hc])
      (by simp [hc]),fun _ h => absurd rfl h,fun h => absurd rfl h.2.1,fun h => absurd rfl h.2.1,
      fun _ => rfl⟩
    intro h; cases h
  | another hc hl hi =>
    refine ⟨?_,fun _ => hs.batch (by simp [hc]),fun _ _ => hs.scanned (by simp [hc])
      (by simp [hc]),?_,fun h => absurd rfl h.2.2,fun h => absurd rfl h.2.2,?_⟩
    · intro h; cases h
    · intro h; simp [hl] at h
    · rintro (h | h) <;> cases h
  | suspend hc =>
    refine ⟨?_,fun _ => hs.batch (by simp [hc]),fun _ _ => hs.scanned (by simp [hc])
      (by simp [hc]),fun _ _ => rfl,fun h => absurd rfl h.2.2,fun h => absurd rfl h.2.2,?_⟩
    · intro h; cases h
    · rintro (h | h) <;> cases h
  | clean hc =>
    refine ⟨?_,fun _ => hs.batch (by simp [hc]),fun h => absurd rfl h,
      fun hl _ => hs.halted hl (by simp [hc]),fun _ _ => rfl,?_,?_⟩
    · intro h; cases h
    · intro _ n h; exact absurd h (Nat.not_lt_zero n)
    · rintro (h | h) <;> cases h

def State.owed (s : State) (n : Nat) : Prop :=
  s.dirty n = true ∨ s.toFix n = true ∨ (s.toSend n = true ∧ s.N ≤ n)

structure Covered (prm : Params) (s : State) : Prop where
  mapped : ∀ n, n < prm.p2mSize → s.mapped n = true →
    s.Fresh n ∨ n ∈ s.pending ∨ n ∈ s.batch ∨ s.owed n
  unmapped : ∀ n, n < prm.p2mSize → s.mapped n = false → s.owed n

theorem covered_init (prm : Params) (g : Guest) : Covered prm (init prm g) := by
  have ho : ∀ n, (init prm g).owed n := fun n => .inr (.inr ⟨rfl,Nat.zero_le n⟩)
  exact ⟨fun n _ _ => .inr (.inr (.inr (ho n))),fun n _ _ => ho n⟩

theorem owed_passed (hs : Phase prm s) (hp : s.pc = .load) (he : s.selected s.N = false) (h : s.owed s.N) :
  s.dirty s.N = true ∨ s.toFix s.N = true := by
  rcases h with h | h | ⟨h,_⟩
  · exact .inl h
  · exact .inr h
  · left
    have ha : s.toSkip s.N = true ∧ s.lastIter = false := by
      cases hk : s.toSkip s.N <;> cases hl : s.lastIter <;> simp [State.selected,h,hk,hl] at he ⊢
    exact hs.skip hp ha.2 _ ha.1

theorem owed_later (hn : n ≠ s.N) (h : s.owed n) : s.visit.owed n := by
  have hf := visit_frame s
  have hi : s.visit.toFix n = s.toFix n := by
    cases visit_cases s with
    | taken _ _ hi _ | fixup _ _ hi _ => rw [hi,update_of_ne hn]
    | passed _ hi _ => rw [hi]
  unfold State.owed
  rw [hf.dirty,hi,hf.toSend,hf.N]
  rcases h with h | h | ⟨h,hN⟩
  · exact .inl h
  · exact .inr (.inl h)
  · exact .inr (.inr ⟨h,by omega⟩)

theorem batch_later (h : n ∈ s.batch) : n ∈ s.visit.batch := by
  cases visit_cases s with
  | taken _ _ _ hb => rw [hb]; exact mem_append_left _ h
  | fixup _ _ _ hb | passed _ _ hb => rw [hb]; exact h

theorem covered_visit (hp : Phase prm s) (hs : Covered prm s) (hc : s.pc = .load) : Covered prm s.visit := by
  have hf := visit_frame s
  have hr : ∀ n, s.Fresh n → s.visit.Fresh n := by
    intro n h
    unfold State.Fresh
    rw [hf.reads,hf.ver]
    exact h
  have hk : s.selected s.N = false → s.visit.toFix = s.toFix → s.owed s.N →
      s.visit.owed s.N := by
    intro he hi h
    unfold State.owed
    rw [hf.dirty,hi]
    exact (owed_passed hp hc he h).imp_right .inl
  refine ⟨fun n hn hm => ?_,fun n hn hm => ?_⟩
  · rw [hf.mapped] at hm
    rcases hs.mapped n hn hm with h | h | h | h
    · exact .inl (hr n h)
    · exact .inr (.inl (hf.pending ▸ h))
    · exact .inr (.inr (.inl (batch_later h)))
    · by_cases hd : n = s.N
      · subst hd
        cases visit_cases s with
        | taken _ _ _ hb => exact .inr (.inr (.inl (by rw [hb]; simp)))
        | fixup _ hu _ _ => simp [hu] at hm
        | passed he hi _ => exact .inr (.inr (.inr (hk he hi h)))
      · exact .inr (.inr (.inr (owed_later hd h)))
  rw [hf.mapped] at hm
  have h := hs.unmapped n hn hm
  by_cases hd : n = s.N
  · subst hd
    cases visit_cases s with
    | taken _ ha _ _ => simp [ha] at hm
    | fixup _ _ hi _ => exact .inr (.inl (by rw [hi]; simp))
    | passed he hi _ => exact hk he hi h
  · exact owed_later hd h

theorem covered_write (hs : Covered prm s) (hm : s.mapped n = true) :
  Covered prm {s with ver := update s.ver n (s.ver n+1),dirty := update s.dirty n true} := by
  refine ⟨fun m hp ha => ?_,fun m hp ha => ?_⟩
  · by_cases hn : m = n
    · exact .inr (.inr (.inr (.inl (by simp [hn]))))
    · simpa [State.Fresh,State.owed,hn] using hs.mapped m hp ha
  · have hn : m ≠ n := by rintro rfl; simp [hm] at ha
    simpa [State.owed,hn] using hs.unmapped m hp ha

theorem covered_map (hs : Covered prm s) (hm : s.mapped n = false) :
  Covered prm {s with mapped := update s.mapped n true,ver := update s.ver n (s.ver n+1)} := by
  refine ⟨fun m hp ha => ?_,fun m hp ha => ?_⟩
  · by_cases hn : m = n
    · subst hn
      exact .inr (.inr (.inr (hs.unmapped m hp hm)))
    · have hold : s.mapped m = true := by simpa [hn] using ha
      simpa [State.Fresh,State.owed,hn] using hs.mapped m hp hold
  · have hn : m ≠ n := by rintro rfl; simp at ha
    exact hs.unmapped m hp (by simpa [hn] using ha)

theorem covered_read (hs : Covered prm s) :
  Covered prm {s with pending := s.pending.erase n,reads := update s.reads n (some (s.ver n))} := by
  refine ⟨fun m hp ha => ?_,hs.unmapped⟩
  by_cases hm : m = n
  · exact .inl (by simp [State.Fresh,hm])
  rcases hs.mapped m hp ha with h | h | h | h
  · exact .inl (by simpa [State.Fresh,hm] using h)
  · exact .inr (.inl ((mem_erase_of_ne hm).mpr h))
  · exact .inr (.inr (.inl h))
  · exact .inr (.inr (.inr h))

theorem covered_restart (hh : Phase prm s) (hs : Covered prm s)
  (hc : s.pc = .ended ∨ s.pc = .clean) (hb : t.batch = s.batch) (hp : t.pending = s.pending)
  (hr : t.reads = s.reads) (hv : t.ver = s.ver) (hm : t.mapped = s.mapped) (hf : t.toFix = s.toFix) (hN : t.N = 0)
  (he : ∀ n, s.dirty n = true → t.toSend n = true) : Covered prm t := by
  have hd : prm.p2mSize ≤ s.N :=
    hh.scanned (by rcases hc with h | h <;> simp [h]) (by rcases hc with h | h <;> simp [h])
  have ho : ∀ n, n < prm.p2mSize → s.owed n → t.owed n := by
    intro n hn h
    rcases h with h | h | ⟨_,h⟩
    · exact .inr (.inr ⟨he n h,by omega⟩)
    · exact .inr (.inl (hf ▸ h))
    · omega
  refine ⟨fun n hn ha => ?_,fun n hn ha => ho n hn (hs.unmapped n hn (hm ▸ ha))⟩
  rcases hs.mapped n hn (hm ▸ ha) with h | h | h | h
  · left
    unfold State.Fresh
    rw [hr,hv]
    exact h
  · exact .inr (.inl (hp ▸ h))
  · exact .inr (.inr (.inl (hb ▸ h)))
  · exact .inr (.inr (.inr (ho n hn h)))

theorem covered_move (hh : Phase prm s) (hs : Covered prm s) (h : Move prm s t) : Covered prm t := by
  cases h with
  | write n hr hm => exact covered_write hs hm
  | map n hr hm => exact covered_map hs hm
  | read n hp => exact covered_read hs
  | visit hc hN => exact covered_visit hh hs hc
  | enqueue hc =>
    refine ⟨fun n hn hm => ?_,hs.unmapped⟩
    rcases hs.mapped n hn hm with h | h | h | h
    · exact .inl h
    · exact .inr (.inl (mem_append_left _ h))
    · exact .inr (.inl (mem_append_right _ h))
    · exact .inr (.inr (.inr h))
  | resend hc hl hd => exact covered_restart hh hs (.inl hc) rfl rfl rfl rfl rfl rfl rfl fun _ _ => rfl
  | clean hc => exact covered_restart hh hs (.inr hc) rfl rfl rfl rfl rfl rfl rfl fun _ h => h
  | _ => exact ⟨hs.mapped,hs.unmapped⟩

def Any (_ : State) (_ : Act) : Prop := True

section

variable {prm : Params} {g : Guest} {s : State}

theorem reachable_phase (h : Reach (State.step prm) Any (init prm g) s) : Phase prm s :=
  reach_invariant (phase_init prm g)
    (fun _ _ _ _ hi _ hv => phase_move hi (step_move hv)) h

theorem reachable_covered (h : Reach (State.step prm) Any (init prm g) s) : Covered prm s :=
  reach_invariant (covered_init prm g)
    (fun _ _ _ hu hi _ hv => covered_move (reachable_phase hu) hi (step_move hv)) h

end

theorem precopy_complete {prm : Params} {g : Guest} {s : State}
  (h : Reach (State.step prm) Any (init prm g) s) (hfin : s.pc = .finished) (hread : s.pending = []) :
  ∀ n, n < prm.p2mSize → s.mapped n = true → s.Fresh n := by
  intro n hn hm
  have hp := reachable_phase h
  have hf : s.final := ⟨hp.last (.inr hfin),by simp [hfin],by simp [hfin]⟩
  have hN : prm.p2mSize ≤ s.N := hp.scanned (by simp [hfin]) (by simp [hfin])
  rcases (reachable_covered h).mapped n hn hm with h | h | h | h | h | ⟨_,h⟩
  · exact h
  · simp [hread] at h
  · simp [hp.batch (by simp [hfin])] at h
  · simp [hp.quiet hf n] at h
  · simp [hp.fixed hf n (by omega) hm] at h
  · omega

def pvPair : Params := ⟨2,0,0,true,false⟩

def idleGuest : Guest := ⟨fun _ => false,fun n => decide (n = 0),fun _ => false⟩

def redirty : List Act :=
  [.save false,.save false,.write 0,.save false,.save false,.read 0,.map 1,.save false,.save false,
    .write 0,.save false,.save false,.save false,.save false,.save false,.save false,.read 1,
    .read 0,.save false,.save false]

theorem two_pages_complete : ∃ s, Reach (State.step pvPair) Any (init pvPair idleGuest) s ∧
    s.pc = .finished ∧ s.pending = [] ∧ s.ver 0 = 2 ∧ s.mapped 1 = true ∧ ∀ n, n < 2 → s.mapped n = true →
    s.Fresh n := by
  have hu : ((runIf (State.step pvPair) (fun _ _ => true) (init pvPair idleGuest)
      redirty).map fun s => (s.pc,s.pending,s.ver 0,s.mapped 1)) =
      some (.finished,[],2,true) := by decide
  obtain ⟨s,hr,ho⟩ := reach_observed (fun _ _ _ => trivial) hu
  simp only [Prod.mk.injEq] at ho
  obtain ⟨hc,hp,hv,hm⟩ := ho
  exact ⟨s,hr,hc,hp,hv,hm,precopy_complete hr hc hp⟩

end Precopy
