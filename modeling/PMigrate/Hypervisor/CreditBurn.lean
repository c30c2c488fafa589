import PMigrate.Core.Transition

namespace CreditBurn

open Transition

def creditsPerMsec : Int := 10
def msec : Int := 1000000
def creditTime : Int := msec/creditsPerMsec

structure Svc where
  (startTime credit : Int)

def burnCredits (svc : Svc) (now : Int) : Svc :=
  let delta := now-svc.startTime
  if delta ≤ 0 then svc
  else
    let credits := ((delta*creditsPerMsec+msec/2)/msec)%2^32
    ⟨svc.startTime+credits*msec/creditsPerMsec,(svc.credit-credits).bmod (2^32)⟩

-- a vcpu beside what it really ran and what burn_credits took from it
structure State where
  svc : Svc
  running : Bool
  (clock ran burnt : Int)

def initial : State := ⟨⟨0,0⟩,false,0,0,0⟩

def State.burn (s : State) (now : Int) : State where
  svc := burnCredits s.svc now
  running := s.running
  clock := now
  ran := s.ran+(now-s.clock)
  burnt := s.burnt+(s.svc.credit-(burnCredits s.svc now).credit)%2^32

inductive Event where
  | tick (now : Int)
  | schedOut (now : Int)
  | schedIn (now : Int)
  | account (credit : Int)

def step (s : State) : Event → Option State
  | .tick now => some (s.burn now)
  | .schedOut now =>
    let t := s.burn now
    some {t with svc := {t.svc with startTime := t.svc.startTime-now},running := false}
  | .schedIn now =>
    some {s with svc := {s.svc with startTime := s.svc.startTime+now},running := true,clock := now}
  | .account credit => some {s with svc := {s.svc with credit := credit}}

-- time does not go back, and fewer than 2^31 credits are run between two calls
def Timely (s : State) : Event → Prop
  | .tick now | .schedOut now => s.running = true ∧ s.clock ≤ now ∧ now-s.clock < 2^31*creditTime
  | .schedIn now => s.running = false ∧ s.clock ≤ now
  | .account _ => True

instance (s : State) (e : Event) : Decidable (Timely s e) := by
  cases e <;> (unfold Timely; infer_instance)

def State.residue (s : State) : Int := s.ran-s.burnt*creditTime

def WithinHalf (x : Int) : Prop := -creditTime ≤ 2*x ∧ 2*x ≤ creditTime

-- start_time holds the residue: relative to the last event while running, to zero otherwise
structure Inv (s : State) : Prop where
  start : (if s.running then s.clock else 0)-s.svc.startTime = s.residue
  small : WithinHalf s.residue

theorem burnCredits_spec (svc : Svc) (now : Int) (hl : -creditTime ≤ 2*(now-svc.startTime))
  (hu : now-svc.startTime < 2^31*creditTime+creditTime) : ∃ n, (svc.credit-(burnCredits svc now).credit)%2^32 = n ∧
    (burnCredits svc now).startTime = svc.startTime+n*creditTime ∧ WithinHalf (now-svc.startTime-n*creditTime) := by
  simp only [burnCredits,WithinHalf,creditTime,msec,creditsPerMsec] at hl hu ⊢
  split
  · exact ⟨0,by simp,by simp,by omega⟩
  · generalize hn : ((now-svc.startTime)*10+1000000/2)/1000000 = n
    have hn2 : n%2^32 = n := by omega
    refine ⟨n,?_,?_,by omega⟩
    · have hb : (svc.credit-n).bmod (2^32)%2^32 = (svc.credit-n)%2^32 := Int.bmod_emod
      simp only [hn2]
      omega
    · simp only [hn2]
      omega

variable {s : State} {now : Int}

theorem Inv.burn (h : Inv s) (hr : s.running = true) (hc : s.clock ≤ now) (hn : now-s.clock < 2^31*creditTime) :
  now-(s.burn now).svc.startTime = (s.burn now).residue ∧ WithinHalf (s.burn now).residue := by
  have hs := h.start
  obtain ⟨hl,hu⟩ := h.small
  rw [if_pos hr] at hs
  have hd : now-s.svc.startTime = now-s.clock+s.residue := by omega
  have hp : creditTime = 100000 := rfl
  obtain ⟨n,he,ht,hm⟩ := burnCredits_spec s.svc now (by omega) (by omega)
  have hq : (s.burn now).residue = now-s.svc.startTime-n*creditTime := by
    simp only [State.residue,State.burn,he] at hd ⊢
    rw [Int.add_mul]
    omega
  refine ⟨?_,hq ▸ hm⟩
  rw [hq]
  simp only [State.burn,ht]
  omega

theorem Inv.step {t : State} {e : Event} (h : Inv s) (ht : Timely s e) (he : step s e = some t) : Inv t := by
  cases e with
  | tick now =>
    obtain ⟨hr,hc,hn⟩ := ht
    cases he
    obtain ⟨hs,hm⟩ := h.burn hr hc hn
    exact ⟨by simpa [State.burn,hr] using hs,hm⟩
  | schedOut now =>
    obtain ⟨hr,hc,hn⟩ := ht
    cases he
    obtain ⟨hs,hm⟩ := h.burn hr hc hn
    refine ⟨?_,hm⟩
    simp only [State.residue] at hs ⊢
    simp only [Bool.false_eq_true,if_false]
    omega
  | schedIn now =>
    obtain ⟨hr,-⟩ := ht
    cases he
    have hs := h.start
    refine ⟨?_,h.small⟩
    simp only [hr,Bool.false_eq_true,if_false,State.residue] at hs ⊢
    simp only [if_true]
    omega
  | account credit =>
    cases he
    exact ⟨h.start,h.small⟩

theorem initial_inv : Inv initial := ⟨by decide,by decide,by decide⟩

theorem credit_burning_does_not_drift (h : Reach step Timely initial s)
  (hr : s.running = true) (hc : s.clock ≤ now) (hn : now-s.clock < 2^31*creditTime) :
  WithinHalf ((s.burn now).burnt*creditTime-(s.burn now).ran) := by
  have hi : Inv s := reach_invariant initial_inv (fun _ _ _ _ hu ha hs => hu.step ha hs) h
  obtain ⟨hl,hu⟩ := (hi.burn hr hc hn).2
  simp only [State.residue] at hl hu
  exact ⟨by omega,by omega⟩

-- 70000 ns cost a whole credit, the next 60000 ns none
def slices : List Event := [.schedIn 1000,.tick 71000,.schedOut 131000,.account 300,.schedIn 200000]

def sliced : State := ⟨⟨170000,300⟩,true,200000,130000,1⟩

theorem sliced_reached : Reach step Timely initial sliced :=
  reach_of_runIf (fun _ _ ha => of_decide_eq_true ha)
    (show runIf step (fun s e => decide (Timely s e)) initial slices = some sliced from rfl)

theorem credit_burning_after_slices : WithinHalf ((sliced.burn 250000).burnt*creditTime-(sliced.burn 250000).ran) :=
  credit_burning_does_not_drift sliced_reached rfl (by decide) (by decide)

end CreditBurn
