import PMigrate.Hypervisor.EptWorkList

namespace Ept

open Finset Transition

def Slave.uncounted : Slave → Bool
  | .readConsume | .readCurrent _ | .enter _ _ | .mark => true
  | _ => false

namespace Walk

-- a launched helper goes on after the master has freed `slave_data` and `migration_sync`
def act (C : Change) (self : Nat) (s : Walk) : Action → Option Walk
  | .master => s.masterStep C
  | .begin cpu =>
    match s.slave (some cpu) with
    | .off =>
      if cpu ∈ s.sent then some ({s with sent := s.sent.erase cpu}.setSlave (some cpu) .readConsume)
      else none
    | _ => none
  | .slave t => s.slaveStep C self t

def Quiescent (s : Walk) : Prop := s.sent = ∅ ∧ ∀ t, (s.slave t).uncounted = false

def Prompt (s : Walk) (a : Action) : Prop :=
  match s.master,a with
  | .waiting,.master => s.slaveCnt = 0 → s.Quiescent
  | _,_ => True

variable {C : Change} {self : Nat} {s s' : Walk} {a : Action}

theorem act_eq_step (hr : s.master ≠ .stopped) : s.act C self a = s.step C self a := by
  unfold step
  split
  · contradiction
  · cases a <;> rfl

theorem act_idle (hs : s.master = .stopped) (he : s.sent = ∅) (ho : ∀ t, s.slave t = .off) : s.act C self a = none := by
  cases a with
  | master => simp only [act,masterStep,hs]
  | begin cpu => simp [act,ho,he]
  | slave t => simp only [act,slaveStep,ho]

theorem advance_running (s : Walk) (page : Path) (i : Nat) : (s.advance page i).master ≠ .stopped := by
  unfold advance
  split
  · nofun
  · split <;> nofun

theorem masterStep_stops (hs : s.masterStep C = some s') (ht : s'.master = .stopped) :
  s.master = .waiting ∧ s.slaveCnt = 0 ∧ s' = {s with master := .stopped} := by
  unfold masterStep at hs
  split at hs
  case h_12 hm =>
    split at hs
    · rename_i hz
      cases hs
      exact ⟨hm,hz,rfl⟩
    · cases hs
      exact absurd (hm.symm.trans ht) nofun
  case h_13 => cases hs
  all_goals
    repeat' split at hs
    all_goals first
      | (cases hs; first | exact absurd ht (advance_running _ _ _) | cases ht)
      | cases hs

theorem act_stops (hs : s.act C self a = some s') (hr : s.master ≠ .stopped) (ht : s'.master = .stopped) :
  a = .master ∧ s.master = .waiting ∧ s.slaveCnt = 0 ∧ s' = {s with master := .stopped} := by
  cases a with
  | master => exact ⟨rfl,masterStep_stops hs ht⟩
  | begin cpu =>
    simp only [act] at hs
    split at hs
    · split at hs <;> cases hs
      exact absurd ht hr
    · cases hs
  | slave t => exact absurd ((slaveStep_frame hs).1.symm.trans ht) hr

end Walk

theorem Slave.eq_off {x : Slave} (ho : x.inside = 0) (hc : x.uncounted = false) : x = .off := by
  cases x <;> first | rfl | (cases hc; done) | cases ho

theorem Setup.Inv.quiescent {P : Setup} {D : Multiset Path} {s : Walk} (h : P.Inv D s) (hz : s.slaveCnt = 0)
  (hq : s.Quiescent) (t : Option Nat) : s.slave t = .off := by
  by_cases ht : t ∈ P.threads
  · exact Slave.eq_off (sum_eq_zero_iff.mp (h.core.count.symm.trans hz) t ht) (hq.2 t)
  · exact h.core.away t ht

theorem prompt_run {C : Change} {cpus : Finset Nat} {self : Nat} {E0 : Tree} {list : Nat → SyncEntry} {s : Walk}
  (hr : Reach (Walk.act C self) Walk.Prompt (Walk.start cpus E0 list) s) :
  Walk.Runs C self (Walk.start cpus E0 list) s ∧ (s.master = .stopped → s.sent = ∅ ∧ ∀ t, s.slave t = .off) := by
  induction hr with
  | refl => exact ⟨.refl,nofun⟩
  | @tail u v _ hu ih =>
    obtain ⟨a,hp,hv⟩ := hu
    by_cases ha : u.master = .stopped
    · rw [Walk.act_idle ha (ih.2 ha).1 (ih.2 ha).2] at hv
      cases hv
    refine ⟨ih.1.tail ⟨a,trivial,Walk.act_eq_step ha ▸ hv⟩,fun hs => ?_⟩
    obtain ⟨rfl,hw,hz,rfl⟩ := Walk.act_stops hv ha hs
    obtain ⟨D,hi⟩ := Setup.reach_inv (P := ⟨C,E0,cpus,self⟩) ih.1
    have hq : u.Quiescent := by
      simp only [Walk.Prompt,hw] at hp
      exact hp hz
    exact ⟨hq.1,hi.quiescent hz hq⟩

def twoTables : Tree := fun q =>
  match q with
  | [0] | [0,0] | [1,0] => {Entry.zero with r := true,w := true,x := true}
  | [i,0,0] | [i,1,0] => if i%64 = 0 then {Entry.zero with r := true,sp := true} else Entry.zero
  | _ => Entry.zero

def outlived (s : Walk) : Bool := (s.master matches .stopped) && (s.slave (some 1) matches .readConsume)

end Ept
