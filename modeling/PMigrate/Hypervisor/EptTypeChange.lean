import PMigrate.Core.Transition
import PMigrate.Hypervisor.EptLeaves

namespace Ept

open Finset Transition

inductive Visit where
  | test
  | kind
  | load
  | store (e : Entry)

inductive Progress where
  | stay (v : Visit)
  | down
  | over (E : Tree)

def Visit.step (C : Change) (bottom : Bool) (E : Tree) (q : Path) : Visit → Progress
  | .test => if (E q).present then .stay (if bottom then .load else .kind) else .over E
  | .kind => if (E q).sp then .stay .load else .down
  | .load => if (E q).saP2mt ≠ C.ot then .over E else .stay (.store (E q))
  | .store e => .over (E.write q (C.newEntry e))

structure SyncEntry where
  page : Path
  (start len : Nat)

def batchL1Length : Nat := 128*1024*1024/(pagetableEntries*4*1024)

def slaveTriggerThreshold : Nat := 16

def batchLength (i : Nat) : Nat :=
  if i+batchL1Length < pagetableEntries then batchL1Length else pagetableEntries-i

inductive Slave where
  | off
  | readConsume
  | readCurrent (consume : Nat)
  | enter (consume current : Nat)
  | loop (consume current : Nat)
  | claim (consume : Nat)
  | fetch (k : Nat)
  | entry (w : SyncEntry) (i : Nat) (v : Visit)
  | child (w : SyncEntry) (i j : Nat) (v : Visit)
  | rereadConsume
  | rereadCurrent (consume : Nat)
  | leave
  | mark

inductive Master where
  | visit (page : Path) (i : Nat) (v : Visit)
  | readSize (page : Path) (i : Nat)
  | write (page : Path) (i index : Nat)
  | publish (page : Path) (i : Nat)
  | returned (page : Path) (i : Nat)
  | triggerConsume (page : Path) (i : Nat)
  | triggerCurrent (page : Path) (i consume : Nat)
  | triggerTarget (page : Path) (i : Nat)
  | triggerClear (page : Path) (i : Nat) (target : Finset Nat)
  | triggerSend (page : Path) (i : Nat) (target : Finset Nat)
  | acting
  | waiting
  | stopped

structure Walk where
  ept : Tree
  (consumeSize currentSize : Nat)
  entryList : Nat → SyncEntry
  slaveCnt : Nat
  (slaveCpumask sent : Finset Nat)
  master : Master
  slave : Option Nat → Slave

inductive Action where
  | master
  | begin (cpu : Nat)
  | slave (thread : Option Nat)

namespace Slave

def entryAt (w : SyncEntry) (i : Nat) : Slave :=
  if i < w.start+w.len then .entry w i .test else .rereadConsume

def childAt (w : SyncEntry) (i j : Nat) : Slave :=
  if j < pagetableEntries then .child w i j .test else entryAt w (i+1)

end Slave

namespace Walk

def setSlave (s : Walk) (t : Option Nat) (x : Slave) : Walk := {s with slave := fun u => if u = t then x else s.slave u}

def advance (s : Walk) (page : Path) (i : Nat) : Walk :=
  if i < pagetableEntries then {s with master := .visit page i .test}
  else
    match page with
    | [] => {s with master := .acting}.setSlave none .readConsume
    | j :: parent => {s with master := .returned parent j}

def masterStep (C : Change) (s : Walk) : Option Walk :=
  match s.master with
  | .visit page i v =>
    if page.length+1 < walkLength then
      match v.step C false s.ept (i :: page) with
      | .stay v => some {s with master := .visit page i v}
      | .down => some (s.advance (i :: page) 0)
      | .over E => some ({s with ept := E}.advance page (i+1))
    else if (s.ept (i :: page)).present then some {s with master := .readSize page i}
    else some (s.advance page (i+1))
  | .readSize page i => some {s with master := .write page i s.currentSize}
  | .write page i index =>
    some {s with
      entryList := fun k => if k = index then ⟨page,i,batchLength i⟩ else s.entryList k
      master := .publish page i}
  | .publish page i => some ({s with currentSize := s.currentSize+1}.advance page (i+batchLength i))
  | .returned page i =>
    if s.slaveCpumask = ∅ then some (s.advance page (i+1))
    else some {s with master := .triggerConsume page i}
  | .triggerConsume page i => some {s with master := .triggerCurrent page i s.consumeSize}
  | .triggerCurrent page i consume =>
    if slaveTriggerThreshold ≤ s.currentSize-consume then
      some {s with master := .triggerTarget page i}
    else some (s.advance page (i+1))
  | .triggerTarget page i => some {s with master := .triggerClear page i s.slaveCpumask}
  | .triggerClear page i target => some {s with slaveCpumask := ∅,master := .triggerSend page i target}
  | .triggerSend page i target => some ({s with sent := s.sent ∪ target}.advance page (i+1))
  | .acting =>
    match s.slave none with
    | .off => some {s with master := .waiting}
    | _ => none
  | .waiting => if s.slaveCnt = 0 then some {s with master := .stopped} else some s
  | .stopped => none

def slaveStep (C : Change) (self : Nat) (s : Walk) (t : Option Nat) : Option Walk :=
  match s.slave t with
  | .off => none
  | .readConsume => some (s.setSlave t (.readCurrent s.consumeSize))
  | .readCurrent consume => some (s.setSlave t (.enter consume s.currentSize))
  | .enter consume current => some ({s with slaveCnt := s.slaveCnt+1}.setSlave t (.loop consume current))
  | .loop consume current => some (s.setSlave t (if consume < current then .claim consume else .leave))
  | .claim consume =>
    if s.consumeSize = consume then
      some ({s with consumeSize := consume+1}.setSlave t (.fetch consume))
    else some (s.setSlave t .rereadConsume)
  | .fetch k => some (s.setSlave t (.entryAt (s.entryList k) (s.entryList k).start))
  | .entry w i v =>
    match v.step C false s.ept (i :: w.page) with
    | .stay v => some (s.setSlave t (.entry w i v))
    | .down => some (s.setSlave t (.childAt w i 0))
    | .over E => some ({s with ept := E}.setSlave t (.entryAt w (i+1)))
  | .child w i j v =>
    match v.step C true s.ept (j :: i :: w.page) with
    | .stay v => some (s.setSlave t (.child w i j v))
    | .down => none
    | .over E => some ({s with ept := E}.setSlave t (.childAt w i (j+1)))
  | .rereadConsume => some (s.setSlave t (.rereadCurrent s.consumeSize))
  | .rereadCurrent consume => some (s.setSlave t (.loop consume s.currentSize))
  | .leave => some ({s with slaveCnt := s.slaveCnt-1}.setSlave t .mark)
  | .mark => some ({s with slaveCpumask := insert (t.getD self) s.slaveCpumask}.setSlave t .off)

def step (C : Change) (self : Nat) (s : Walk) (a : Action) : Option Walk :=
  match s.master with
  | .stopped => none
  | _ =>
    match a with
    | .master => s.masterStep C
    | .begin cpu =>
      match s.slave (some cpu) with
      | .off =>
        if cpu ∈ s.sent then some ({s with sent := s.sent.erase cpu}.setSlave (some cpu) .readConsume)
        else none
      | _ => none
    | .slave t => s.slaveStep C self t

def start (cpus : Finset Nat) (E : Tree) (list : Nat → SyncEntry) : Walk where
  ept := E
  consumeSize := 0
  currentSize := 0
  entryList := list
  slaveCnt := 0
  slaveCpumask := cpus
  sent := ∅
  master := .visit [] 0 .test
  slave := fun _ => .off

end Walk

def Visit.Knows (C : Change) (E : Tree) (bottom : Bool) (q : Path) : Visit → Prop
  | .test => True
  | .kind => bottom = false ∧ (E q).present = true
  | .load => (E q).present = true ∧ (bottom = true ∨ (E q).sp = true)
  | .store e => (E q).present = true ∧ (bottom = true ∨ (E q).sp = true) ∧ e = E q ∧ (E q).saP2mt = C.ot

def Progress.Sound (C : Change) (E0 : Tree) (D : Multiset Path) (k : Nat) (bottom : Bool) (q : Path) : Progress → Prop
  | .stay v => v.Knows C E0 bottom q
  | .down => bottom = false ∧ (E0 q).present = true ∧ (E0 q).sp = false
  | .over E => C.Changed E0 (D+entryLeaves E0 k q) E

theorem Visit.step_sound {C : Change} {E0 E : Tree} {D R : Multiset Path} {k i : Nat} {p : Path}
  (h : C.Changed E0 D E) (hk : k+p.length = walkLength) (ho : D+(entryLeaves E0 k (i :: p)+R) ≤ treeLeaves E0)
  {bottom : Bool}
  (hb : bottom = true → k = 0) {v : Visit} (hv : v.Knows C E0 bottom (i :: p)) :
  (v.step C bottom E (i :: p)).Sound C E0 D k bottom (i :: p) := by
  have hr := h.read hk ho
  have hl (hp : (E0 (i :: p)).present = true)
      (he : bottom = true ∨ (E0 (i :: p)).sp = true) : entryLeaves E0 k (i :: p) = {i :: p} := by
    rcases he with he | ha
    · rw [hb he]
      exact entryLeaves_bottom hp
    · exact entryLeaves_super k hp ha
  cases v with
  | test =>
    rw [Visit.step,hr]
    split
    · rename_i hp
      cases bottom with
      | true => exact ⟨hp,.inl rfl⟩
      | false => exact ⟨rfl,hp⟩
    · rename_i hp
      exact h.absent (by simpa using hp)
  | kind =>
    rw [Visit.step,hr]
    split_ifs with ha
    · exact ⟨hv.2,.inr ha⟩
    · exact ⟨hv.1,hv.2,by simpa using ha⟩
  | load =>
    have hs : (E (i :: p)).saP2mt ≠ C.ot → C.changeEntry E (i :: p) = E := fun hn => if_pos hn
    have hd := h.leaf (hl hv.1 hv.2) ho
    rw [Visit.step]
    split
    · rename_i hn
      rw [hs hn] at hd
      exact hd
    rename_i hq
    rw [hr] at hq ⊢
    exact ⟨hv.1,hv.2,rfl,not_not.mp hq⟩
  | store e =>
    obtain ⟨hp,he,rfl,hq⟩ := hv
    have hd := h.leaf (hl hp he) ho
    rw [Change.changeEntry,hr,if_neg (not_not.mpr hq)] at hd
    exact hd

end Ept
