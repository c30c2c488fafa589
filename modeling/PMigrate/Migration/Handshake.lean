import PMigrate.Core.Transition

namespace Handshake

open List Transition Option

def bytes (s : String) : List UInt8 := s.toList.map fun c => c.toNat.toUInt8

def migrateReceiverBanner : List UInt8 := bytes "xl migration receiver ready, send binary domain data.\n"

def migrateReceiverReady : List UInt8 := bytes "domain received, ready to unpause" ++ [0]

def migratePermissionToGo : List UInt8 := bytes "domain is yours, you are cleared to unpause" ++ [0]

def migrateReport : List UInt8 := bytes "my copy unpause results are as follows" ++ [0]

def errorFail : Int := -3

def rcBuf (rc : Int) : UInt8 := (-rc%256).toNat.toUInt8

inductive Dom where
  | absent
  | running
  | suspended
  | paused
  | destroyed
deriving DecidableEq

inductive Cell where
  | image
  | byte (b : UInt8)
deriving DecidableEq

def go : List Cell := migratePermissionToGo.map .byte

inductive SenderPc where
  | banner
  | config
  | suspend
  | ready
  | rename
  | writeGo
  | report
  | status
  | goBack
  | resume
  | destroy
  | failedSuspend
  | failedResume
  | failedBadly
  | exited
deriving DecidableEq

inductive ReceiverPc where
  | banner
  | create
  | ready
  | readGo
  | rename
  | unpause
  | report (rc : Int)
  | status (rc : Int)
  | destroy (rc : Int)
  | goBack (rc : Int)
  | exited
deriving DecidableEq

structure Sender where
  domain : Dom
  out : List Cell
  heard : Nat
  pc : SenderPc
deriving DecidableEq

structure Receiver where
  domain : Dom
  out : List UInt8
  heard : Nat
  pc : ReceiverPc
deriving DecidableEq

structure State where
  sender : Sender
  receiver : Receiver
deriving DecidableEq

inductive Result where
  | ok
  | fail (k : Nat)
  | error (rc : Int)
  | halfway
deriving DecidableEq

inductive Act where
  | sender (r : Result)
  | suspendFails (timedOut imaged halted : Bool)
  | receiver (r : Result)
  | senderDies
  | receiverDies
deriving DecidableEq

def init : State := ⟨⟨.running,[],0,.banner⟩,⟨.absent,[],0,.banner⟩⟩

def readFixed {α : Type} [DecidableEq α] (xs : List α) (pos : Nat) (msg : List α) : Option Bool :=
  if pos+msg.length ≤ xs.length then some (decide ((xs.drop pos).take msg.length = msg)) else none

namespace Sender

def hear (s : Sender) (inp msg : List UInt8) (good bad : SenderPc) : Option Sender :=
  (readFixed inp s.heard msg).map fun same =>
    {s with heard := s.heard+msg.length,pc := if same then good else bad}

def status (s : Sender) (inp : List UInt8) : Option Sender :=
  match inp.drop s.heard with
  | [] => none
  | b :: _ => some {s with heard := s.heard+1,pc := if b = 0 then .destroy else .goBack}

def step (s : Sender) (inp : List UInt8) (r : Result) : Option Sender :=
  match s.pc,r with
  | .banner,.ok => s.hear inp migrateReceiverBanner .config .exited
  | .banner,.fail _ => some {s with pc := .exited}
  | .config,.ok => some {s with pc := .suspend}
  | .config,.fail _ => some {s with pc := .exited}
  | .suspend,.ok => some {s with domain := .suspended,out := s.out ++ [Cell.image],pc := .ready}
  | .ready,.ok => s.hear inp migrateReceiverReady .rename .failedResume
  | .ready,.fail _ => some {s with pc := .failedResume}
  | .rename,.ok => some {s with pc := .writeGo}
  | .rename,.error _ => some {s with pc := .failedResume}
  | .writeGo,.ok => some {s with out := s.out ++ go,pc := .report}
  | .writeGo,.fail k => some {s with out := s.out ++ go.take k,pc := .failedBadly}
  | .report,.ok => s.hear inp migrateReport .status .failedBadly
  | .report,.fail _ => some {s with pc := .failedBadly}
  | .status,.ok => s.status inp
  | .status,.fail _ => some {s with pc := .failedBadly}
  | .goBack,.ok => s.hear inp migratePermissionToGo .resume .failedBadly
  | .goBack,.fail _ => some {s with pc := .failedBadly}
  | .resume,.ok => some {s with domain := .running,pc := .exited}
  | .resume,.error _ => some {s with pc := .exited}
  | .destroy,.ok => some {s with domain := .destroyed,pc := .exited}
  | .destroy,.error _ => some {s with pc := .exited}
  | .destroy,.halfway => some {s with domain := .destroyed,pc := .exited}
  | .failedSuspend,.ok => some {s with pc := .exited}
  | .failedResume,.ok => some {s with domain := .running,pc := .exited}
  | .failedResume,.error _ => some {s with pc := .exited}
  | .failedBadly,.ok => some {s with pc := .exited}
  | _,_ => none

def suspendFails (s : Sender) (timedOut imaged halted : Bool) : Option Sender :=
  if s.pc = .suspend then
    some {s with domain := if halted then .suspended else .running,out := s.out ++ if imaged then [Cell.image] else [],
                  pc := if timedOut then .failedSuspend else .failedResume}
  else none

end Sender

namespace Receiver

section
variable (s : Receiver)

def tell (msg : List UInt8) (next : ReceiverPc) : Receiver := {s with out := s.out ++ msg,pc := next}

def create (inp : List Cell) : Option Receiver :=
  match inp.drop s.heard with
  | .image :: _ => some {s with heard := s.heard+1,domain := .paused,pc := .ready}
  | _ => none

def readGo (inp : List Cell) : Option Receiver := (readFixed inp s.heard go).map fun same =>
    {s with heard := s.heard+go.length,pc := if same then .rename else .report errorFail}

def refuse (rc : Int) : Option Receiver := if rc = 0 then none else some {s with pc := .report rc}

def status (rc : Int) : Receiver :=
  if rc = 0 then s.tell [rcBuf rc] .exited
  else if rcBuf rc = 0 then {s with pc := .exited}
  else s.tell [rcBuf rc] (.destroy rc)

def step (inp : List Cell) (r : Result) : Option Receiver :=
  match s.pc,r with
  | .banner,.ok => some (s.tell migrateReceiverBanner .create)
  | .banner,.fail k => some (s.tell (migrateReceiverBanner.take k) .exited)
  | .create,.ok => s.create inp
  | .create,.error _ => some {s with pc := .exited}
  | .create,.fail _ => some {s with domain := .destroyed,pc := .exited}
  | .create,.halfway => some {s with domain := .paused,pc := .exited}
  | .ready,.ok => some (s.tell migrateReceiverReady .readGo)
  | .ready,.fail k => some (s.tell (migrateReceiverReady.take k) .exited)
  | .readGo,.ok => s.readGo inp
  | .readGo,.fail _ => some {s with pc := .report errorFail}
  | .rename,.ok => some {s with pc := .unpause}
  | .rename,.error rc => s.refuse rc
  | .unpause,.ok => some {s with domain := .running,pc := .report 0}
  | .unpause,.error rc => s.refuse rc
  | .report rc,.ok => some (s.tell migrateReport (.status rc))
  | .report _,.fail k => some (s.tell (migrateReport.take k) .exited)
  | .status rc,.ok => some (s.status rc)
  | .status _,.fail _ => some {s with pc := .exited}
  | .destroy rc,.ok => some {s with domain := .destroyed,pc := .goBack rc}
  | .destroy _,.error _ => some {s with pc := .exited}
  | .destroy _,.halfway => some {s with domain := .destroyed,pc := .exited}
  | .goBack _,.ok => some (s.tell migratePermissionToGo .exited)
  | .goBack _,.fail k => some (s.tell (migratePermissionToGo.take k) .exited)
  | _,_ => none

end

end Receiver

def State.step (s : State) : Act → Option State
  | .sender r => (s.sender.step s.receiver.out r).map fun t => {s with sender := t}
  | .suspendFails timedOut imaged halted =>
    (s.sender.suspendFails timedOut imaged halted).map fun t => {s with sender := t}
  | .receiver r => (s.receiver.step s.sender.out r).map fun t => {s with receiver := t}
  | .senderDies => some {s with sender := {s.sender with pc := .exited}}
  | .receiverDies => some {s with receiver := {s.receiver with pc := .exited}}

def greeting : List UInt8 := migrateReceiverBanner ++ migrateReceiverReady

def base : List UInt8 := greeting ++ migrateReport

def GoWritten (out : List Cell) : Prop := .image :: go <+: out

def Started (out : List UInt8) : Prop := base ++ [0] <+: out

def Refused (out : List UInt8) : Prop := ∃ b, b ≠ 0 ∧ base ++ b :: migratePermissionToGo <+: out

inductive Closed (s : Receiver) (inp : List Cell) : Prop
  | early (ho : s.out <+: base) (hd : s.domain = .running → GoWritten inp)
  | started (ho : s.out = base ++ [0]) (hd : s.domain = .running) (hg : GoWritten inp)
  | refused (b : UInt8) (w : List UInt8) (hb : b ≠ 0) (ho : s.out = base ++ b :: w)
      (hd : s.domain ≠ .running) (hw : w ≠ [] → s.domain = .destroyed)

def Decided (s : Receiver) (inp : List Cell) (rc : Int) : Prop :=
  (rc = 0 ∧ s.domain = .running ∧ GoWritten inp) ∨ (rc ≠ 0 ∧ s.domain = .paused)

inductive Receiving (s : Receiver) (inp : List Cell) : ReceiverPc → Prop
  | banner (ho : s.out = []) (hd : s.domain = .absent) (hn : s.heard = 0) : Receiving s inp .banner
  | create (ho : s.out = migrateReceiverBanner) (hd : s.domain = .absent) (hn : s.heard = 0) : Receiving s inp .create
  | ready (ho : s.out = migrateReceiverBanner) (hd : s.domain = .paused) (hn : s.heard = 1)
      (hi : [.image] <+: inp) : Receiving s inp .ready
  | readGo (ho : s.out = greeting) (hd : s.domain = .paused) (hn : s.heard = 1)
      (hi : [.image] <+: inp) : Receiving s inp .readGo
  | rename (ho : s.out = greeting) (hd : s.domain = .paused) (hg : GoWritten inp) : Receiving s inp .rename
  | unpause (ho : s.out = greeting) (hd : s.domain = .paused) (hg : GoWritten inp) : Receiving s inp .unpause
  | report (rc : Int) (ho : s.out = greeting) (hd : Decided s inp rc) : Receiving s inp (.report rc)
  | status (rc : Int) (ho : s.out = base) (hd : Decided s inp rc) : Receiving s inp (.status rc)
  | destroy (rc : Int) (ho : s.out = base ++ [rcBuf rc]) (hb : rcBuf rc ≠ 0)
      (hd : s.domain = .paused) : Receiving s inp (.destroy rc)
  | goBack (rc : Int) (ho : s.out = base ++ [rcBuf rc]) (hb : rcBuf rc ≠ 0)
      (hd : s.domain = .destroyed) : Receiving s inp (.goBack rc)
  | exited (hc : Closed s inp) : Receiving s inp .exited

theorem greeting_prefix : greeting <+: base := prefix_append _ _

theorem banner_steps : migrateReceiverBanner <+: base := (prefix_append _ _).trans greeting_prefix

section

variable {s t : Receiver} {inp : List Cell} {rc : Int}

theorem Decided.goWritten (h : Decided s inp rc) (hd : s.domain = .running) : GoWritten inp := by
  rcases h with ⟨_,_,hg⟩ | ⟨_,hp⟩
  · exact hg
  · simp [hd] at hp

variable {inp' : List Cell} {pc : ReceiverPc}

theorem Receiving.closed (h : Receiving s inp pc) : Closed s inp := by
  cases h with
  | banner ho hd => exact .early (by simp [ho]) (by simp [hd])
  | create ho hd | ready ho hd => exact .early (ho ▸ banner_steps) (by simp [hd])
  | readGo ho hd | rename ho hd | unpause ho hd => exact .early (ho ▸ greeting_prefix) (by simp [hd])
  | report rc ho hd => exact .early (ho ▸ greeting_prefix) hd.goWritten
  | status rc ho hd => exact .early (ho ▸ prefix_rfl) hd.goWritten
  | destroy rc ho hb hd | goBack rc ho hb hd => exact .refused _ [] hb ho (by simp [hd]) (by simp)
  | exited hc => exact hc

theorem Closed.leave (h : Closed s inp) : Closed {s with pc := .exited} inp := by
  cases h with
  | early ho hd => exact .early ho hd
  | started ho hd hg => exact .started ho hd hg
  | refused b w hb ho hd hw => exact .refused b w hb ho hd hw

theorem Closed.mono (h : Closed s inp) (hp : inp <+: inp') : Closed s inp' := by
  cases h with
  | early ho hd => exact .early ho fun h => (hd h).trans hp
  | started ho hd hg => exact .started ho hd (hg.trans hp)
  | refused b w hb ho hd hw => exact .refused b w hb ho hd hw

theorem Receiving.mono (h : Receiving s inp pc) (hp : inp <+: inp') : Receiving s inp' pc := by
  have he {rc : Int} (h : Decided s inp rc) : Decided s inp' rc :=
    h.imp_left fun ⟨h1,h2,h3⟩ => ⟨h1,h2,h3.trans hp⟩
  cases h with
  | ready ho hd hn hi => exact .ready ho hd hn (hi.trans hp)
  | readGo ho hd hn hi => exact .readGo ho hd hn (hi.trans hp)
  | rename ho hd hg => exact .rename ho hd (hg.trans hp)
  | unpause ho hd hg => exact .unpause ho hd (hg.trans hp)
  | report rc ho hd => exact .report rc ho (he hd)
  | status rc ho hd => exact .status rc ho (he hd)
  | exited hc => exact .exited (hc.mono hp)
  | _ => constructor <;> assumption

theorem readFixed_true {α : Type} [DecidableEq α] {xs msg : List α} {pos : Nat}
  (h : readFixed xs pos msg = some true) : msg <+: xs.drop pos := by
  unfold readFixed at h
  split at h
  · have he : (xs.drop pos).take msg.length = msg := by simpa using h
    exact he ▸ take_prefix _ _
  · cases h

theorem goWritten_of_read (hi : [.image] <+: inp) (h : readFixed inp 1 go = some true) : GoWritten inp := by
  obtain ⟨v,hv⟩ := hi
  have hg := readFixed_true h
  rw [← hv] at hg
  have hg' : go <+: v := by simpa using hg
  rw [GoWritten,← hv]
  simpa using hg'

theorem early_of_take {msg target : List UInt8} {k : Nat} (hd : s.domain = .running → GoWritten inp)
  (ho : s.out ++ msg = target)
  (ht : target <+: base) : Closed (s.tell (msg.take k) .exited) inp := by
  refine .early (List.IsPrefix.trans ?_ ht) hd
  rw [← ho]
  exact (prefix_append_right_inj _).mpr (List.take_prefix _ _)

theorem rcBuf_zero : rcBuf 0 = 0 := by decide

inductive ReceiverMove (s : Receiver) (inp : List Cell) : Receiver → Prop
  | banner (hpc : s.pc = .banner) : ReceiverMove s inp (s.tell migrateReceiverBanner .create)
  | bannerCut (k : Nat) (hpc : s.pc = .banner) : ReceiverMove s inp (s.tell (migrateReceiverBanner.take k) .exited)
  | create (hpc : s.pc = .create) (hi : [.image] <+: inp.drop s.heard) :
      ReceiverMove s inp {s with heard := s.heard+1,domain := .paused,pc := .ready}
  | createFails (hpc : s.pc = .create) : ReceiverMove s inp {s with pc := .exited}
  | createDrops (d : Dom) (hpc : s.pc = .create) (hd : d ≠ .running) :
      ReceiverMove s inp {s with domain := d,pc := .exited}
  | ready (hpc : s.pc = .ready) : ReceiverMove s inp (s.tell migrateReceiverReady .readGo)
  | readyCut (k : Nat) (hpc : s.pc = .ready) : ReceiverMove s inp (s.tell (migrateReceiverReady.take k) .exited)
  | cleared (hpc : s.pc = .readGo) (hread : readFixed inp s.heard go = some true) :
      ReceiverMove s inp {s with heard := s.heard+go.length,pc := .rename}
  | notCleared (k : Nat) (hpc : s.pc = .readGo) : ReceiverMove s inp {s with heard := k,pc := .report errorFail}
  | rename (hpc : s.pc = .rename) : ReceiverMove s inp {s with pc := .unpause}
  | refuse (rc : Int) (hpc : s.pc = .rename ∨ s.pc = .unpause) (hrc : rc ≠ 0) :
      ReceiverMove s inp {s with pc := .report rc}
  | unpause (hpc : s.pc = .unpause) : ReceiverMove s inp {s with domain := .running,pc := .report 0}
  | report (rc : Int) (hpc : s.pc = .report rc) : ReceiverMove s inp (s.tell migrateReport (.status rc))
  | reportCut (rc : Int) (k : Nat) (hpc : s.pc = .report rc) :
      ReceiverMove s inp (s.tell (migrateReport.take k) .exited)
  | status (rc : Int) (hpc : s.pc = .status rc) : ReceiverMove s inp (s.status rc)
  | statusCut (rc : Int) (hpc : s.pc = .status rc) : ReceiverMove s inp {s with pc := .exited}
  | destroy (rc : Int) (hpc : s.pc = .destroy rc) : ReceiverMove s inp {s with domain := .destroyed,pc := .goBack rc}
  | destroyFails (rc : Int) (hpc : s.pc = .destroy rc) : ReceiverMove s inp {s with pc := .exited}
  | destroyStops (rc : Int) (hpc : s.pc = .destroy rc) :
      ReceiverMove s inp {s with domain := .destroyed,pc := .exited}
  | goBack (rc : Int) (w : List UInt8) (hpc : s.pc = .goBack rc) : ReceiverMove s inp (s.tell w .exited)

theorem create_move (hp : s.pc = .create) (h : s.create inp = some t) : ReceiverMove s inp t := by
  unfold Receiver.create at h
  split at h
  · rename_i rest hd
    cases h
    exact .create hp (by simp [hd])
  · cases h

theorem readGo_move (hp : s.pc = .readGo) (h : s.readGo inp = some t) : ReceiverMove s inp t := by
  obtain ⟨same,hr,hv⟩ := map_eq_some_iff.mp h
  subst hv
  cases same with
  | true => exact .cleared hp hr
  | false => exact .notCleared _ hp

theorem refuse_move (hp : s.pc = .rename ∨ s.pc = .unpause) (h : s.refuse rc = some t) : ReceiverMove s inp t := by
  unfold Receiver.refuse at h
  split at h
  · cases h
  rename_i hr
  cases h
  exact .refuse rc hp hr

theorem receiver_move {r : Result} (h : s.step inp r = some t) : ReceiverMove s inp t := by
  unfold Receiver.step at h
  split at h
  · rename_i hp; cases h; exact .banner hp
  · rename_i k hp; cases h; exact .bannerCut k hp
  · rename_i hp; exact create_move hp h
  · rename_i hp; cases h; exact .createFails hp
  · rename_i hp; cases h; exact .createDrops _ hp (by simp)
  · rename_i hp; cases h; exact .createDrops _ hp (by simp)
  · rename_i hp; cases h; exact .ready hp
  · rename_i k hp; cases h; exact .readyCut k hp
  · rename_i hp; exact readGo_move hp h
  · rename_i hp; cases h; exact .notCleared _ hp
  · rename_i hp; cases h; exact .rename hp
  · rename_i hp; exact refuse_move (.inl hp) h
  · rename_i hp; cases h; exact .unpause hp
  · rename_i hp; exact refuse_move (.inr hp) h
  · rename_i rc hp; cases h; exact .report rc hp
  · rename_i rc k hp; cases h; exact .reportCut rc k hp
  · rename_i rc hp; cases h; exact .status rc hp
  · rename_i rc k hp; cases h; exact .statusCut rc hp
  · rename_i rc hp; cases h; exact .destroy rc hp
  · rename_i rc e hp; cases h; exact .destroyFails rc hp
  · rename_i rc hp; cases h; exact .destroyStops rc hp
  · rename_i rc hp; cases h; exact .goBack rc _ hp
  · rename_i rc k hp; cases h; exact .goBack rc _ hp
  · cases h

theorem receiving_status (h : Receiving s inp (.status rc)) : Receiving (s.status rc) inp (s.status rc).pc := by
  unfold Receiver.status
  cases h with
  | status _ ho hd =>
    split
    · rename_i hc
      subst hc
      rcases hd with ⟨_,hr,hg⟩ | ⟨hn,_⟩
      · exact .exited (.started (by simp [Receiver.tell,ho,rcBuf_zero]) hr hg)
      · exact absurd rfl hn
    rename_i hc
    have hp : s.domain = .paused := by
      rcases hd with ⟨hz,_⟩ | ⟨_,hp⟩
      · exact absurd hz hc
      · exact hp
    split
    · exact .exited (.early (by simp [ho]) (by simp [hp]))
    · rename_i hbuf
      exact .destroy rc (by simp [Receiver.tell,ho]) hbuf hp

theorem receiving_step (hs : Receiving s inp s.pc) (h : ReceiverMove s inp t) : Receiving t inp t.pc := by
  have hl := hs.closed.leave
  cases h with
  | banner hp =>
    cases hp ▸ hs with
    | banner ho hd hn => exact .create (by simp [Receiver.tell,ho]) hd hn
  | bannerCut k hp =>
    cases hp ▸ hs with
    | banner ho hd hn => exact .exited (early_of_take (by simp [hd]) (by simp [ho]) banner_steps)
  | create hp hi =>
    cases hp ▸ hs with
    | create ho hd hn => exact .ready ho rfl (by simp [hn]) (by simpa [hn] using hi)
  | createFails hp | statusCut rc hp | destroyFails rc hp => exact .exited hl
  | createDrops d hp hd =>
    cases hp ▸ hs with
    | create ho _ hn => exact .exited (.early (by simp [ho,banner_steps]) fun h => absurd h hd)
  | ready hp =>
    cases hp ▸ hs with
    | ready ho hd hn hi => exact .readGo (by simp [Receiver.tell,ho,greeting]) hd hn hi
  | readyCut k hp =>
    cases hp ▸ hs with
    | ready ho hd hn hi => exact .exited (early_of_take (by simp [hd]) (by rw [ho]; rfl) greeting_prefix)
  | cleared hp hr =>
    cases hp ▸ hs with
    | readGo ho hd hn hi => exact .rename ho hd (goWritten_of_read hi (hn ▸ hr))
  | notCleared k hp =>
    cases hp ▸ hs with
    | readGo ho hd hn hi => exact .report errorFail ho (.inr ⟨by decide,hd⟩)
  | rename hp =>
    cases hp ▸ hs with
    | rename ho hd hg => exact .unpause ho hd hg
  | refuse rc hp hc =>
    rcases hp with hp | hp
    · rw [hp] at hs
      cases hs with
      | rename ho hd hg => exact .report rc ho (.inr ⟨hc,hd⟩)
    cases hp ▸ hs with
    | unpause ho hd hg => exact .report rc ho (.inr ⟨hc,hd⟩)
  | unpause hp =>
    cases hp ▸ hs with
    | unpause ho hd hg => exact .report 0 ho (.inl ⟨rfl,rfl,hg⟩)
  | report rc hp =>
    cases hp ▸ hs with
    | report _ ho hd => exact .status rc (by simp [Receiver.tell,ho,base]) hd
  | reportCut rc k hp =>
    cases hp ▸ hs with
    | report _ ho hd => exact .exited (early_of_take hd.goWritten (by rw [ho]; rfl) prefix_rfl)
  | status rc hp => exact receiving_status (hp ▸ hs)
  | destroy rc hp =>
    cases hp ▸ hs with
    | destroy _ ho hb hd => exact .goBack rc ho hb rfl
  | destroyStops rc hp =>
    cases hp ▸ hs with
    | destroy _ ho hb hd => exact .exited (.refused _ [] hb ho (by simp) (by simp))
  | goBack rc w hp =>
    cases hp ▸ hs with
    | goBack _ ho hb hd =>
      refine .exited (.refused (rcBuf rc) w hb ?_ ?_ fun _ => hd)
      · simp [Receiver.tell,ho]
      · simp [Receiver.tell,hd]

theorem tell_grows (msg : List UInt8) (next : ReceiverPc) : s.out <+: (s.tell msg next).out :=
  prefix_append _ _

theorem status_grows (rc : Int) : s.out <+: (s.status rc).out := by
  unfold Receiver.status
  split
  · exact tell_grows _ _
  split
  · exact prefix_rfl
  · exact tell_grows _ _

theorem receiver_grows (h : ReceiverMove s inp t) : s.out <+: t.out := by
  cases h with
  | banner | bannerCut | ready | readyCut | report | reportCut | goBack => exact tell_grows _ _
  | status rc => exact status_grows rc
  | _ => exact prefix_rfl

end

def Unsent (out : List Cell) : Prop := out = [] ∨ out = [.image]

structure Resting (s : Sender) (inp : List UInt8) : Prop where
  running : s.domain = .running → Unsent s.out ∨ Refused inp
  destroyed : s.domain = .destroyed → Started inp

inductive Sending (s : Sender) (inp : List UInt8) : SenderPc → Prop
  | banner (hd : s.domain = .running) (ho : s.out = []) (hn : s.heard = 0) : Sending s inp .banner
  | config (hd : s.domain = .running) (ho : s.out = [])
      (hn : s.heard = migrateReceiverBanner.length) : Sending s inp .config
  | suspend (hd : s.domain = .running) (ho : s.out = [])
      (hn : s.heard = migrateReceiverBanner.length) : Sending s inp .suspend
  | ready (hd : s.domain = .suspended) (ho : s.out = [.image])
      (hn : s.heard = migrateReceiverBanner.length) : Sending s inp .ready
  | rename (hd : s.domain = .suspended) (ho : s.out = [.image]) (hn : s.heard = greeting.length) : Sending s inp .rename
  | writeGo (hd : s.domain = .suspended) (ho : s.out = [.image])
      (hn : s.heard = greeting.length) : Sending s inp .writeGo
  | report (hd : s.domain = .suspended) (hn : s.heard = greeting.length) : Sending s inp .report
  | status (hd : s.domain = .suspended) (hn : s.heard = base.length) : Sending s inp .status
  | goBack (b : UInt8) (hd : s.domain = .suspended) (hn : s.heard = base.length+1) (hb : b ≠ 0)
      (hp : base ++ [b] <+: inp) : Sending s inp .goBack
  | resume (hd : s.domain = .suspended) (hr : Refused inp) : Sending s inp .resume
  | destroy (hd : s.domain = .suspended) (hr : Started inp) : Sending s inp .destroy
  | failedSuspend (hd : s.domain ≠ .destroyed) (ho : Unsent s.out) : Sending s inp .failedSuspend
  | failedResume (hd : s.domain ≠ .destroyed) (ho : Unsent s.out) : Sending s inp .failedResume
  | failedBadly (hd : s.domain = .suspended) : Sending s inp .failedBadly
  | exited (hr : Resting s inp) : Sending s inp .exited

section

variable {s t : Sender} {inp : List UInt8}

theorem resting_suspended (h : s.domain = .suspended) : Resting s inp :=
  ⟨fun hr => (by simp [h] at hr),fun hd => (by simp [h] at hd)⟩

theorem resting_unsent (hd : s.domain ≠ .destroyed) (ho : Unsent s.out) : Resting s inp :=
  ⟨fun _ => .inl ho,fun h => absurd h hd⟩

variable {pc : SenderPc} {inp' : List UInt8} {out : List Cell} {r : Receiver} {b : UInt8}

theorem Sending.resting (h : Sending s inp pc) : Resting s inp := by
  cases h with
  | banner hd ho | config hd ho | suspend hd ho => exact resting_unsent (by simp [hd]) (.inl ho)
  | ready hd | rename hd | writeGo hd | report hd | status hd | goBack b hd | resume hd | destroy hd
  | failedBadly hd => exact resting_suspended hd
  | failedSuspend hd ho | failedResume hd ho => exact resting_unsent hd ho
  | exited hr => exact hr

theorem Refused.mono (h : Refused inp) (hp : inp <+: inp') : Refused inp' := by
  obtain ⟨b,hb,hr⟩ := h
  exact ⟨b,hb,hr.trans hp⟩

theorem Sending.mono (h : Sending s inp pc) (hp : inp <+: inp') : Sending s inp' pc := by
  cases h with
  | goBack b hd hn hb h => exact .goBack b hd hn hb (h.trans hp)
  | resume hd hr => exact .resume hd (hr.mono hp)
  | destroy hd hr => exact .destroy hd (hr.trans hp)
  | exited hr =>
    exact .exited ⟨fun h => (hr.running h).imp_right fun h => h.mono hp,fun h => (hr.destroyed h).trans hp⟩
  | _ => constructor <;> assumption

theorem status_known {rest : List UInt8} (hc : Closed r out) (h : r.out.drop base.length = b :: rest) :
  base ++ [b] <+: r.out := by
  cases hc with
  | early ho =>
    rw [drop_eq_nil_of_le ho.length_le] at h
    cases h
  | started ho =>
    rw [ho,drop_left] at h
    rw [ho,← (List.cons.inj h).1]
  | refused b' w _ ho =>
    rw [ho,drop_left] at h
    rw [ho,(List.cons.inj h).1]
    exact ⟨w,by simp⟩

theorem refused_known (hb : b ≠ 0) (hp : base ++ [b] <+: inp)
  (h : readFixed inp (base.length+1) migratePermissionToGo = some true) : Refused inp := by
  obtain ⟨v,hv⟩ := hp
  have hr := readFixed_true h
  have hl : base.length+1 = (base ++ [b]).length := by simp
  rw [← hv,hl,drop_left] at hr
  obtain ⟨u,hu⟩ := hr
  exact ⟨b,hb,u,by rw [← hv,← hu]; simp⟩

inductive SenderMove (s : Sender) (inp : List UInt8) : Sender → Prop
  | banner (hpc : s.pc = .banner) (hread : readFixed inp s.heard migrateReceiverBanner = some true) : SenderMove s inp
        {s with heard := s.heard+migrateReceiverBanner.length,pc := .config}
  | noBanner (k : Nat) (hpc : s.pc = .banner) : SenderMove s inp {s with heard := k,pc := .exited}
  | config (hpc : s.pc = .config) : SenderMove s inp {s with pc := .suspend}
  | configFails (hpc : s.pc = .config) : SenderMove s inp {s with pc := .exited}
  | suspend (hpc : s.pc = .suspend) :
      SenderMove s inp {s with domain := .suspended,out := s.out ++ [Cell.image],pc := .ready}
  | ready (hpc : s.pc = .ready) (hread : readFixed inp s.heard migrateReceiverReady = some true) : SenderMove s inp
        {s with heard := s.heard+migrateReceiverReady.length,pc := .rename}
  | notReady (k : Nat) (hpc : s.pc = .ready) : SenderMove s inp {s with heard := k,pc := .failedResume}
  | rename (hpc : s.pc = .rename) : SenderMove s inp {s with pc := .writeGo}
  | renameFails (hpc : s.pc = .rename) : SenderMove s inp {s with pc := .failedResume}
  | writeGo (hpc : s.pc = .writeGo) : SenderMove s inp {s with out := s.out ++ go,pc := .report}
  | goCut (k : Nat) (hpc : s.pc = .writeGo) : SenderMove s inp {s with out := s.out ++ go.take k,pc := .failedBadly}
  | report (hpc : s.pc = .report) (hread : readFixed inp s.heard migrateReport = some true) :
      SenderMove s inp {s with heard := s.heard+migrateReport.length,pc := .status}
  | noReport (k : Nat) (hpc : s.pc = .report) : SenderMove s inp {s with heard := k,pc := .failedBadly}
  | started (rest : List UInt8) (hpc : s.pc = .status) (hb : inp.drop s.heard = 0 :: rest) :
      SenderMove s inp {s with heard := s.heard+1,pc := .destroy}
  | refused (b : UInt8) (rest : List UInt8) (hpc : s.pc = .status) (hb : inp.drop s.heard = b :: rest) (hne : b ≠ 0) :
      SenderMove s inp {s with heard := s.heard+1,pc := .goBack}
  | noStatus (hpc : s.pc = .status) : SenderMove s inp {s with pc := .failedBadly}
  | goBack (hpc : s.pc = .goBack) (hread : readFixed inp s.heard migratePermissionToGo = some true) : SenderMove s inp
        {s with heard := s.heard+migratePermissionToGo.length,pc := .resume}
  | noGoBack (k : Nat) (hpc : s.pc = .goBack) : SenderMove s inp {s with heard := k,pc := .failedBadly}
  | resume (hpc : s.pc = .resume) : SenderMove s inp {s with domain := .running,pc := .exited}
  | resumeFails (hpc : s.pc = .resume) : SenderMove s inp {s with pc := .exited}
  | destroy (hpc : s.pc = .destroy) : SenderMove s inp {s with domain := .destroyed,pc := .exited}
  | destroyFails (hpc : s.pc = .destroy) : SenderMove s inp {s with pc := .exited}
  | failedResume (hpc : s.pc = .failedResume) : SenderMove s inp {s with domain := .running,pc := .exited}
  | failed (hpc : s.pc = .failedSuspend ∨ s.pc = .failedResume ∨ s.pc = .failedBadly) :
      SenderMove s inp {s with pc := .exited}

theorem hear_move {msg : List UInt8} {good bad : SenderPc} (hg : readFixed inp s.heard msg = some true →
    SenderMove s inp {s with heard := s.heard+msg.length,pc := good})
  (hb : SenderMove s inp {s with heard := s.heard+msg.length,pc := bad})
  (h : s.hear inp msg good bad = some t) : SenderMove s inp t := by
  obtain ⟨same,hr,hv⟩ := map_eq_some_iff.mp h
  subst hv
  cases same with
  | true => exact hg hr
  | false => exact hb

theorem status_move (hp : s.pc = .status) (h : s.status inp = some t) : SenderMove s inp t := by
  unfold Sender.status at h
  split at h
  · cases h
  rename_i b rest hd
  cases h
  by_cases hb : b = 0
  · subst hb
    exact .started rest hp hd
  · simp only [hb,if_false]
    exact .refused b rest hp hd hb

theorem sender_move {r : Result} (h : s.step inp r = some t) : SenderMove s inp t := by
  unfold Sender.step at h
  split at h
  · rename_i hp; exact hear_move (fun hr => .banner hp hr) (.noBanner _ hp) h
  · rename_i hp; cases h; exact .noBanner _ hp
  · rename_i hp; cases h; exact .config hp
  · rename_i hp; cases h; exact .configFails hp
  · rename_i hp; cases h; exact .suspend hp
  · rename_i hp; exact hear_move (fun hr => .ready hp hr) (.notReady _ hp) h
  · rename_i hp; cases h; exact .notReady _ hp
  · rename_i hp; cases h; exact .rename hp
  · rename_i hp; cases h; exact .renameFails hp
  · rename_i hp; cases h; exact .writeGo hp
  · rename_i k hp; cases h; exact .goCut k hp
  · rename_i hp; exact hear_move (fun hr => .report hp hr) (.noReport _ hp) h
  · rename_i hp; cases h; exact .noReport _ hp
  · rename_i hp; exact status_move hp h
  · rename_i hp; cases h; exact .noStatus hp
  · rename_i hp; exact hear_move (fun hr => .goBack hp hr) (.noGoBack _ hp) h
  · rename_i hp; cases h; exact .noGoBack _ hp
  · rename_i hp; cases h; exact .resume hp
  · rename_i hp; cases h; exact .resumeFails hp
  · rename_i hp; cases h; exact .destroy hp
  · rename_i hp; cases h; exact .destroyFails hp
  · rename_i hp; cases h; exact .destroy hp
  · rename_i hp; cases h; exact .failed (.inl hp)
  · rename_i hp; cases h; exact .failedResume hp
  · rename_i hp; cases h; exact .failed (.inr (.inl hp))
  · rename_i hp; cases h; exact .failed (.inr (.inr hp))
  · cases h

theorem sending_step (hc : Closed r out) (hs : Sending s r.out s.pc) (h : SenderMove s r.out t) :
  Sending t r.out t.pc := by
  have hg := hs.resting
  have he (k : Nat) : Sending {s with heard := k,pc := .exited} r.out .exited :=
    .exited ⟨hg.running,hg.destroyed⟩
  cases h with
  | banner ha hf =>
    cases ha ▸ hs with
    | banner hd ho hn => exact .config hd ho (by simp [hn])
  | noBanner k ha => exact he k
  | config ha =>
    cases ha ▸ hs with
    | config hd ho hn => exact .suspend hd ho hn
  | configFails ha | resumeFails ha | destroyFails ha | failed ha => exact he _
  | suspend ha =>
    cases ha ▸ hs with
    | suspend hd ho hn => exact .ready rfl (by simp [ho]) hn
  | ready ha hf =>
    cases ha ▸ hs with
    | ready hd ho hn => exact .rename hd ho (by simp [hn,greeting])
  | notReady k ha =>
    cases ha ▸ hs with
    | ready hd ho hn => exact .failedResume (by simp [hd]) (.inr ho)
  | rename ha =>
    cases ha ▸ hs with
    | rename hd ho hn => exact .writeGo hd ho hn
  | renameFails ha =>
    cases ha ▸ hs with
    | rename hd ho hn => exact .failedResume (by simp [hd]) (.inr ho)
  | writeGo ha =>
    cases ha ▸ hs with
    | writeGo hd ho hn => exact .report hd hn
  | goCut k ha =>
    cases ha ▸ hs with
    | writeGo hd ho hn => exact .failedBadly hd
  | report ha hf =>
    cases ha ▸ hs with
    | report hd hn => exact .status hd (by simp [hn,base])
  | noReport k ha =>
    cases ha ▸ hs with
    | report hd hn => exact .failedBadly hd
  | started rest ha hb =>
    cases ha ▸ hs with
    | status hd hn => exact .destroy hd (status_known hc (hn ▸ hb))
  | refused b rest ha hb hi =>
    cases ha ▸ hs with
    | status hd hn => exact .goBack b hd (by simp [hn]) hi (status_known hc (hn ▸ hb))
  | noStatus ha =>
    cases ha ▸ hs with
    | status hd hn => exact .failedBadly hd
  | goBack ha hf =>
    cases ha ▸ hs with
    | goBack b hd hn hb hp => exact .resume hd (refused_known hb hp (hn ▸ hf))
  | noGoBack k ha =>
    cases ha ▸ hs with
    | goBack b hd hn hb hp => exact .failedBadly hd
  | resume ha =>
    cases ha ▸ hs with
    | resume hd hr => exact .exited ⟨fun _ => .inr hr,fun h => (by cases h)⟩
  | destroy ha =>
    cases ha ▸ hs with
    | destroy hd hr => exact .exited ⟨fun h => (by cases h),fun _ => hr⟩
  | failedResume ha =>
    cases ha ▸ hs with
    | failedResume hd ho => exact .exited ⟨fun _ => .inl ho,fun h => (by cases h)⟩

theorem sending_suspendFails {timedOut imaged halted : Bool} (hs : Sending s inp s.pc)
  (h : s.suspendFails timedOut imaged halted = some t) : Sending t inp t.pc ∧ s.out <+: t.out := by
  unfold Sender.suspendFails at h
  split at h
  · rename_i hp
    rw [hp] at hs
    cases h
    refine ⟨?_,prefix_append _ _⟩
    cases hs with
    | suspend hd ho hn =>
      have hu : Unsent (s.out ++ if imaged then [Cell.image] else []) := by cases imaged <;> simp [Unsent,ho]
      have ha : (if halted then Dom.suspended else .running) ≠ .destroyed := by cases halted <;> simp
      cases timedOut with
      | true => exact .failedSuspend ha hu
      | false => exact .failedResume ha hu
  · cases h

theorem sender_grows (h : SenderMove s inp t) : s.out <+: t.out := by
  cases h with
  | suspend | writeGo | goCut => exact prefix_append _ _
  | _ => exact prefix_rfl

end

structure Agreed (s : State) : Prop where
  sending : Sending s.sender s.receiver.out s.sender.pc
  receiving : Receiving s.receiver s.sender.out s.receiver.pc

theorem agreed_init : Agreed init := ⟨.banner rfl rfl rfl,.banner rfl rfl rfl⟩

theorem agreed_step {s t : State} {a : Act} (hs : Agreed s) (h : s.step a = some t) : Agreed t := by
  cases a with
  | sender r =>
    obtain ⟨u,hu,hv⟩ := map_eq_some_iff.mp h
    subst hv
    have hm := sender_move hu
    exact ⟨sending_step hs.receiving.closed hs.sending hm,hs.receiving.mono (sender_grows hm)⟩
  | suspendFails timedOut imaged halted =>
    obtain ⟨u,hu,hv⟩ := map_eq_some_iff.mp h
    subst hv
    obtain ⟨he,hg⟩ := sending_suspendFails hs.sending hu
    exact ⟨he,hs.receiving.mono hg⟩
  | receiver r =>
    obtain ⟨u,hu,hv⟩ := map_eq_some_iff.mp h
    subst hv
    have hm := receiver_move hu
    exact ⟨hs.sending.mono (receiver_grows hm),receiving_step hs.receiving hm⟩
  | senderDies =>
    cases h
    have hr := hs.sending.resting
    exact ⟨.exited ⟨hr.running,hr.destroyed⟩,hs.receiving⟩
  | receiverDies =>
    cases h
    exact ⟨hs.sending,.exited hs.receiving.closed.leave⟩

theorem permission_ne_nil : migratePermissionToGo ≠ [] := by simp [migratePermissionToGo]

variable {inp : List Cell} {s : Receiver}

theorem destroyed_of_refused (hc : Closed s inp) (hr : Refused s.out) : s.domain = .destroyed := by
  obtain ⟨b,hb,hp⟩ := hr
  have hl := hp.length_le
  have ha : 0 < migratePermissionToGo.length := length_pos_iff.mpr permission_ne_nil
  simp only [length_append,length_cons] at hl
  cases hc with
  | early ho =>
    have := ho.length_le
    omega
  | started ho =>
    simp only [ho,length_append,length_cons,length_nil] at hl
    omega
  | refused b' w _ ho hd hw =>
    refine hw ?_
    rintro rfl
    simp only [ho,length_append,length_cons,length_nil] at hl
    omega

theorem running_of_started (hc : Closed s inp) (hs : Started s.out) : s.domain = .running := by
  have hl := hs.length_le
  simp only [length_append,length_cons,length_nil] at hl
  cases hc with
  | early ho =>
    have := ho.length_le
    omega
  | started ho hd => exact hd
  | refused b w hb ho =>
    rw [Started,ho,prefix_append_right_inj] at hs
    obtain ⟨v,hv⟩ := hs
    exact absurd (List.cons.inj hv).1.symm hb

theorem goWritten_of_running (hc : Closed s inp) (hd : s.domain = .running) : GoWritten inp := by
  cases hc with
  | early _ hg => exact hg hd
  | started _ _ hg => exact hg
  | refused b w _ _ hn => exact absurd hd hn

theorem not_unsent_of_goWritten {out : List Cell} (hg : GoWritten out) : ¬Unsent out := by
  have hp : 0 < go.length := by simpa [go] using length_pos_iff.mpr permission_ne_nil
  have hl := hg.length_le
  rintro (h | h) <;> simp only [h,length_cons,length_nil] at hl <;> omega

def Any (_ : State) (_ : Act) : Prop := True

theorem never_two_copies_never_none {s : State} (h : Reach State.step Any init s) :
  ¬(s.sender.domain = .running ∧ s.receiver.domain = .running) ∧
    ¬(s.sender.domain = .destroyed ∧ s.receiver.domain = .destroyed) := by
  have hs : Agreed s := reach_invariant agreed_init (fun _ _ _ _ hi _ hv => agreed_step hi hv) h
  have hc := hs.receiving.closed
  have hr := hs.sending.resting
  refine ⟨fun ⟨ha,hd⟩ => ?_,fun ⟨ha,hd⟩ => ?_⟩
  · rcases hr.running ha with hu | he
    · exact not_unsent_of_goWritten (goWritten_of_running hc hd) hu
    · simp [destroyed_of_refused hc he] at hd
  · simp [running_of_started hc (hr.destroyed ha)] at hd

def handover : List Act := [.receiver .ok,.sender .ok,.sender .ok,.sender .ok,.receiver .ok,.receiver .ok,.sender .ok,
    .sender .ok,.sender .ok,.receiver .ok,.receiver .ok,.receiver .ok,.receiver .ok,.receiver .ok,
    .sender .ok,.sender .ok,.sender .ok]

theorem handover_leaves_one_copy : ∃ s, Reach State.step Any init s ∧
    s.sender.domain = .destroyed ∧ s.receiver.domain = .running ∧
    ¬(s.sender.domain = .running ∧ s.receiver.domain = .running) ∧
    ¬(s.sender.domain = .destroyed ∧ s.receiver.domain = .destroyed) := by
  have hu : ((runIf State.step (fun _ _ => true) init handover).map
      fun s => (s.sender.domain,s.receiver.domain)) = some (.destroyed,.running) := by
    decide +kernel
  obtain ⟨s,hr,ho⟩ := reach_observed (fun _ _ _ => trivial) hu
  simp only [Prod.mk.injEq] at ho
  exact ⟨s,hr,ho.1,ho.2,never_two_copies_never_none hr⟩

end Handshake
