import PMigrate.Core.Transition
import PMigrate.Migration.Plan

namespace Migration

structure Batch where
  round : Nat
  pfns : List Nat
  lastIter : Bool
deriving DecidableEq

inductive Msg where
  | data (b : Batch)
  | lastIterFirst
  | iterationBarrier
  | paraMigrEnd
  | cut (b : Batch)
deriving DecidableEq

inductive SendPc where
  | poll
  | testOne
  | testTwo
  | work (b : Batch)
  | write (b : Batch)
  | ack
  | barrier
  | endBarrier
  | out
  | stopped
deriving DecidableEq

inductive RecvPc where
  | recv
  | applying (b : Batch)
  | barrier
  | ack
  | finished
deriving DecidableEq

structure Link where
  pc : SendPc
  everLastIter : Bool
  chan : List Msg
  acks : Nat
  recv : RecvPc
deriving DecidableEq

inductive MasterPc where
  | scan (k N : Nat)
  | enqueue (k N : Nat) (b : Batch)
  | raiseOne (k : Nat)
  | waitOne (k : Nat)
  | lowerOne (k : Nat)
  | raiseTwo (k : Nat)
  | waitTwo (k : Nat)
  | lowerTwo (k : Nat)
  | skip (k : Nat)
  | raiseEnd
  | waitEnd
  | done
deriving DecidableEq

structure State (n : Nat) where
  cnt : Nat
  queue : List Batch
  master : MasterPc
  links : Fin n → Link
  mcLastIter : Bool
  recvFinishCnt : Nat
  (enqueued applied bailed : List Batch)

inductive SendFailure where
  | mapBatch
  | pfnType
  | ptRace
deriving DecidableEq

inductive SlaveAct where
  | run
  | bail
  | fail (why : SendFailure)
deriving DecidableEq

inductive RecvAct where
  | run
  | fail
deriving DecidableEq

inductive Act (n : Nat) where
  | master
  | release
  | recvRelease
  | slave (i : Fin n) (a : SlaveAct)
  | receiver (i : Fin n) (a : RecvAct)
deriving DecidableEq

namespace Link

def init : Link := ⟨.poll,false,[],0,.recv⟩

def post (l : Link) (m : Msg) (pc : SendPc) : Link := {l with chan := l.chan ++ [m],pc := pc}

def release (l : Link) : Link := {l with pc := if l.pc = .endBarrier then .out else .poll}

end Link

namespace State

variable {n : Nat}

def init (n : Nat) : State n := ⟨0,[],.scan 0 0,fun _ => Link.init,false,0,[],[],[]⟩

@[simps cnt queue master mcLastIter recvFinishCnt enqueued applied bailed]
def setLink (s : State n) (i : Fin n) (l : Link) : State n := {s with links := Function.update s.links i l}

def backPressure (p : Plan) (s : State n) (k : Nat) : Bool := !p.lastIter k && decide (100 < s.queue.length)

def masterStep (p : Plan) (s : State n) : Option (State n) :=
  match s.master with
  | .scan k N =>
    if N < p.p2mSize then
      if s.backPressure p k then none
      else
        let r := p.batchFrom k N
        if r.1 = [] then some {s with master := .skip k}
        else some {s with master := .enqueue k r.2 ⟨k,r.1,p.lastIter k⟩}
    else some {s with master := .raiseOne k}
  | .enqueue k N b => some {s with master := .scan k N,queue := s.queue ++ [b],enqueued := b :: s.enqueued}
  | .raiseOne k => some {s with master := .waitOne k,cnt := 1}
  | .lowerOne k => some {s with master := .raiseTwo k,cnt := 0}
  | .raiseTwo k => some {s with master := .waitTwo k,cnt := 1}
  | .lowerTwo k => some {s with master := .skip k,cnt := 0}
  | .skip k =>
    if p.ends k then some {s with master := .raiseEnd}
    else some {s with master := .scan (k+1) 0}
  | .raiseEnd => some {s with master := .waitEnd,cnt := 2}
  | .waitOne _ => none
  | .waitTwo _ => none
  | .waitEnd => none
  | .done => none

def released : MasterPc → Option MasterPc
  | .waitOne k => some (.lowerOne k)
  | .waitTwo k => some (.lowerTwo k)
  | .waitEnd => some .done
  | _ => none

section
variable (s : State n)

@[simps links master cnt]
def releaseTo (m : MasterPc) : State n := {s with master := m,links := fun i => (s.links i).release}

def releaseStep : Option (State n) :=
  if ∀ i, (s.links i).pc = .barrier ∨ (s.links i).pc = .endBarrier then
    (released s.master).map s.releaseTo
  else none

@[simps links]
def recvReleased : State n := {s with links := fun i => {s.links i with recv := .ack}}

def recvReleaseStep : Option (State n) :=
  if ∀ i, (s.links i).recv = .barrier then some s.recvReleased else none

def slaveRun (i : Fin n) : Option (State n) :=
  let l := s.links i
  match l.pc with
  | .poll =>
    match s.queue with
    | [] => some (s.setLink i {l with pc := .testOne})
    | b :: q => some ({s with queue := q}.setLink i {l with pc := .work b})
  | .testOne =>
    if s.cnt = 1 then some (s.setLink i (l.post .iterationBarrier .ack))
    else some (s.setLink i {l with pc := .testTwo})
  | .testTwo =>
    if s.cnt = 2 then some (s.setLink i {l with pc := .endBarrier})
    else some (s.setLink i {l with pc := .poll})
  | .work b =>
    if !l.everLastIter && b.lastIter then
      some (s.setLink i ({l with everLastIter := true}.post .lastIterFirst (.write b)))
    else some (s.setLink i {l with pc := .write b})
  | .write b => some (s.setLink i (l.post (.data b) .poll))
  | .ack =>
    match l.acks with
    | 0 => none
    | a+1 => some (s.setLink i {l with acks := a,pc := .barrier})
  | .out => some (s.setLink i (l.post .paraMigrEnd .stopped))
  | .barrier => none
  | .endBarrier => none
  | .stopped => none

def slaveBail (i : Fin n) : Option (State n) :=
  match (s.links i).pc with
  | .write b => some ({s with bailed := b :: s.bailed}.setLink i {s.links i with pc := .poll})
  | _ => none

end

def slaveFail (live : Bool) (s : State n) (i : Fin n) (why : SendFailure) : Option (State n) :=
  match (s.links i).pc,why with
  | .work _,.mapBatch => some (s.setLink i {s.links i with pc := .out})
  | .work _,.pfnType => some (s.setLink i {s.links i with pc := .out})
  | .write b,.ptRace => if live then none else some (s.setLink i ((s.links i).post (.cut b) .out))
  | _,_ => none

def recvRun (s : State n) (i : Fin n) : Option (State n) :=
  let l := s.links i
  match l.recv with
  | .recv =>
    match l.chan with
    | .data b :: c => some (s.setLink i {l with chan := c,recv := .applying b})
    | .lastIterFirst :: c => some ({s with mcLastIter := true}.setLink i {l with chan := c})
    | .iterationBarrier :: c => some (s.setLink i {l with chan := c,recv := .barrier})
    | .paraMigrEnd :: c =>
      some ({s with recvFinishCnt := s.recvFinishCnt+1}.setLink i {l with chan := c,recv := .finished})
    | .cut _ :: _ => none
    | [] => none
  | .applying b => some ({s with applied := b :: s.applied}.setLink i {l with recv := .recv})
  | .ack => some (s.setLink i {l with acks := l.acks+1,recv := .recv})
  | .barrier => none
  | .finished => none

def recvFail (s : State n) (i : Fin n) : Option (State n) :=
  match (s.links i).recv with
  | .applying _ => some (s.setLink i {s.links i with recv := .recv})
  | _ => none

def step (p : Plan) (live : Bool) (s : State n) : Act n → Option (State n)
  | .master => s.masterStep p
  | .release => s.releaseStep
  | .recvRelease => s.recvReleaseStep
  | .slave i .run => s.slaveRun i
  | .slave i .bail => s.slaveBail i
  | .slave i (.fail why) => s.slaveFail live i why
  | .receiver i .run => s.recvRun i
  | .receiver i .fail => s.recvFail i

end State

end Migration
