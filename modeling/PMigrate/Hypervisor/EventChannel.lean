import PMigrate.Core.BackLinked
import PMigrate.Core.Transition

namespace EventChannel

open Function

inductive Ecs where
  | free
  | reserved
  | unbound
  | interdomain
  | pirq
  | virq
  | ipi
  deriving DecidableEq

-- The members of the union start with the same half word, which holds remote_domid, remote_port,
-- irq or virq according to the state.
structure Evtchn where
  state : Ecs
  consumerIsXen : Bool
  (notifyVcpuId word nextPort prevPort remoteDom : Nat)
  deriving DecidableEq

def Evtchn.zero : Evtchn := ⟨.free,false,0,0,0,0,0⟩

structure Domain where
  (created isDying : Bool)
  nrBuckets : Nat
  evtchn : Nat → Evtchn
  virqToEvtchn : Nat → Nat → Nat
  (pirqEvtchnHead pirqToEvtchn : Nat → Nat)

def Domain.zero : Domain where
  created := false
  isDying := false
  nrBuckets := 0
  evtchn := fun _ => .zero
  virqToEvtchn := fun _ _ => 0
  pirqEvtchnHead := fun _ => 0
  pirqToEvtchn := fun _ => 0

structure Config where
  has32bitShinfo : Nat → Bool
  hasVcpu : Nat → Nat → Bool
  isHvm : Nat → Bool
  nrPirqs : Nat → Nat
  nrPirqs_le : ∀ d, nrPirqs d ≤ 65536

inductive Errno where
  | eperm
  | enoent
  | enomem
  | ebusy
  | eexist
  | einval
  | enospc
  deriving DecidableEq

structure Env where
  memory : Bool
  xsm : Option Errno
  irqPermitted : Bool
  guestBind : Option Errno

inductive Reply where
  | error (e : Errno)
  | done
  | port (p : Nat)
  deriving DecidableEq

def evtchnsPerBucket : Nat := 128

def nrVirqs : Nat := 24

def maxEvtchns (C : Config) (i : Nat) : Nat := if C.has32bitShinfo i then 32*32 else 64*64

def portIsValid (C : Config) (i : Nat) (d : Domain) (p : Nat) : Prop :=
  p < maxEvtchns C i ∧ p/evtchnsPerBucket < d.nrBuckets

instance (C : Config) (i : Nat) (d : Domain) (p : Nat) : Decidable (portIsValid C i d p) :=
  inferInstanceAs (Decidable (_ ∧ _))

def virqIsGlobal (virq : Nat) : Bool :=
  match virq with
  | 0 | 1 | 7 => false
  | _ => true

def Domain.write (d : Domain) (p : Nat) (c : Evtchn) : Domain := {d with evtchn := update d.evtchn p c}

def portEnd (C : Config) (i : Nat) (d : Domain) : Nat := min (maxEvtchns C i) (evtchnsPerBucket*d.nrBuckets)

def findFree (C : Config) (i : Nat) (d : Domain) : Option Nat :=
  (List.range (portEnd C i d)).find? fun p => (d.evtchn p).state = .free

def addBucket (d : Domain) : Domain := {d with
    nrBuckets := d.nrBuckets+1,evtchn := fun p => if p/evtchnsPerBucket = d.nrBuckets then .zero else d.evtchn p}

def getFreePort (C : Config) (i : Nat) (d : Domain) (memory : Bool) : Except Errno (Domain × Nat) :=
  if d.isDying then .error .einval
  else match findFree C i d with
    | some p => .ok (d,p)
    | none =>
      if portEnd C i d = maxEvtchns C i then .error .enospc
      else if memory then .ok (addBucket d,portEnd C i d)
      else .error .enomem

section
variable (d : Domain)

def pointAtHead (port v : Nat) : Domain :=
  d.write port {d.evtchn port with prevPort := 0,nextPort := d.pirqEvtchnHead v}

def pointBack (head port : Nat) : Domain :=
  if head ≠ 0 then d.write head {d.evtchn head with prevPort := port} else d

def linkPirqPort (port v : Nat) : Domain :=
  let d1 := pointBack (pointAtHead d port v) (d.pirqEvtchnHead v) port
  {d1 with pirqEvtchnHead := update d1.pirqEvtchnHead v port}

def pointPast (port v : Nat) : Domain :=
  if (d.evtchn port).prevPort ≠ 0 then
    d.write (d.evtchn port).prevPort {d.evtchn (d.evtchn port).prevPort with nextPort := (d.evtchn port).nextPort}
  else {d with pirqEvtchnHead := update d.pirqEvtchnHead v (d.evtchn port).nextPort}

def unlinkPirqPort (port v : Nat) : Domain :=
  pointBack (pointPast d port v) (d.evtchn port).nextPort (d.evtchn port).prevPort

def recordVirq (vcpu virq port : Nat) : Domain := {d with
    virqToEvtchn := update d.virqToEvtchn vcpu (update (d.virqToEvtchn vcpu) virq port)}

def recordPirq (pirq port : Nat) : Domain := {d with pirqToEvtchn := update d.pirqToEvtchn pirq port}

def clearVirq (port : Nat) : Domain := {d with
    virqToEvtchn := fun v n =>
      if n = (d.evtchn port).word ∧ d.virqToEvtchn v n = port then 0 else d.virqToEvtchn v n}

end

inductive After where
  | done
  | reset
  | destroy
  deriving DecidableEq

inductive Task where
  | close (d port : Nat) (d2 : Option Nat) (after : After)
  | reset (d port : Nat)
  | destroy (d port : Nat)
  deriving DecidableEq

structure State where
  domain : Nat → Domain
  task : Nat → Option Task

def initial : State := ⟨fun _ => .zero,fun _ => none⟩

section
variable (C : Config) (s : State)

def setDomain (i : Nat) (d : Domain) : State := {s with domain := update s.domain i d}

def setTask (t : Nat) (k : Option Task) : State := {s with task := update s.task t k}

def chn (i p : Nat) : Evtchn := (s.domain i).evtchn p

def writeChn (i p : Nat) (c : Evtchn) : State := setDomain s i ((s.domain i).write p c)

def evtchnInit (i : Nat) (env : Env) : State × Reply :=
  match getFreePort C i {Domain.zero with created := true} env.memory with
  | .error e => (s,.error e)
  | .ok (d,port) =>
    if port ≠ 0 then (s,.error .einval)
    else (setDomain s i (d.write 0 {d.evtchn 0 with state := .reserved}),.done)

def allocUnbound (current i : Nat) (remote : Option Nat) (env : Env) : State × Reply :=
  match getFreePort C i (s.domain i) env.memory with
  | .error e => (s,.error e)
  | .ok (d,port) =>
    match env.xsm with
    | some e => (setDomain s i d,.error e)
    | none =>
      (setDomain s i (d.write port {d.evtchn port with
        state := .unbound,word := remote.getD current}),.port port)

def connect (i p e q : Nat) : State :=
  writeChn s i p {chn s i p with remoteDom := e,word := q%65536,state := .interdomain}

def bindInterdomain (ld rd rport : Nat) (env : Env) : State × Reply :=
  match getFreePort C ld (s.domain ld) env.memory with
  | .error e => (s,.error e)
  | .ok (l,lport) =>
    let s1 := setDomain s ld l
    if ¬portIsValid C rd (s1.domain rd) rport then (s1,.error .einval)
    else if (chn s1 rd rport).state ≠ .unbound ∨ (chn s1 rd rport).word ≠ ld then (s1,.error .einval)
    else match env.xsm with
      | some e => (s1,.error e)
      | none => (connect (connect s1 ld lport rd rport) rd rport ld lport,.port lport)

def bindVirq (i virq vcpu : Nat) (env : Env) : State × Reply :=
  if nrVirqs ≤ virq then (s,.error .einval)
  else if virqIsGlobal virq ∧ vcpu ≠ 0 then (s,.error .einval)
  else if !C.hasVcpu i vcpu then (s,.error .enoent)
  else if (s.domain i).virqToEvtchn vcpu virq ≠ 0 then (s,.error .eexist)
  else match getFreePort C i (s.domain i) env.memory with
    | .error e => (s,.error e)
    | .ok (d,port) =>
      let d1 := d.write port {d.evtchn port with state := .virq,notifyVcpuId := vcpu,word := virq}
      (setDomain s i (recordVirq d1 vcpu virq port),.port port)

def bindIpi (i vcpu : Nat) (env : Env) : State × Reply :=
  if !C.hasVcpu i vcpu then (s,.error .enoent)
  else match getFreePort C i (s.domain i) env.memory with
    | .error e => (s,.error e)
    | .ok (d,port) =>
      (setDomain s i (d.write port {d.evtchn port with state := .ipi,notifyVcpuId := vcpu}),.port port)

def bindPirq (i pirq : Nat) (env : Env) : State × Reply :=
  if C.nrPirqs i ≤ pirq then (s,.error .einval)
  else if !C.isHvm i ∧ !env.irqPermitted then (s,.error .eperm)
  else if (s.domain i).pirqToEvtchn pirq ≠ 0 then (s,.error .eexist)
  else match getFreePort C i (s.domain i) env.memory with
    | .error e => (s,.error e)
    | .ok (d,port) =>
      let d1 := recordPirq d pirq port
      match (if C.isHvm i then none else env.guestBind) with
      | some e => (setDomain s i (recordPirq d1 pirq 0),.error e)
      | none =>
        let d2 := d1.write port {d1.evtchn port with state := .pirq,word := pirq%65536}
        (setDomain s i (linkPirqPort d2 port 0),.port port)

def bindVcpu (i port vcpu : Nat) : State × Reply :=
  if !C.hasVcpu i vcpu then (s,.error .enoent)
  else if ¬portIsValid C i (s.domain i) port then (s,.error .einval)
  else if (chn s i port).consumerIsXen then (s,.error .einval)
  else match (chn s i port).state with
    | .virq =>
      if virqIsGlobal (chn s i port).word then
        (writeChn s i port {chn s i port with notifyVcpuId := vcpu},.done)
      else (s,.error .einval)
    | .unbound => (writeChn s i port {chn s i port with notifyVcpuId := vcpu},.done)
    | .interdomain => (writeChn s i port {chn s i port with notifyVcpuId := vcpu},.done)
    | .pirq =>
      if (chn s i port).notifyVcpuId = vcpu then (s,.done)
      else
        let d1 := unlinkPirqPort (s.domain i) port (chn s i port).notifyVcpuId
        let d2 := d1.write port {d1.evtchn port with notifyVcpuId := vcpu}
        (setDomain s i (linkPirqPort d2 port vcpu),.done)
    | _ => (s,.error .einval)

def allocUnboundXen (i vcpu remote : Nat) (env : Env) : State × Reply :=
  match getFreePort C i (s.domain i) env.memory with
  | .error e => (s,.error e)
  | .ok (d,port) =>
    (setDomain s i (d.write port {d.evtchn port with
      state := .unbound,consumerIsXen := true,notifyVcpuId := vcpu,word := remote}),.port port)

end

section
variable (C : Config) (s : State)

-- retry: the lock of d1 was dropped for the one of d2; bug: a BUG_ON fired
inductive Outcome where
  | closed (s : State)
  | refused (e : Errno)
  | retry (d2 : Nat)
  | bug

def releasePort (i p : Nat) : State := writeChn s i p {chn s i p with state := .free,notifyVcpuId := 0}

def closePirq (i p : Nat) : State :=
  let d := recordPirq (s.domain i) (chn s i p).word 0
  setDomain s i (unlinkPirqPort d p (chn s i p).notifyVcpuId)

def closeVirq (i p : Nat) : State := setDomain s i (clearVirq (s.domain i) p)

def disconnect (d1 port1 d2 : Nat) : Outcome :=
  let port2 := (chn s d1 port1).word
  if ¬portIsValid C d2 (s.domain d2) port2 then .bug
  else if (chn s d2 port2).state ≠ .interdomain then .bug
  else if (chn s d2 port2).remoteDom ≠ d1 then .bug
  else
    .closed (releasePort (writeChn s d2 port2 {chn s d2 port2 with state := .unbound,word := d1}) d1 port1)

-- lower: the structure of d1 lies below the one of d2, so that its lock is taken first
def closeSection (d1 port1 : Nat) (d2 : Option Nat) (lower : Bool) : Outcome :=
  if ¬portIsValid C d1 (s.domain d1) port1 then .refused .einval
  else if (chn s d1 port1).consumerIsXen then .refused .einval
  else match (chn s d1 port1).state with
    | .free => .refused .einval
    | .reserved => .refused .einval
    | .unbound => .closed (releasePort s d1 port1)
    | .pirq => .closed (releasePort (closePirq s d1 port1) d1 port1)
    | .virq => .closed (releasePort (closeVirq s d1 port1) d1 port1)
    | .ipi => .closed (releasePort s d1 port1)
    | .interdomain =>
      match d2 with
      | none =>
        if lower ∨ d1 = (chn s d1 port1).remoteDom then
          disconnect C s d1 port1 (chn s d1 port1).remoteDom
        else .retry (chn s d1 port1).remoteDom
      | some e => if e ≠ (chn s d1 port1).remoteDom then .refused .einval else disconnect C s d1 port1 e

def continueAfter (d port : Nat) : After → Option Task
  | .done => none
  | .reset => some (.reset d (port+1))
  | .destroy => some (.destroy d (port+1))

def runTask (t : Nat) (lower : Bool) : Task → Option (State × Reply)
  | .close d port d2 after =>
    match closeSection C s d port d2 lower with
    | .closed s' => some (setTask s' t (continueAfter d port after),.done)
    | .refused e => some (setTask s t (continueAfter d port after),.error e)
    | .retry e => some (setTask s t (some (.close d port (some e) after)),.done)
    | .bug => none
  | .reset d port =>
    if portIsValid C d (s.domain d) port then
      some (setTask s t (some (.close d port none .reset)),.done)
    else some (setTask s t none,.done)
  | .destroy d port =>
    if portIsValid C d (s.domain d) port then
      some (setTask (writeChn s d port {chn s d port with consumerIsXen := false}) t
        (some (.close d port none .destroy)),.done)
    else some (setTask (setDomain s d {s.domain d with nrBuckets := 0}) t none,.done)

end

inductive Action where
  | create (i : Nat) (env : Env)
  | allocUnbound (current i : Nat) (remote : Option Nat) (env : Env)
  | bindInterdomain (ld rd rport : Nat) (env : Env)
  | bindVirq (i virq vcpu : Nat) (env : Env)
  | bindIpi (i vcpu : Nat) (env : Env)
  | bindPirq (i pirq : Nat) (env : Env)
  | bindVcpu (i port vcpu : Nat)
  | close (t i port : Nat)
  | reset (t i : Nat)
  | allocXen (i vcpu remote : Nat) (env : Env)
  | freeXen (t i port : Nat)
  | kill (t i : Nat)
  | resume (t : Nat) (lower : Bool)
  | discard (i : Nat)

def guarded (b : Bool) (r : State × Reply) : Option (State × Reply) := if b then some r else none

def perform (C : Config) (s : State) : Action → Option (State × Reply)
  | .create i env => guarded (!(s.domain i).created) (evtchnInit C s i env)
  | .allocUnbound current i remote env => guarded (s.domain i).created (allocUnbound C s current i remote env)
  | .bindInterdomain ld rd rport env =>
    guarded ((s.domain ld).created && (s.domain rd).created) (bindInterdomain C s ld rd rport env)
  | .bindVirq i virq vcpu env => guarded (s.domain i).created (bindVirq C s i virq vcpu env)
  | .bindIpi i vcpu env => guarded (s.domain i).created (bindIpi C s i vcpu env)
  | .bindPirq i pirq env => guarded (s.domain i).created (bindPirq C s i pirq env)
  | .bindVcpu i port vcpu => guarded (s.domain i).created (bindVcpu C s i port vcpu)
  | .close t i port =>
    guarded ((s.task t).isNone && (s.domain i).created) (setTask s t (some (.close i port none .done)),.done)
  | .reset t i => guarded ((s.task t).isNone && (s.domain i).created) (setTask s t (some (.reset i 0)),.done)
  | .allocXen i vcpu remote env => guarded (s.domain i).created (allocUnboundXen C s i vcpu remote env)
  | .freeXen t i port =>
    if (s.task t).isSome || !(s.domain i).created then none
    else if (s.domain i).isDying then some (s,.done)
    else if ¬portIsValid C i (s.domain i) port then none
    else if !(chn s i port).consumerIsXen then none
    else
      some (setTask (writeChn s i port {chn s i port with consumerIsXen := false}) t
        (some (.close i port none .done)),.done)
  | .kill t i =>
    guarded ((s.task t).isNone && (s.domain i).created && !(s.domain i).isDying)
      (setTask (setDomain s i {s.domain i with isDying := true}) t (some (.destroy i 0)),.done)
  | .resume t lower => (s.task t).bind (runTask C s t lower)
  | .discard i =>
    guarded ((s.domain i).created && (s.domain i).isDying && (s.domain i).nrBuckets == 0) (setDomain s i .zero,.done)

def step (C : Config) (s : State) (a : Action) : Option State := (perform C s a).map Prod.fst

end EventChannel
