import PMigrate.Core.Transition
import PMigrate.Core.SafeIteration

namespace CreditScheduler

open SafeIteration

def creditsPerTslice : Int := 300
def creditsPerAcct : Int := 300
def defaultWeight : Nat := 256
def maxVirtCpus : Nat := 8192

-- what an expression of type uint32_t or int evaluates to
structure Arith where
  (u32 i32 : Int → Int)

def machine : Arith := ⟨fun x => x%2^32,fun x => x.bmod (2^32)⟩

def exact : Arith := ⟨id,id⟩

inductive Pri where
  | boost
  | under
  | over
  deriving DecidableEq

structure Vcpu where
  credit : Int
  pri : Pri
  parked : Bool
  (creditLast creditIncr : Int)

structure Dom where
  (weight cap activeVcpuCount : Nat)
  activeVcpu : List Nat

structure State where
  (weight credit creditBalance : Int)
  activeSdom : List Nat
  dom : Nat → Dom
  vcpu : Nat → Nat → Vcpu

def initial : State where
  weight := 0
  credit := 0
  creditBalance := 0
  activeSdom := []
  dom := fun _ => ⟨defaultWeight,0,0,[]⟩
  vcpu := fun _ _ => ⟨0,.under,false,0,0⟩

namespace State

def setDom (s : State) (d : Nat) (x : Dom) : State := {s with dom := fun e => if e = d then x else s.dom e}

def setVcpu (s : State) (d v : Nat) (x : Vcpu) : State :=
  {s with vcpu := fun e w => if e = d ∧ w = v then x else s.vcpu e w}

section
variable (A : Arith) (s : State)

def acctStart (d v : Nat) : State :=
  if v ∈ (s.dom d).activeVcpu then s
  else
    {s.setDom d {s.dom d with
      activeVcpuCount := ((s.dom d).activeVcpuCount+1)%2^16
      activeVcpu := v :: (s.dom d).activeVcpu} with
      weight := A.u32 (s.weight+(s.dom d).weight)
      activeSdom := if d ∈ s.activeSdom then s.activeSdom else d :: s.activeSdom}

-- none: a BUG_ON fires
def acctStopLocked (d v : Nat) : Option State :=
  if v ∉ (s.dom d).activeVcpu then none
  else if s.weight < (s.dom d).weight then none
  else
    some {s.setDom d {s.dom d with
      activeVcpuCount := ((s.dom d).activeVcpuCount+(2^16-1))%2^16
      activeVcpu := (s.dom d).activeVcpu.erase v} with
      weight := A.u32 (s.weight-(s.dom d).weight)
      activeSdom := if (s.dom d).activeVcpu.erase v = [] then s.activeSdom.erase d else s.activeSdom}

def vcpuRemove (d v : Nat) : Option State :=
  if v ∈ (s.dom d).activeVcpu then s.acctStopLocked A d v else some s

def changeWeight (d weight : Nat) : State :=
  if weight = 0 then s
  else
    {s.setDom d {s.dom d with weight := weight} with
      weight :=
        if d ∈ s.activeSdom then
          A.u32 (A.u32 (s.weight-(s.dom d).weight*(s.dom d).activeVcpuCount)+weight*(s.dom d).activeVcpuCount)
        else s.weight}

end

def changeCap (s : State) (d cap : Nat) : State :=
  if cap = 2^16-1 then s else s.setDom d {s.dom d with cap := cap}

def domCntl (A : Arith) (s : State) (d weight cap : Nat) : State := (s.changeWeight A d weight).changeCap d cap

end State

section
variable (A : Arith) (balance weightTotal : Int) (sdom : Dom)

def Dom.load : Int := sdom.weight*sdom.activeVcpuCount

def capCredits : Int := (sdom.cap*creditsPerAcct+99)/100

def uncappedPeak : Int :=
  if balance < 0 then
    A.u32 (A.u32 (sdom.activeVcpuCount*creditsPerAcct) +
      A.u32 (A.i32 (A.i32 (-balance*sdom.weight)*sdom.activeVcpuCount)+(weightTotal-1))/weightTotal)
  else A.u32 (sdom.activeVcpuCount*creditsPerAcct)

def creditPeak : Int :=
  if sdom.cap ≠ 0 ∧ capCredits sdom < uncappedPeak A balance weightTotal sdom then capCredits sdom
  else uncappedPeak A balance weightTotal sdom

def capPerVcpu (old : Int) : Int :=
  if sdom.cap ≠ 0 then
    A.u32 (capCredits sdom+(sdom.activeVcpuCount-1))/sdom.activeVcpuCount
  else old

def creditFair (creditTotal : Int) : Int :=
  A.u32 (A.u32 (A.u32 (creditTotal*sdom.weight)*sdom.activeVcpuCount)+(weightTotal-1))/weightTotal

def redistribute (creditTotal weightLeft fair peak : Int) : Int :=
  if weightLeft ≠ 0 then
    A.u32 (creditTotal+A.u32 (A.u32 (A.u32 (fair-peak)*weightTotal)+(weightLeft-1))/weightLeft)
  else creditTotal

def perVcpu (fair : Int) : Int := A.u32 (fair+(sdom.activeVcpuCount-1))/sdom.activeVcpuCount

end

structure Acct where
  prv : State
  (weightLeft creditTotal creditBalance : Int)
  creditXtra : Bool
  creditCap : Int

def Vcpu.earn (A : Arith) (capped : Bool) (creditCap fair : Int) (svc : Vcpu) : Vcpu × Bool :=
  let credit := A.i32 (svc.credit+fair)
  if credit < 0 then
    let bounded := if credit < -creditsPerTslice then -creditsPerTslice else credit
    (⟨bounded,.over,svc.parked || (capped && decide (A.u32 credit < A.u32 (-creditCap))),bounded,fair⟩,false)
  else if credit > creditsPerTslice then (⟨credit/2,.under,false,credit/2,fair⟩,true)
  else (⟨credit,.under,false,credit,fair⟩,false)

def Acct.record (A : Arith) (p : Acct) (s : State) (d v : Nat) (svc : Vcpu) : Acct :=
  {p with prv := s.setVcpu d v svc,creditBalance := A.i32 (p.creditBalance+svc.credit)}

def visitVcpu (A : Arith) (d : Nat) (fair : Int) (v : Nat) (p : Acct) : Option Acct :=
  let r := (p.prv.vcpu d v).earn A (decide ((p.prv.dom d).cap ≠ 0)) p.creditCap fair
  if r.2 then (p.prv.acctStopLocked A d v).map fun s => p.record A s d v r.1
  else some (p.record A p.prv d v r.1)

def moveToFront (s : State) (d : Nat) : State := {s with activeSdom := d :: s.activeSdom.erase d}

def Acct.settle (A : Arith) (weightTotal : Int) (sdom : Dom) (d : Nat) (fair peak : Int) (p : Acct) : Acct :=
  let p := {p with
    weightLeft := A.u32 (p.weightLeft-sdom.load)
    creditCap := capPerVcpu A sdom p.creditCap}
  if fair < peak then {p with creditXtra := true}
  else
    {p with
      creditTotal := redistribute A weightTotal p.creditTotal p.weightLeft fair peak
      prv := if p.creditXtra then moveToFront p.prv d else p.prv}

def visitSdom (A : Arith) (weightTotal balance : Int) (d : Nat) (p : Acct) : Option Acct :=
  let sdom := p.prv.dom d
  if sdom.activeVcpuCount = 0 then none
  else if sdom.weight = 0 then none
  else if A.u32 sdom.load > p.weightLeft then none
  else
    let peak := creditPeak A balance weightTotal sdom
    let fair := creditFair A weightTotal sdom p.creditTotal
    forEachSafe (fun q => (q.prv.dom d).activeVcpu)
      (visitVcpu A d (perVcpu A sdom (if fair < peak then fair else peak)))
      sdom.activeVcpu.length sdom.activeVcpu.head? (p.settle A weightTotal sdom d fair peak)

def startTotal (A : Arith) (s : State) : Int :=
  if s.creditBalance < 0 then A.u32 (s.credit-s.creditBalance) else s.credit

def acct (A : Arith) (s : State) : Option State :=
  if s.weight = 0 then some {s with creditBalance := 0}
  else
    (forEachSafe (fun p => p.prv.activeSdom) (visitSdom A s.weight s.creditBalance) s.activeSdom.length
      s.activeSdom.head? ⟨s,s.weight,startTotal A s,0,false,0⟩).map fun p =>
        {p.prv with creditBalance := p.creditBalance}

inductive Action where
  | start (d v : Nat)
  | stop (d v : Nat)
  | remove (d v : Nat)
  | cntl (d weight cap : Nat)
  | acct
  | burn (d v : Nat) (svc : Vcpu)
  | setCredit (credit : Int)

-- Vcpus of a domain are numbered below MAX_VIRT_CPUS, weight and cap are uint16_t, and the callers
-- of __csched_vcpu_acct_stop_locked pass a vcpu of the active list.
def Permitted (s : State) : Action → Prop
  | .start _ v => v < maxVirtCpus
  | .stop d v => v ∈ (s.dom d).activeVcpu
  | .cntl _ weight cap => weight < 2^16 ∧ cap < 2^16
  | _ => True

def step (A : Arith) (s : State) : Action → Option State
  | .start d v => some (s.acctStart A d v)
  | .stop d v => s.acctStopLocked A d v
  | .remove d v => s.vcpuRemove A d v
  | .cntl d weight cap => some (s.domCntl A d weight cap)
  | .acct => acct A s
  | .burn d v svc => some (s.setVcpu d v svc)
  | .setCredit credit => some {s with credit := credit}

end CreditScheduler
