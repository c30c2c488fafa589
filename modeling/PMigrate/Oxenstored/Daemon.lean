import Mathlib.Data.List.AList
import PMigrate.Oxenstored.Process

namespace Oxenstored

open PathTree

def equiv (perm1 perm2 : NodePerms) : Bool := perm1.toString = perm2.toString

def permdiff (root1 root2 : Node Nat) : Bool → List Path → Except Exn Bool
  | acc,[] => .ok acc
  | acc,path :: hierarch => do
      let n1 ← getNode root1 path
      let n2 ← getNode root2 path
      permdiff root1 root2 (match n1,n2 with
          | some n1,some n2 => !equiv n1.label.perms n2.label.perms || acc
          | _,_ => true) hierarch

def checkParentsPermsIdentical (root1 root2 : Node Nat) (path : Path) : Except Exn Bool :=
  (permdiff root1 root2 false (getHierarchy path)).map (!·)

-- Physical equality, of nodes at one path.
def same (n1 n2 : Node Nat) : Bool := n1.stamp = n2.stamp

def testCoalesce (oldroot currentroot : Node Nat) (optpath : Option Path) : Except Exn Bool :=
  match optpath with
  | none => .ok true
  | some path => do
      let oldnode ← getNode oldroot path
      let currentnode ← getNode currentroot path
      match oldnode,currentnode with
      | some oldnode,some currentnode =>
          if same oldnode currentnode then checkParentsPermsIdentical oldroot currentroot path else .ok false
      | none,none => do
          let pnode ← getNode currentroot (getParent path)
          .ok pnode.isSome
      | _,_ => .ok false

def canCoalesce (cfg : Config) (oldroot currentroot : Node Nat) (path : Option Path) : Bool :=
  if cfg.doCoalesce then
    match testCoalesce oldroot currentroot path with
    | .ok b => b
    | .error _ => false
  else false

section
variable (cfg : Config) (a : Nat) (t : Transaction Nat)

def commitPartial (oldroot : Node Nat) (cstore : Store Nat) : Except Exn (Bool × Store Nat) :=
  if canCoalesce cfg oldroot cstore.root t.readLowpath && canCoalesce cfg oldroot cstore.root t.writeLowpath then
    match t.writeLowpath with
    | none => .ok (true,cstore)
    | some p => do
        match ← getNode t.store.root p with
        | none => .ok (true,cstore)
        | some n => do
            let root ← setNode a cstore.root p n
            .ok (true,{cstore with root := root})
  else .ok (false,cstore)

def commit (cstore : Store Nat) : Except Exn (Bool × Store Nat) :=
  match t.oldroot with
  | none => .ok (true,cstore)
  | some oldroot =>
      if same oldroot cstore.root then .ok (true,if t.ops.length > 0 then t.store else cstore)
      else commitPartial cfg a t oldroot cstore

end

abbrev Transactions := AList fun _ : Nat => Transaction Nat

structure Connection where
  con : Con
  transactions : Transactions
  nextTid : Nat

def makePerm (dom : Option Nat) : ConnPerms := {main := dom.getD 0,target := none}

def Connection.create (dom : Option Nat) : Connection :=
  {con := {dom := dom,perm := makePerm dom},transactions := ∅,nextTid := 1}

structure State where
  store : Store Nat
  cons : Nat → Connection
  clock : Nat

inductive Action where
  | request (c tid : Nat) (r : Request)
  | transactionStart (c tid : Nat)
  | transactionEnd (c tid : Nat) (data : List Char)
  | connect (c : Nat) (dom : Option Nat)
  | setPerm (c : Nat) (perm : ConnPerms)
deriving DecidableEq

def State.tick (s : State) : State := {s with clock := s.clock+1}

def State.setCon (s : State) (c : Nat) (connection : Connection) : State :=
  {s with cons := Function.update s.cons c connection}

def State.setTransactions (s : State) (c : Nat) (transactions : Transactions) : State :=
  s.setCon c {s.cons c with transactions := transactions}

def eio : Reply := .error "EIO".toList

section
variable (cfg : Config) (s : State) (c : Nat)

def immediateRequest (r : Request) : State × Reply :=
  let res := inputHandleError cfg s.clock (s.cons c).con r (.immediate s.store)
  ({s with store := res.2.store},res.1)

def transactionRequest (tid : Nat) (t : Transaction Nat) (r : Request) : State × Reply :=
  let res := inputHandleError cfg s.clock (s.cons c).con r t
  (s.setTransactions c ((s.cons c).transactions.insert tid res.2),res.1)

def startTransaction : State × Reply :=
  let connection := s.cons c
  if 0 < cfg.maxtransaction ∧ connection.con.perm.isDom0 = false ∧
      cfg.maxtransaction < connection.transactions.entries.length then (s,.error Exn.transactionOpened.errno)
  else
    (s.setCon c {connection with
      transactions := connection.transactions.insert connection.nextTid (.full s.store)
      nextTid := connection.nextTid+1},.data ((Nat.repr connection.nextTid).toList ++ [nul]))

def endTransaction (tid : Nat) (wanted : Bool) : State × Reply :=
  match (s.cons c).transactions.lookup tid with
  | none => (s,.error Exn.notFound.errno)
  | some t =>
      let s' := s.setTransactions c ((s.cons c).transactions.erase tid)
      if wanted then
        match commit cfg s.clock t s.store with
        | .error e => (s',.error e.errno)
        | .ok (false,_) => (s',.error Exn.transactionAgain.errno)
        | .ok (true,store) => ({s' with store := store},.ack)
      else (s',.ack)

def doTransactionEnd (tid : Nat) (data : List Char) : State × Reply :=
  match split 8 nul data with
  | ['T'] :: _ => endTransaction cfg s c tid true
  | ['F'] :: _ => endTransaction cfg s c tid false
  | _ => (s,.error Exn.invalidArgument.errno)

end

def processPacket (cfg : Config) (s : State) : Action → State × Option Reply
  | .request c tid r =>
      if tid = 0 then ((immediateRequest cfg s c r).1,some (immediateRequest cfg s c r).2)
      else match (s.cons c).transactions.lookup tid with
        | none => (s,some eio)
        | some t => ((transactionRequest cfg s c tid t r).1,some (transactionRequest cfg s c tid t r).2)
  | .transactionStart c tid =>
      if tid = 0 then ((startTransaction cfg s c).1,some (startTransaction cfg s c).2)
      else match (s.cons c).transactions.lookup tid with
        | none => (s,some eio)
        | some _ => (s,some (.error Exn.transactionNested.errno))
  | .transactionEnd c tid data =>
      if tid ≠ 0 ∧ (s.cons c).transactions.lookup tid = none then (s,some eio)
      else ((doTransactionEnd cfg s c tid data).1,some (doTransactionEnd cfg s c tid data).2)
  | .connect c dom => (s.setCon c (.create dom),none)
  | .setPerm c perm => (s.setCon c {s.cons c with con := {(s.cons c).con with perm := perm}},none)

def daemon (cfg : Config) (s : State) (a : Action) : State × Option Reply :=
  ((processPacket cfg s a).1.tick,(processPacket cfg s a).2)

end Oxenstored
