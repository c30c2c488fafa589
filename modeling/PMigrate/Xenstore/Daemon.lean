import PMigrate.Xenstore.Requests
import PMigrate.Core.Transition

namespace Xenstore

open Function Option

inductive Peer where
  | socket (fd : Nat) (canWrite : Bool)
  | domain (domid : Nat)
deriving DecidableEq

def Peer.conn (target : Nat → Option Nat) : Peer → Conn
  | .socket _ canWrite => {id := 0,canWrite := canWrite,target := none,domain := false}
  | .domain domid => {id := domid,canWrite := true,target := target domid,domain := true}

structure Transaction where
  generation : Nat
  db : Db
  delta : Nat → Int

abbrev Transactions := AList fun _ : Nat => Transaction

structure Link where
  nextTransactionId : Nat
  transactions : Transactions

def Link.fresh : Link := {nextTransactionId := 0,transactions := ∅}

-- The generation counts every change; the machine compares it modulo 2^32.
structure State where
  db : Db
  (nbentry target : Nat → Option Nat)
  links : Peer → Link
  generation : Nat
  corrupt : Bool

def Peer.connected (s : State) : Peer → Bool
  | .socket _ _ => true
  | .domain domid => (s.nbentry domid).isSome

def State.setTransactions (s : State) (p : Peer) (ts : Transactions) : State :=
  {s with links := update s.links p {s.links p with transactions := ts}}

inductive Action where
  | request (p : Peer) (tx : Nat) (r : Request)
  | transactionStart (p : Peer) (tx : Nat)
  | transactionEnd (p : Peer) (tx : Nat) (payload : List Char)
  | disconnect (p : Peer)
  | introduce (domid : Nat)
  | setTarget (domid tdomid : Nat)
deriving DecidableEq

def immediate (cfg : Config) (s : State) (p : Peer) (r : Request) : State × Reply :=
  let out := process cfg (p.conn s.target) r
    {db := s.db,nbentry := s.nbentry,delta := none,corrupt := s.corrupt}
  ({s with
    db := out.work.db,nbentry := out.work.nbentry,corrupt := out.work.corrupt,
    generation := if out.changed then s.generation+1 else s.generation},out.reply)

def within (cfg : Config) (s : State) (p : Peer) (tx : Nat) (t : Transaction) (r : Request) : State × Reply :=
  let out := process cfg (p.conn s.target) r
    {db := t.db,nbentry := s.nbentry,delta := some t.delta,corrupt := s.corrupt}
  let t' : Transaction := {t with db := out.work.db,delta := out.work.delta.getD t.delta}
  let s' : State := {s with nbentry := out.work.nbentry,corrupt := out.work.corrupt}
  (s'.setTransactions p ((s.links p).transactions.insert tx t'),out.reply)

def pickId (ts : Transactions) : Nat → Nat → Option (Nat × Nat)
  | 0,_ => none
  | n+1,next =>
      let after := (next+1)%2^32
      if next = 0 ∨ next ∈ ts then pickId ts n after else some (next,after)

def doTransactionStart (cfg : Config) (s : State) (p : Peer) : Option (State × Reply) :=
  let link := s.links p
  if (p.conn s.target).id ≠ 0 ∧ cfg.maxTransaction.any (· < link.transactions.entries.length) then
    some (s,.error .ENOSPC)
  else do
    let (id,next) ← pickId link.transactions (link.transactions.entries.length+2) link.nextTransactionId
    let t : Transaction := {generation := s.generation,db := s.db,delta := fun _ => 0}
    let link' : Link := {nextTransactionId := next,transactions := link.transactions.insert id t}
    some ({s with links := update s.links p link'},.transaction id)

def domainEntryFix (nbentry : Nat → Option Nat) (delta : Nat → Int) (d : Nat) : Option Nat :=
  (nbentry d).map fun n : Nat => (n+delta d).toNat

def doTransactionEnd (s : State) (p : Peer) (tx : Nat) (arg : Option Name) : State × Reply :=
  match arg with
  | some ['T'] | some ['F'] =>
      match (s.links p).transactions.lookup tx with
      | none => (s,.error .ENOENT)
      | some t =>
          let s := s.setTransactions p ((s.links p).transactions.erase tx)
          if arg = some ['T'] then
            if t.generation%2^32 ≠ s.generation%2^32 then (s,.error .EAGAIN)
            else
              ({s with
                db := t.db,nbentry := domainEntryFix s.nbentry t.delta,
                generation := s.generation+1},ack)
          else (s,ack)
  | _ => (s,.error .EINVAL)

def daemon (cfg : Config) (s : State) : Action → Option (State × Option Reply)
  | .request p tx r =>
      if p.connected s then
        if tx = 0 then some ((immediate cfg s p r).map id some)
        else match (s.links p).transactions.lookup tx with
          | none => some (s,some (.error .ENOENT))
          | some t => some ((within cfg s p tx t r).map id some)
      else none
  | .transactionStart p tx =>
      if p.connected s then
        if tx = 0 then (doTransactionStart cfg s p).map (Prod.map id some)
        else if tx ∈ (s.links p).transactions then some (s,some (.error .EBUSY))
        else some (s,some (.error .ENOENT))
      else none
  | .transactionEnd p tx payload =>
      if p.connected s then
        if tx ≠ 0 ∧ tx ∉ (s.links p).transactions then some (s,some (.error .ENOENT))
        else some ((doTransactionEnd s p tx (onearg payload)).map id some)
      else none
  | .disconnect p =>
      if p.connected s then
        let s : State := {s with links := update s.links p .fresh}
        match p with
        | .socket _ _ => some (s,none)
        | .domain d =>
            some ({s with nbentry := update s.nbentry d none,
                          target := update s.target d none},none)
      else none
  | .introduce d =>
      if (s.nbentry d).isSome then some (s.setTransactions (.domain d) ∅,some ack)
      else
        some ({s with
          nbentry := update s.nbentry d (some 0),
          target := update s.target d none,
          links := update s.links (.domain d) .fresh},some ack)
  | .setTarget d t =>
      if (s.nbentry d).isSome ∧ (s.nbentry t).isSome then
        some ({s with target := update s.target d (some t)},some ack)
      else some (s,some (.error .ENOENT))

def step (cfg : Config) (s : State) (a : Action) : Option State := (daemon cfg s a).map Prod.fst

inductive Happens (cfg : Config) (s : State) : Action → State → Option Reply → Prop
  | immediate {p : Peer} {r : Request} :
      Happens cfg s (.request p 0 r) (immediate cfg s p r).1 (some (immediate cfg s p r).2)
  | within {p : Peer} {tx : Nat} {t : Transaction} {r : Request} (htx : tx ≠ 0)
      (ht : (s.links p).transactions.lookup tx = some t) :
      Happens cfg s (.request p tx r) (within cfg s p tx t r).1 (some (within cfg s p tx t r).2)
  | unknown {p : Peer} {tx : Nat} {r : Request} (htx : tx ≠ 0)
      (ht : (s.links p).transactions.lookup tx = none) :
      Happens cfg s (.request p tx r) s (some (.error .ENOENT))
  | started {p : Peer} {id next : Nat} (hid : id ∉ (s.links p).transactions) :
      Happens cfg s (.transactionStart p 0)
        {s with links := update s.links p
                  {nextTransactionId := next,
                   transactions := (s.links p).transactions.insert id
                     {generation := s.generation,db := s.db,delta := fun _ => 0}}}
        (some (.transaction id))
  | notStarted {p : Peer} {tx : Nat} {e : Errno} : Happens cfg s (.transactionStart p tx) s (some (.error e))
  | committed {p : Peer} {tx : Nat} {t : Transaction} {payload : List Char}
      (harg : onearg payload = some ['T']) (ht : (s.links p).transactions.lookup tx = some t)
      (hgen : t.generation%2^32 = s.generation%2^32) :
      Happens cfg s (.transactionEnd p tx payload)
        {s.setTransactions p ((s.links p).transactions.erase tx) with
          db := t.db,nbentry := domainEntryFix s.nbentry t.delta,generation := s.generation+1}
        (some ack)
  | failed {p : Peer} {tx : Nat} {payload : List Char} (harg : onearg payload = some ['T']) :
      Happens cfg s (.transactionEnd p tx payload)
        (s.setTransactions p ((s.links p).transactions.erase tx)) (some (.error .EAGAIN))
  | aborted {p : Peer} {tx : Nat} {payload : List Char} (harg : onearg payload = some ['F']) :
      Happens cfg s (.transactionEnd p tx payload)
        (s.setTransactions p ((s.links p).transactions.erase tx)) (some ack)
  | notOpen {p : Peer} {tx : Nat} {payload : List Char} (ht : tx ∉ (s.links p).transactions) {e : Errno} :
      Happens cfg s (.transactionEnd p tx payload) s (some (.error e))
  | badArg {p : Peer} {tx : Nat} {payload : List Char} (hT : onearg payload ≠ some ['T'])
      (hF : onearg payload ≠ some ['F']) {e : Errno} :
      Happens cfg s (.transactionEnd p tx payload) s (some (.error e))
  | closed {fd : Nat} {canWrite : Bool} :
      Happens cfg s (.disconnect (.socket fd canWrite))
        {s with links := update s.links (.socket fd canWrite) .fresh} none
  | released {d : Nat} :
      Happens cfg s (.disconnect (.domain d))
        {s with links := update s.links (.domain d) .fresh,
                nbentry := update s.nbentry d none,
                target := update s.target d none} none
  | introduced {d : Nat} (hd : s.nbentry d = none) :
      Happens cfg s (.introduce d)
        {s with nbentry := update s.nbentry d (some 0),
                target := update s.target d none,
                links := update s.links (.domain d) .fresh} (some ack)
  | reset {d : Nat} (hd : s.nbentry d ≠ none) :
      Happens cfg s (.introduce d) (s.setTransactions (.domain d) ∅) (some ack)
  | targeted {d t : Nat} (target : Nat → Option Nat) (reply : Reply) :
      Happens cfg s (.setTarget d t) {s with target := target} (some reply)

theorem pickId_unused {ts : Transactions} {n next id after : Nat} (h : pickId ts n next = some (id,after)) :
  id ∉ ts := by
  induction n generalizing next with
  | zero => cases h
  | succ n ih =>
    rw [pickId] at h
    split at h
    · exact ih h
    rename_i hf
    obtain ⟨rfl,-⟩ := Prod.mk.inj (Option.some.inj h)
    exact fun hi => hf (.inr hi)

theorem doTransactionEnd_happens (cfg : Config) (s : State) (p : Peer) (tx : Nat) (payload : List Char) :
  Happens cfg s (.transactionEnd p tx payload) (doTransactionEnd s p tx (onearg payload)).1
    (some (doTransactionEnd s p tx (onearg payload)).2) := by
  by_cases hT : onearg payload = some ['T']
  · rw [hT,doTransactionEnd]
    cases ht : (s.links p).transactions.lookup tx with
    | none => exact .notOpen (AList.lookup_eq_none.mp ht)
    | some t =>
      dsimp only
      rw [if_pos rfl]
      split
      · exact .failed hT
      · rename_i hg
        exact .committed hT ht (not_not.mp hg)
  by_cases hF : onearg payload = some ['F']
  · rw [hF,doTransactionEnd]
    cases ht : (s.links p).transactions.lookup tx with
    | none => exact .notOpen (AList.lookup_eq_none.mp ht)
    | some t => exact .aborted hF
  rw [doTransactionEnd.eq_def]
  split
  · exact absurd ‹_› hT
  · exact absurd ‹_› hF
  · exact .badArg hT hF

variable {s s' : State} {cfg : Config} {a : Action}

theorem daemon_happens {reply : Option Reply} (h : daemon cfg s a = some (s',reply)) : Happens cfg s a s' reply := by
  cases a with
  | request p tx r =>
    rw [daemon] at h
    split at h
    · split_ifs at h with ht
      · cases h
        exact ht ▸ .immediate
      split at h
      · cases h
        exact .unknown ht ‹_›
      · cases h
        exact .within ht ‹_›
    · cases h
  | transactionStart p tx =>
    rw [daemon] at h
    split at h
    · split at h
      · rename_i ht
        subst ht
        rw [doTransactionStart] at h
        split at h
        · cases h
          exact .notStarted
        obtain ⟨⟨s1,reply1⟩,hs,hp⟩ := map_eq_some_iff.mp h
        obtain ⟨⟨id,next⟩,hi,hs⟩ := bind_eq_some_iff.mp hs
        cases hs
        cases hp
        exact .started (pickId_unused hi)
      split at h
      all_goals
        cases h
        exact .notStarted
    · cases h
  | transactionEnd p tx payload =>
    rw [daemon] at h
    split at h
    · split_ifs at h with ht
      · cases h
        exact .notOpen ht.2
      · cases h
        exact doTransactionEnd_happens cfg s p tx payload
    · cases h
  | disconnect p =>
    rw [daemon] at h
    split at h
    · cases p with
      | socket fd canWrite =>
        cases h
        exact .closed
      | domain d =>
        cases h
        exact .released
    · cases h
  | introduce d =>
    rw [daemon] at h
    split_ifs at h with hd
    · cases h
      exact .reset (isSome_iff_ne_none.mp hd)
    · cases h
      exact .introduced (not_isSome_iff_eq_none.mp hd)
  | setTarget d t =>
    rw [daemon] at h
    split at h
    · cases h
      exact .targeted _ _
    · cases h
      exact .targeted s.target _

theorem step_happens (h : step cfg s a = some s') : ∃ reply, Happens cfg s a s' reply := by
  obtain ⟨⟨s1,reply⟩,hs,rfl⟩ := map_eq_some_iff.mp h
  exact ⟨reply,daemon_happens hs⟩

def decimal (text : List Char) : Option Int :=
  if text.all Char.isDigit then some (text.foldl (fun n c => 10*n+(c.toNat-48 : Nat)) 0) else none

def defaultConfig : Config :=
  {nbEntryPerDomain := some 1000,maxEntrySize := some 2048,maxTransaction := some 10,strtol := decimal}

def manualNode (children : List Char) : Node :=
  {perms := {owner := {id := 0,read := false,write := false},others := []},data := [],children := children}

def setupStructure : Db :=
  (((∅ : Db).insert root (manualNode ("tool".toList ++ [nul]))).insert "/tool".toList
    (manualNode ("xenstored".toList ++ [nul]))).insert "/tool/xenstored".toList (manualNode [])

def State.boot : State :=
  {db := setupStructure,nbentry := fun _ => none,target := fun _ => none,links := fun _ => .fresh,
    generation := 0,corrupt := false}

end Xenstore
