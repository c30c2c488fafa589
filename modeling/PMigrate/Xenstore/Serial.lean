import PMigrate.Xenstore.WellFormed

namespace Xenstore

open PackedStrings Transition Function Bool Option List

def Config.unlimited (cfg : Config) : Config := {cfg with nbEntryPerDomain := none,maxEntrySize := none}

variable {cfg : Config}

section
variable {conn : Conn} {w w' : Work}

theorem unlimited_size (node : Node) : cfg.unlimited.refuses conn node = false := and_false _

theorem constructUnder_built (name : Name) {res res' : Built × Work} (h : res.1 = res'.1) :
  (constructUnder cfg.unlimited conn name res).1 = (constructUnder cfg.unlimited conn name res').1 := by
  obtain ⟨built,v⟩ := res
  obtain ⟨built',v'⟩ := res'
  obtain rfl : built = built' := h
  cases built with
  | none => rfl
  | some b => rfl

theorem constructUnder_db (name : Name) {res : Built × Work} :
  (constructUnder cfg.unlimited conn name res).2.db = res.2.db := by
  obtain ⟨built,v⟩ := res
  cases built with
  | none => rfl
  | some b => exact inc_db

theorem constructNode_db (fuel : Nat) (name : Name) : (constructNode cfg.unlimited conn fuel name w).2.db = w.db := by
  induction fuel generalizing name with
  | zero => rfl
  | succ fuel ih =>
    rw [constructNode]
    split
    · exact constructUnder_db name
    · exact (constructUnder_db name).trans (ih _)

theorem constructNode_built (h : w.db = w'.db) (fuel : Nat) (name : Name) :
  (constructNode cfg.unlimited conn fuel name w).1 = (constructNode cfg.unlimited conn fuel name w').1 := by
  induction fuel generalizing name with
  | zero => rfl
  | succ fuel ih =>
    rw [constructNode,constructNode,h]
    cases w'.db.lookup (getParent name) with
    | some p => exact constructUnder_built name rfl
    | none => exact constructUnder_built name (ih _)

theorem writeNodes_unlimited (nodes : List (Name × Node)) : writeNodes cfg.unlimited conn nodes w =
    (none,{w with db := nodes.foldl (fun db z => db.insert z.1 z.2) w.db}) :=
  writeNodes_accepts fun z _ => unlimited_size z.2

structure Agree (out out' : Outcome) : Prop where
  reply : out.reply = out'.reply
  db : out.work.db = out'.work.db
  changed : out.changed = out'.changed

theorem createNode_agree (h : w.db = w'.db) (name : Name) (data : List Char) :
  Agree (created (createNode cfg.unlimited conn name data w))
  (created (createNode cfg.unlimited conn name data w')) := by
  have hb := @constructNode_built cfg conn w w' h name.length name
  have hd := @constructNode_db cfg conn w name.length name
  have hd' := @constructNode_db cfg conn w' name.length name
  rw [createNode,createNode]
  generalize constructNode cfg.unlimited conn name.length name w = res at hb hd
  generalize constructNode cfg.unlimited conn name.length name w' = res' at hb hd'
  obtain ⟨built,v⟩ := res
  obtain ⟨built',v'⟩ := res'
  obtain rfl : built = built' := hb
  have hv : v.db = v'.db := hd.trans (h.trans hd'.symm)
  cases built with
  | none => exact ⟨rfl,hv,rfl⟩
  | some b =>
    dsimp only
    rw [writeNodes_unlimited,writeNodes_unlimited,hv]
    exact ⟨rfl,rfl,rfl⟩

theorem deleteNode_db (h : w.db = w'.db) (fuel : Nat) (name : Name) (node : Node) :
  (deleteNode conn fuel name node w).db = (deleteNode conn fuel name node w').db := by
  induction fuel generalizing name node w w' with
  | zero => exact h
  | succ fuel ih =>
    rw [deleteNode,deleteNode]
    generalize unpack nul node.children = todo
    have hstart : (deleteNodeSingle conn name node w).db = (deleteNodeSingle conn name node w').db := by
      rw [deleteNodeSingle,deleteNodeSingle,h]
      split
      · rw [dec_db,dec_db]
      · rfl
    generalize deleteNodeSingle conn name node w = v at hstart
    generalize deleteNodeSingle conn name node w' = v' at hstart
    induction todo generalizing v v' with
    | nil => exact hstart
    | cons b todo ihtodo =>
      rw [foldl_cons,foldl_cons]
      refine ihtodo _ _ ?_
      rw [hstart]
      split
      · exact ih hstart _ _
      · exact hstart

theorem rm_agree (h : w.db = w'.db) (name : Name) (node : Node) :
  Agree (rm cfg.unlimited conn name node w) (rm cfg.unlimited conn name node w') := by
  rw [rm,rm,h]
  split
  · exact ⟨rfl,h,rfl⟩
  split
  · exact ⟨rfl,rfl,rfl⟩
  dsimp only
  rw [unlimited_size,if_neg Bool.false_ne_true,if_neg Bool.false_ne_true]
  refine ⟨rfl,deleteNode_db ?_ absPathMax name node,rfl⟩
  rfl

theorem process_agree (h : w.db = w'.db) (r : Request) :
  Agree (process cfg.unlimited conn r w) (process cfg.unlimited conn r w') := by
  cases r with
  | directory payload | read payload | getPerms payload => exact ⟨by rw [process,process,h],h,rfl⟩
  | write payload =>
    rw [process,process,doWrite,doWrite,h]
    split
    · dsimp only
      split
      · exact createNode_agree h _ _
      · exact ⟨rfl,h,rfl⟩
      · rw [unlimited_size,if_neg Bool.false_ne_true,if_neg Bool.false_ne_true]
        exact ⟨rfl,rfl,rfl⟩
    · exact ⟨rfl,h,rfl⟩
  | mkdir payload =>
    rw [process,process,doMkdir,doMkdir,h]
    split
    · exact ⟨rfl,h,rfl⟩
    split
    · exact createNode_agree h _ _
    · exact ⟨rfl,h,rfl⟩
    · exact ⟨rfl,h,rfl⟩
  | rm payload =>
    rw [process,process,doRm,doRm,h]
    split
    · exact ⟨rfl,h,rfl⟩
    split
    · split <;> exact ⟨rfl,h,rfl⟩
    · exact ⟨rfl,h,rfl⟩
    · split
      · exact ⟨rfl,h,rfl⟩
      · exact rm_agree h _ _
  | setPerms payload =>
    rw [process,process,doSetPerms,doSetPerms,h]
    split
    · exact ⟨rfl,h,rfl⟩
    dsimp only
    split
    · exact ⟨rfl,h,rfl⟩
    split
    · exact ⟨rfl,h,rfl⟩
    split
    · exact ⟨rfl,h,rfl⟩
    · rw [unlimited_size,if_neg Bool.false_ne_true,if_neg Bool.false_ne_true]
      exact ⟨rfl,by simp [h],rfl⟩

def Honest (w : Work) (out : Outcome) : Prop := out.changed = false → out.work.db = w.db

theorem honest_fail (e : Errno) : Honest w (.fail e w) := fun _ => rfl

theorem createNode_honest (name : Name) (data : List Char) :
  Honest w (created (createNode cfg.unlimited conn name data w)) := by
  have hd := @constructNode_db cfg conn w name.length name
  rw [createNode]
  generalize constructNode cfg.unlimited conn name.length name w = res at hd
  obtain ⟨built,v⟩ := res
  cases built with
  | none => exact fun _ => hd
  | some b =>
    dsimp only
    rw [writeNodes_unlimited]
    exact fun h => by cases h

theorem rm_honest (name : Name) (node : Node) : Honest w (rm cfg.unlimited conn name node w) := by
  rw [rm]
  split
  · exact honest_fail _
  split
  · exact fun _ => rfl
  dsimp only
  rw [unlimited_size,if_neg Bool.false_ne_true]
  exact fun h => by cases h

theorem process_honest (r : Request) : Honest w (process cfg.unlimited conn r w) := by
  cases r with
  | directory payload | read payload | getPerms payload => exact fun _ => rfl
  | write payload =>
    rw [process,doWrite]
    split
    · dsimp only
      split
      · exact createNode_honest _ _
      · exact honest_fail _
      · rw [unlimited_size,if_neg Bool.false_ne_true]
        exact fun h => by cases h
    · exact honest_fail _
  | mkdir payload =>
    rw [process,doMkdir]
    split
    · exact honest_fail _
    split
    · exact createNode_honest _ _
    · exact honest_fail _
    · exact fun _ => rfl
  | rm payload =>
    rw [process,doRm]
    split
    · exact honest_fail _
    split
    · split
      · exact fun _ => rfl
      · exact honest_fail _
    · exact honest_fail _
    · split
      · exact honest_fail _
      · exact rm_honest _ _
  | setPerms payload =>
    rw [process,doSetPerms]
    split
    · exact honest_fail _
    dsimp only
    split
    · exact honest_fail _
    split
    · exact honest_fail _
    split
    · exact honest_fail _
    · rw [unlimited_size,if_neg Bool.false_ne_true]
      exact fun h => by cases h

end

structure Entry where
  conn : Conn
  request : Request
  reply : Reply
deriving DecidableEq

def Entry.work (db : Db) : Work := {db := db,nbentry := fun _ => none,delta := none,corrupt := false}

def replay (cfg : Config) : Db → List Entry → Option Db
  | db,[] => some db
  | db,e :: es =>
      let out := process cfg.unlimited e.conn e.request (Entry.work db)
      if out.reply = e.reply then replay cfg out.work.db es else none

structure Event where
  action : Action
  conn : Conn
  reply : Option Reply

structure Order where
  serial : List Entry
  pending : Peer → Nat → Option (List Entry)

def Order.empty : Order := {serial := [],pending := fun _ _ => none}

def Order.setPending (o : Order) (p : Peer) (tx : Nat) (l : Option (List Entry)) : Order :=
  {o with pending := update o.pending p (update (o.pending p) tx l)}

def Order.drop (o : Order) (p : Peer) : Order := {o with pending := update o.pending p fun _ => none}

def Order.next (o : Order) (e : Event) : Order :=
  match e.action,e.reply with
  | .request p tx r,some reply =>
      let entry : Entry := {conn := e.conn,request := r,reply := reply}
      if tx = 0 then {o with serial := o.serial ++ [entry]}
      else match o.pending p tx with
        | some l => o.setPending p tx (some (l ++ [entry]))
        | none => o
  | .transactionStart p _,some (.transaction id) => o.setPending p id (some [])
  | .transactionEnd p tx payload,some reply =>
      match o.pending p tx with
      | none => o
      | some l =>
          if onearg payload = some ['T'] then
            {o.setPending p tx none with serial := if reply = ack then o.serial ++ l else o.serial}
          else if onearg payload = some ['F'] then o.setPending p tx none
          else o
  | .disconnect p,_ => o.drop p
  | .introduce d,_ => o.drop (.domain d)
  | _,_ => o

def serialOrder (trace : List Event) : Order := trace.foldl Order.next .empty

structure Traced where
  state : State
  trace : List Event

def Action.conn (s : State) : Action → Conn
  | .request p _ _ | .transactionStart p _ | .transactionEnd p _ _ | .disconnect p => p.conn s.target
  | .introduce _ | .setTarget _ _ => (Peer.socket 0 true).conn s.target

def tracedStep (cfg : Config) (s : Traced) (a : Action) : Option Traced := (daemon cfg s.state a).map fun res =>
    {state := res.1,trace := s.trace ++ [{action := a,conn := a.conn s.state,reply := res.2}]}

def State.work (s : State) (p : Peer) (tx : Nat) : Option Work :=
  if tx = 0 then some {db := s.db,nbentry := s.nbentry,delta := none,corrupt := s.corrupt}
  else ((s.links p).transactions.lookup tx).map fun t =>
    {db := t.db,nbentry := s.nbentry,delta := some t.delta,corrupt := s.corrupt}

-- No limit is felt by a request, and fewer than 2^32 changes are made before a transaction ends.
def Undisturbed (cfg : Config) (s : Traced) : Action → Prop
  | .request p tx r => ∀ w, s.state.work p tx = some w →
      Agree (process cfg (p.conn s.state.target) r w) (process cfg.unlimited (p.conn s.state.target) r w)
  | .transactionEnd p tx _ => ∀ t, (s.state.links p).transactions.lookup tx = some t →
      s.state.generation < t.generation+2^32
  | _ => True

section
variable {db : Db} {es es' : List Entry}

theorem replay_append : replay cfg db (es ++ es') = (replay cfg db es).bind fun db' => replay cfg db' es' := by
  induction es generalizing db with
  | nil => rfl
  | cons e es ih =>
    rw [cons_append,replay,replay]
    split
    · exact ih
    · rfl

theorem replay_one {w : Work} {conn : Conn} {r : Request} {out : Outcome}
  (h : Agree out (process cfg.unlimited conn r w)) :
  replay cfg w.db [{conn := conn,request := r,reply := out.reply}] = some out.work.db := by
  have hd : (Entry.work w.db).db = w.db := rfl
  have ha := @process_agree cfg conn _ _ hd r
  rw [replay]
  rw [if_pos (ha.reply.trans h.reply.symm),ha.db.trans h.db.symm]
  rfl

end

structure OpenAt (cfg : Config) (start : Db) (s : State) (o : Order) (t : Transaction) (l : List Entry) : Prop where
  before : t.generation ≤ s.generation
  ran : ∃ pre snapshot, pre <+: o.serial ∧ replay cfg start pre = some snapshot ∧
    replay cfg snapshot l = some t.db ∧ (t.generation = s.generation → snapshot = s.db)

section
variable {start : Db} {s s' : State} {o : Order}

theorem setPending_self (p : Peer) (tx : Nat) (l : Option (List Entry)) : (o.setPending p tx l).pending p tx = l := by
  simp only [Order.setPending,update_self]

variable {p : Peer} {tx : Nat} {t : Transaction} {l : List Entry} {o' : Order} {trace : List Event}

variable {r : Request} {q : Peer} {link : Link}

theorem setPending_peer (l : Option (List Entry)) (hq : q ≠ p) : (o.setPending p tx l).pending q = o.pending q :=
  update_of_ne hq ..

theorem setPending_other {tx' : Nat} (l : Option (List Entry)) (h : tx' ≠ tx) :
  (o.setPending p tx l).pending p tx' = o.pending p tx' := by
  simp only [Order.setPending,update_self,update_of_ne h]

theorem drop_self (p : Peer) (tx : Nat) : (o.drop p).pending p tx = none := by
  simp only [Order.drop,update_self]

theorem drop_peer (hq : q ≠ p) : (o.drop p).pending q = o.pending q := update_of_ne hq ..

section
variable (cfg : Config) (start : Db) (s : State) (o : Order)

def Matched (p : Peer) (tx : Nat) : Prop :=
  match (s.links p).transactions.lookup tx with
  | none => o.pending p tx = none
  | some t => ∃ l, o.pending p tx = some l ∧ OpenAt cfg start s o t l

structure Serialised : Prop where
  store : replay cfg start o.serial = some s.db
  matched : ∀ p tx, Matched cfg start s o p tx

end

theorem Matched.closed (h : Matched cfg start s o p tx)
  (ht : (s.links p).transactions.lookup tx = none) : o.pending p tx = none := by
  rwa [Matched,ht] at h

theorem Matched.opened (h : Matched cfg start s o p tx) (ht : (s.links p).transactions.lookup tx = some t) :
  ∃ l, o.pending p tx = some l ∧ OpenAt cfg start s o t l := by
  rwa [Matched,ht] at h

theorem matched_closed (ht : (s.links p).transactions.lookup tx = none)
  (ho : o.pending p tx = none) : Matched cfg start s o p tx := by
  rwa [Matched,ht]

theorem matched_opened (ht : (s.links p).transactions.lookup tx = some t) (ho : o.pending p tx = some l)
  (h : OpenAt cfg start s o t l) : Matched cfg start s o p tx := by
  rw [Matched,ht]
  exact ⟨l,ho,h⟩

structure Onward (s s' : State) (o o' : Order) : Prop where
  serial : o.serial <+: o'.serial
  counted : s.generation ≤ s'.generation
  kept : s'.generation = s.generation → s'.db = s.db

theorem Onward.of_same (hs : o'.serial = o.serial) (hg : s'.generation = s.generation) (hd : s'.db = s.db) :
  Onward s s' o o' :=
  ⟨hs ▸ prefix_rfl,hg.ge,fun _ => hd⟩

theorem OpenAt.later (h : OpenAt cfg start s o t l) (ho : Onward s s' o o') : OpenAt cfg start s' o' t l := by
  obtain ⟨hb,pre,snapshot,hp,hs,hr,ha⟩ := h
  refine ⟨hb.trans ho.counted,pre,snapshot,hp.trans ho.serial,hs,hr,fun he => ?_⟩
  have hg : s'.generation = s.generation := le_antisymm (he ▸ hb) ho.counted
  rw [ho.kept hg]
  exact ha (he.trans hg)

theorem Matched.later (h : Matched cfg start s o p tx) (hn : Onward s s' o o')
  (hi : (s'.links p).transactions.lookup tx = (s.links p).transactions.lookup tx)
  (hp : o'.pending p tx = o.pending p tx) : Matched cfg start s' o' p tx := by
  cases ht : (s.links p).transactions.lookup tx with
  | none => exact matched_closed (hi.trans ht) (hp.trans (h.closed ht))
  | some t =>
    obtain ⟨l,hl,ho⟩ := h.opened ht
    exact matched_opened (hi.trans ht) (hp.trans hl) (ho.later hn)

theorem Serialised.at_peer (p : Peer) (h : Serialised cfg start s o) (ho : Onward s s' o o')
  (hs : replay cfg start o'.serial = some s'.db) (hl : ∀ q, q ≠ p → s'.links q = s.links q)
  (he : ∀ q, q ≠ p → o'.pending q = o.pending q) (hp : ∀ tx, Matched cfg start s' o' p tx) :
  Serialised cfg start s' o' := by
  refine ⟨hs,fun q tx => ?_⟩
  by_cases hq : q = p
  · exact hq ▸ hp tx
  · exact (h.matched q tx).later ho (by rw [hl q hq]) (by rw [he q hq])

variable (h : Serialised cfg start s o)
include h

theorem Serialised.at_transaction {id : Nat}
  (ho : Onward s s' o o') (hs : replay cfg start o'.serial = some s'.db) (hl : s'.links = update s.links p link)
  (ha : ∀ tx, tx ≠ id → link.transactions.lookup tx = (s.links p).transactions.lookup tx)
  {l : Option (List Entry)} (hp : o'.pending = (o.setPending p id l).pending)
  (hi : Matched cfg start s' o' p id) : Serialised cfg start s' o' := by
  have he : s'.links p = link := by rw [hl,update_self]
  refine h.at_peer p ho hs (fun q hq => ?_) (fun q hq => ?_) fun tx => ?_
  · rw [hl,update_of_ne hq]
  · rw [hp,setPending_peer l hq]
  · by_cases ht : tx = id
    · exact ht ▸ hi
    refine (h.matched p tx).later ho ?_ ?_
    · rw [he,ha tx ht]
    · rw [hp,setPending_other l ht]

theorem Serialised.emptied (hi : link.transactions = ∅)
  (hl : s'.links = update s.links p link) (hg : s'.generation = s.generation)
  (hd : s'.db = s.db) : Serialised cfg start s' (o.drop p) := by
  refine h.at_peer p (.of_same rfl hg hd) (hd ▸ h.store) (fun q hq => ?_) (fun q hq => drop_peer hq) fun tx => ?_
  · rw [hl,update_of_ne hq]
  refine matched_closed ?_ (drop_self p tx)
  rw [hl,update_self,hi]
  rfl

theorem Serialised.immediate (hq : Undisturbed cfg {state := s,trace := trace} (.request p 0 r)) :
  Serialised cfg start (immediate cfg s p r).1
    (o.next {action := .request p 0 r,conn := p.conn s.target,reply := some (immediate cfg s p r).2}) := by
  set w : Work := {db := s.db,nbentry := s.nbentry,delta := none,corrupt := s.corrupt} with hw
  have ha := hq w rfl
  have hh := @process_honest cfg (p.conn s.target) w r
  have ho := replay_one ha
  have hn : Onward s (Xenstore.immediate cfg s p r).1 o
      (o.next {action := .request p 0 r,conn := p.conn s.target,reply := some (Xenstore.immediate cfg s p r).2}) := by
    refine ⟨prefix_append ..,?_,fun hg => ?_⟩
    · simp only [Xenstore.immediate]
      split <;> omega
    simp only [Xenstore.immediate] at hg ⊢
    split at hg
    · omega
    rename_i hc
    rw [← hw,ha.db]
    exact hh (ha.changed ▸ eq_false_iff.mpr hc)
  refine ⟨?_,fun q tx => (h.matched q tx).later hn rfl rfl⟩
  have hs := @replay_append cfg start o.serial
    [{conn := p.conn s.target,request := r,reply := (Xenstore.immediate cfg s p r).2}]
  rw [h.store] at hs
  exact hs.trans ho

theorem Serialised.within (hx : tx ≠ 0) (ht : (s.links p).transactions.lookup tx = some t)
  (hq : Undisturbed cfg {state := s,trace := trace} (.request p tx r)) :
  Serialised cfg start (within cfg s p tx t r).1
    (o.next {action := .request p tx r,conn := p.conn s.target,reply := some (within cfg s p tx t r).2}) := by
  set w : Work := {db := t.db,nbentry := s.nbentry,delta := some t.delta,corrupt := s.corrupt} with hw
  have hc : s.work p tx = some w := by
    rw [State.work,if_neg hx,ht]
    rfl
  have ho := replay_one (hq w hc)
  obtain ⟨l,hl,hb,pre,snapshot,hp,hs,hr,ha⟩ := (h.matched p tx).opened ht
  have hn : o.next
        {action := .request p tx r,conn := p.conn s.target,reply := some (Xenstore.within cfg s p tx t r).2} =
      o.setPending p tx (some
        (l ++ [{conn := p.conn s.target,request := r,reply := (Xenstore.within cfg s p tx t r).2}])) := by
    simp only [Order.next]
    rw [if_neg hx,hl]
  rw [hn]
  refine h.at_transaction (.of_same rfl rfl rfl) h.store rfl (fun tx' htx' => AList.lookup_insert_ne htx') rfl ?_
  set out := process cfg (p.conn s.target) r w
  have hd : ((Xenstore.within cfg s p tx t r).1.links p).transactions.lookup tx =
      some {t with db := out.work.db,delta := out.work.delta.getD t.delta} := by
    simp only [Xenstore.within,State.setTransactions,update_self]
    exact AList.lookup_insert _
  refine matched_opened hd (setPending_self p tx _) ⟨hb,pre,snapshot,hp,hs,?_,ha⟩
  rw [replay_append,hr]
  exact ho

theorem Serialised.erased (p : Peer) (tx : Nat) :
  Serialised cfg start (s.setTransactions p ((s.links p).transactions.erase tx)) (o.setPending p tx none) := by
  refine h.at_transaction (.of_same rfl rfl rfl) h.store rfl (fun tx' ht' => AList.lookup_erase_ne ht') rfl ?_
  refine matched_closed ?_ (setPending_self p tx none)
  simp only [State.setTransactions,update_self]
  exact AList.lookup_erase tx _

theorem Serialised.committed (ht : (s.links p).transactions.lookup tx = some t) (hl : o.pending p tx = some l)
  (hg : t.generation%2^32 = s.generation%2^32) (hf : s.generation < t.generation+2^32) :
  Serialised cfg start {s.setTransactions p ((s.links p).transactions.erase tx) with
      db := t.db,nbentry := domainEntryFix s.nbentry t.delta,generation := s.generation+1}
    {o.setPending p tx none with serial := o.serial ++ l} := by
  obtain ⟨l',hl',hb,pre,snapshot,hp,hn,hr,ha⟩ := (h.matched p tx).opened ht
  obtain rfl : l = l' := some.inj (hl.symm.trans hl')
  have hs : t.generation = s.generation := by omega
  rw [ha hs] at hr
  refine h.at_transaction ⟨prefix_append ..,Nat.le_succ _,fun he => absurd he (Nat.succ_ne_self _)⟩ ?_ rfl
    (fun tx' hx' => AList.lookup_erase_ne hx') rfl ?_
  · rw [replay_append,h.store]
    exact hr
  refine matched_closed ?_ (setPending_self p tx none)
  simp only [State.setTransactions,update_self]
  exact AList.lookup_erase tx _

theorem Serialised.started (p : Peer) (id next : Nat) : Serialised cfg start
    {s with links := update s.links p
              {nextTransactionId := next,transactions := (s.links p).transactions.insert id
                 {generation := s.generation,db := s.db,delta := fun _ => 0}}}
    (o.setPending p id (some [])) := by
  refine h.at_transaction (.of_same rfl rfl rfl) h.store rfl (fun tx' ht' => AList.lookup_insert_ne ht') rfl ?_
  refine matched_opened (t := {generation := s.generation,db := s.db,delta := fun _ => 0}) ?_
    (setPending_self p id _) ⟨le_rfl,o.serial,s.db,prefix_rfl,h.store,rfl,fun _ => rfl⟩
  simp only [update_self]
  exact AList.lookup_insert _

theorem Serialised.ended {payload : List Char} {reply : Reply}
  {conn : Conn} (ha : onearg payload = some ['T'] ∧ reply ≠ ack ∨ onearg payload = some ['F']) :
  Serialised cfg start (s.setTransactions p ((s.links p).transactions.erase tx))
    (o.next {action := .transactionEnd p tx payload,conn := conn,reply := some reply}) := by
  cases hl : o.pending p tx with
  | none =>
    have hn : o.next {action := .transactionEnd p tx payload,conn := conn,reply := some reply} = o := by
      simp only [Order.next]
      rw [hl]
    have hs : o.setPending p tx none = o := by rw [Order.setPending,← hl,update_eq_self,update_eq_self]
    rw [hn,← hs]
    exact h.erased p tx
  | some l =>
    have hn : o.next {action := .transactionEnd p tx payload,conn := conn,reply := some reply} =
        o.setPending p tx none := by
      simp only [Order.next]
      rw [hl]
      dsimp only
      rcases ha with ⟨hT,hr⟩ | hF
      · rw [if_pos hT,if_neg hr]
        rfl
      · rw [if_neg (by rw [hF]; decide),if_pos hF]
    rw [hn]
    exact h.erased p tx

theorem Serialised.step {a : Action} {reply : Option Reply}
  (hq : Undisturbed cfg {state := s,trace := trace} a) (ha : Happens cfg s a s' reply) :
  Serialised cfg start s' (o.next {action := a,conn := a.conn s,reply := reply}) := by
  cases ha with
  | immediate => exact h.immediate hq
  | within hx ht => exact h.within hx ht hq
  | @unknown p tx r hx ht =>
    have hn : o.next {action := .request p tx r,conn := p.conn s.target,reply := some (.error .ENOENT)} = o := by
      simp only [Order.next]
      rw [if_neg hx,(h.matched p tx).closed ht]
    rw [Action.conn,hn]
    exact h
  | started hi => exact h.started _ _ _
  | notStarted => exact h
  | @committed p tx t payload hr ht hg =>
    obtain ⟨l,hl,-⟩ := (h.matched p tx).opened ht
    have hn : o.next {action := .transactionEnd p tx payload,conn := p.conn s.target,reply := some ack} =
        {o.setPending p tx none with serial := o.serial ++ l} := by
      simp only [Order.next]
      rw [hl]
      dsimp only
      rw [if_pos hr,if_pos trivial]
    rw [Action.conn,hn]
    exact h.committed ht hl hg (hq t ht)
  | failed hr => exact h.ended (.inl ⟨hr,by decide⟩)
  | aborted hr => exact h.ended (.inr hr)
  | @notOpen p tx payload ht e =>
    have hn : o.next {action := .transactionEnd p tx payload,conn := p.conn s.target,reply := some (.error e)} = o := by
      simp only [Order.next]
      rw [(h.matched p tx).closed (AList.lookup_eq_none.mpr ht)]
    rw [Action.conn,hn]
    exact h
  | @badArg p tx payload hT hF e =>
    have hn : o.next {action := .transactionEnd p tx payload,conn := p.conn s.target,reply := some (.error e)} = o := by
      simp only [Order.next]
      split
      · rfl
      · rw [if_neg hT,if_neg hF]
    rw [Action.conn,hn]
    exact h
  | closed | released | introduced hd | reset hd => exact h.emptied rfl rfl rfl rfl
  | targeted target reply => exact ⟨h.store,fun p tx => (h.matched p tx).later (.of_same rfl rfl rfl) rfl rfl⟩

end

def touchesStore (a : Action) (reply : Option Reply) : Bool :=
  match a with
  | .request _ tx _ => tx = 0
  | .transactionEnd _ _ payload => onearg payload = some ['T'] ∧ reply = some ack
  | _ => false

variable {cfg : Config} {a : Action}

theorem Happens.untouched {s s' : State} {reply : Option Reply}
  (h : Happens cfg s a s' reply) (ha : touchesStore a reply = false) : s'.db = s.db := by
  cases h with
  | immediate => cases ha
  | committed hr ht hg =>
    rw [touchesStore,hr] at ha
    cases ha
  | within hx ht => rfl
  | unknown hx ht => rfl
  | started hi => rfl
  | notStarted => rfl
  | failed hr => rfl
  | aborted hr => rfl
  | notOpen ht => rfl
  | badArg hT hF => rfl
  | closed => rfl
  | released => rfl
  | introduced hd => rfl
  | reset hd => rfl
  | targeted target reply => rfl

section
variable {start : State} {s : Traced}

variable (hstart : ∀ p, (start.links p).transactions = ∅)
include hstart

theorem serialised_start : Serialised cfg start.db start .empty :=
  ⟨rfl,fun p tx => matched_closed (by rw [hstart p]; rfl) rfl⟩

theorem serialised_reach (hr : Reach (tracedStep cfg) (Undisturbed cfg) {state := start,trace := []} s) :
  Serialised cfg start.db s.state (serialOrder s.trace) := by
  refine reach_invariant (I := fun s : Traced => Serialised cfg start.db s.state (serialOrder s.trace))
    (serialised_start hstart) (fun u a v _ hu hq hs => ?_) hr
  obtain ⟨⟨s',reply⟩,hd,rfl⟩ := map_eq_some_iff.mp hs
  rw [serialOrder,foldl_append]
  exact hu.step hq (daemon_happens hd)

theorem transactions_serialisable (hrun : Reach (tracedStep cfg) (Undisturbed cfg) {state := start,trace := []} s) :
  replay cfg start.db (serialOrder s.trace).serial = some s.state.db ∧
  (∀ p tx t, (s.state.links p).transactions.lookup tx = some t →
    ∃ pre snapshot l, pre <+: (serialOrder s.trace).serial ∧ replay cfg start.db pre = some snapshot ∧
      (serialOrder s.trace).pending p tx = some l ∧ replay cfg snapshot l = some t.db) ∧
  (∀ a s' reply, daemon cfg s.state a = some (s',reply) → touchesStore a reply = false → s'.db = s.state.db) := by
  have h := serialised_reach hstart hrun
  refine ⟨h.store,fun p tx t ht => ?_,fun a s' reply ha => (daemon_happens ha).untouched⟩
  obtain ⟨l,hl,-,pre,snapshot,hp,hs,hr,-⟩ := (h.matched p tx).opened ht
  exact ⟨pre,snapshot,l,hp,hs,hl,hr⟩

end

def undisturbed (cfg : Config) (s : Traced) : Action → Bool
  | .request p tx r => (s.state.work p tx).all fun w =>
      let out := process cfg (p.conn s.state.target) r w
      let free := process cfg.unlimited (p.conn s.state.target) r w
      decide (out.reply = free.reply) && decide (out.work.db.entries = free.work.db.entries) &&
        decide (out.changed = free.changed)
  | .transactionEnd p tx _ => ((s.state.links p).transactions.lookup tx).all fun t =>
      decide (s.state.generation < t.generation+2^32)
  | _ => true

theorem undisturbed_sound {s : Traced} (h : undisturbed cfg s a = true) :
  Undisturbed cfg s a := by
  cases a with
  | request p tx r =>
    intro w hw
    rw [undisturbed,hw] at h
    simp only [all_some,and_eq_true,decide_eq_true_eq] at h
    exact ⟨h.1.1,AList.ext h.1.2,h.2⟩
  | transactionEnd p tx payload =>
    intro t ht
    rw [undisturbed,ht,all_some] at h
    exact of_decide_eq_true h
  | transactionStart p tx | disconnect p | introduce d | setTarget d t => trivial

def rivals : List Action := [.transactionStart (.socket 0 true) 0,.transactionStart (.socket 1 true) 0,
    .request (.socket 0 true) 1 (.read (text "/tool/lock")),
    .request (.socket 1 true) 1 (.write (text "/tool/lock" ++ "one".toList)),
    .request (.socket 0 true) 1 (.write (text "/tool/lock" ++ "zero".toList)),
    .transactionEnd (.socket 0 true) 1 (text "T"),.request (.socket 2 false) 0 (.read (text "/tool/lock")),
    .transactionEnd (.socket 1 true) 1 (text "T")]

def rivalsEnd : Traced :=
  (runIf (tracedStep defaultConfig) (undisturbed defaultConfig) {state := .boot,trace := []} rivals).get
    (by decide +kernel)

theorem rivals_serialisable :
  (serialOrder rivalsEnd.trace).serial.map Entry.reply = [.error .ENOENT,ack,.data "zero".toList] ∧
  replay defaultConfig State.boot.db (serialOrder rivalsEnd.trace).serial = some rivalsEnd.state.db := by
  exact ⟨by decide +kernel,
    (transactions_serialisable (fun _ => rfl) (reach_get (fun _ _ => undisturbed_sound) _)).1⟩

end Xenstore
