import PMigrate.Core.PackedStrings
import PMigrate.Xenstore.Names
import Mathlib.Data.List.AList
import Mathlib.Tactic.Ring

namespace Xenstore

open PackedStrings Function

structure Perm where
  id : Nat
  (read write : Bool)
deriving DecidableEq

structure Perms where
  owner : Perm
  others : List Perm
deriving DecidableEq

def Perms.numPerms (p : Perms) : Nat := p.others.length+1

structure Node where
  perms : Perms
  (data children : List Char)
deriving DecidableEq

abbrev Db := AList fun _ : Name => Node

inductive Errno where
  | EINVAL | EACCES | ENOENT | ENOSPC | EBUSY | EAGAIN
deriving DecidableEq

inductive Reply where
  | error (e : Errno)
  | data (payload : List Char)
  | transaction (id : Nat)
deriving DecidableEq

def ack : Reply := .data ("OK".toList ++ [nul])

structure Conn where
  id : Nat
  canWrite : Bool
  target : Option Nat
  domain : Bool
deriving DecidableEq

def Conn.unprivileged (conn : Conn) : Bool := conn.domain && conn.id != 0

def getImplicitPath (conn : Conn) : Name :=
  if conn.domain then "/local/domain/".toList ++ Nat.toDigits 10 conn.id else "/local/domain/0".toList

-- A limit that is none is never reached. strtol stands for the C library's: the value of a text it
-- reads to the end.
structure Config where
  (nbEntryPerDomain maxEntrySize maxTransaction : Option Nat)
  strtol : List Char → Option Int

structure Rights where
  (read write owner : Bool)
deriving DecidableEq

def permRead : Rights := {read := true,write := false,owner := false}

def permWrite : Rights := {read := false,write := true,owner := false}

def permWriteOwner : Rights := {read := false,write := true,owner := true}

def Rights.covers (r need : Rights) : Bool :=
  (!need.read || r.read) && (!need.write || r.write) && (!need.owner || r.owner)

def Rights.meets (r need : Rights) : Bool :=
  need.read && r.read || need.write && r.write || need.owner && r.owner

def Conn.named (conn : Conn) (id : Nat) : Bool := id = conn.id ∨ conn.target = some id

def permForConn (conn : Conn) (perms : Perms) : Rights :=
  if conn.id = 0 ∨ conn.named perms.owner.id then {read := true,write := conn.canWrite,owner := true}
  else
    let p := (perms.others.find? fun p => conn.named p.id).getD perms.owner
    {read := p.read,write := p.write && conn.canWrite,owner := false}

def askParents (db : Db) (conn : Conn) : Nat → Name → Rights
  | 0,_ => {read := false,write := false,owner := false}
  | n+1,name =>
      match db.lookup (getParent name) with
      | some node => permForConn conn node.perms
      | none => askParents db conn n (getParent name)

def errnoFromParents (db : Db) (conn : Conn) (name : Name) (e : Errno) (perm : Rights) : Errno :=
  if (askParents db conn name.length name).meets perm then e else .EACCES

def getNode (db : Db) (conn : Conn) (name : Option Name) (perm : Rights) : Except Errno (Name × Node) :=
  match name with
  | none => .error .EINVAL
  | some name =>
      if isValidNodename name then
        match db.lookup name with
        | some node =>
            if (permForConn conn node.perms).covers perm then .ok (name,node)
            else .error (errnoFromParents db conn name .EACCES perm)
        | none => .error (errnoFromParents db conn name .ENOENT perm)
      else .error .EINVAL

def canonicalize (conn : Conn) (name : Name) : Name :=
  if name.head? = some '/' ∨ name.head? = some '@' then name
  else childName (getImplicitPath conn) name

def getString (payload : List Char) : Nat := if nul ∈ payload then (first nul payload).length+1 else 0

def onearg (payload : List Char) : Option Name :=
  if payload = [] ∨ getString payload ≠ payload.length then none else some (first nul payload)

def idText (id : Nat) : List Char :=
  (if id < 2^31 then Nat.toDigits 10 id else '-' :: Nat.toDigits 10 (2^32-id)).take 10

def permToString (p : Perm) : List Char := (match p.read,p.write with
    | false,true => 'w'
    | true,false => 'r'
    | true,true => 'b'
    | false,false => 'n') :: idText p.id

def permsToStrings (p : Perms) : List Char := pack nul ((p.owner :: p.others).map permToString)

def stringToPerm (cfg : Config) : List Char → Option Perm
  | [] => none
  | c :: text => do
      let (read,write) ← match c with
        | 'r' => some (true,false)
        | 'w' => some (false,true)
        | 'b' => some (true,true)
        | 'n' => some (false,false)
        | _ => none
      if text = [] then none
      else
        let v ← cfg.strtol text
        some {id := (v%2^32).toNat,read := read,write := write}

def stringsToPerms (cfg : Config) (strings : List (List Char)) : Option Perms := do
  match ← strings.mapM (stringToPerm cfg) with
  | p :: ps => some {owner := p,others := ps}
  | [] => none

structure Work where
  db : Db
  nbentry : Nat → Option Nat
  delta : Option (Nat → Int)
  corrupt : Bool

def Work.bump (w : Work) (d : Nat) : Work :=
  match w.delta with
  | some delta => {w with delta := some (update delta d (delta d+1))}
  | none => {w with nbentry := update w.nbentry d ((w.nbentry d).map (· + 1))}

def Work.drop (w : Work) (d : Nat) : Work :=
  match w.delta with
  | some delta => {w with delta := some (update delta d (delta d-1))}
  | none => {w with nbentry := update w.nbentry d ((w.nbentry d).map (· - 1))}

def domainEntryInc (conn : Conn) (perms : Perms) (w : Work) : Work :=
  if perms.owner.id ≠ conn.id then w.bump perms.owner.id
  else if conn.domain then w.bump conn.id
  else w

def domainEntryDec (conn : Conn) (perms : Perms) (w : Work) : Work :=
  if perms.owner.id ≠ conn.id then w.drop perms.owner.id
  else if conn.domain ∧ (w.nbentry conn.id).getD 0 ≠ 0 then w.drop conn.id
  else w

def domainEntry (conn : Conn) (w : Work) : Nat := if conn.unprivileged then (w.nbentry conn.id).getD 0 else 0

def Config.entriesReached (cfg : Config) (n : Nat) : Bool := cfg.nbEntryPerDomain.any (· ≤ n)

def entrySize (node : Node) : Nat := 3*4+node.perms.numPerms*8+node.data.length+node.children.length

def Config.refuses (cfg : Config) (conn : Conn) (node : Node) : Bool :=
  conn.unprivileged && cfg.maxEntrySize.any (· ≤ entrySize node)

def inherit (conn : Conn) (p : Perms) : Perms :=
  if conn.id ≠ 0 then {p with owner := {p.owner with id := conn.id}} else p

def addChild (parent : Node) (base : Name) : Node := {parent with children := parent.children ++ (base ++ [nul])}

def deleteNodeSingle (conn : Conn) (name : Name) (node : Node) (w : Work) : Work :=
  if name ∈ w.db then domainEntryDec conn node.perms {w with db := w.db.erase name}
  else {w with corrupt := true}

abbrev Built := Option ((Name × Node) × List (Name × Node))

def constructUnder (cfg : Config) (conn : Conn) (name : Name) : Built × Work → Built × Work
  | (none,w) => (none,w)
  | (some ((pname,parent),up),w) =>
      if cfg.entriesReached (domainEntry conn w) then (none,w)
      else
        let node : Node := {perms := inherit conn parent.perms,data := [],children := []}
        (some ((name,node),(pname,addChild parent (basename name)) :: up),domainEntryInc conn node.perms w)

def constructNode (cfg : Config) (conn : Conn) : Nat → Name → Work → Built × Work
  | 0,_,w => (none,w)
  | n+1,name,w =>
      match w.db.lookup (getParent name) with
      | some parent => constructUnder cfg conn name (some ((getParent name,parent),[]),w)
      | none => constructUnder cfg conn name (constructNode cfg conn n (getParent name) w)

-- Nodes that were written before one is refused are deleted again by their destructors.
def writeNodes (cfg : Config) (conn : Conn) : List (Name × Node) → Work → Option Errno × Work
  | [],w => (none,w)
  | (name,node) :: rest,w =>
      if cfg.refuses conn node then (some .ENOSPC,domainEntryDec conn node.perms w)
      else
        match writeNodes cfg conn rest {w with db := w.db.insert name node} with
        | (none,w') => (none,w')
        | (some e,w') => (some e,{w' with db := w'.db.erase name})

-- When construct_node gives up, errno is still what get_node left there.
def createNode (cfg : Config) (conn : Conn) (name : Name) (data : List Char) (w : Work) : Option Errno × Work :=
  match constructNode cfg conn name.length name w with
  | (none,w) => (some .ENOENT,w)
  | (some ((name,node),up),w) => writeNodes cfg conn ((name,{node with data := data}) :: up) w

structure Outcome where
  reply : Reply
  work : Work
  changed : Bool

def Outcome.fail (e : Errno) (w : Work) : Outcome := {reply := .error e,work := w,changed := false}

def created : Option Errno × Work → Outcome
  | (some e,w) => .fail e w
  | (none,w) => {reply := ack,work := w,changed := true}

section
variable (conn : Conn) (name : Option Name) (db : Db)

def sendDirectory : Reply :=
  match getNode db conn (name.map (canonicalize conn)) permRead with
  | .error e => .error e
  | .ok (_,node) => .data node.children

def doRead : Reply :=
  match getNode db conn (name.map (canonicalize conn)) permRead with
  | .error e => .error e
  | .ok (_,node) => .data node.data

def doGetPerms : Reply :=
  match getNode db conn (name.map (canonicalize conn)) permRead with
  | .error e => .error e
  | .ok (_,node) => .data (permsToStrings node.perms)

end

def doWrite (cfg : Config) (conn : Conn) (payload : List Char) (w : Work) : Outcome :=
  if nul ∈ payload then
    let name := canonicalize conn (first nul payload)
    let data := afterFirst nul payload
    match getNode w.db conn (some name) permWrite with
    | .error .ENOENT => created (createNode cfg conn name data w)
    | .error e => .fail e w
    | .ok (name,node) =>
        let node : Node := {node with data := data}
        if cfg.refuses conn node then .fail .ENOSPC w
        else {reply := ack,work := {w with db := w.db.insert name node},changed := true}
  else .fail .EINVAL w

def doMkdir (cfg : Config) (conn : Conn) (name : Option Name) (w : Work) : Outcome :=
  match name.map (canonicalize conn) with
  | none => .fail .EINVAL w
  | some name =>
      match getNode w.db conn (some name) permWrite with
      | .error .ENOENT => created (createNode cfg conn name [] w)
      | .error e => .fail e w
      | .ok _ => {reply := ack,work := w,changed := false}

def deleteNode (conn : Conn) : Nat → Name → Node → Work → Work
  | 0,_,_,w => w
  | n+1,name,node,w =>
      (unpack nul node.children).foldl (fun w base =>
        match w.db.lookup (childName name base) with
        | some child => deleteNode conn n (childName name base) child w
        | none => w) (deleteNodeSingle conn name node w)

section
variable (cfg : Config) (conn : Conn)

def rm (name : Name) (node : Node) (w : Work) : Outcome :=
  match w.db.lookup (getParent name) with
  | none => .fail .EINVAL w
  | some parent =>
      match cutString nul (basename name) parent.children.length parent.children with
      | none => .fail .EINVAL {w with corrupt := true}
      | some children =>
          let parent : Node := {parent with children := children}
          if cfg.refuses conn parent then .fail .EINVAL w
          else
            let w : Work := {w with db := w.db.insert (getParent name) parent}
            {reply := ack,work := deleteNode conn absPathMax name node w,changed := true}

def doRm (name : Option Name) (w : Work) : Outcome :=
  match name.map (canonicalize conn) with
  | none => .fail .EINVAL w
  | some name =>
      match getNode w.db conn (some name) permWrite with
      | .error .ENOENT =>
          if getParent name ∈ w.db then {reply := ack,work := w,changed := false} else .fail .ENOENT w
      | .error e => .fail e w
      | .ok (name,node) => if name = root then .fail .EINVAL w else rm cfg conn name node w

def doSetPerms (payload : List Char) (w : Work) : Outcome :=
  if payload.count nul < 2 then .fail .EINVAL w
  else
    let name := canonicalize conn (first nul payload)
    let permstr := afterFirst nul payload
    match getNode w.db conn (some name) permWriteOwner with
    | .error e => .fail e w
    | .ok (name,node) =>
        match stringsToPerms cfg ((unpack nul permstr).take (permstr.count nul)) with
        | none => .fail .EINVAL w
        | some perms =>
            -- send_error has no text for EPERM and falls back to EINVAL
            if conn.unprivileged ∧ perms.owner.id ≠ node.perms.owner.id then .fail .EINVAL w
            else
              let w := domainEntryInc conn perms (domainEntryDec conn node.perms w)
              let node : Node := {node with perms := perms}
              if cfg.refuses conn node then .fail .ENOSPC w
              else {reply := ack,work := {w with db := w.db.insert name node},changed := true}

end

inductive Request where
  | directory (payload : List Char)
  | read (payload : List Char)
  | getPerms (payload : List Char)
  | write (payload : List Char)
  | mkdir (payload : List Char)
  | rm (payload : List Char)
  | setPerms (payload : List Char)
deriving DecidableEq

def process (cfg : Config) (conn : Conn) (r : Request) (w : Work) : Outcome :=
  match r with
  | .directory payload => {reply := sendDirectory conn (onearg payload) w.db,work := w,changed := false}
  | .read payload => {reply := doRead conn (onearg payload) w.db,work := w,changed := false}
  | .getPerms payload => {reply := doGetPerms conn (onearg payload) w.db,work := w,changed := false}
  | .write payload => doWrite cfg conn payload w
  | .mkdir payload => doMkdir cfg conn (onearg payload) w
  | .rm payload => doRm cfg conn (onearg payload) w
  | .setPerms payload => doSetPerms cfg conn payload w

end Xenstore
