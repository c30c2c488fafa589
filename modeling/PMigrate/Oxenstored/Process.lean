import PMigrate.Core.PackedStrings
import PMigrate.Oxenstored.Store

namespace Oxenstored

open PathTree PackedStrings

inductive WriteOp where
  | write
  | mkdir
  | rm
  | setperms
deriving DecidableEq

structure Transaction (τ : Type) where
  oldroot : Option (Node τ)
  store : Store τ
  ops : List (WriteOp × Path)
  (readLowpath writeLowpath : Option Path)

def Transaction.immediate {τ : Type} (store : Store τ) : Transaction τ :=
  {oldroot := none,store := store,ops := [],readLowpath := none,writeLowpath := none}

def Transaction.full {τ : Type} (store : Store τ) : Transaction τ :=
  {oldroot := some store.root,store := store,ops := [],readLowpath := none,writeLowpath := none}

def getLowest (path1 : Path) (path2 : Option Path) : Option Path :=
  match path2 with
  | none => some path1
  | some path2 => some (getCommonPrefix path1 path2)

namespace Transaction
variable {τ : Type}

def addWop (ty : WriteOp) (path : Path) (t : Transaction τ) : Transaction τ := {t with ops := (ty,path) :: t.ops}

def setReadLowpath (path : Path) (t : Transaction τ) : Transaction τ :=
  {t with readLowpath := getLowest path t.readLowpath}

def setWriteLowpath (path : Path) (t : Transaction τ) : Transaction τ :=
  {t with writeLowpath := getLowest path t.writeLowpath}

variable (cfg : Config) (a : τ) (perm : ConnPerms)

def write (path : Path) (value : List Char) (t : Transaction τ) : Except Exn (Transaction τ) := do
  let store ← Store.write cfg a perm path value t.store
  let lowpath := if pathExists t.store.root path then path else getParent path
  .ok (addWop .write path (setWriteLowpath lowpath {t with store := store}))

def mkdir (withWatch : Bool) (path : Path) (t : Transaction τ) : Except Exn (Transaction τ) := do
  let store ← Store.mkdir cfg a perm path t.store
  let t := setWriteLowpath path {t with store := store}
  .ok (if withWatch then addWop .mkdir path t else t)

def setperms (path : Path) (perms : NodePerms) (t : Transaction τ) : Except Exn (Transaction τ) := do
  let store ← Store.setperms cfg a perm path perms t.store
  .ok (addWop .setperms path (setWriteLowpath path {t with store := store}))

def rm (path : Path) (t : Transaction τ) : Except Exn (Transaction τ) := do
  let store ← Store.rm cfg a perm path t.store
  .ok (addWop .rm path (setWriteLowpath (getParent path) {t with store := store}))

def ls (path : Path) (t : Transaction τ) : Except Exn (List Name × Transaction τ) := do
  let r ← Oxenstored.ls cfg perm t.store.root path
  .ok (r,setReadLowpath path t)

def read (path : Path) (t : Transaction τ) : Except Exn (List Char × Transaction τ) := do
  let r ← Oxenstored.read cfg perm t.store.root path
  .ok (r,setReadLowpath path t)

def getperms (path : Path) (t : Transaction τ) : Except Exn (NodePerms × Transaction τ) := do
  let r ← Oxenstored.getperms cfg perm t.store.root path
  .ok (r,setReadLowpath path t)

end Transaction

structure Con where
  dom : Option Nat
  perm : ConnPerms
deriving DecidableEq

def Con.getPath (con : Con) : List Char :=
  "/local/domain/".toList ++ (Nat.repr (con.dom.getD 0)).toList ++ ['/']

def split : Nat → Char → List Char → List (List Char)
  | n+2,c,s => if c ∈ s then first c s :: split (n+1) c (afterFirst c s) else [s]
  | _,_,s => [s]

def splitOnePath (data : List Char) (con : Con) : Except Exn Path :=
  match split 2 nul data with
  | [path,[]] => Path.create path con.getPath
  | _ => .error .invalidCmdArgs

inductive Reply where
  | data (d : List Char)
  | ack
  | error (errno : List Char)
deriving DecidableEq

variable {τ : Type}

section
variable (cfg : Config) (a : τ) (con : Con)

def mkdirAll : List Path → Transaction τ → Except Exn Unit × Transaction τ
  | [],t => (.ok (),t)
  | s :: ss,t =>
      match t.mkdir cfg a con.perm false s with
      | .ok t' => mkdirAll ss t'
      | .error e => (.error e,t)

def checkPath (t : Transaction τ) (p : List Path) : List Path := p.dropWhile (pathExists t.store.root ·)

def createImplicitPath (path : Path) (t : Transaction τ) : Except Exn Unit × Transaction τ :=
  let dirname := getParent path
  if pathExists t.store.root dirname then (.ok (),t)
  else mkdirAll cfg a con (checkPath t (getHierarchy dirname).tail) t

def answering {α : Type} (op : Path → Transaction τ → Except Exn (α × Transaction τ)) (render : α → List Char)
    (data : List Char) (t : Transaction τ) : Except Exn Reply × Transaction τ :=
  match (splitOnePath data con).bind fun path => op path t with
  | .ok (v,t') => (.ok (.data (render v)),t')
  | .error e => (.error e,t)

def joinEntries (entries : List Name) : List Char :=
  if 0 < entries.length then List.intercalate [nul] entries ++ [nul] else []

def doDirectory : List Char → Transaction τ → Except Exn Reply × Transaction τ :=
  answering con (fun path t => t.ls cfg con.perm path) joinEntries

def doRead : List Char → Transaction τ → Except Exn Reply × Transaction τ :=
  answering con (fun path t => t.read cfg con.perm path) fun value => value

def doGetperms : List Char → Transaction τ → Except Exn Reply × Transaction τ :=
  answering con (fun path t => t.getperms cfg con.perm path) fun perms => perms.toString ++ [nul]

section
variable (data : List Char)

def writeArgs : Except Exn (Path × List Char) :=
  match split 2 nul data with
  | [path,value] => (Path.create path con.getPath).map fun path => (path,value)
  | _ => .error .invalidCmdArgs

def doWrite (t : Transaction τ) : Except Exn Reply × Transaction τ :=
  match writeArgs con data with
  | .error e => (.error e,t)
  | .ok (path,value) =>
      match createImplicitPath cfg a con path t with
      | (.error e,t') => (.error e,t')
      | (.ok (),t') =>
          match t'.write cfg a con.perm path value with
          | .ok t'' => (.ok .ack,t'')
          | .error e => (.error e,t')

def doMkdir (t : Transaction τ) : Except Exn Reply × Transaction τ :=
  match splitOnePath data con with
  | .error e => (.error e,t)
  | .ok path =>
      match createImplicitPath cfg a con path t with
      | (.error e,t') => (.error e,t')
      | (.ok (),t') =>
          match t'.mkdir cfg a con.perm true path with
          | .ok t'' => (.ok .ack,t'')
          | .error .alreadyExist => (.ok .ack,t')
          | .error e => (.error e,t')

def doRm (t : Transaction τ) : Except Exn Reply × Transaction τ :=
  match splitOnePath data con with
  | .error e => (.error e,t)
  | .ok path =>
      match t.rm cfg a con.perm path with
      | .ok t' => (.ok .ack,t')
      | .error .doesntExist => (.ok .ack,t)
      | .error e => (.error e,t)

def setpermsArgs : Except Exn (Path × NodePerms) :=
  match split 2 nul data with
  | path :: perms :: _ => do
      let path ← Path.create path con.getPath
      let perms ← NodePerms.ofString cfg perms
      .ok (path,perms)
  | _ => .error .invalidCmdArgs

def doSetperms (t : Transaction τ) : Except Exn Reply × Transaction τ :=
  match (setpermsArgs cfg con data).bind fun args => t.setperms cfg a con.perm args.1 args.2 with
  | .ok t' => (.ok .ack,t')
  | .error e => (.error e,t)

end

end

inductive Request where
  | directory (data : List Char)
  | read (data : List Char)
  | getperms (data : List Char)
  | write (data : List Char)
  | mkdir (data : List Char)
  | rm (data : List Char)
  | setperms (data : List Char)
deriving DecidableEq

section
variable (cfg : Config) (a : τ) (con : Con)

def functionOfType : Request → Transaction τ → Except Exn Reply × Transaction τ
  | .directory data => doDirectory cfg con data
  | .read data => doRead cfg con data
  | .getperms data => doGetperms cfg con data
  | .write data => doWrite cfg a con data
  | .mkdir data => doMkdir cfg a con data
  | .rm data => doRm cfg a con data
  | .setperms data => doSetperms cfg a con data

def replyOf : Except Exn Reply → Reply
  | .ok reply => reply
  | .error e => .error e.errno

def inputHandleError (r : Request) (t : Transaction τ) : Reply × Transaction τ :=
  let res := functionOfType cfg a con r t
  (replyOf res.1,res.2)

end

end Oxenstored
