import PMigrate.Core.PathTree
import PMigrate.Oxenstored.Perms

namespace Oxenstored

open PathTree

structure Content where
  perms : NodePerms
  value : List Char
deriving DecidableEq

-- The stamp of a node is the request that allocated the record. A request leaves at most one record at
-- each path, so two records at the same path are the same one exactly when their stamps agree.
abbrev Node (τ : Type) := PathTree τ Name Content

abbrev Path := List Name

section
variable {τ : Type}

def create (a : τ) (name : Name) (perms : NodePerms) (value : List Char) : Node τ :=
  {stamp := a,key := name,label := {perms := perms,value := value},children := []}

def getOwner (node : Node τ) : Domid := node.label.perms.owner

def setValue (a : τ) (node : Node τ) (nvalue : List Char) : Node τ :=
  if node.label.value = nvalue then node
  else {node with stamp := a,label := {node.label with value := nvalue}}

def setPerms (a : τ) (node : Node τ) (nperms : NodePerms) : Node τ :=
  {node with stamp := a,label := {node.label with perms := nperms}}

def addChild (a : τ) (node child : Node τ) : Node τ := {node with stamp := a,children := child :: node.children}

def replaceChild (a : τ) (node child nchild : Node τ) : Node τ :=
  {node with stamp := a,children := replaceFirst child.key nchild node.children}

def delChildname (a : τ) (node : Node τ) (childname : Name) : Except Exn (Node τ) :=
  match node.find childname with
  | none => .error .notFound
  | some _ => .ok {node with stamp := a,children := deleteFirst childname node.children}

def delAllChildren (a : τ) (node : Node τ) : Node τ := {node with stamp := a,children := []}

def checkPerm (cfg : Config) (node : Node τ) (connection : ConnPerms) (request : Permty) : Except Exn Unit :=
  check cfg connection request node.label.perms

def Node.checkOwner (cfg : Config) (node : Node τ) (connection : ConnPerms) : Except Exn Unit :=
  if Oxenstored.checkOwner cfg connection node.label.perms then .ok () else .error .permissionDenied

mutual
def owners : Node τ → List Domid
  | ⟨_,_,label,children⟩ => label.perms.owner :: ownersAll children

def ownersAll : List (Node τ) → List Domid
  | [] => []
  | c :: cs => owners c ++ ownersAll cs
end

end

variable {τ : Type}

def charIsValid (c : Char) : Bool :=
  ('a' ≤ c && c ≤ 'z') || ('A' ≤ c && c ≤ 'Z') || ('0' ≤ c && c ≤ '9') || c = '_' || c = '-' || c = '@'

def nameIsValid (name : Name) : Bool := name ≠ [] && name.all charIsValid

def isValid (path : Path) : Bool := path.all nameIsValid

def Path.ofString (s : List Char) : Except Exn Path :=
  if s.head? = some '@' then .ok [s]
  else if s = ['/'] then .ok []
  else match s.splitOn '/' with
    | [] :: path => if isValid path then .ok path else .error .invalidPath
    | _ => .error .invalidPath

def pathValidate (path connectionPath : List Char) : Except Exn (List Char) :=
  if path.length = 0 ∨ 1024 < path.length then .error .invalidPath
  else
    let cpath := if path.head? = some '/' then path else connectionPath ++ path
    if cpath.head? = some '/' then .ok cpath else .error .invalidPath

def Path.create (path connectionPath : List Char) : Except Exn Path :=
  (pathValidate path connectionPath).bind Path.ofString

def getParent (path : Path) : Path := path.dropLast

def getHierarchy (path : Path) : List Path := path.inits

def getCommonPrefix : Path → Path → Path
  | h1 :: tl1,h2 :: tl2 => if h1 = h2 then h1 :: getCommonPrefix tl1 tl2 else []
  | _,_ => []

def lookupModify (a : τ) (f : Node τ → Name → Except Exn (Node τ)) : Node τ → Path → Except Exn (Node τ)
  | _,[] => .error .invalidPath
  | node,[h] => f node h
  | node,h :: h' :: l =>
      match node.find h with
      | none => .error (.lookupDoesntExist h)
      | some c => (lookupModify a f c (h' :: l)).map (replaceChild a node c)

def lookupGet : Node τ → Path → Except Exn (Node τ)
  | _,[] => .error .invalidPath
  | node,[h] =>
      match node.find h with
      | none => .error .doesntExist
      | some c => .ok c
  | node,h :: h' :: l =>
      match node.find h with
      | none => .error .notFound
      | some c => lookupGet c (h' :: l)

def getNode (rnode : Node τ) (path : Path) : Except Exn (Option (Node τ)) :=
  if path = [] then .ok (some rnode)
  else match lookupGet rnode path with
    | .ok node => .ok (some node)
    | .error .doesntExist => .ok none
    | .error e => .error e

def getDeepestExistingNode : Node τ → Path → Node τ
  | node,[] => node
  | node,h :: t =>
      match node.find h with
      | none => node
      | some c => getDeepestExistingNode c t

def setNode (a : τ) (rnode : Node τ) (path : Path) (nnode : Node τ) : Except Exn (Node τ) :=
  if path = [] then .ok nnode
  else lookupModify a (fun node name =>
    match node.find name with
    | some ent => .ok (replaceChild a node ent nnode)
    | none => .ok (addChild a node nnode)) rnode path

def lookup {α : Type} (f : Node τ → Name → Except Exn α) : Node τ → Path → Except Exn α
  | _,[] => .error .invalidPath
  | node,[h] => f node h
  | node,h :: h' :: l =>
      match node.find h with
      | none => .error .notFound
      | some c => lookup f c (h' :: l)

structure Store (τ : Type) where
  root : Node τ
  quota : Quota

section
variable (cfg : Config) (a : τ) (perm : ConnPerms)

section
variable (root : Node τ) (path : Path)

def pathMkdir : Except Exn (Node τ) :=
  let doMkdir (node : Node τ) (name : Name) : Except Exn (Node τ) :=
    match node.find name with
    | some ent => (checkPerm cfg ent perm .write).bind fun _ => .error .alreadyExist
    | none => (checkPerm cfg node perm .write).bind fun _ =>
        .ok (addChild a node (create a name node.label.perms []))
  if path = [] then .ok root else lookupModify a doMkdir root path

def pathWrite (value : List Char) : Except Exn (Node τ) :=
  let doWrite (node : Node τ) (name : Name) : Except Exn (Node τ) :=
    match node.find name with
    | some ent => (checkPerm cfg ent perm .write).bind fun _ =>
        .ok (replaceChild a node ent (setValue a ent value))
    | none => (checkPerm cfg node perm .write).bind fun _ =>
        .ok (addChild a node (create a name node.label.perms value))
  if path = [] then (checkPerm cfg root perm .write).bind fun _ => .ok (setValue a root value)
  else lookupModify a doWrite root path

def pathRm : Except Exn (Node τ) :=
  let doRm (node : Node τ) (name : Name) : Except Exn (Node τ) :=
    match node.find name with
    | some ent => (checkPerm cfg ent perm .write).bind fun _ => delChildname a node name
    | none => .error .doesntExist
  if path = [] then .ok (delAllChildren a root) else lookupModify a doRm root path

def pathSetperms (perms : NodePerms) : Except Exn (Node τ) :=
  let doSetperms (node : Node τ) (name : Name) : Except Exn (Node τ) :=
    match node.find name with
    | some c => (Node.checkOwner cfg c perm).bind fun _ => (checkPerm cfg c perm .write).bind fun _ =>
        .ok (replaceChild a node c (setPerms a c perms))
    | none => .error .notFound
  if path = [] then .ok (setPerms a root perms) else lookupModify a doSetperms root path

end

def readChild (node : Node τ) (name : Name) : Except Exn (Node τ) :=
  match node.find name with
  | some ent => (checkPerm cfg ent perm .read).bind fun _ => .ok ent
  | none => .error .notFound

def read (root : Node τ) (path : Path) : Except Exn (List Char) :=
  if path = [] then (checkPerm cfg root perm .read).bind fun _ => .ok root.label.value
  else (lookup (readChild cfg perm) root path).map fun ent => ent.label.value

section
variable (root : Node τ) (path : Path)

def ls : Except Exn (List Name) :=
  let children :=
    if path = [] then .ok root.children
    else (lookup (readChild cfg perm) root path).map fun cnode => cnode.children
  children.map fun l => (l.map key).reverse

def getperms : Except Exn NodePerms :=
  if path = [] then .ok root.label.perms
  else (lookup (readChild cfg perm) root path).map fun c => c.label.perms

def pathExists : Bool :=
  if path = [] then true
  else match lookup (fun node name => (node.find name).elim (.error .notFound) fun _ => .ok ()) root path with
    | .ok _ => true
    | .error _ => false

end

def Store.write (path : Path) (value : List Char) (store : Store τ) : Except Exn (Store τ) := do
  let owner := getOwner (getDeepestExistingNode store.root path)
  Quota.check cfg store.quota owner value.length
  let root ← pathWrite cfg a perm store.root path value
  .ok {root := root,quota := if pathExists store.root path then store.quota else store.quota.addEntry owner}

def Store.mkdir (path : Path) (store : Store τ) : Except Exn (Store τ) := do
  let owner := getOwner (getDeepestExistingNode store.root path)
  Quota.check cfg store.quota owner 0
  let root ← pathMkdir cfg a perm store.root path
  .ok {root := root,quota := store.quota.addEntry owner}

def Store.rm (path : Path) (store : Store τ) : Except Exn (Store τ) := do
  match ← getNode store.root path with
  | none => .error .doesntExist
  | some rmedNode =>
      let root ← pathRm cfg a perm store.root path
      .ok {root := root,quota := (owners rmedNode).foldl Quota.delEntry store.quota}

def Store.setperms (path : Path) (nperms : NodePerms) (store : Store τ) : Except Exn (Store τ) := do
  match ← getNode store.root path with
  | none => .error .doesntExist
  | some node =>
      Quota.check cfg store.quota nperms.owner 0
      let root ← pathSetperms cfg a perm store.root path nperms
      .ok {root := root,quota := (store.quota.delEntry (getOwner node)).addEntry nperms.owner}

end

end Oxenstored
