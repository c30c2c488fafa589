import Mathlib.Tactic

namespace Oxenstored

abbrev Name := List Char

abbrev Domid := Int

def nul : Char := Char.ofNat 0

inductive Exn where
  | invalidPath
  | alreadyExist
  | doesntExist
  | lookupDoesntExist (s : Name)
  | permissionDenied
  | notFound
  | invalidCmdArgs
  | invalidArgument
  | transactionAgain
  | transactionNested
  | limitReached
  | dataTooBig
  | transactionOpened
  | failureIntOfString
deriving DecidableEq

def Exn.errno : Exn → List Char
  | .invalidPath | .invalidCmdArgs | .invalidArgument | .failureIntOfString => "EINVAL".toList
  | .alreadyExist => "EEXIST".toList
  | .doesntExist | .lookupDoesntExist _ | .notFound => "ENOENT".toList
  | .permissionDenied => "EACCES".toList
  | .transactionAgain => "EAGAIN".toList
  | .transactionNested => "EBUSY".toList
  | .limitReached | .transactionOpened => "EQUOTA".toList
  | .dataTooBig => "E2BIG".toList

structure Config where
  (permsActivate quotaActivate : Bool)
  maxent : Int
  (maxsize maxtransaction : Nat)
  doCoalesce : Bool
  intOfString : List Char → Option Int

inductive Permty where
  | read
  | write
  | rdwr
  | none
deriving DecidableEq

def charOfPermty : Permty → Char
  | .read => 'r'
  | .write => 'w'
  | .rdwr => 'b'
  | .none => 'n'

def permtyOfChar : Char → Except Exn Permty
  | 'r' => .ok .read
  | 'w' => .ok .write
  | 'b' => .ok .rdwr
  | 'n' => .ok .none
  | _ => .error .invalidArgument

structure NodePerms where
  owner : Domid
  other : Permty
  acl : List (Domid × Permty)
deriving DecidableEq

def default0 : NodePerms := {owner := 0,other := .none,acl := []}

def permOfString (cfg : Config) : List Char → Except Exn (Domid × Permty)
  | [] => .error .invalidArgument
  | c :: rest => do
      let ty ← permtyOfChar c
      match cfg.intOfString rest with
      | some id => .ok (id,ty)
      | none => .error .failureIntOfString

def NodePerms.ofStrings (cfg : Config) (ls : List (List Char)) : Except Exn NodePerms := do
  match ← ls.mapM (permOfString cfg) with
  | [] => .error .invalidArgument
  | h :: l => .ok {owner := h.1,other := h.2,acl := l}

def NodePerms.ofString (cfg : Config) (s : List Char) : Except Exn NodePerms :=
  NodePerms.ofStrings cfg (s.splitOn nul).dropLast

-- A negative number is printed as an unsigned one of 63 bits.
def stringOfPerm (perm : Domid × Permty) : List Char :=
  charOfPermty perm.2 :: (Nat.repr (perm.1%2^63).toNat).toList

def NodePerms.toString (permvec : NodePerms) : List Char :=
  List.intercalate [nul] (((permvec.owner,permvec.other) :: permvec.acl).map stringOfPerm)

structure ConnPerms where
  main : Domid
  target : Option Domid
deriving DecidableEq

section
variable (connection : ConnPerms)

def ConnPerms.getOwners : List Domid :=
  match connection.target with
  | some target => [connection.main,target]
  | none => [connection.main]

def ConnPerms.isOwner (id : Domid) : Bool :=
  match connection.target with
  | some target => connection.main = id || target = id
  | none => connection.main = id

def ConnPerms.isDom0 : Bool := connection.isOwner 0

end

def checkOwner (cfg : Config) (connection : ConnPerms) (node : NodePerms) : Bool :=
  if cfg.permsActivate && !connection.isDom0 then connection.isOwner node.owner else true

def granted : Permty → Permty → Bool
  | .none,_ => false
  | .rdwr,_ => true
  | .read,.read => true
  | .write,.write => true
  | .read,_ => false
  | .write,_ => false

def checkAcl (node : NodePerms) (request : Permty) (domainid : Domid) : Bool :=
  granted ((node.acl.lookup domainid).getD node.other) request

def check (cfg : Config) (connection : ConnPerms) (request : Permty) (node : NodePerms) : Except Exn Unit :=
  if cfg.permsActivate && !connection.isDom0 && !checkOwner cfg connection node &&
      !connection.getOwners.any (checkAcl node request) then .error .permissionDenied
  else .ok ()

structure Quota where
  cur : Domid → Option Int

def Quota.create : Quota := {cur := fun _ => none}

def Quota.check (cfg : Config) (quota : Quota) (id : Domid) (size : Nat) : Except Exn Unit :=
  if cfg.quotaActivate then
    if cfg.maxsize < size then .error .dataTooBig
    else if 0 < id ∧ (quota.cur id).any (fun entry : Int => cfg.maxent ≤ entry) then .error .limitReached
    else .ok ()
  else .ok ()

section
variable (quota : Quota) (id : Domid)

def Quota.setEntry (nb : Int) : Quota :=
  {cur := Function.update quota.cur id (if nb = 0 then none else some nb)}

def Quota.delEntry : Quota :=
  match quota.cur id with
  | some nb => quota.setEntry id (nb-1)
  | none => quota

def Quota.addEntry : Quota := quota.setEntry id ((quota.cur id).getD 0+1)

end

end Oxenstored
