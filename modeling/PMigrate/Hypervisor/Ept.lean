import Mathlib.Tactic.Common

namespace Ept

inductive P2mType where
  | invalid
  | ramRw
  | ramLogdirty
  | ramRo
  | mmioDm
  | mmioDirect
  | populateOnDemand
  | grantMapRw
  | grantMapRo
  | ramPagingOut
  | ramPaged
  | ramPagingIn
  | ramPagingInStart
  | ramShared
  | ramBroken
  deriving DecidableEq

inductive P2mAccess where
  | n
  | r
  | w
  | rw
  | x
  | rx
  | wx
  | rwx
  | rx2rw
  deriving DecidableEq

structure Entry where
  (r w x : Bool)
  emt : Nat
  (ipat sp snp : Bool)
  (avail mfn : Nat)
  saP2mt : P2mType
  access : P2mAccess

namespace Entry

def zero : Entry := ⟨false,false,false,0,false,false,false,0,0,.invalid,.n⟩

def present (e : Entry) : Bool := e.r || e.w || e.x

def withRights (e : Entry) (r w x : Bool) : Entry := {e with r,w,x}

def typeRights (mmioRo : Nat → Bool) (e : Entry) : P2mType → Entry
  | .ramRw => e.withRights true true true
  | .mmioDirect => e.withRights true (!mmioRo e.mfn) true
  | .ramLogdirty | .ramRo | .ramShared => e.withRights true false true
  | .grantMapRw => e.withRights true true false
  | .grantMapRo => e.withRights true false false
  | .invalid | .mmioDm | .populateOnDemand | .ramPagingOut | .ramPaged | .ramPagingIn
  | .ramPagingInStart | .ramBroken => e.withRights false false false

def accessRights (e : Entry) : P2mAccess → Entry
  | .n => e.withRights false false false
  | .r => e.withRights e.r false false
  | .w => e.withRights false e.w false
  | .x => e.withRights false false e.x
  | .rx | .rx2rw => e.withRights e.r false e.x
  | .wx => e.withRights false e.w e.x
  | .rw => e.withRights e.r e.w false
  | .rwx => e

def typeToFlags (mmioRo : Nat → Bool) (e : Entry) (type : P2mType) (access : P2mAccess) : Entry :=
  (e.typeRights mmioRo type).accessRights access

end Entry

abbrev Path := List Nat

abbrev Tree := Path → Entry

def pagetableEntries : Nat := 512

def walkLength : Nat := 3

def Tree.write (t : Tree) (q : Path) (e : Entry) : Tree := fun p => if p = q then e else t p

@[simp] theorem Tree.write_self (t : Tree) (q : Path) (e : Entry) : t.write q e q = e := if_pos rfl

theorem Tree.write_ne (t : Tree) {p q : Path} (e : Entry) (h : p ≠ q) : t.write q e p = t p := if_neg h

end Ept
