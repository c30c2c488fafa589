import PMigrate.Hypervisor.GrantTable

namespace GrantTable

open Function

def pageSize : Nat := 4096

-- `granted` is none for a full page; the bit-fields `start` and `length` keep 15 and 16 bits of it
structure CopyEntry where
  (pin domid frame : Nat)
  granted : Option (Nat × Nat)
  (transDom transGref : Nat)

namespace CopyEntry

section
variable (e : CopyEntry)

def start : Nat := e.granted.elim 0 fun g => g.1%2^15

def length : Nat := e.granted.elim pageSize fun g => g.2%2^16

def Allows (b : Nat) : Prop := e.granted.elim (b < pageSize) fun g => g.1 ≤ b ∧ b < g.1+g.2

def blocked (ld : Nat) : Bool :=
  decide (e.pin ≠ 0) && (decide (e.domid ≠ ld) || decide (e.pin &&& 0x80808080 ≠ 0))

def needsStatus (readonly : Bool) : Bool :=
  decide (e.pin = 0) || (!readonly && decide (e.pin &&& 0x00FF00FF = 0))

end

end CopyEntry

abbrev CopyTable := Nat → Nat → CopyEntry

inductive SharedEntry where
  | fullPage
  | subPage (pageOff length : Nat)
  | transitive (transDomid gref : Nat)

structure Acquire where
  (ready setStatus : Bool)
  shared : SharedEntry
  pagedFrame : Option Nat

-- the table lock is dropped around the acquisition of the referent
structure Attempt extends Acquire where
  referentKnown : Bool
  referent : Acquire
  meanwhile : CopyTable → CopyTable

def pinEntry (T : CopyTable) (rd gref : Nat) (readonly : Bool) (new : CopyEntry) : CopyTable :=
  let e := if (T rd gref).pin = 0 then new else T rd gref
  update T rd (update (T rd) gref {e with pin := addPin e.pin (.hostKind readonly)})

def acquireDirect (rd gref ld : Nat) (readonly : Bool) (x : Acquire) (T : CopyTable) : Option CopyTable :=
  if !x.ready || (T rd gref).blocked ld then none
  else if (T rd gref).needsStatus readonly then
    if !x.setStatus then none
    else
      match x.shared with
      | .transitive _ _ => none
      | .fullPage => x.pagedFrame.map fun frame => pinEntry T rd gref readonly ⟨0,ld,frame,none,ld,0⟩
      | .subPage off len =>
        x.pagedFrame.map fun frame => pinEntry T rd gref readonly ⟨0,ld,frame,some (off,len),ld,0⟩
  else some (pinEntry T rd gref readonly (T rd gref))

def acquireGrantForCopy (rd gref ld : Nat) (readonly : Bool) : List Attempt → CopyTable → Option CopyTable
  | [],_ => none
  | x :: xs,T =>
    match x.shared with
    | .transitive dom ref =>
      if !x.ready || (T rd gref).blocked ld then none
      else if (T rd gref).needsStatus readonly then
        if !x.setStatus || decide (dom = rd) || !x.referentKnown then none
        else
          match acquireDirect dom ref rd readonly x.referent T with
          | none => none
          | some T1 =>
            let e := T1 dom ref
            if (x.meanwhile T1 rd gref).pin ≠ (T rd gref).pin then
              acquireGrantForCopy rd gref ld readonly xs (x.meanwhile T1)
            else
              some (pinEntry (x.meanwhile T1) rd gref readonly
                ⟨0,ld,e.frame,some (e.granted.getD (0,pageSize)),dom,ref⟩)
      else some (pinEntry T rd gref readonly (T rd gref))
    | _ => acquireDirect rd gref ld readonly x.toAcquire T

structure CopySide where
  (isGref self : Bool)
  (ref offset : Nat)

structure CopyOp where
  (source dest : CopySide)
  len : Nat

structure SideEnv where
  domain : Option Nat
  attempts : List Attempt
  gmfnFrame : Option Nat
  pageTaken : Bool

def takeSide (T : CopyTable) (d ld : Nat) (readonly : Bool) (side : CopySide) (len : Nat) (x : SideEnv) :
    Option (CopyTable × Option CopyEntry) :=
  if side.isGref then
    match acquireGrantForCopy d side.ref ld readonly x.attempts T with
    | none => none
    | some T =>
      if side.offset < (T d side.ref).start ∨ (T d side.ref).length < len then none
      else if x.pageTaken then some (T,some (T d side.ref)) else none
  else if x.gmfnFrame.isSome && x.pageTaken then some (T,none) else none

def gnttabCopy (T : CopyTable) (ld : Nat) (op : CopyOp) (xsmAllows : Bool) (src dst : SideEnv) :
    Option (Option CopyEntry × Option CopyEntry) :=
  if pageSize < op.source.offset+op.len ∨ pageSize < op.dest.offset+op.len then none
  else if !(op.source.self || op.source.isGref) || !(op.dest.self || op.dest.isGref) then none
  else
    match src.domain,dst.domain with
    | some sd,some dd =>
      if !xsmAllows then none
      else (takeSide T sd ld true op.source op.len src).bind fun s =>
        (takeSide s.1 dd ld false op.dest op.len dst).map fun d => (s.2,d.2)
    | _,_ => none

def CopyEntry.Within (e : CopyEntry) (offset len : Nat) : Prop :=
  ∀ b, offset ≤ b → b < offset+len → e.Allows b

def SharedEntry.range : SharedEntry → Option (Nat × Nat)
  | .fullPage => none
  | .subPage off len => some (off,len)
  | .transitive _ _ => none

-- the range a grant stands for before the call: a pinned entry keeps the range it was pinned with
def rangeOf (e : CopyEntry) (shared : SharedEntry) : Option (Nat × Nat) :=
  if e.pin = 0 then shared.range else e.granted

def grantRange (rd gref : Nat) (readonly : Bool) : List Attempt → CopyTable → Option (Nat × Nat)
  | [],_ => none
  | x :: xs,T =>
    match x.shared with
    | .transitive dom ref =>
      if (T rd gref).needsStatus readonly then
        match acquireDirect dom ref rd readonly x.referent T with
        | none => none
        | some T1 =>
          if (x.meanwhile T1 rd gref).pin ≠ (T rd gref).pin then grantRange rd gref readonly xs (x.meanwhile T1)
          else if (x.meanwhile T1 rd gref).pin ≠ 0 then (x.meanwhile T1 rd gref).granted
          else some ((rangeOf (T dom ref) x.referent.shared).getD (0,pageSize))
      else (T rd gref).granted
    | shared => rangeOf (T rd gref) shared

def Fits (range : Option (Nat × Nat)) (offset len : Nat) : Prop :=
  len = 0 ∨ ∀ g ∈ range, g.1 < 2^15 ∧ offset+len ≤ g.1+g.2

theorem pinEntry_granted {T : CopyTable} {rd gref : Nat} {readonly : Bool} {new : CopyEntry} :
  (pinEntry T rd gref readonly new rd gref).granted = if (T rd gref).pin = 0 then new.granted else
  (T rd gref).granted := by
  simp only [pinEntry,update_self]
  split <;> rfl

theorem CopyEntry.pinned_of_not_needsStatus {e : CopyEntry} {readonly : Bool} (h : ¬e.needsStatus readonly = true) :
  e.pin ≠ 0 :=
  fun hp => h (by simp [needsStatus,hp])

theorem acquireDirect_granted {T T' : CopyTable} {rd gref ld : Nat} {readonly : Bool} {x : Acquire}
  (h : acquireDirect rd gref ld readonly x T = some T') : (T' rd gref).granted = rangeOf (T rd gref) x.shared := by
  unfold acquireDirect at h
  split_ifs at h with _ hn
  · split at h
    · cases h
    all_goals
      rename_i hs
      obtain ⟨frame,-,rfl⟩ := Option.map_eq_some_iff.mp h
      rw [pinEntry_granted,rangeOf,hs,SharedEntry.range]
  · cases h
    rw [pinEntry_granted,ite_self,rangeOf,if_neg (CopyEntry.pinned_of_not_needsStatus hn)]

theorem acquireGrantForCopy_granted {T T' : CopyTable} {rd gref ld : Nat} {readonly : Bool} {xs : List Attempt}
  (h : acquireGrantForCopy rd gref ld readonly xs T = some T') :
  (T' rd gref).granted = grantRange rd gref readonly xs T := by
  induction xs generalizing T with
  | nil => cases h
  | cons x xs ih =>
    rw [acquireGrantForCopy] at h
    rw [grantRange]
    split at h
    · rename_i dom ref hs
      split_ifs at h with _ hn
      · rw [if_pos hn]
        cases hd : acquireDirect dom ref rd readonly x.referent T with
        | none => rw [hd] at h; cases h
        | some T1 =>
          rw [hd] at h
          dsimp only at h ⊢
          split_ifs at h with hp
          · rw [if_pos hp]
            exact ih h
          · cases h
            rw [if_neg hp,pinEntry_granted,ite_not,acquireDirect_granted hd]
      · cases h
        rw [if_neg hn,pinEntry_granted,ite_self]
    · exact acquireDirect_granted h

-- start keeps 15 bits of the offset and each bound is checked on its own; the sum is what the copy needs
theorem within_iff_fits {e : CopyEntry} {offset len : Nat} (hp : offset+len ≤ pageSize) (hs : e.start ≤ offset) :
  e.Within offset len ↔ Fits e.granted offset len := by
  rcases Nat.eq_zero_or_pos len with rfl | hl
  · exact iff_of_true (fun b h h' => by omega) (.inl rfl)
  rw [Fits,or_iff_right hl.ne']
  unfold pageSize at hp
  cases hg : e.granted with
  | none =>
    refine iff_of_true (fun b _ h => ?_) nofun
    rw [CopyEntry.Allows,hg]
    exact lt_of_lt_of_le h hp
  | some g =>
    rw [CopyEntry.start,hg,Option.elim_some] at hs
    simp only [CopyEntry.Within,CopyEntry.Allows,hg,Option.elim_some,Option.mem_some_iff,forall_eq']
    constructor
    · intro h
      have h1 := h offset le_rfl (by omega)
      have h2 := h (offset+len-1) (by omega) (by omega)
      omega
    · rintro ⟨hb,hu⟩ b h h'
      rw [Nat.mod_eq_of_lt hb] at hs
      omega

theorem takeSide_within {T T' : CopyTable} {d ld len : Nat} {readonly : Bool} {side : CopySide} {x : SideEnv}
  {o : Option CopyEntry} (h : takeSide T d ld readonly side len x = some (T',o)) (hp : side.offset+len ≤ pageSize) :
  (∀ e ∈ o, e.Within side.offset len) ↔
    (side.isGref = true → Fits (grantRange d side.ref readonly x.attempts T) side.offset len) := by
  unfold takeSide at h
  split at h
  · rename_i hi
    split at h
    · cases h
    rename_i T1 ha
    split_ifs at h with hc
    cases h
    rw [not_or,Nat.not_lt] at hc
    rw [← acquireGrantForCopy_granted ha]
    simp only [hi,true_imp_iff,Option.mem_some_iff,forall_eq']
    exact within_iff_fits hp hc.1
  · rename_i hi
    split_ifs at h
    cases h
    exact iff_of_true nofun fun he => absurd he hi

-- the destination is acquired after the source, in the table the source's acquisition leaves
def CopyFits (T : CopyTable) (ld : Nat) (op : CopyOp) (src dst : SideEnv) : Prop :=
  ∀ sd dd s, src.domain = some sd → dst.domain = some dd → takeSide T sd ld true op.source op.len src = some s →
    (op.source.isGref = true → Fits (grantRange sd op.source.ref true src.attempts T) op.source.offset op.len) ∧
    (op.dest.isGref = true → Fits (grantRange dd op.dest.ref false dst.attempts s.1) op.dest.offset op.len)

theorem copy_within_grants {T : CopyTable} {ld : Nat} {op : CopyOp} {xsmAllows : Bool} {src dst : SideEnv}
  {s d : Option CopyEntry} (h : gnttabCopy T ld op xsmAllows src dst = some (s,d)) :
  ((∀ e ∈ s, e.Within op.source.offset op.len) ∧ ∀ e ∈ d, e.Within op.dest.offset op.len) ↔
  CopyFits T ld op src dst := by
  unfold gnttabCopy at h
  split at h
  · cases h
  rename_i hp
  rw [not_or,Nat.not_lt,Nat.not_lt] at hp
  split at h
  · cases h
  split at h
  · rename_i sd dd hsd hdd
    split at h
    · cases h
    obtain ⟨⟨T1,s'⟩,hc,hr⟩ := Option.bind_eq_some_iff.mp h
    obtain ⟨⟨T2,d'⟩,ht,hq⟩ := Option.map_eq_some_iff.mp hr
    cases hq
    rw [takeSide_within hc hp.1,takeSide_within ht hp.2,CopyFits]
    constructor
    · rintro hf sd' dd' s' h1 h2 h3
      cases hsd.symm.trans h1
      cases hdd.symm.trans h2
      cases hc.symm.trans h3
      exact hf
    · exact fun hf => hf sd dd _ hsd hdd hc
  · cases h

def unpinned : CopyTable := fun _ _ => ⟨0,0,0,none,0,0⟩

def grantSide (off len : Nat) : SideEnv :=
  ⟨some 1,[⟨⟨true,true,.subPage off len,some 7⟩,true,⟨true,true,.fullPage,some 7⟩,id⟩],none,true⟩

def ownSide : SideEnv := ⟨some 0,[],some 9,true⟩

def copyFrom (offset len : Nat) : CopyOp := ⟨⟨true,false,3,offset⟩,⟨false,true,0,0⟩,len⟩

theorem inner_bytes_copied : ∃ e, gnttabCopy unpinned 0 (copyFrom 50 40) true (grantSide 0 100) ownSide =
  some (some e,none) ∧ e.granted = some (0,100) ∧ e.Within 50 40 := by
  obtain ⟨e,hu,hr⟩ : ∃ e, gnttabCopy unpinned 0 (copyFrom 50 40) true (grantSide 0 100) ownSide =
    some (some e,none) ∧ e.granted = some (0,100) := ⟨_,rfl,rfl⟩
  refine ⟨e,hu,hr,((copy_within_grants hu).mpr ?_).1 e rfl⟩
  rintro sd dd s ⟨⟩ ⟨⟩ -
  refine ⟨fun _ => .inr fun g hg => ?_,nofun⟩
  cases hg
  decide

theorem copy_beyond_grant : ∃ e, gnttabCopy unpinned 0 (copyFrom 50 100) true (grantSide 0 100) ownSide =
  some (some e,none) ∧ e.granted = some (0,100) ∧ ¬e.Within 50 100 :=
  ⟨_,rfl,rfl,fun h => absurd (h 120 (by decide) (by decide)).2 (by decide)⟩

end GrantTable
