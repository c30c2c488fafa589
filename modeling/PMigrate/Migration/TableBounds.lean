import PMigrate.Migration.PhysMap

namespace TableBounds

open PageTable BatchCodec Migration PhysMap Function List

inductive Table where
  | p2m
  | pfnType
  deriving DecidableEq

structure Access where
  table : Table
  write : Bool
  pfn : Nat
  deriving DecidableEq

structure Tables (A : Type) extends Guest A where
  accesses : List Access

structure Outcome (A : Type) where
  tables : Tables A
  exit : Exit
  nraces : Nat

def Outcome.rc {A : Type} (r : Outcome A) : Int := if r.exit = .done then r.nraces else -1

namespace Tables

variable {A : Type}

section
variable (t : Tables A)

def touch (table : Table) (write : Bool) (pfn : Nat) : Tables A :=
  {t with accesses := t.accesses ++ [⟨table,write,pfn⟩]}

def readEntry (pfn : Nat) : Tables A := t.touch .p2m false pfn

def rereadEntry (reread : Bool) (pfn : Nat) : Tables A := if reread then t.readEntry pfn else t

def setEntry (pfn mfn : Nat) : Tables A := {t.touch .p2m true pfn with p2m := update t.p2m pfn mfn}

def setType (pfn type : Nat) : Tables A :=
  {t.touch .pfnType true pfn with pfnType := update t.pfnType pfn type}

end

def firstPass (c : Platform) (ok : Nat → Bool) (key : Nat → Option Nat) :
    List Nat → Tables A → Tables A × List Nat × Bool
  | [],t => (t,[],true)
  | w :: ws,t =>
    match key w with
    | none => firstPass c ok key ws t
    | some pfn =>
      if ok pfn then
        if t.p2m pfn = c.invalidP2mEntry then
          -- ctx->p2m[pfn]-- reads the entry again before it writes it
          let r := firstPass c ok key ws
            (((t.readEntry pfn).readEntry pfn).setEntry pfn c.pendingP2mEntry)
          (r.1,pfn :: r.2.1,r.2.2)
        else firstPass c ok key ws (t.readEntry pfn)
      else (t,[],false)

def secondPass (c : Platform) (reread : Bool) (key : Nat → Option Nat) :
    List Nat → Tables A → List Nat → Tables A × List (Option Nat)
  | [],t,_ => (t,[])
  | w :: ws,t,mfns =>
    match key w with
    | none =>
      let r := secondPass c reread key ws t mfns
      (r.1,none :: r.2)
    | some pfn =>
      if t.p2m pfn = c.pendingP2mEntry then
        let mfn := mfns.headD c.pendingP2mEntry
        let r := secondPass c reread key ws
          (((t.readEntry pfn).setEntry pfn mfn).rereadEntry reread pfn) mfns.tail
        (r.1,some mfn :: r.2)
      else
        let r := secondPass c reread key ws ((t.readEntry pfn).rereadEntry reread pfn) mfns
        (r.1,some (t.p2m pfn) :: r.2)

def allocate (st : Setup A) (ok : Nat → Bool) (reread : Bool) (key : Nat → Option Nat)
    (ws : List Nat) (t : Tables A) : Tables A × Option (List (Option Nat)) :=
  let first := firstPass st.platform ok key ws t
  if first.2.2 then
    match populateExact st.populate first.1.heap first.2.1 with
    | none => (first.1,none)
    | some (mfns,heap) =>
      let second := secondPass st.platform reread key ws {first.1 with heap := heap} mfns
      (second.1,some second.2)
  else (first.1,none)

def uncanonicalizePagetable (st : Setup A) (t : Tables A) (page : List UInt8) : Bool × Tables A × List UInt8 :=
  let c := st.platform
  match t.allocate st (fun pfn => decide (pfn < t.p2mSize)) true c.pfnOf (c.ptes page) with
  | (t,none) => (false,t,page)
  | (t,some mfns) => (true,t,Bytes.store c.entrySize (List.zipWith c.restoreEntry (c.ptes page) mfns))

def machphysUpdate (st : Setup A) (a : Call) (i mfn pfn : Nat) (t : Tables A) : Tables A × Exit × Bool :=
  let r := st.machphysUpdate a i mfn pfn t.toGuest
  ({t with toGuest := r.1},r.2)

def place (t : Tables A) (a : Call) (w frame : Nat) (page : List UInt8) : Tables A :=
  {(t.setType (pfnIn w) (pagetypeOf w)).readEntry (pfnIn w) with mem := a.write t.mem frame page}

def applyPage (st : Setup A) (a : Call) (t : Tables A) (i curpage w frame : Nat) : Tables A × Exit × Bool :=
  let pfn := pfnIn w
  if a.pfnErr i then (t,.pfnMapping,false)
  else if pfn > t.p2mSize then (t,.pfnRange,false)
  else
    let mfn := t.p2m pfn
    let page := a.page curpage
    let t := t.place a w frame page
    if isTable w then
      if st.uncanonicalizes w then
        match t.uncanonicalizePagetable st page with
        | (false,t,_) => (t,.done,true)
        | (true,t,page) => ({t with mem := a.write t.mem frame page}).machphysUpdate st a i mfn pfn
      else t.machphysUpdate st a i mfn pfn
    else if pagetypeOf w &&& ltabtypeMask ≠ notab then (t,.bogusType,false)
    else t.machphysUpdate st a i mfn pfn

def applyPages (st : Setup A) (a : Call) (t : Tables A) : List (Nat × Nat) → Nat → Nat → Nat → Outcome A
  | [],_,_,nraces => ⟨t,.done,nraces⟩
  | (w,frame) :: es,i,curpage,nraces =>
    if pagetypeOf w = xtab then t.applyPages st a es (i+1) curpage nraces
    else
      match t.applyPage st a i curpage w frame with
      | (t,.done,raced) => t.applyPages st a es (i+1) (curpage+1) (if raced then nraces+1 else nraces)
      | (t,exit,_) => ⟨t,exit,nraces⟩

-- neither of the first two passes compares the pfn with p2m_size
def applyBatch (st : Setup A) (t : Tables A) (a : Call) : Outcome A :=
  match t.allocate st (fun _ => true) (!st.hvm) keyOf a.words with
  | (t,none) => ⟨t,.nomem,0⟩
  | (t,some mfns) =>
    if a.mapped then
      t.applyPages st a (a.words.zip (List.zipWith st.regionMfn a.words mfns)) 0 0 0
    else ⟨t,.mapFailed,0⟩

end Tables

def record {A : Type} (g : Guest A) : Tables A := {toGuest := g,accesses := []}

-- A property of the log that every access at an index with Q keeps.
structure LogRule (size : Nat) (Q : Nat → Prop) (I : List Access → Prop) : Prop where
  below : ∀ pfn < size, Q pfn
  append : ∀ l x, I l → Q x.pfn → I (l ++ [x])

structure Within {A : Type} (size : Nat) (I : List Access → Prop) (t : Tables A) : Prop where
  size_eq : t.p2mSize = size
  holds : I t.accesses

theorem Within.transfer {A : Type} {size : Nat} {I : List Access → Prop} {t t' : Tables A} (h : Within size I t)
  (hs : t'.p2mSize = t.p2mSize) (hl : t'.accesses = t.accesses) : Within size I t' :=
  ⟨hs.trans h.size_eq,hl ▸ h.holds⟩

namespace Tables

variable {A : Type} {st : Setup A} {a : Call} {t : Tables A} {c : Platform} {size pfn : Nat}
  {ok : Nat → Bool} {key : Nat → Option Nat} {ws : List Nat}

variable {Q : Nat → Prop} {I : List Access → Prop} (hI : LogRule size Q I) (h : Within size I t)
include hI h

section
variable (hp : Q pfn)
include hp

theorem within_touch (table : Table) (write : Bool) : Within size I (t.touch table write pfn) :=
  ⟨h.size_eq,hI.append _ _ h.holds hp⟩

theorem within_readEntry : Within size I (t.readEntry pfn) := within_touch hI h hp ..

theorem within_rereadEntry (reread : Bool) : Within size I (t.rereadEntry reread pfn) := by
  cases reread with
  | true => exact within_readEntry hI h hp
  | false => exact h

theorem within_setEntry (mfn : Nat) : Within size I (t.setEntry pfn mfn) :=
  ⟨h.size_eq,(within_touch hI h hp .p2m true).holds⟩

theorem within_setType (type : Nat) : Within size I (t.setType pfn type) :=
  ⟨h.size_eq,(within_touch hI h hp .pfnType true).holds⟩

end

theorem firstPass_within (ho : ∀ w ∈ ws, ∀ pfn, key w = some pfn → ok pfn = true → Q pfn) :
  Within size I (firstPass c ok key ws t).1 := by
  induction ws generalizing t with
  | nil => exact h
  | cons w ws ih =>
    have hs : ∀ v ∈ ws, ∀ pfn, key v = some pfn → ok pfn = true → Q pfn :=
      fun v hv => ho v (mem_cons_of_mem w hv)
    rw [firstPass]
    cases hw : key w with
    | none => exact ih h hs
    | some pfn =>
      dsimp only
      split
      · rename_i hy
        have hp := ho w mem_cons_self pfn hw hy
        have hr := within_readEntry hI h hp
        split
        · exact ih (within_setEntry hI (within_readEntry hI hr hp) hp _) hs
        · exact ih hr hs
      · exact h

omit hI h in
theorem firstPass_complete (h : (firstPass c ok key ws t).2.2 = true) :
  ∀ w ∈ ws, ∀ pfn, key w = some pfn → ok pfn = true := by
  induction ws generalizing t with
  | nil => simp
  | cons w ws ih =>
    rw [firstPass] at h
    intro v hv pfn hp
    cases hw : key w with
    | none =>
      rw [hw] at h
      rcases mem_cons.mp hv with rfl | hv
      · rw [hw] at hp
        cases hp
      · exact ih h v hv pfn hp
    | some j =>
      rw [hw] at h
      dsimp only at h
      split at h
      · rename_i hy
        rcases mem_cons.mp hv with rfl | hv
        · rw [hw] at hp
          cases hp
          exact hy
        · split at h <;> exact ih h v hv pfn hp
      · cases h

variable {reread : Bool} {mfns : List Nat}

theorem secondPass_within
  (hk : ∀ w ∈ ws, ∀ pfn, key w = some pfn → Q pfn) : Within size I (secondPass c reread key ws t mfns).1 := by
  induction ws generalizing t mfns with
  | nil => exact h
  | cons w ws ih =>
    have hs : ∀ v ∈ ws, ∀ pfn, key v = some pfn → Q pfn := fun v hv => hk v (mem_cons_of_mem w hv)
    rw [secondPass]
    cases hw : key w with
    | none => exact ih h hs
    | some pfn =>
      have hp := hk w mem_cons_self pfn hw
      have hr := within_readEntry hI h hp
      dsimp only
      split
      · exact ih (within_rereadEntry hI (within_setEntry hI hr hp _) hp reread) hs
      · exact ih (within_rereadEntry hI hr hp reread) hs

omit h in
theorem allocate_after (st : Setup A) (hf : Within size I (firstPass st.platform ok key ws t).1)
  (ho : ∀ w ∈ ws, ∀ pfn, key w = some pfn → ok pfn = true → Q pfn) :
  Within size I (t.allocate st ok reread key ws).1 := by
  rw [allocate]
  split_ifs with ha
  · split
    · exact hf
    refine secondPass_within hI ?_ ?_
    · exact hf.transfer rfl rfl
    intro w hw pfn hp
    exact ho w hw pfn hp (firstPass_complete ha w hw pfn hp)
  · exact hf

omit h in
theorem uncanonicalize_within (st : Setup A) (h : Within size I t) (page : List UInt8) :
  Within size I (t.uncanonicalizePagetable st page).2.1 := by
  have ha : Within size I (t.allocate st (fun pfn => decide (pfn < t.p2mSize)) true
      st.platform.pfnOf (st.platform.ptes page)).1 :=
    have ho (w) (_ : w ∈ st.platform.ptes page) (pfn) (_ : st.platform.pfnOf w = some pfn)
        (hy : decide (pfn < t.p2mSize) = true) : Q pfn := hI.below pfn (h.size_eq ▸ of_decide_eq_true hy)
    allocate_after hI st (firstPass_within hI h ho) ho
  rw [uncanonicalizePagetable]
  split
  all_goals
    rename_i hc
    rw [hc] at ha
    exact ha

omit hI in
theorem machphysUpdate_within (i mfn pfn : Nat) : Within size I (t.machphysUpdate st a i mfn pfn).1 := by
  refine ⟨?_,h.holds⟩
  exact (congrArg Physmap.p2mSize (st.machphys_spec a i mfn pfn t.toGuest).1).trans h.size_eq

omit h in
theorem applyPage_within (st : Setup A) (a : Call) (i curpage frame : Nat) {w : Nat}
  (h : Within size I t) (hw : Q (pfnIn w)) : Within size I (t.applyPage st a i curpage w frame).1 := by
  rw [applyPage]
  dsimp only
  split
  · exact h
  split
  · exact h
  have hr := within_readEntry hI (within_setType hI h hw (pagetypeOf w)) hw
  have hm : Within size I (t.place a w frame (a.page curpage)) := hr.transfer rfl rfl
  split
  · split
    · have hp := uncanonicalize_within hI st hm (a.page curpage)
      split
      · rename_i hu
        exact (congrArg (fun r => Within size I r.2.1) hu).mp hp
      rename_i hu
      have hd := (congrArg (fun r => Within size I r.2.1) hu).mp hp
      refine machphysUpdate_within ?_ ..
      exact hd.transfer rfl rfl
    · exact machphysUpdate_within hm ..
  split
  · exact hm
  · exact machphysUpdate_within hm ..

theorem applyPages_within {es : List (Nat × Nat)} {i curpage nraces : Nat}
  (hs : ∀ e ∈ es, pagetypeOf e.1 ≠ xtab → Q (pfnIn e.1)) :
  Within size I (t.applyPages st a es i curpage nraces).tables := by
  induction es generalizing t i curpage nraces with
  | nil => exact h
  | cons e es ih =>
    obtain ⟨w,frame⟩ := e
    have hr : ∀ e ∈ es, pagetypeOf e.1 ≠ xtab → Q (pfnIn e.1) := fun e he => hs e (mem_cons_of_mem _ he)
    rw [applyPages]
    split
    · exact ih h hr
    rename_i hl
    have hp := applyPage_within hI st a i curpage frame h (hs (w,frame) mem_cons_self hl)
    split
    · rename_i hd
      rw [hd] at hp
      exact ih hp hr
    rename_i hx
    rw [hx] at hp
    exact hp

omit h in
theorem applyBatch_within (h : Within size I (t.allocate st (fun _ => true) (!st.hvm) keyOf a.words).1)
  (hs : ∀ w ∈ a.words, pagetypeOf w ≠ xtab → Q (pfnIn w)) : Within size I (t.applyBatch st a).tables := by
  rw [applyBatch]
  split
  · rename_i hc
    rw [hc] at h
    exact h
  rename_i hc
  rw [hc] at h
  split
  · exact applyPages_within hI h fun e he => hs e.1 (of_mem_zip he).1
  · exact h

omit hI h

theorem logged (size : Nat) (x : Access) : LogRule size (fun _ => True) (x ∈ ·) :=
  ⟨fun _ _ => trivial,fun _ _ h _ => mem_append_left _ h⟩

-- nothing is compared before the first read
theorem firstPass_reads {w : Nat} (hw : w ∈ ws) (hk : key w = some pfn) :
  ⟨.p2m,false,pfn⟩ ∈ (firstPass c (fun _ => true) key ws t).1.accesses := by
  have hl {t : Tables A} {ws : List Nat} (ht : ⟨.p2m,false,pfn⟩ ∈ t.accesses) :
      ⟨.p2m,false,pfn⟩ ∈ (firstPass c (fun _ => true) key ws t).1.accesses :=
    (firstPass_within (logged t.p2mSize ⟨.p2m,false,pfn⟩) ⟨rfl,ht⟩ fun _ _ _ _ _ => trivial).holds
  induction ws generalizing t with
  | nil => cases hw
  | cons v ws ih =>
    rw [firstPass]
    rcases mem_cons.mp hw with rfl | hw
    · rw [hk]
      dsimp only
      rw [if_pos rfl]
      split
      · exact hl (by simp [setEntry,readEntry,touch])
      · exact hl (by simp [readEntry,touch])
    cases hv : key v with
    | none => exact ih hw
    | some j =>
      dsimp only
      rw [if_pos rfl]
      split <;> exact ih hw

theorem firstPass_mark :
  (firstPass c ok key ws t).2 = (TwoPass.mark c.invalidP2mEntry c.pendingP2mEntry ok key ws t.p2m).2 ∧
    (firstPass c ok key ws t).1.toGuest = {t.toGuest with
        p2m := (TwoPass.mark c.invalidP2mEntry c.pendingP2mEntry ok key ws t.p2m).1} := by
  induction ws generalizing t with
  | nil => exact ⟨rfl,rfl⟩
  | cons w ws ih =>
    rw [firstPass,TwoPass.mark]
    cases hw : key w with
    | none => exact ih
    | some pfn =>
      dsimp only
      split
      · split
        · obtain ⟨h1,h2⟩ := @ih (((t.readEntry pfn).readEntry pfn).setEntry pfn c.pendingP2mEntry)
          rw [h1,h2]
          exact ⟨rfl,rfl⟩
        · exact @ih (t.readEntry pfn)
      · exact ⟨rfl,rfl⟩

end Tables

def InRange {A : Type} (g : Guest A) (a : Call) : Prop :=
  ∀ w ∈ a.words, pagetypeOf w ≠ xtab → pfnIn w < g.p2mSize

theorem keyOf_eq_some {w pfn : Nat} : keyOf w = some pfn ↔ pagetypeOf w ≠ xtab ∧ pfnIn w = pfn := by
  rw [keyOf]
  split <;> simp [*]

section
variable {A : Type} (st : Setup A) (g : Guest A) (a : Call)

theorem table_indices_in_range :
  (∀ x ∈ ((record g).applyBatch st a).tables.accesses, x.pfn < g.p2mSize) ↔ InRange g a := by
  constructor
  · intro h w hw hl
    have hk := keyOf_eq_some.mpr ⟨hl,rfl⟩
    have hI := Tables.logged g.p2mSize ⟨.p2m,false,pfnIn w⟩
    have hf : Within g.p2mSize (⟨.p2m,false,pfnIn w⟩ ∈ ·)
        (Tables.firstPass st.platform (fun _ => true) keyOf a.words (record g)).1 :=
      ⟨by rw [Tables.firstPass_mark.2]; rfl,Tables.firstPass_reads hw hk⟩
    have ha : Within g.p2mSize _ ((record g).allocate st (fun _ => true) (!st.hvm) keyOf a.words).1 :=
      Tables.allocate_after hI st hf fun _ _ _ _ _ => trivial
    exact h _ (Tables.applyBatch_within hI ha fun _ _ _ => trivial).holds
  · intro h
    have hI : LogRule g.p2mSize (· < g.p2mSize) fun l => ∀ x ∈ l, x.pfn < g.p2mSize :=
      ⟨fun _ hp => hp,fun l x hl hx => forall_mem_append.mpr ⟨hl,forall_mem_singleton.mpr hx⟩⟩
    have ho (w) (hw : w ∈ a.words) (pfn) (hp : keyOf w = some pfn) (_ : true = true) : pfn < g.p2mSize := by
      obtain ⟨hl,rfl⟩ := keyOf_eq_some.mp hp
      exact h w hw hl
    have hs : Within g.p2mSize (fun l => ∀ x ∈ l, x.pfn < g.p2mSize) (record g) := ⟨rfl,nofun⟩
    have ha : Within g.p2mSize _ ((record g).allocate st (fun _ => true) (!st.hvm) keyOf a.words).1 :=
      Tables.allocate_after hI st (Tables.firstPass_within hI hs ho) ho
    exact (Tables.applyBatch_within hI ha h).holds

end

def onePage (pfn : Nat) : List UInt8 := ofInt32 1 ++ (Bytes.store 8 [pfn] ++ List.replicate pageSize 0)

def received (buf : Pagebuf) : Call where
  buf := buf
  curbatch := 0
  mapped := true
  pfnErr := fun _ => false
  mmuError := fun _ => false

theorem last_page_in_range : ∃ buf, slavePagebufGetOne sampleSetup.platform quietHost 1 pagebufInit (onePage 3) =
      some (1,buf,[]) ∧ InRange emptyGuest (received buf) ∧
    ((record emptyGuest).applyBatch sampleSetup (received buf)).tables.accesses ≠ [] ∧
    ∀ x ∈ ((record emptyGuest).applyBatch sampleSetup (received buf)).tables.accesses, x.pfn < 4 := by
  have hr : (slavePagebufGetOne sampleSetup.platform quietHost 1 pagebufInit (onePage 3)).map
      (fun r => (r.1,r.2.2,(received r.2.1).words,
        ((record emptyGuest).applyBatch sampleSetup (received r.2.1)).tables.accesses.length)) =
      some (1,[],[3],8) := by decide +kernel
  obtain ⟨⟨n,buf,rest⟩,hg,hf⟩ := Option.map_eq_some_iff.mp hr
  simp only [Prod.mk.injEq] at hf
  obtain ⟨rfl,rfl,ho,hl⟩ := hf
  have hi : InRange emptyGuest (received buf) := by
    intro w hw _
    rw [ho,mem_singleton] at hw
    subst hw
    decide
  refine ⟨buf,hg,hi,?_,(table_indices_in_range sampleSetup emptyGuest (received buf)).mpr hi⟩
  intro hn
  rw [hn] at hl
  cases hl

theorem boundary_pfn_accepted : ∃ buf, slavePagebufGetOne sampleSetup.platform quietHost 1 pagebufInit (onePage 4) =
      some (1,buf,[]) ∧ emptyGuest.p2mSize = 4 ∧ ((record emptyGuest).applyBatch sampleSetup (received buf)).rc = 0 ∧
    ⟨.p2m,true,4⟩ ∈ ((record emptyGuest).applyBatch sampleSetup (received buf)).tables.accesses ∧ ⟨.pfnType,true,4⟩ ∈
      ((record emptyGuest).applyBatch sampleSetup (received buf)).tables.accesses := by
  have hr : (slavePagebufGetOne sampleSetup.platform quietHost 1 pagebufInit (onePage 4)).map
      (fun r =>
        let after := (record emptyGuest).applyBatch sampleSetup (received r.2.1)
        (r.1,r.2.2,after.rc,decide (⟨.p2m,true,4⟩ ∈ after.tables.accesses),
          decide (⟨.pfnType,true,4⟩ ∈ after.tables.accesses))) =
      some (1,[],0,true,true) := by decide +kernel
  obtain ⟨⟨n,buf,rest⟩,hg,hf⟩ := Option.map_eq_some_iff.mp hr
  simp only [Prod.mk.injEq,decide_eq_true_eq] at hf
  obtain ⟨rfl,rfl,hc,hp,ht⟩ := hf
  exact ⟨buf,hg,rfl,hc,hp,ht⟩

end TableBounds
