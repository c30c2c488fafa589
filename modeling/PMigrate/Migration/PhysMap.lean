import PMigrate.Core.Transition
import PMigrate.Migration.BatchCodec

namespace PhysMap

open PageTable BatchCodec Migration Function List Transition Nat Option

structure Setup (A : Type) where
  platform : Platform
  (hvm paeExtendedCr3 : Bool)
  populate : A → List Nat → Option (List Nat × A)

structure Guest (A : Type) extends Physmap A where
  mem : Nat → List UInt8
  pfnType : Nat → Nat
  machphys : List (Nat × Nat)

structure Call where
  buf : Pagebuf
  curbatch : Nat
  mapped : Bool
  (pfnErr mmuError : Nat → Bool)

inductive Exit where
  | done
  | nomem
  | mapFailed
  | pfnMapping
  | pfnRange
  | bogusType
  | mmuUpdate
  deriving DecidableEq

structure Result (A : Type) where
  guest : Guest A
  exit : Exit
  nraces : Nat

def Result.rc {A : Type} (r : Result A) : Int := if r.exit = .done then r.nraces else -1

namespace Call

def words (a : Call) : List Nat := (a.buf.pfnTypes.drop a.curbatch).take (min (a.buf.nrPages-a.curbatch) maxBatchSize)

def page (a : Call) (curpage : Nat) : List UInt8 := (a.buf.pages.drop ((curpage+a.curbatch)*pageSize)).take pageSize

def write (a : Call) (mem : Nat → List UInt8) (frame : Nat) (page : List UInt8) : Nat → List UInt8 :=
  if a.buf.verify then mem else update mem frame page

end Call

def keyOf (w : Nat) : Option Nat := if pagetypeOf w = xtab then none else some (pfnIn w)

namespace Setup

variable {A : Type}

def regionMfn (st : Setup A) (w : Nat) : Option Nat → Nat
  | none => st.platform.invalidP2mEntry
  | some mfn => if st.hvm then pfnIn w else mfn

def uncanonicalizes (st : Setup A) (w : Nat) : Bool :=
  decide (st.platform.ptLevels ≠ 3) || st.paeExtendedCr3 || decide (pagetypeOf w &&& ltabtypeMask ≠ l1tab)

def machphysUpdate (st : Setup A) (a : Call) (i mfn pfn : Nat) (g : Guest A) : Guest A × Exit × Bool :=
  if st.hvm then (g,.done,false)
  else if a.mmuError i then (g,.mmuUpdate,false)
  else ({g with machphys := g.machphys ++ [(mfn,pfn)]},.done,false)

def applyPage (st : Setup A) (a : Call) (g : Guest A) (i curpage w frame : Nat) : Guest A × Exit × Bool :=
  let pfn := pfnIn w
  if a.pfnErr i then (g,.pfnMapping,false)
  else if pfn > g.p2mSize then (g,.pfnRange,false)
  else
    let mfn := g.p2m pfn
    let page := a.page curpage
    let g := {g with pfnType := update g.pfnType pfn (pagetypeOf w),mem := a.write g.mem frame page}
    if isTable w then
      if st.uncanonicalizes w then
        match st.platform.uncanonicalizePagetable st.populate g.toPhysmap page with
        | (false,s,_) => ({g with toPhysmap := s},.done,true)
        | (true,s,page) =>
          st.machphysUpdate a i mfn pfn {g with toPhysmap := s,mem := a.write g.mem frame page}
      else st.machphysUpdate a i mfn pfn g
    else if pagetypeOf w &&& ltabtypeMask ≠ notab then (g,.bogusType,false)
    else st.machphysUpdate a i mfn pfn g

def applyPages (st : Setup A) (a : Call) : List (Nat × Nat) → Nat → Nat → Nat → Guest A → Result A
  | [],_,_,nraces,g => ⟨g,.done,nraces⟩
  | (w,frame) :: es,i,curpage,nraces,g =>
    if pagetypeOf w = xtab then applyPages st a es (i+1) curpage nraces g
    else
      match st.applyPage a g i curpage w frame with
      | (g,.done,raced) => applyPages st a es (i+1) (curpage+1) (if raced then nraces+1 else nraces) g
      | (g,exit,_) => ⟨g,exit,nraces⟩

def applyBatch (st : Setup A) (g : Guest A) (a : Call) : Option (Result A) :=
  match st.platform.allocate st.populate keyOf a.words g.toPhysmap with
  | .outOfRange _ => none
  | .nomem s => some ⟨{g with toPhysmap := s},.nomem,0⟩
  | .done s mfns =>
    let g := {g with toPhysmap := s}
    if a.mapped then
      some (st.applyPages a (a.words.zip (List.zipWith st.regionMfn a.words mfns)) 0 0 0 g)
    else some ⟨g,.mapFailed,0⟩

def step (st : Setup A) (g : Guest A) (a : Call) : Option (Guest A) := (st.applyBatch g a).map Result.guest

end Setup

def Call.physpage (a : Call) (k : Nat) : List UInt8 := (a.buf.pages.drop (k*pageSize)).take pageSize

theorem Call.page_first {a : Call} (h : a.curbatch = 0) (k : Nat) : a.page k = a.physpage k := by
  rw [Call.page,Call.physpage,h,add_zero]

structure Granted {A : Type} (c : Platform) (used : A → Set Nat) (heap heap' : A) (pfns mfns : List Nat) : Prop where
  exact : mfns.length = pfns.length
  distinct : mfns.Nodup
  unused : ∀ m ∈ mfns, m ∉ used heap
  kept : used heap ⊆ used heap'
  taken : ∀ m ∈ mfns, m ∈ used heap'
  real : ∀ m ∈ mfns, m ≠ c.invalidP2mEntry ∧ m ≠ c.pendingP2mEntry

def Fresh {A : Type} (c : Platform) (used : A → Set Nat) (populate : A → List Nat → Option (List Nat × A)) : Prop :=
  ∀ heap pfns mfns heap', populate heap pfns = some (mfns,heap') → Granted c used heap heap' pfns mfns

structure Sound {A : Type} (c : Platform) (used : A → Set Nat) (s : Physmap A) : Prop where
  settled : ∀ pfn, s.p2m pfn ≠ c.pendingP2mEntry
  injective : Set.InjOn s.p2m {pfn | s.p2m pfn ≠ c.invalidP2mEntry}
  held : ∀ pfn, s.p2m pfn ≠ c.invalidP2mEntry → s.p2m pfn ∈ used s.heap

def Keeps (c : Platform) (p2m p2m' : Nat → Nat) : Prop :=
  ∀ pfn, p2m pfn ≠ c.invalidP2mEntry → p2m' pfn = p2m pfn

section
variable {A : Type} {c : Platform} {used : A → Set Nat}
  {populate : A → List Nat → Option (List Nat × A)} {s s' : Physmap A}

theorem granted_exact (hf : Fresh c used populate) {heap he' : A} {pfns mfns : List Nat}
  (h : populateExact populate heap pfns = some (mfns,he')) : Granted c used heap he' pfns mfns := by
  rw [populateExact] at h
  split_ifs at h with hn
  · cases h
    subst hn
    exact ⟨rfl,nodup_nil,by simp,Set.Subset.rfl,by simp,by simp⟩
  · exact hf _ _ _ _ h

structure Allocated (c : Platform) (used : A → Set Nat) (key : Nat → Option Nat) (ws : List Nat)
    (s s' : Physmap A) (mfns : List (Option Nat)) : Prop where
  sound : Sound c used s'
  keeps : Keeps c s.p2m s'.p2m
  size : s'.p2mSize = s.p2mSize
  frames : mfns = ws.map fun w => (key w).map s'.p2m
  valid : ∀ w ∈ ws, ∀ pfn, key w = some pfn → s'.p2m pfn ≠ c.invalidP2mEntry

theorem allocate_done (hf : Fresh c used populate) (hs : Sound c used s)
  {key : Nat → Option Nat} {ws : List Nat} {mfns : List (Option Nat)}
  (h : c.allocate populate key ws s = .done s' mfns) : Allocated c used key ws s s' mfns := by
  rw [Platform.allocate] at h
  split at h
  · rename_i ho
    split at h
    · cases h
    rename_i new heap hc
    have hg := granted_exact hf hc
    have he := c.pending_ne_invalid
    have hb := TwoPass.supplied_of_mark he ho hg.exact fun m hm => (hg.real m hm).1
    have hp : ∀ m ∈ new, m ≠ c.pendingP2mEntry := fun m hm => (hg.real m hm).2
    have hu : ∀ m ∈ new, ∀ pfn, s.p2m pfn ≠ m := by
      intro m hm pfn ha
      have hh := hs.held pfn (ha ▸ (hg.real m hm).1)
      exact hg.unused m hm (ha ▸ hh)
    rw [TwoPass.fill_mark he hb hs.settled hp] at h
    cases h
    refine ⟨⟨?_,?_,?_⟩,?_,rfl,rfl,?_⟩
    · exact TwoPass.assign_ne_pending hb hs.settled hp
    · exact TwoPass.assign_injOn hb hs.injective hg.distinct hu
    · intro pfn ha
      dsimp only at ha ⊢
      have hv : TwoPass.assign c.invalidP2mEntry c.pendingP2mEntry key ws s.p2m new pfn = _ ∨ _ :=
        TwoPass.assign_values hb pfn
      rcases hv with hold | hn
      · rw [hold] at ha ⊢
        exact hg.kept (hs.held pfn ha)
      · exact hg.taken _ hn
    · intro pfn ha
      exact TwoPass.assign_keeps ha
    · intro w hw pfn ha
      exact TwoPass.assign_valid hb hw ha
  · cases h

end

theorem Keeps.refl (c : Platform) (p2m : Nat → Nat) : Keeps c p2m p2m := fun _ _ => rfl

variable {c : Platform}

theorem Keeps.trans {p q r : Nat → Nat} (h1 : Keeps c p q) (h2 : Keeps c q r) : Keeps c p r := by
  intro pfn hp
  have hq := h1 pfn hp
  rw [h2 pfn (hq.symm ▸ hp),hq]

theorem relocate_keeps {p2m p2m' : Nat → Nat} {page : List UInt8} (hk : Keeps c p2m p2m')
  (hv : ∀ w ∈ c.ptes page, ∀ pfn, c.pfnOf w = some pfn → p2m pfn ≠ c.invalidP2mEntry) :
  c.relocate p2m page = c.relocate p2m' page := by
  rw [Platform.relocate,Platform.relocate]
  congr 1
  refine map_congr_left fun w hw => ?_
  cases hp : c.pfnOf w with
  | none => rfl
  | some pfn => rw [map_some,map_some,hk pfn (hv w hw pfn hp)]

theorem uncanonicalize_success {A : Type} {used : A → Set Nat}
  {populate : A → List Nat → Option (List Nat × A)} {s s' : Physmap A} {page page' : List UInt8}
  (hf : Fresh c used populate) (hs : Sound c used s) (h : c.uncanonicalizePagetable populate s page = (true,s',page')) :
  Sound c used s' ∧ Keeps c s.p2m s'.p2m ∧ s'.p2mSize = s.p2mSize ∧
    ∀ p2m, Keeps c s'.p2m p2m → page' = c.relocate p2m page := by
  rw [Platform.uncanonicalizePagetable] at h
  split at h
  · cases h
  · cases h
  · rename_i s'' mfns hd
    have ha := allocate_done hf hs hd
    cases h
    refine ⟨ha.sound,ha.keeps,ha.size,?_⟩
    intro p2m hk
    rw [ha.frames,Platform.relocate_eq]
    exact relocate_keeps hk ha.valid

namespace Setup

variable {A : Type} {st : Setup A} {used : A → Set Nat} {a : Call} {g g' : Guest A}
  {i curpage w frame : Nat}

def content (st : Setup A) (w : Nat) (p2m : Nat → Nat) (page : List UInt8) : List UInt8 :=
  if isTable w && st.uncanonicalizes w then st.platform.relocate p2m page else page

structure Grown (st : Setup A) (used : A → Set Nat) (g g' : Guest A) : Prop where
  sound : Sound st.platform used g'.toPhysmap
  keeps : Keeps st.platform g.p2m g'.p2m
  size : g'.p2mSize = g.p2mSize

theorem grown_refl (h : Sound st.platform used g.toPhysmap) : Grown st used g g := ⟨h,.refl _ _,rfl⟩

theorem Grown.trans {g'' : Guest A} (h1 : Grown st used g g') (h2 : Grown st used g' g'') : Grown st used g g'' :=
  ⟨h2.sound,h1.keeps.trans h2.keeps,h2.size.trans h1.size⟩

structure PageApplied (st : Setup A) (used : A → Set Nat) (a : Call) (curpage w frame : Nat)
    (g g' : Guest A) (exit : Exit) : Prop where
  grown : Grown st used g g'
  others : ∀ f, f ≠ frame → g'.mem f = g.mem f
  own : exit = .done → a.buf.verify = false →
    ∀ p2m, Keeps st.platform g'.p2m p2m → g'.mem frame = st.content w p2m (a.page curpage)

theorem machphys_spec (st : Setup A) (a : Call) (i mfn pfn : Nat) (g : Guest A) :
  (st.machphysUpdate a i mfn pfn g).1.toPhysmap = g.toPhysmap ∧ (st.machphysUpdate a i mfn pfn g).1.mem = g.mem := by
  rw [machphysUpdate]
  split
  · exact ⟨rfl,rfl⟩
  split <;> exact ⟨rfl,rfl⟩

variable {mem : Nat → List UInt8} {raced : Bool}

theorem write_other {f : Nat} (page : List UInt8) (h : f ≠ frame) : a.write mem frame page f = mem f := by
  rw [Call.write]
  split
  · rfl
  · exact update_of_ne h ..

theorem write_own (page : List UInt8) (h : a.buf.verify = false) : a.write mem frame page frame = page := by
  simp [Call.write,h]

variable {exit : Exit} {es : List (Nat × Nat)} {nraces : Nat} {r : Result A} {e : Nat × Nat}

theorem pageApplied_machphys {g1 : Guest A} {mfn pfn : Nat}
  (h : st.machphysUpdate a i mfn pfn g1 = (g',exit,raced)) (hg : Grown st used g g1)
  (ho : ∀ f, f ≠ frame → g1.mem f = g.mem f) (hw : a.buf.verify = false →
    ∀ p2m, Keeps st.platform g1.p2m p2m → g1.mem frame = st.content w p2m (a.page curpage)) :
  PageApplied st used a curpage w frame g g' exit := by
  obtain ⟨hm,he⟩ := st.machphys_spec a i mfn pfn g1
  rw [h] at hm he
  refine ⟨⟨?_,?_,?_⟩,?_,?_⟩
  · exact hm ▸ hg.sound
  · exact (congrArg Physmap.p2m hm) ▸ hg.keeps
  · exact (congrArg Physmap.p2mSize hm).trans hg.size
  · intro f hf
    rw [he,ho f hf]
  · intro _ hv p2m hk
    rw [he]
    exact hw hv p2m ((congrArg Physmap.p2m hm) ▸ hk)

theorem applyPage_spec (hr : Fresh st.platform used st.populate)
  (hs : Sound st.platform used g.toPhysmap) (h : st.applyPage a g i curpage w frame = (g',exit,raced))
  (ha : exit = .done → raced = false) : PageApplied st used a curpage w frame g g' exit := by
  rw [applyPage] at h
  dsimp only at h
  split at h
  · cases h
    exact ⟨grown_refl hs,fun _ _ => rfl,fun he => by cases he⟩
  split at h
  · cases h
    exact ⟨grown_refl hs,fun _ _ => rfl,fun he => by cases he⟩
  have ho : ∀ f, f ≠ frame → a.write g.mem frame (a.page curpage) f = g.mem f := fun f hf => write_other _ hf
  split at h
  · rename_i ht
    split_ifs at h with hu
    · split at h
      · cases h
        cases ha rfl
      rename_i s' page' hc
      obtain ⟨hb,hk,hi,hp⟩ := uncanonicalize_success hr hs hc
      refine pageApplied_machphys h ⟨hb,hk,hi⟩ ?_ ?_
      · intro f hf
        exact (write_other _ hf).trans (ho f hf)
      intro hv p2m hd
      refine (write_own _ hv).trans ?_
      rw [hp p2m hd]
      simp [content,ht,hu]
    refine pageApplied_machphys h ⟨hs,.refl _ _,rfl⟩ ho ?_
    intro hv p2m _
    refine (write_own _ hv).trans ?_
    simp [content,hu]
  rename_i ht
  split at h
  · cases h
    exact ⟨⟨hs,.refl _ _,rfl⟩,ho,fun he => by cases he⟩
  refine pageApplied_machphys h ⟨hs,.refl _ _,rfl⟩ ho ?_
  intro hv p2m _
  refine (write_own _ hv).trans ?_
  simp [content,ht]

theorem nraces_le : nraces ≤ (st.applyPages a es i curpage nraces g).nraces := by
  induction es generalizing i curpage nraces g with
  | nil => exact le_rfl
  | cons e es ih =>
    rw [applyPages]
    split
    · exact ih
    split
    · rename_i raced _
      refine le_trans ?_ ih
      cases raced <;> simp
    · exact le_rfl

def present (e : Nat × Nat) : Bool := decide (pagetypeOf e.1 ≠ xtab)

structure LoopApplied (st : Setup A) (used : A → Set Nat) (a : Call) (es : List (Nat × Nat))
    (curpage : Nat) (g : Guest A) (r : Result A) : Prop where
  grown : Grown st used g r.guest
  others : ∀ f, (∀ e ∈ es, present e = true → e.2 ≠ f) → r.guest.mem f = g.mem f
  own : r.exit = .done → a.buf.verify = false → ∀ pre e post, es = pre ++ e :: post →
    present e = true → (∀ e' ∈ post, present e' = true → e'.2 ≠ e.2) →
      r.guest.mem e.2 = st.content e.1 r.guest.p2m (a.page (curpage+pre.countP present))

theorem loop_skip (he : present e = false)
  (h : LoopApplied st used a es curpage g r) : LoopApplied st used a (e :: es) curpage g r := by
  refine ⟨h.grown,?_,?_⟩
  · intro f hf
    exact h.others f fun e' he' => hf e' (mem_cons_of_mem e he')
  intro hx hv pre e' post hs hp hl
  cases pre with
  | nil =>
    cases hs
    rw [he] at hp
    cases hp
  | cons d pre =>
    cases hs
    rw [countP_cons_of_neg (by simp [he])]
    exact h.own hx hv pre e' post rfl hp hl

theorem loop_stop (he : present e = true) (hx : exit ≠ .done) (h : PageApplied st used a curpage e.1 e.2 g g' exit) :
  LoopApplied st used a (e :: es) curpage g ⟨g',exit,nraces⟩ := by
  refine ⟨h.grown,?_,fun hd => absurd hd hx⟩
  intro f hf
  exact h.others f (hf e (by simp) he).symm

theorem loop_next (he : present e = true) (hp : PageApplied st used a curpage e.1 e.2 g g' .done)
  (h : LoopApplied st used a es (curpage+1) g' r) : LoopApplied st used a (e :: es) curpage g r := by
  refine ⟨hp.grown.trans h.grown,?_,?_⟩
  · intro f hf
    rw [h.others f fun e' he' => hf e' (mem_cons_of_mem e he'),hp.others f (hf e (by simp) he).symm]
  intro hx hv pre e' post hs hr hl
  cases pre with
  | nil =>
    cases hs
    rw [h.others e.2 hl]
    exact hp.own rfl hv _ h.grown.keeps
  | cons d pre =>
    cases hs
    rw [countP_cons_of_pos he,add_comm _ 1,← add_assoc]
    exact h.own hx hv pre e' post rfl hr hl

theorem applyPages_spec (hf : Fresh st.platform used st.populate) (hs : Sound st.platform used g.toPhysmap)
  (hc : (st.applyPages a es i curpage nraces g).nraces = nraces) :
  LoopApplied st used a es curpage g (st.applyPages a es i curpage nraces g) := by
  induction es generalizing i curpage nraces g with
  | nil => exact ⟨grown_refl hs,fun _ _ => rfl,fun _ _ pre e post hb => by simp at hb⟩
  | cons e es ih =>
    rw [applyPages] at hc ⊢
    split_ifs with hx
    · rw [if_pos hx] at hc
      exact loop_skip (by simp [present,hx]) (ih hs hc)
    rw [if_neg hx] at hc
    have he : present e = true := by simpa [present] using hx
    split
    · rename_i g1 raced ho
      rw [ho] at hc
      dsimp only at hc
      cases raced with
      | true =>
        have hl : nraces+1 ≤ (st.applyPages a es (i+1) (curpage+1) (nraces+1) g1).nraces := nraces_le
        rw [if_pos rfl] at hc
        omega
      | false =>
        have hp := applyPage_spec hf hs ho fun _ => rfl
        exact loop_next he hp (ih hp.grown.sound hc)
    · rename_i g1 exit raced ha ho
      exact loop_stop he ha (applyPage_spec hf hs ho fun hd => (ha hd).elim)

def frameOf (st : Setup A) (p2m : Nat → Nat) (pfn : Nat) : Nat := if st.hvm then pfn else p2m pfn

def entryOf (st : Setup A) (p2m : Nat → Nat) (w : Nat) : Nat × Nat := (w,st.regionMfn w ((keyOf w).map p2m))

theorem entryOf_frame (p2m : Nat → Nat) (hw : pagetypeOf w ≠ xtab) :
  (st.entryOf p2m w).2 = st.frameOf p2m (pfnIn w) := by
  simp [entryOf,keyOf,hw,regionMfn,frameOf]

theorem zip_region (p2m : Nat → Nat) (ws : List Nat) :
  ws.zip (List.zipWith st.regionMfn ws (ws.map fun w => (keyOf w).map p2m)) = ws.map (st.entryOf p2m) := by
  induction ws with
  | nil => rfl
  | cons w ws ih =>
    simp only [map_cons,zipWith_cons_cons,zip_cons_cons,ih]
    rfl

theorem frameOf_injective {s : Physmap A} (hs : Sound st.platform used s) {m n : Nat}
  (hm : s.p2m m ≠ st.platform.invalidP2mEntry) (hn : s.p2m n ≠ st.platform.invalidP2mEntry)
  (h : st.frameOf s.p2m m = st.frameOf s.p2m n) : m = n := by
  rw [frameOf,frameOf] at h
  split at h
  · exact h
  · exact hs.injective hm hn h

structure BatchApplied (st : Setup A) (used : A → Set Nat) (a : Call) (g : Guest A) (r : Result A) : Prop where
  grown : Grown st used g r.guest
  valid : ∀ w ∈ a.words, pagetypeOf w ≠ xtab → r.guest.p2m (pfnIn w) ≠ st.platform.invalidP2mEntry
  written : r.exit = .done → a.buf.verify = false → ∀ pre w post, a.words = pre ++ w :: post →
    pagetypeOf w ≠ xtab → (∀ v ∈ post, pagetypeOf v ≠ xtab → pfnIn v ≠ pfnIn w) →
      r.guest.mem (st.frameOf r.guest.p2m (pfnIn w)) =
        st.content w r.guest.p2m (a.page (pre.countP fun v => decide (pagetypeOf v ≠ xtab)))

theorem applyBatch_spec (hf : Fresh st.platform used st.populate)
  (hs : Sound st.platform used g.toPhysmap) (h : st.applyBatch g a = some r)
  (hm : r.exit ≠ .nomem) (hc : r.nraces = 0) : BatchApplied st used a g r := by
  rw [applyBatch] at h
  split at h
  · cases h
  · cases h
    exact absurd rfl hm
  · rename_i s mfns hd
    have ha := allocate_done hf hs hd
    have hb : ∀ w ∈ a.words, pagetypeOf w ≠ xtab → s.p2m (pfnIn w) ≠ st.platform.invalidP2mEntry :=
      fun w hw hx => ha.valid w hw _ (if_neg hx)
    have hg : Grown st used g {g with toPhysmap := s} := ⟨ha.sound,ha.keeps,ha.size⟩
    rw [ha.frames,zip_region] at h
    split at h
    · have hr := Option.some.inj h
      have hl : LoopApplied st used a (a.words.map (st.entryOf s.p2m)) 0 {g with toPhysmap := s} r := by
        rw [← hr] at hc ⊢
        exact applyPages_spec hf ha.sound hc
      have hk : ∀ w ∈ a.words, pagetypeOf w ≠ xtab → r.guest.p2m (pfnIn w) = s.p2m (pfnIn w) :=
        fun w hw hx => hl.grown.keeps _ (hb w hw hx)
      refine ⟨hg.trans hl.grown,?_,?_⟩
      · intro w hw hx
        rw [hk w hw hx]
        exact hb w hw hx
      intro hi hu pre w post hn hx hy
      have hw : w ∈ a.words := by simp [hn]
      have hz : st.frameOf r.guest.p2m (pfnIn w) = (st.entryOf s.p2m w).2 := by
        rw [entryOf_frame _ hx,frameOf,frameOf,hk w hw hx]
      have ho := hl.own hi hu (pre.map (st.entryOf s.p2m)) (st.entryOf s.p2m w)
        (post.map (st.entryOf s.p2m)) (by rw [hn,map_append,map_cons])
        (decide_eq_true hx) ?_
      · rw [hz,ho,zero_add,countP_map]
        rfl
      intro e he hp hq
      obtain ⟨v,hv,rfl⟩ := mem_map.mp he
      have ht : pagetypeOf v ≠ xtab := of_decide_eq_true hp
      rw [entryOf_frame _ ht,entryOf_frame _ hx] at hq
      have hva : v ∈ a.words := by simp [hn,hv]
      exact hy v hv ht (frameOf_injective ha.sound (hb v hva ht) (hb w hw hx) hq)
    · cases h
      exact ⟨hg,hb,fun hi => by cases hi⟩

def Clean (st : Setup A) (g : Guest A) (a : Call) : Prop :=
  ∀ r, st.applyBatch g a = some r → r.exit ≠ .nomem ∧ r.nraces = 0

theorem clean_of_result (hr : st.applyBatch g a = some r) (he : r.exit ≠ .nomem) (hc : r.nraces = 0) :
  st.Clean g a := by
  intro r' hr'
  obtain rfl := Option.some.inj (hr.symm.trans hr')
  exact ⟨he,hc⟩

theorem grown_step (hf : Fresh st.platform used st.populate)
  (hs : Sound st.platform used g.toPhysmap) (hc : st.Clean g a) (h : st.step g a = some g') : Grown st used g g' := by
  obtain ⟨r,hr,rfl⟩ := map_eq_some_iff.mp h
  obtain ⟨hm,ha⟩ := hc r hr
  exact (applyBatch_spec hf hs hr hm ha).grown

theorem grown_reach (hf : Fresh st.platform used st.populate)
  (hs : Sound st.platform used g.toPhysmap) (h : Reach st.step st.Clean g g') : Grown st used g g' := by
  refine reach_invariant (grown_refl hs) ?_ h
  intro u b v _ hu hc hv
  exact hu.trans (grown_step hf hu.sound hc hv)

theorem sound_init (hi : ∀ pfn, g.p2m pfn = st.platform.invalidP2mEntry) : Sound st.platform used g.toPhysmap := by
  refine ⟨?_,?_,?_⟩
  · intro pfn
    rw [hi]
    exact (Platform.pending_ne_invalid _).symm
  · intro pfn hp
    exact absurd (hi pfn) hp
  · intro pfn hp
    exact absurd (hi pfn) hp

theorem p2m_construction (st : Setup A) (used : A → Set Nat) (hfresh : Fresh st.platform used st.populate)
  (g0 : Guest A)
  (hinit : ∀ pfn, g0.p2m pfn = st.platform.invalidP2mEntry) {g : Guest A}
  (hg : Reach st.step st.Clean g0 g) (a : Call) (hclean : st.Clean g a)
  {r : Result A} (hr : st.applyBatch g a = some r) {g' : Guest A}
  (hlater : Reach st.step st.Clean r.guest g') : (∀ pfn, g'.p2m pfn ≠ st.platform.pendingP2mEntry) ∧
    Set.InjOn g'.p2m {pfn | g'.p2m pfn ≠ st.platform.invalidP2mEntry} ∧ (∀ w ∈ a.words, pagetypeOf w ≠ xtab →
      r.guest.p2m (pfnIn w) ≠ st.platform.invalidP2mEntry ∧ g'.p2m (pfnIn w) = r.guest.p2m (pfnIn w)) ∧
    (∀ pfn, g.p2m pfn ≠ st.platform.invalidP2mEntry → g'.p2m pfn = g.p2m pfn) ∧
    (0 ≤ r.rc → a.buf.verify = false → a.curbatch = 0 → ∀ pre w post, a.words = pre ++ w :: post → pagetypeOf w ≠ xtab →
        (∀ v ∈ post, pagetypeOf v ≠ xtab → pfnIn v ≠ pfnIn w) →
          r.guest.mem (st.frameOf r.guest.p2m (pfnIn w)) = st.content w r.guest.p2m
            (a.physpage (pre.countP fun v => decide (pagetypeOf v ≠ xtab)))) := by
  have he := grown_reach hfresh (sound_init hinit) hg
  obtain ⟨hm,hc⟩ := hclean r hr
  have hb := applyBatch_spec hfresh he.sound hr hm hc
  have ha := grown_reach hfresh hb.grown.sound hlater
  refine ⟨ha.sound.settled,ha.sound.injective,?_,(hb.grown.trans ha).keeps,?_⟩
  · intro w hw hx
    have hv := hb.valid w hw hx
    exact ⟨hv,ha.keeps _ hv⟩
  intro hd hi hu pre w post ho hx hl
  have ht : r.exit = .done := by
    by_contra hn
    rw [Result.rc,if_neg hn] at hd
    omega
  rw [← Call.page_first hu]
  exact hb.written ht hi pre w post ho hx hl

end Setup

def takeNext (limit next : Nat) (pfns : List Nat) : Option (List Nat × Nat) :=
  if next+pfns.length < limit then
    some (List.range' next pfns.length,next+pfns.length)
  else none

theorem takeNext_fresh (c : Platform) {limit : Nat} (hl : limit ≤ c.pendingP2mEntry) :
  Fresh c (fun next => {m | m < next}) (takeNext limit) := by
  intro next pfns mfns next' h
  rw [takeNext] at h
  split at h
  · rename_i ho
    cases h
    have hr : ∀ m ∈ List.range' next pfns.length, next ≤ m ∧ m < next+pfns.length := by
      intro m hm
      simpa [mem_range'_1] using hm
    refine ⟨by simp,nodup_range',?_,?_,?_,?_⟩
    · intro m hm ht
      exact absurd ht (not_lt.mpr (hr m hm).1)
    · intro m hm
      exact lt_of_lt_of_le hm (le_add_right _ _)
    · intro m hm
      exact (hr m hm).2
    · intro m hm
      have ht := (hr m hm).2
      have he : c.pendingP2mEntry ≤ c.invalidP2mEntry := sub_le _ _
      exact ⟨by omega,by omega⟩
  · cases h

def sampleSetup : Setup Nat where
  platform := SaveCtx.longCtx.toPlatform
  hvm := false
  paeExtendedCr3 := false
  populate := takeNext 1000

def emptyGuest : Guest Nat where
  p2mSize := 4
  p2m := fun _ => SaveCtx.longCtx.invalidP2mEntry
  heap := 100
  mem := fun _ => []
  pfnType := fun _ => 0
  machphys := []

def sampleCall (mapped : Bool) : Call where
  buf := {pagebufInit with nrPages := 1,nrPhyspages := 1,pfnTypes := [2],pages := blankPage.page}
  curbatch := 0
  mapped := mapped
  pfnErr := fun _ => false
  mmuError := fun _ => false

theorem one_page_applied : ∃ r, sampleSetup.applyBatch emptyGuest (sampleCall true) = some r ∧ r.rc = 0 ∧
    r.guest.p2m 2 = 100 ∧ r.guest.mem 100 = (sampleCall true).physpage 0 ∧
    Set.InjOn r.guest.p2m {pfn | r.guest.p2m pfn ≠ sampleSetup.platform.invalidP2mEntry} := by
  have hu : (sampleSetup.applyBatch emptyGuest (sampleCall true)).map
      (fun r => (r.exit,r.nraces,r.guest.p2m 2)) = some (.done,0,100) := by decide
  obtain ⟨r,hr,hf⟩ := map_eq_some_iff.mp hu
  simp only [Prod.mk.injEq] at hf
  obtain ⟨he,hc,hp⟩ := hf
  have hd : r.rc = 0 := by simp [Result.rc,he,hc]
  have hl := Setup.clean_of_result hr (by simp [he]) hc
  obtain ⟨-,hi,-,-,hb⟩ := Setup.p2m_construction sampleSetup _
    (takeNext_fresh sampleSetup.platform (by decide)) emptyGuest (fun _ => rfl) .refl
    (sampleCall true) hl hr .refl
  have ha := hb hd.ge rfl rfl [] 2 [] (by decide) (by decide) (by simp)
  refine ⟨r,hr,hd,hp,?_,hi⟩
  rw [← hp]
  exact ha

theorem unmapped_page_unwritten : ∃ r, sampleSetup.Clean emptyGuest (sampleCall false) ∧
    sampleSetup.applyBatch emptyGuest (sampleCall false) = some r ∧
    (sampleCall false).words = [2] ∧ pagetypeOf 2 ≠ xtab ∧ r.guest.p2m (pfnIn 2) = 100 ∧
    r.guest.mem (sampleSetup.frameOf r.guest.p2m (pfnIn 2)) ≠
      sampleSetup.content 2 r.guest.p2m ((sampleCall false).physpage 0) := by
  have hu : (sampleSetup.applyBatch emptyGuest (sampleCall false)).map
      (fun r => (r.exit,r.nraces,r.guest.p2m (pfnIn 2),r.guest.mem 100)) = some (.mapFailed,0,100,[]) := by decide
  obtain ⟨r,hr,hf⟩ := map_eq_some_iff.mp hu
  simp only [Prod.mk.injEq] at hf
  obtain ⟨hx,hm,hp,hb⟩ := hf
  have ha : sampleSetup.frameOf r.guest.p2m (pfnIn 2) = 100 := hp
  have hc := Setup.clean_of_result hr (by simp [hx]) hm
  refine ⟨r,hc,hr,by decide,by decide,hp,?_⟩
  rw [ha,hb]
  intro hn
  have hl : sampleSetup.content 2 r.guest.p2m ((sampleCall false).physpage 0) =
      (sampleCall false).physpage 0 := if_neg (by decide)
  have he : ((sampleCall false).physpage 0).length = pageSize := by
    simp [Call.physpage,sampleCall,blankPage]
  rw [← hl,← hn] at he
  cases he

end PhysMap
