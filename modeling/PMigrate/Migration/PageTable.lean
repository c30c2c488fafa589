import PMigrate.Core.Bytes
import PMigrate.Core.BitField
import PMigrate.Core.TwoPass
import Mathlib.Data.List.TakeWhile

namespace PageTable

open List Bytes Nat

def pageSize : Nat := 4096
def pageShift : Nat := 12

def pagePresent : Nat := 0x001
def pageRw : Nat := 0x002
def pageUser : Nat := 0x004
def pageAccessed : Nat := 0x020

def l3Flags : Nat := pageUser ||| pageRw ||| pageAccessed

def notab : Nat := 0
def l1tab : Nat := 1 <<< 28
def l2tab : Nat := 2 <<< 28
def l3tab : Nat := 3 <<< 28
def l4tab : Nat := 4 <<< 28
def xtab : Nat := 0xf <<< 28
def ltabMask : Nat := 0xf <<< 28
def ltabtypeMask : Nat := 0x7 <<< 28

def l2PagetableShiftPae : Nat := 21
def l3PagetableEntriesPae : Nat := 4

inductive Build where
  | x86_32
  | x86_64

def Build.longSize : Build → Nat
  | .x86_32 => 4
  | .x86_64 => 8

theorem Build.longSize_cases (b : Build) : b.longSize = 4 ∨ b.longSize = 8 := by
  cases b with
  | x86_32 => exact .inl rfl
  | x86_64 => exact .inr rfl

structure Platform where
  build : Build
  (ptLevels guestWidth hvirtStart : Nat)

namespace Platform

def longSize (c : Platform) : Nat := c.build.longSize

section
variable (c : Platform)

def toLong (x : Nat) : Nat := x%2^(8*c.longSize)

def invalidP2mEntry : Nat := 2^(8*c.longSize)-1

def pendingP2mEntry : Nat := c.invalidP2mEntry-1

def l2PagetableShift : Nat :=
  match c.build with
  | .x86_32 => 22
  | .x86_64 => 21

def maddrBits : Nat := if c.guestWidth = 8 then 52 else 44

def frameBits : Nat := c.maddrBits-pageShift

def entrySize : Nat := if c.ptLevels = 2 then 4 else 8

def pteLast : Nat := pageSize/c.entrySize

def ptes (page : List UInt8) : List Nat := load c.entrySize c.pteLast page

def frame (pte : Nat) : Nat := BitField.get pageShift c.frameBits pte

def withFrame (pte f : Nat) : Nat := BitField.put 64 pageShift c.frameBits pte f

end

end Platform

structure SaveCtx extends Platform where
  (maxMfn m2pMfn0 p2mSize : Nat)
  (liveM2p liveP2m : Nat → Nat)

namespace SaveCtx

section
variable (c : SaveCtx)

def mfnToPfn (mfn : Nat) : Nat := c.toLong (c.liveM2p mfn)

def pfnToMfn (pfn : Nat) : Nat :=
  if c.guestWidth = 8 then c.toLong (c.liveP2m pfn%2^64)
  else if c.liveP2m pfn%2^32 = 0xffffffff then c.invalidP2mEntry
  else c.toLong (c.liveP2m pfn%2^32)

def mfnIsInPseudophysMap (mfn : Nat) : Bool :=
  decide (mfn < c.maxMfn) && decide (c.mfnToPfn mfn < c.p2mSize) && decide (c.pfnToMfn (c.mfnToPfn mfn) = mfn)

def m2pSlot (ptes : List Nat) (hvirt : Nat) : Option Nat :=
  let hstart := (hvirt >>> l2PagetableShiftPae) &&& 0x1ff
  if c.frame (ptes.getD hstart 0) = c.m2pMfn0 then some hstart else none

section
variable (type : Nat)

def xenStart (ptes : List Nat) : Int :=
  if c.ptLevels = 2 ∧ type = l2tab then
    Int.bmod (c.hvirtStart >>> c.l2PagetableShift : Nat) (2^32)
  else if c.ptLevels = 3 ∧ type = l3tab then l3PagetableEntriesPae
  else if c.ptLevels = 3 ∧ type = l2tab then
    match c.m2pSlot ptes c.hvirtStart with
    | some hstart => hstart
    | none =>
      if c.hvirtStart ≠ 0xf5800000 then ((c.m2pSlot ptes 0xf5800000).getD c.pteLast : Nat)
      else c.pteLast
  else if c.ptLevels = 4 ∧ type = l4tab then 256
  else c.pteLast

def xenEnd : Int := if c.ptLevels = 4 ∧ type = l4tab then 272 else c.pteLast

def inXenSlot (ptes : List Nat) (i : Nat) : Bool :=
  decide (c.xenStart type ptes ≤ i) && decide (i < c.xenEnd type)

def canonicalizeEntry (slot : Bool) (w : Nat) : Nat × Bool :=
  let pte := if slot then 0 else w
  if pte &&& pagePresent ≠ 0 then
    let mfn := c.toLong (c.frame pte)
    let known := c.mfnIsInPseudophysMap mfn
    let pfn := if known then c.mfnToPfn mfn else 0
    let race := !known && !(decide (type = l2tab) && decide (c.guestWidth < c.longSize))
    let pte := c.withFrame pte pfn
    let pte :=
      if c.ptLevels = 3 ∧ type = l3tab ∧ pte &&& l3Flags ≠ 0 then BitField.clear 64 l3Flags pte
      else pte
    (pte,race)
  else (pte,false)

def canonicalizeEntries (spage : List UInt8) : List (Nat × Bool) :=
  let ptes := c.ptes spage
  ptes.zipIdx.map fun p => c.canonicalizeEntry type (c.inXenSlot type ptes p.2) p.1

def canonicalizePagetable (spage : List UInt8) : List UInt8 × Bool :=
  let r := c.canonicalizeEntries type spage
  (store c.entrySize (r.map Prod.fst),r.any Prod.snd)

end

end

end SaveCtx

structure Physmap (A : Type) where
  p2mSize : Nat
  p2m : Nat → Nat
  heap : A

inductive Allocation (A : Type) where
  | outOfRange (s : Physmap A)
  | nomem (s : Physmap A)
  | done (s : Physmap A) (mfns : List (Option Nat))

def populateExact {A : Type} (populate : A → List Nat → Option (List Nat × A)) (heap : A)
    (pfns : List Nat) : Option (List Nat × A) :=
  if pfns = [] then some ([],heap) else populate heap pfns

namespace Platform

def pfnOf (c : Platform) (pte : Nat) : Option Nat :=
  if pte &&& pagePresent ≠ 0 then some (c.toLong (c.frame pte)) else none

def restoreEntry (c : Platform) (pte : Nat) : Option Nat → Nat
  | none => pte
  | some mfn => c.withFrame pte mfn

def allocate {A : Type} (c : Platform) (populate : A → List Nat → Option (List Nat × A))
    (key : Nat → Option Nat) (ws : List Nat) (s : Physmap A) : Allocation A :=
  let first := TwoPass.mark c.invalidP2mEntry c.pendingP2mEntry (fun pfn => decide (pfn < s.p2mSize))
    key ws s.p2m
  if first.2.2 then
    match populateExact populate s.heap first.2.1 with
    | none => .nomem {s with p2m := first.1}
    | some (mfns,heap) =>
      let second := TwoPass.fill c.pendingP2mEntry key ws first.1 mfns
      .done {s with p2m := second.1,heap := heap} second.2
  else .outOfRange {s with p2m := first.1}

def uncanonicalizePagetable {A : Type} (c : Platform)
    (populate : A → List Nat → Option (List Nat × A)) (s : Physmap A) (page : List UInt8) :
    Bool × Physmap A × List UInt8 :=
  match c.allocate populate c.pfnOf (c.ptes page) s with
  | .outOfRange s => (false,s,page)
  | .nomem s => (false,s,page)
  | .done s mfns => (true,s,store c.entrySize (List.zipWith c.restoreEntry (c.ptes page) mfns))

end Platform

namespace Platform

variable {c : Platform} {page : List UInt8} {w f : Nat}

def frameWidth (c : Platform) : Nat := min c.frameBits (8*c.entrySize-pageShift)

theorem field_le (c : Platform) : pageShift+c.frameBits ≤ 64 := by
  simp only [frameBits,maddrBits,pageShift]
  split <;> omega

theorem entry_le (c : Platform) : 8*c.entrySize ≤ 64 := by
  simp only [entrySize]
  split <;> omega

theorem pteLast_mul (c : Platform) : c.pteLast*c.entrySize = pageSize := by
  simp only [pteLast,entrySize,pageSize]
  split <;> rfl

theorem lt_of_mem_ptes (hl : page.length = pageSize) (hw : w ∈ c.ptes page) : w < 2^(8*c.entrySize) := by
  have h := lt_of_mem_load (hl.trans c.pteLast_mul.symm) hw
  rwa [show 256 = 2^8 from rfl,← pow_mul] at h

theorem lt_word (h : w < 2^(8*c.entrySize)) : w < 2^64 :=
  h.trans_le (Nat.pow_le_pow_right (by omega) c.entry_le)

theorem lt_field (h : f < 2^c.frameWidth) : f < 2^c.frameBits :=
  h.trans_le (Nat.pow_le_pow_right (by omega) (Nat.min_le_left _ _))

theorem withFrame_eq (hw : w < 2^(8*c.entrySize)) (hf : f < 2^c.frameWidth) :
  c.withFrame w f = BitField.replace pageShift c.frameBits w f :=
  BitField.put_eq_replace c.field_le (lt_word hw) (lt_field hf)

theorem replace_lt (hw : w < 2^(8*c.entrySize)) (hf : f < 2^c.frameWidth) :
  BitField.replace pageShift c.frameBits w f < 2^(8*c.entrySize) :=
  BitField.replace_lt hw (lt_field hf) (hf.trans_le (Nat.pow_le_pow_right (by omega) (Nat.min_le_right _ _)))

end Platform

def Platform.relocate (c : Platform) (p2m : Nat → Nat) (page : List UInt8) : List UInt8 :=
  store c.entrySize ((c.ptes page).map fun w => c.restoreEntry w ((c.pfnOf w).map p2m))

theorem Platform.relocate_eq (c : Platform) (p2m : Nat → Nat) (page : List UInt8) :
  store c.entrySize (List.zipWith c.restoreEntry (c.ptes page)
    ((c.ptes page).map fun w => (c.pfnOf w).map p2m)) = c.relocate p2m page := by
  rw [relocate,zipWith_map_right,zipWith_self]

theorem replace_present {lo n w f : Nat} (hl : 0 < lo) (hf : f < 2^n) :
  BitField.replace lo n w f &&& pagePresent = w &&& pagePresent := by
  rw [pagePresent,and_one_is_mod,and_one_is_mod,BitField.replace_mod_two hl hf]

theorem clear_present {w : Nat} (hw : w < 2^64) : BitField.clear 64 l3Flags w &&& pagePresent = w &&& pagePresent := by
  have hb : (BitField.clear 64 l3Flags w).testBit 0 = w.testBit 0 := by
    rw [BitField.testBit_clear (by decide) hw]
    simp [l3Flags,pageUser,pageRw,pageAccessed]
  rw [testBit_zero,testBit_zero] at hb
  rw [pagePresent,and_one_is_mod,and_one_is_mod]
  have hi := decide_eq_decide.mp hb
  omega

namespace SaveCtx

variable {c : SaveCtx} {type w f : Nat}

def tidy (c : SaveCtx) (type w : Nat) : Nat :=
  if c.ptLevels = 3 ∧ type = l3tab then BitField.clear 64 l3Flags w else w

theorem tidy_le (c : SaveCtx) (type w : Nat) : c.tidy type w ≤ w := by
  rw [tidy]
  split
  · exact BitField.clear_le ..
  · exact le_rfl

theorem tidy_present (hw : w < 2^64) : c.tidy type w &&& pagePresent = w &&& pagePresent := by
  rw [tidy]
  split
  · exact clear_present hw
  · rfl

theorem tidy_replace (hw : w < 2^64) (hf : f < 2^c.frameBits) :
  c.tidy type (BitField.replace pageShift c.frameBits w f) =
    BitField.replace pageShift c.frameBits (c.tidy type w) f := by
  rw [tidy,tidy]
  split
  · exact BitField.clear_replace (by decide) c.field_le hw hf
  · rfl

theorem tidy_of_flags (hw : w < 2^64) :
  (if c.ptLevels = 3 ∧ type = l3tab ∧ w &&& l3Flags ≠ 0 then BitField.clear 64 l3Flags w else w) = c.tidy type w := by
  rw [tidy]
  by_cases hl : c.ptLevels = 3 ∧ type = l3tab
  · by_cases hf : w &&& l3Flags = 0
    · simp [hl,hf,BitField.clear_of_disjoint (by decide) hw hf]
    · simp [hl,hf]
  · rw [if_neg hl,if_neg fun h => hl ⟨h.1,h.2.1⟩]

def pfnNamed (c : SaveCtx) (w : Nat) : Nat := c.mfnToPfn (c.toLong (c.frame w))

theorem canonicalizeEntry_live (hw : w < 2^(8*c.entrySize)) (hp : w &&& pagePresent ≠ 0)
  (hk : c.mfnIsInPseudophysMap (c.toLong (c.frame w)) = true)
  (hf : c.pfnNamed w < 2^c.frameWidth) : c.canonicalizeEntry type false w =
    (BitField.replace pageShift c.frameBits (c.tidy type w) (c.pfnNamed w),false) := by
  have hl := Platform.lt_word (Platform.replace_lt hw hf)
  have ht := @tidy_of_flags c type _ hl
  rw [tidy_replace (Platform.lt_word hw) (Platform.lt_field hf)] at ht
  simp only [canonicalizeEntry,Bool.false_eq_true,if_false,if_pos hp,hk,if_true]
  rw [← pfnNamed,Platform.withFrame_eq hw hf,ht]
  rfl

variable {page : List UInt8} {A : Type} {s : Physmap A}

section
variable (c : SaveCtx)

def LiveEntry (type : Nat) (page : List UInt8) (w : Nat) : Prop :=
  ∃ i, (c.ptes page)[i]? = some w ∧ c.inXenSlot type (c.ptes page) i = false ∧ w &&& pagePresent ≠ 0

structure Mapped (s : Physmap A) (pfn : Nat) : Prop where
  inRange : pfn < s.p2mSize
  valid : s.p2m pfn ≠ c.invalidP2mEntry
  settled : s.p2m pfn ≠ c.pendingP2mEntry

structure Fits (s : Physmap A) (pfn : Nat) : Prop where
  source : pfn < 2^c.frameWidth
  target : s.p2m pfn < 2^c.frameWidth

section
variable (type : Nat) (ptes : List Nat) (p2m : Nat → Nat)

def expectedEntry (w i : Nat) : Nat :=
  if c.inXenSlot type ptes i then 0
  else if w &&& pagePresent = 0 then w
  else c.tidy type (BitField.replace pageShift c.frameBits w (p2m (c.pfnNamed w)))

def expectedEntries : List Nat := ptes.zipIdx.map fun p => c.expectedEntry type ptes p2m p.1 p.2

end

structure RoundTrips (s : Physmap A) (r : Nat × Bool) (out : Nat) : Prop where
  calm : r.2 = false
  small : r.1 < 2^(8*c.entrySize)
  mapped : ∀ pfn, c.pfnOf r.1 = some pfn → Mapped c s pfn
  restored : c.restoreEntry r.1 ((c.pfnOf r.1).map s.p2m) = out
  fits : out < 2^(8*c.entrySize)

end

theorem roundTrips_absent (hw : w < 2^(8*c.entrySize)) (hp : w &&& pagePresent = 0) : RoundTrips c s (w,false) w := by
  have hn : c.pfnOf w = none := by simp [Platform.pfnOf,hp]
  refine ⟨rfl,hw,?_,?_,hw⟩
  · intro pfn h
    rw [hn] at h
    cases h
  · rw [hn]
    rfl

theorem toLong_pfnNamed (c : SaveCtx) (w : Nat) : c.toLong (c.pfnNamed w) = c.pfnNamed w := by
  simp [pfnNamed,mfnToPfn,Platform.toLong]

theorem pfnOf_replace (hw : w < 2^(8*c.entrySize)) (hp : w &&& pagePresent ≠ 0) {u : Nat}
  (hf : c.pfnNamed u < 2^c.frameWidth) :
  c.pfnOf (BitField.replace pageShift c.frameBits (c.tidy type w) (c.pfnNamed u)) = some (c.pfnNamed u) := by
  have hr : BitField.replace pageShift c.frameBits (c.tidy type w) (c.pfnNamed u) &&& pagePresent ≠ 0 := by
    rw [replace_present (by decide) (Platform.lt_field hf),tidy_present (Platform.lt_word hw)]
    exact hp
  rw [Platform.pfnOf,if_pos hr,Platform.frame,BitField.get_replace (Platform.lt_field hf),toLong_pfnNamed]

theorem roundTrips_live (hw : w < 2^(8*c.entrySize)) (hp : w &&& pagePresent ≠ 0)
  (hk : c.mfnIsInPseudophysMap (c.toLong (c.frame w)) = true)
  (hm : Mapped c s (c.pfnNamed w)) (hf : Fits c s (c.pfnNamed w)) : RoundTrips c s (c.canonicalizeEntry type false w)
    (c.tidy type (BitField.replace pageShift c.frameBits w (s.p2m (c.pfnNamed w)))) := by
  have ht : c.tidy type w < 2^(8*c.entrySize) := (c.tidy_le type w).trans_lt hw
  have hc := Platform.replace_lt ht hf.source
  have ha := @pfnOf_replace c type w hw hp w hf.source
  rw [canonicalizeEntry_live hw hp hk hf.source]
  refine ⟨rfl,hc,?_,?_,(c.tidy_le type _).trans_lt (Platform.replace_lt hw hf.target)⟩
  · intro pfn h
    obtain rfl := Option.some.inj (ha.symm.trans h)
    exact hm
  rw [ha]
  show c.withFrame _ _ = _
  rw [Platform.withFrame_eq hc hf.target,
    BitField.replace_replace (Platform.lt_field hf.source) (Platform.lt_field hf.target),
    tidy_replace (Platform.lt_word hw) (Platform.lt_field hf.target)]

theorem roundTrips_entry (he : page.length = pageSize)
  (hk : ∀ w, c.LiveEntry type page w → c.mfnIsInPseudophysMap (c.toLong (c.frame w)) = true)
  (hm : ∀ w, c.LiveEntry type page w → Mapped c s (c.pfnNamed w))
  (hf : ∀ w, c.LiveEntry type page w → Fits c s (c.pfnNamed w)) {i : Nat} (hi : (c.ptes page)[i]? = some w) :
  RoundTrips c s (c.canonicalizeEntry type (c.inXenSlot type (c.ptes page) i) w)
    (c.expectedEntry type (c.ptes page) s.p2m w i) := by
  have hw : w < 2^(8*c.entrySize) := Platform.lt_of_mem_ptes he (mem_of_getElem? hi)
  cases hs : c.inXenSlot type (c.ptes page) i with
  | true =>
    have hz : c.canonicalizeEntry type true w = (0,false) := by simp [canonicalizeEntry]
    rw [expectedEntry,if_pos hs,hz]
    exact roundTrips_absent (Nat.two_pow_pos _) rfl
  | false =>
    by_cases hp : w &&& pagePresent = 0
    · have ha : c.canonicalizeEntry type false w = (w,false) := by simp [canonicalizeEntry,hp]
      rw [expectedEntry,hs,if_neg (by simp),if_pos hp,ha]
      exact roundTrips_absent hw hp
    have hl : c.LiveEntry type page w := ⟨i,hi,hs,hp⟩
    rw [expectedEntry,hs,if_neg (by simp),if_neg hp]
    exact roundTrips_live hw hp (hk w hl) (hm w hl) (hf w hl)

theorem ptes_store (c : SaveCtx) {ws : List Nat} (hl : ws.length = c.pteLast)
  (hs : ∀ w ∈ ws, w < 2^(8*c.entrySize)) : c.ptes (store c.entrySize ws) = ws := by
  rw [Platform.ptes,← hl]
  refine load_store_of_lt fun w hw => ?_
  rw [show 256 = 2^8 from rfl,← pow_mul]
  exact hs w hw

theorem uncanonicalize_mapped (c : SaveCtx) (populate : A → List Nat → Option (List Nat × A))
  (h : ∀ w ∈ c.ptes page, ∀ pfn, c.pfnOf w = some pfn → Mapped c s pfn) :
  c.uncanonicalizePagetable populate s page = (true,s,c.relocate s.p2m page) := by
  have hm : TwoPass.mark c.invalidP2mEntry c.pendingP2mEntry (fun pfn => decide (pfn < s.p2mSize))
      c.pfnOf (c.ptes page) s.p2m = (s.p2m,[],true) :=
    TwoPass.mark_of_mapped fun w hw pfn hp =>
      ⟨decide_eq_true (h w hw pfn hp).inRange,(h w hw pfn hp).valid⟩
  have hf : TwoPass.fill c.pendingP2mEntry c.pfnOf (c.ptes page) s.p2m [] = _ :=
    TwoPass.fill_of_settled fun w hw pfn hp => (h w hw pfn hp).settled
  rw [Platform.uncanonicalizePagetable,Platform.allocate]
  simp [hm,populateExact,hf,Platform.relocate_eq]

theorem canonicalization_round_trip (c : SaveCtx) (type : Nat) (page : List UInt8)
  (hlen : page.length = pageSize) (populate : A → List Nat → Option (List Nat × A)) (s : Physmap A)
  (hknown : ∀ w, c.LiveEntry type page w → c.mfnIsInPseudophysMap (c.toLong (c.frame w)) = true)
  (hmap : ∀ w, c.LiveEntry type page w → Mapped c s (c.pfnNamed w))
  (hfit : ∀ w, c.LiveEntry type page w → Fits c s (c.pfnNamed w)) : (c.canonicalizePagetable type page).2 = false ∧
    ∃ page', c.uncanonicalizePagetable populate s (c.canonicalizePagetable type page).1 = (true,s,page') ∧
      c.ptes page' = c.expectedEntries type (c.ptes page) s.p2m := by
  have ht : ∀ p ∈ (c.ptes page).zipIdx, RoundTrips c s
      (c.canonicalizeEntry type (c.inXenSlot type (c.ptes page) p.2) p.1)
      (c.expectedEntry type (c.ptes page) s.p2m p.1 p.2) := by
    intro p hp
    exact roundTrips_entry hlen hknown hmap hfit (mem_zipIdx_iff_getElem?.mp hp)
  have hu : (c.ptes page).length = c.pteLast := length_load ..
  have hc : ∀ r ∈ c.canonicalizeEntries type page, ∃ out, RoundTrips c s r out := by
    intro r hr
    obtain ⟨p,hp,rfl⟩ := mem_map.mp hr
    exact ⟨_,ht p hp⟩
  have hl : c.ptes (c.canonicalizePagetable type page).1 = (c.canonicalizeEntries type page).map Prod.fst := by
    refine c.ptes_store (by simp [canonicalizeEntries,hu]) fun w hw => ?_
    obtain ⟨r,hr,rfl⟩ := mem_map.mp hw
    obtain ⟨out,ho⟩ := hc r hr
    exact ho.small
  have hd : ((c.canonicalizeEntries type page).map Prod.fst).map
      (fun w => c.restoreEntry w ((c.pfnOf w).map s.p2m)) = c.expectedEntries type (c.ptes page) s.p2m := by
    rw [canonicalizeEntries,map_map,map_map]
    exact map_congr_left fun p hp => (ht p hp).restored
  refine ⟨?_,_,c.uncanonicalize_mapped populate ?_,?_⟩
  · refine any_eq_false.mpr fun r hr => ?_
    obtain ⟨out,ho⟩ := hc r hr
    simp [ho.calm]
  · intro w hw pfn hf
    rw [hl] at hw
    obtain ⟨r,hr,rfl⟩ := mem_map.mp hw
    obtain ⟨out,ho⟩ := hc r hr
    exact ho.mapped pfn hf
  · rw [Platform.relocate,hl,hd]
    refine c.ptes_store (by simp [expectedEntries,hu]) fun w hw => ?_
    obtain ⟨p,hp,rfl⟩ := mem_map.mp hw
    exact (ht p hp).fits

def singleEntry (c : Platform) (w : Nat) : List UInt8 :=
  store c.entrySize (w :: List.replicate (c.pteLast-1) 0)

theorem pteLast_pos (c : Platform) : 0 < c.pteLast := by
  simp only [Platform.pteLast,Platform.entrySize,pageSize]
  split <;> decide

theorem length_singleEntry (c : Platform) (w : Nat) : (singleEntry c w).length = pageSize := by
  have hp := pteLast_pos c
  rw [singleEntry,length_store,length_cons,length_replicate,Nat.sub_add_cancel hp,c.pteLast_mul]

theorem ptes_singleEntry (c : SaveCtx) (hw : w < 2^(8*c.entrySize)) :
  c.ptes (singleEntry c.toPlatform w) = w :: List.replicate (c.pteLast-1) 0 := by
  have hp := pteLast_pos c.toPlatform
  refine c.ptes_store (by simp; omega) fun v hv => ?_
  rcases mem_cons.mp hv with rfl | hv
  · exact hw
  · rw [eq_of_mem_replicate hv]
    exact Nat.two_pow_pos _

theorem liveEntry_single (hw : w < 2^(8*c.entrySize)) {v : Nat}
  (h : c.LiveEntry type (singleEntry c.toPlatform w) v) : v = w := by
  obtain ⟨i,hi,-,hp⟩ := h
  rw [ptes_singleEntry c hw] at hi
  rcases mem_cons.mp (mem_of_getElem? hi) with hv | hv
  · exact hv
  · rw [eq_of_mem_replicate hv] at hp
    exact absurd rfl hp

theorem head_expected (hw : w < 2^(8*c.entrySize)) {p2m : Nat → Nat} :
  (c.expectedEntries type (c.ptes (singleEntry c.toPlatform w)) p2m).head? =
    some (c.expectedEntry type (w :: List.replicate (c.pteLast-1) 0) p2m w 0) := by
  rw [ptes_singleEntry c hw]
  rfl

def sampleCtx (build : Build) (ptLevels guestWidth pfn : Nat) : SaveCtx where
  build := build
  ptLevels := ptLevels
  guestWidth := guestWidth
  hvirtStart := 0xf5800000
  maxMfn := 16
  m2pMfn0 := 0
  p2mSize := pfn+1
  liveM2p := fun _ => pfn
  liveP2m := fun _ => 5

def sampleDest (pfn : Nat) : Physmap Unit where
  p2mSize := pfn+1
  p2m := fun n => if n = pfn then 9 else 7
  heap := ()

def longCtx : SaveCtx := sampleCtx .x86_64 4 8 3

theorem one_entry_round_trips :
  (longCtx.canonicalizePagetable l1tab (singleEntry longCtx.toPlatform 0x5027)).2 = false ∧
    ∃ page', longCtx.uncanonicalizePagetable (fun _ _ => none) (sampleDest 3)
        (longCtx.canonicalizePagetable l1tab (singleEntry longCtx.toPlatform 0x5027)).1 = (true,sampleDest 3,page') ∧
      (longCtx.ptes page').head? = some 0x9027 := by
  have hw : 0x5027 < 2^(8*longCtx.entrySize) := by decide
  obtain ⟨hr,page',hu,hp⟩ := canonicalization_round_trip longCtx l1tab
    (singleEntry _ 0x5027) (length_singleEntry ..) (fun _ _ => none) (sampleDest 3)
    (fun v hv => by rw [liveEntry_single hw hv]; decide)
    (fun v hv => by rw [liveEntry_single hw hv]; exact ⟨by decide,by decide,by decide⟩)
    (fun v hv => by rw [liveEntry_single hw hv]; exact ⟨by decide,by decide⟩)
  refine ⟨hr,page',hu,?_⟩
  rw [hp,head_expected hw]
  decide

theorem not_restored {run : Bool × Physmap A × List UInt8} {ws : List Nat} {a b : Nat}
  (hr : (c.ptes run.2.2).head? = some a) (hw : ws.head? = some b) (ha : a ≠ b) :
  ¬∃ page', run = (true,s,page') ∧ c.ptes page' = ws := by
  rintro ⟨page',rfl,hp⟩
  rw [hp,hw] at hr
  exact ha (Option.some.inj hr).symm

def wideCtx : SaveCtx := sampleCtx .x86_32 2 4 (2^20)

def widePage : List UInt8 := singleEntry wideCtx.toPlatform 0x5001

theorem wide_pfn_truncated : widePage.length = pageSize ∧ (∀ w, wideCtx.LiveEntry l1tab widePage w →
      wideCtx.mfnIsInPseudophysMap (wideCtx.toLong (wideCtx.frame w)) = true) ∧
    (∀ w, wideCtx.LiveEntry l1tab widePage w → Mapped wideCtx (sampleDest (2^20)) (wideCtx.pfnNamed w)) ∧
    ¬∃ page', wideCtx.uncanonicalizePagetable (fun _ _ => none) (sampleDest (2^20))
        (wideCtx.canonicalizePagetable l1tab widePage).1 = (true,sampleDest (2^20),page') ∧
      wideCtx.ptes page' = wideCtx.expectedEntries l1tab (wideCtx.ptes widePage) (sampleDest (2^20)).p2m := by
  have hw : 0x5001 < 2^(8*wideCtx.entrySize) := by decide
  refine ⟨length_singleEntry ..,fun v hv => ?_,fun v hv => ?_,?_⟩
  · rw [liveEntry_single hw hv]
    decide
  · rw [liveEntry_single hw hv]
    exact ⟨by decide,by decide,by decide⟩
  · have ho : (wideCtx.ptes (wideCtx.uncanonicalizePagetable (fun _ _ => none)
        (sampleDest (2^20)) (wideCtx.canonicalizePagetable l1tab widePage).1).2.2).head? =
          some 0x7001 := by decide +kernel
    have he : wideCtx.expectedEntry l1tab (0x5001 :: List.replicate (wideCtx.pteLast-1) 0)
        (sampleDest (2^20)).p2m 0x5001 0 = 0x9001 := by decide
    exact not_restored ho ((head_expected hw).trans (congrArg some he)) (by decide)

end SaveCtx

namespace Platform

variable {A : Type}

def inRange (c : Platform) (s : Physmap A) (w : Nat) : Bool :=
  TwoPass.passes (fun pfn => decide (pfn < s.p2mSize)) c.pfnOf w

def scanned (c : Platform) (s : Physmap A) (page : List UInt8) : List Nat := (c.ptes page).takeWhile (c.inRange s)

theorem uncanonicalize_outOfRange (c : Platform) (populate : A → List Nat → Option (List Nat × A))
  (s : Physmap A) (page : List UInt8) (hr : ∃ w ∈ c.ptes page, c.inRange s w = false) :
  c.uncanonicalizePagetable populate s page = (false,{s with p2m := (TwoPass.mark c.invalidP2mEntry c.pendingP2mEntry
      (fun pfn => decide (pfn < s.p2mSize)) c.pfnOf (c.scanned s page) s.p2m).1},page) := by
  obtain ⟨w,hw,ho⟩ := hr
  have hf : (TwoPass.mark c.invalidP2mEntry c.pendingP2mEntry
      (fun pfn => decide (pfn < s.p2mSize)) c.pfnOf (c.ptes page) s.p2m).2.2 = false := by
    rw [TwoPass.mark_complete]
    exact all_eq_false.mpr ⟨w,hw,Bool.eq_false_iff.mp ho⟩
  have hc := TwoPass.mark_cut (fun pfn => decide (pfn < s.p2mSize)) c.pfnOf c.invalidP2mEntry
    c.pendingP2mEntry (c.ptes page) s.p2m
  rw [uncanonicalizePagetable,allocate]
  simp only [hf,Bool.false_eq_true,if_false]
  rw [hc]
  rfl

theorem inRange_of_scanned {c : Platform} {s : Physmap A} {page : List UInt8} {w : Nat}
  (hw : w ∈ c.scanned s page) : c.inRange s w = true :=
  mem_takeWhile_imp hw

theorem pending_ne_invalid (c : Platform) : c.pendingP2mEntry ≠ c.invalidP2mEntry := by
  simp only [pendingP2mEntry,invalidP2mEntry,longSize]
  rcases c.build.longSize_cases with hs | hs <;> rw [hs] <;> decide

theorem failed_uncanonicalization (c : Platform) (populate : A → List Nat → Option (List Nat × A))
  (s : Physmap A) (page : List UInt8) (hrange : ∃ w ∈ c.ptes page, c.inRange s w = false) :
  c.uncanonicalizePagetable populate s page = (false,s,page) ↔
    ∀ w ∈ c.scanned s page, ∀ pfn, c.pfnOf w = some pfn → s.p2m pfn ≠ c.invalidP2mEntry := by
  rw [c.uncanonicalize_outOfRange populate s page hrange]
  have ho : ∀ w ∈ c.scanned s page, ∀ pfn, c.pfnOf w = some pfn → decide (pfn < s.p2mSize) = true := by
    intro w hw pfn hp
    have hi := inRange_of_scanned hw
    rwa [inRange,TwoPass.passes,hp,Option.all_some] at hi
  constructor
  · intro h w hw pfn hp
    have hm := TwoPass.mark_marks (m := s.p2m) c.pending_ne_invalid ho hw hp
    have he := congrFun (congrArg (fun r => r.2.1.p2m) h) pfn
    exact fun hn => hm (he.trans hn)
  · intro hmapped
    rw [TwoPass.mark_of_mapped fun w hw pfn hp => ⟨ho w hw pfn hp,hmapped w hw pfn hp⟩]

def racedPlatform : Platform := ⟨.x86_64,4,8,0⟩

def racedPage : List UInt8 :=
  store racedPlatform.entrySize (0x1001 :: 0x5001 :: List.replicate (racedPlatform.pteLast-2) 0)

def racedP2m (mfn : Nat) : Physmap Unit := ⟨4,fun _ => mfn,()⟩

theorem raced_page_keeps_p2m : racedPlatform.uncanonicalizePagetable (fun _ _ => none) (racedP2m 7) racedPage =
    (false,racedP2m 7,racedPage) := by
  refine (failed_uncanonicalization racedPlatform _ (racedP2m 7) racedPage ?_).mpr fun _ _ _ _ => ?_
  · exact ⟨0x5001,by decide +kernel,by decide +kernel⟩
  · exact (by decide : 7 ≠ racedPlatform.invalidP2mEntry)

theorem raced_page_leaves_mark : (racedP2m racedPlatform.invalidP2mEntry).p2m 1 = racedPlatform.invalidP2mEntry ∧
    ∃ s, racedPlatform.uncanonicalizePagetable (fun _ _ => none)
        (racedP2m racedPlatform.invalidP2mEntry) racedPage = (false,s,racedPage) ∧
        s.p2m 1 = racedPlatform.invalidP2mEntry-1 ∧
      ∃ s' mfns, racedPlatform.allocate (fun _ pfns => if pfns = [2] then some ([9],()) else none)
        some [1,2] s = .done s' mfns ∧ s'.p2m 1 = 9 := by
  have hr : ∃ w ∈ racedPlatform.ptes racedPage,
      racedPlatform.inRange (racedP2m racedPlatform.invalidP2mEntry) w = false :=
    ⟨0x5001,by decide +kernel,by decide +kernel⟩
  have hu := racedPlatform.uncanonicalize_outOfRange (fun _ _ => none)
    (racedP2m racedPlatform.invalidP2mEntry) racedPage hr
  exact ⟨rfl,_,hu,by decide +kernel,_,_,rfl,by decide +kernel⟩

end Platform

end PageTable
