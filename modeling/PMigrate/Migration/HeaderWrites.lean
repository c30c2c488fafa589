import PMigrate.Migration.ExtendedInfo

namespace ExtendedInfo

open PageTable List

inductive Site where
  | signature
  | totSz
  | vcpu
  | chunk1Sz
  | ctxt
  | extv
  | chunk2Sz
  | xcnt
  | chunk3Sz
  | xcntSize
  | frameList
  deriving DecidableEq

def SavedTable.data {b : Build} (t : SavedTable b) : Site → List UInt8
  | .signature => Bytes.encode b.longSize (ExtendedInfo.signature b)
  | .totSz => Bytes.encode 4 t.totSz
  | .vcpu => vcpuSig
  | .chunk1Sz => Bytes.encode 4 t.width.ctxtSize
  | .ctxt => t.ctxt
  | .extv => extvSig
  | .chunk2Sz => Bytes.encode 4 0
  | .xcnt => xcntSig
  | .chunk3Sz => Bytes.encode 4 4
  | .xcntSize => Bytes.encode 4 t.xcntSize
  | .frameList => Bytes.store b.longSize t.frameList

structure Descriptor where
  fails : Site → Bool
  accepted : Site → Nat

structure Written where
  calls : List Site
  bytes : List UInt8

def start : Written := ⟨[],[]⟩

variable {b : Build}

section
variable (t : SavedTable b) (d : Descriptor)

def writeExact (x : Site) (out : Written) : Bool × Written :=
  (d.fails x,
    {calls := out.calls ++ [x],
     bytes := out.bytes ++ if d.fails x then (t.data x).take (d.accepted x) else t.data x})

def writeOr : List Site → Written → Bool × Written
  | [],out => (false,out)
  | x :: xs,out =>
    match writeExact t d x out with
    | (true,out) => (true,out)
    | (false,out) => writeOr xs out

def leading : List Site := [.signature,.totSz,.vcpu,.chunk1Sz,.ctxt,.extv,.chunk2Sz]

def xcntWrites : List Site := [.xcnt,.chunk3Sz,.xcntSize]

-- || binds tighter than ?:, so the seven writes and the mask together are the condition
def writeExtendedInfo (out : Written) : Bool × Written :=
  match writeOr t d leading out with
  | (failed,out) => if failed || decide (t.xfeatureMask ≠ 0) then writeOr t d xcntWrites out else (false,out)

def mapAndSave (out : Written) : Option (SavedTable b) × Written :=
  match writeExtendedInfo t d out with
  | (true,out) => (none,out)
  | (false,out) =>
    match writeExact t d .frameList out with
    | (true,out) => (none,out)
    | (false,out) => (some t,out)

end

section
variable {t : SavedTable b} {d : Descriptor} {xs : List Site} {out : Written}

theorem writeOr_failed : (writeOr t d xs out).1 = xs.any d.fails := by
  induction xs generalizing out with
  | nil => rfl
  | cons x xs ih =>
    rw [writeOr,any_cons]
    cases hx : d.fails x with
    | true => simp [writeExact,hx]
    | false =>
      simp only [writeExact,hx,Bool.false_or]
      exact ih

theorem writeOr_calls {x : Site} (h : x ∈ (writeOr t d xs out).2.calls) : x ∈ out.calls ∨ x ∈ xs := by
  induction xs generalizing out with
  | nil => exact .inl h
  | cons y ys ih =>
    have ho : ∀ z ∈ (writeExact t d y out).2.calls, z ∈ out.calls ∨ z = y := fun z hz => by
      simpa [writeExact] using hz
    rw [writeOr] at h
    split at h
    · rename_i hy
      rcases ho x (by rwa [hy]) with hx | rfl
      · exact .inl hx
      · exact .inr mem_cons_self
    rename_i hy
    rcases ih h with hx | hx
    · rcases ho x (by rwa [hy]) with hx | rfl
      · exact .inl hx
      · exact .inr mem_cons_self
    · exact .inr (mem_cons_of_mem y hx)

theorem writeOr_keeps {x : Site} (h : x ∈ out.calls) : x ∈ (writeOr t d xs out).2.calls := by
  induction xs generalizing out with
  | nil => exact h
  | cons y ys ih =>
    rw [writeOr]
    cases hy : d.fails y with
    | true =>
      simp only [writeExact,hy]
      exact mem_append_left _ h
    | false =>
      simp only [writeExact,hy]
      exact ih (mem_append_left _ h)

theorem writeOr_failing_call (h : xs.any d.fails = true) : ∃ x ∈ (writeOr t d xs out).2.calls, d.fails x = true := by
  induction xs generalizing out with
  | nil => cases h
  | cons y ys ih =>
    rw [writeOr]
    cases hy : d.fails y with
    | true =>
      simp only [writeExact,hy]
      exact ⟨y,mem_append_right _ (mem_singleton_self y),hy⟩
    | false =>
      rw [any_cons,hy,Bool.false_or] at h
      simp only [writeExact,hy]
      exact ih h

theorem writeOr_bytes (h : xs.any d.fails = false) :
  (writeOr t d xs out).2.bytes = out.bytes ++ (xs.map t.data).flatten := by
  induction xs generalizing out with
  | nil => simp [writeOr]
  | cons x xs ih =>
    rw [any_cons,Bool.or_eq_false_iff] at h
    rw [writeOr]
    simp only [writeExact,h.1]
    rw [ih h.2]
    simp

def Persistent (d : Descriptor) : Prop :=
  leading.any d.fails = true → xcntWrites.any d.fails = true ∨ d.fails .frameList = true

structure Returned (t : SavedTable b) (d : Descriptor) (out : Written) : Prop where
  leading_ok : leading.any d.fails = false
  xcnt_ok : t.xfeatureMask ≠ 0 → xcntWrites.any d.fails = false
  list_ok : d.fails .frameList = false
  calls : ∀ x ∈ out.calls, x ∈ leading ∨ t.xfeatureMask ≠ 0 ∧ x ∈ xcntWrites ∨ x = .frameList
  bytes : out.bytes = t.mapAndSaveP2mTable

theorem writeExtendedInfo_passed (hd : Persistent d) (hl : d.fails .frameList = false)
  (h : (writeExtendedInfo t d start).1 = false) : leading.any d.fails = false ∧
    (t.xfeatureMask ≠ 0 → xcntWrites.any d.fails = false) ∧ writeExtendedInfo t d start = if t.xfeatureMask ≠ 0
      then writeOr t d xcntWrites (writeOr t d leading start).2 else (false,(writeOr t d leading start).2) := by
  have ha : (writeOr t d leading start).1 = leading.any d.fails := writeOr_failed
  have he : writeExtendedInfo t d start =
      if leading.any d.fails || decide (t.xfeatureMask ≠ 0)
      then writeOr t d xcntWrites (writeOr t d leading start).2
      else (false,(writeOr t d leading start).2) := by
    rw [writeExtendedInfo,← ha]
  have hc : leading.any d.fails = true ∨ t.xfeatureMask ≠ 0 →
      xcntWrites.any d.fails = false := by
    intro ho
    rw [he,if_pos (by simpa using ho),writeOr_failed] at h
    exact h
  have hn : leading.any d.fails = false := by
    by_contra hf
    have hf : leading.any d.fails = true := by simpa using hf
    rcases hd hf with hx | hx
    · rw [hc (.inl hf)] at hx
      cases hx
    · rw [hl] at hx
      cases hx
  refine ⟨hn,fun hm => hc (.inr hm),?_⟩
  rw [he,hn]
  simp

theorem mapAndSave_returned (hd : Persistent d) (h : (mapAndSave t d start).1 ≠ none) :
  Returned t d (mapAndSave t d start).2 := by
  rw [mapAndSave] at h ⊢
  split at h
  · exact absurd rfl h
  rename_i out he
  have hl : d.fails .frameList = false := by
    by_contra hf
    simp [writeExact,show d.fails .frameList = true by simpa using hf] at h
  obtain ⟨ha,hc,hq⟩ := writeExtendedInfo_passed (t := t) hd hl (by rw [he])
  have ho : (writeExtendedInfo t d start).2 = out := congrArg Prod.snd he
  rw [hq] at ho
  simp only [writeExact,hl]
  refine ⟨ha,hc,hl,?_,?_⟩
  · intro x hx
    rw [mem_append,mem_singleton,← ho] at hx
    rcases hx with hx | rfl
    · split_ifs at hx with hm
      · rcases writeOr_calls hx with hx | hx
        · exact .inl ((writeOr_calls hx).resolve_left (by simp [start]))
        · exact .inr (.inl ⟨hm,hx⟩)
      · exact .inl ((writeOr_calls hx).resolve_left (by simp [start]))
    · exact .inr (.inr rfl)
  rw [← ho,SavedTable.mapAndSaveP2mTable,SavedTable.xcntBlock]
  split
  · rename_i hm
    rw [writeOr_bytes (hc hm),writeOr_bytes ha]
    simp [start,leading,xcntWrites,SavedTable.data]
  · rw [writeOr_bytes ha]
    simp [start,leading,SavedTable.data]

-- a failure before the xcnt block only selects that block: when it and the frame list go through, the table is returned
theorem returned_of_leading_failed (hl : leading.any d.fails = true) (hx : xcntWrites.any d.fails = false)
  (hf : d.fails .frameList = false) : (mapAndSave t d start).1 = some t ∧
    ∃ x ∈ (mapAndSave t d start).2.calls, d.fails x = true := by
  have he : writeExtendedInfo t d start = (false,(writeOr t d xcntWrites (writeOr t d leading start).2).2) := by
    have ha : (writeOr t d leading start).1 = true := writeOr_failed.trans hl
    have hb : (writeOr t d xcntWrites (writeOr t d leading start).2).1 = false := writeOr_failed.trans hx
    simp only [writeExtendedInfo,ha,Bool.true_or,if_true,← hb]
  obtain ⟨x,hc,hd⟩ : ∃ x ∈ (writeOr t d leading start).2.calls, d.fails x = true := writeOr_failing_call hl
  simp only [mapAndSave,he,writeExact,hf]
  exact ⟨trivial,x,mem_append_left _ (writeOr_keeps hc),hd⟩

theorem write_failures_reported (t : SavedTable b) (d : Descriptor) :
  (∀ x ∈ (mapAndSave t d start).2.calls, d.fails x = true → (mapAndSave t d start).1 = none) ↔ Persistent d := by
  constructor
  · intro h hl
    by_contra hn
    simp only [not_or,Bool.not_eq_true] at hn
    obtain ⟨hr,x,hc,hx⟩ := returned_of_leading_failed (t := t) hl hn.1 hn.2
    rw [h x hc hx] at hr
    cases hr
  intro hd x hx hfail
  by_contra h
  have hr := mapAndSave_returned hd h
  have hn {ys : List Site} (hy : ys.any d.fails = false) (hm : x ∈ ys) : False := by
    rw [any_eq_false] at hy
    exact hy x hm hfail
  rcases hr.calls x hx with hm | ⟨ha,hm⟩ | rfl
  · exact hn hr.leading_ok hm
  · exact hn (hr.xcnt_ok ha) hm
  · rw [hr.list_ok] at hfail
    cases hfail

end

def sampleTable : SavedTable .x86_64 where
  width := .eight
  ctxt := List.replicate 5168 0
  ctxt_length := length_replicate
  xfeatureMask := 0
  extstateSize := 0
  p2mSize := 1
  p2mSize_pos := by decide
  frameList := [5]
  frameList_length := by decide
  frameList_lt := by decide

def brokenFrom (x : Site) : Descriptor where
  fails := fun y => decide (y = x ∨ y = .frameList)
  accepted := fun _ => 0

theorem broken_descriptor_reported : Persistent (brokenFrom .ctxt) ∧ (brokenFrom .ctxt).fails .ctxt = true ∧
    .ctxt ∈ (mapAndSave sampleTable (brokenFrom .ctxt) start).2.calls ∧
    (mapAndSave sampleTable (brokenFrom .ctxt) start).1 = none := by
  have hp : Persistent (brokenFrom .ctxt) := fun _ => .inr (by decide)
  have hc : .ctxt ∈ (mapAndSave sampleTable (brokenFrom .ctxt) start).2.calls := by decide +kernel
  exact ⟨hp,by decide,hc,(write_failures_reported _ _).mpr hp _ hc (by decide)⟩

def failsOnce (x : Site) : Descriptor where
  fails := fun y => decide (y = x)
  accepted := fun _ => 3

theorem lost_signature_unreported : (mapAndSave sampleTable (failsOnce .signature) start).1 = some sampleTable ∧
    (failsOnce .signature).fails .signature = true ∧ sampleTable.xfeatureMask = 0 ∧
    (mapAndSave sampleTable (failsOnce .signature) start).2.calls = [.signature,.xcnt,.chunk3Sz,.xcntSize,.frameList] :=
  ⟨rfl,rfl,rfl,rfl⟩

end ExtendedInfo
