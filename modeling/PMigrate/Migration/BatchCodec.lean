import PMigrate.Migration.Plan
import PMigrate.Migration.PageTable

namespace BatchCodec

open PageTable Migration List Bytes Nat

def xcSaveIdEnableVerifyMode : Int := -1
def xcSaveIdVcpuInfo : Int := -2
def xcSaveIdHvmIdentPt : Int := -3
def xcSaveIdHvmVm86Tss : Int := -4
def xcSaveIdTmem : Int := -5
def xcSaveIdTmemExtra : Int := -6
def xcSaveIdTscInfo : Int := -7
def xcSaveIdHvmConsolePfn : Int := -8
def xcSaveIdLastCheckpoint : Int := -9
def xcSaveIdHvmAcpiIoportsLocation : Int := -10
def xcParaMigrEnd : Int := -11
def xcLastIterFirst : Int := -12
def xcIterationBarrier : Int := -13

def ofInt32 (n : Int) : List UInt8 := encode 4 (n%2^32).toNat

def toInt32 (bs : List UInt8) : Int := if decode bs < 2^31 then decode bs else decode bs-2^32

def pagetypeOf (w : Nat) : Nat := w &&& ltabMask

def pfnIn (w : Nat) : Nat := w &&& BitField.complement 32 ltabMask

def isTable (w : Nat) : Bool :=
  decide (l1tab ≤ pagetypeOf w &&& ltabtypeMask) && decide (pagetypeOf w &&& ltabtypeMask ≤ l4tab)

structure Slot where
  pfn : Fin (2^28)
  nibble : Fin 16
  err : Bool
  page : List UInt8
  page_length : page.length = pageSize

namespace Slot

def pfnType (s : Slot) : Nat := s.nibble.val <<< 28

def word (s : Slot) : Nat :=
  if s.err then if s.pfnType = xtab then s.pfnType else xtab
  else if s.pfnType = xtab then s.pfnType
  else s.pfnType ||| s.pfn.val

def counted (s : Slot) : Bool := !s.err && decide (s.pfnType ≠ xtab)

end Slot

structure Batch where
  slots : List Slot
  nonempty : 0 < slots.length
  bounded : slots.length ≤ maxBatchSize

namespace Batch

def words (b : Batch) : List Nat := b.slots.map Slot.word

def regionBase (b : Batch) : List (List UInt8) := b.slots.map Slot.page

end Batch

def writeRun (region : List (List UInt8)) (start run : Nat) : List UInt8 := ((region.drop start).take run).flatten

def writePages (c : SaveCtx) (live : Bool) (region : List (List UInt8)) :
    List Nat → Nat → Nat → List UInt8 → Bool × List UInt8
  | [],j,run,out => (true,if run ≠ 0 then out ++ writeRun region (j-run) run else out)
  | w :: ws,j,run,out =>
    let flush := pagetypeOf w ≠ 0 ∧ run ≠ 0
    let out := if flush then out ++ writeRun region (j-run) run else out
    let run := if flush then 0 else run
    if pagetypeOf w = xtab then writePages c live region ws (j+1) run out
    else if isTable w then
      let r := c.canonicalizePagetable (pagetypeOf w &&& ltabtypeMask) (region.getD j [])
      if r.2 && !live then (false,out)
      else writePages c live region ws (j+1) run (out ++ r.1)
    else writePages c live region ws (j+1) (run+1) out

inductive Sent where
  | skipped
  | failed (bytes : List UInt8)
  | written (bytes : List UInt8)

def sendPatch (c : SaveCtx) (live : Bool) (b : Batch) : Sent :=
  if b.slots.countP Slot.counted = 0 then .skipped
  else
    let out := ofInt32 b.slots.length ++ store c.longSize b.words
    let r := writePages c live b.regionBase b.words 0 0 out
    if r.1 then .written r.2 else .failed r.2

structure Pagebuf where
  pages : List UInt8
  (nrPhyspages nrPages : Nat)
  pfnTypes : List Nat
  (verify newCtxtFormat : Bool)
  maxVcpuId : Int
  (vcpumap identpt vm86Tss consolePfn acpiIoportLocation : Nat)
  lastCheckpoint : Bool

def pagebufInit : Pagebuf where
  pages := []
  nrPhyspages := 0
  nrPages := 0
  pfnTypes := []
  verify := false
  newCtxtFormat := false
  maxVcpuId := 0
  vcpumap := 0
  identpt := 0
  vm86Tss := 0
  consolePfn := 0
  acpiIoportLocation := 0
  lastCheckpoint := false

structure Host where
  (tmemRestore tmemRestoreExtra : List UInt8 → Option (List UInt8))
  setTscInfo : Nat → Nat → Nat → Nat → Bool

inductive Chunk where
  | last
  | paraMigrEnd
  | lastIterFirst
  | iterationBarrier
  | verifyMode
  | vcpuInfo
  | identPt
  | vm86Tss
  | tmem
  | tmemExtra
  | tscInfo
  | consolePfn
  | lastCheckpoint
  | acpiIoports
  | tooBig
  | batch (count : Nat)

def chunkOf (count : Int) : Chunk :=
  if count = 0 then .last
  else if count = xcParaMigrEnd then .paraMigrEnd
  else if count = xcLastIterFirst then .lastIterFirst
  else if count = xcIterationBarrier then .iterationBarrier
  else if count = xcSaveIdEnableVerifyMode then .verifyMode
  else if count = xcSaveIdVcpuInfo then .vcpuInfo
  else if count = xcSaveIdHvmIdentPt then .identPt
  else if count = xcSaveIdHvmVm86Tss then .vm86Tss
  else if count = xcSaveIdTmem then .tmem
  else if count = xcSaveIdTmemExtra then .tmemExtra
  else if count = xcSaveIdTscInfo then .tscInfo
  else if count = xcSaveIdHvmConsolePfn then .consolePfn
  else if count = xcSaveIdLastCheckpoint then .lastCheckpoint
  else if count = xcSaveIdHvmAcpiIoportsLocation then .acpiIoports
  else if count > maxBatchSize ∨ count < 0 then .tooBig
  else .batch count.toNat

def readPadded (s : List UInt8) : Option (Nat × List UInt8) := do
  let (_,s) ← read 4 s
  let (x,s) ← read 8 s
  some (decode x,s)

def readVcpuInfo (buf : Pagebuf) (s : List UInt8) : Option (Pagebuf × List UInt8) := do
  let (x,s) ← read 4 s
  if toInt32 x ≥ 64 then none
  else
    let (m,s) ← read 8 s
    some ({buf with newCtxtFormat := true,maxVcpuId := toInt32 x,vcpumap := decode m},s)

def readTscInfo (h : Host) (s : List UInt8) : Option (List UInt8) := do
  let (mode,s) ← read 4 s
  let (nsec,s) ← read 8 s
  let (khz,s) ← read 4 s
  let (incarn,s) ← read 4 s
  if h.setTscInfo (decode mode) (decode nsec) (decode khz) (decode incarn)
  then some s else none

def readBatch (c : Platform) (count : Nat) (buf : Pagebuf) (s : List UInt8) : Option (Pagebuf × List UInt8) := do
  let (types,s) ← read (count*c.longSize) s
  let words := load c.longSize count types
  let buf := {buf with nrPages := buf.nrPages+count,pfnTypes := buf.pfnTypes.take buf.nrPages ++ words}
  let countpages := count-words.countP fun w => pagetypeOf w = xtab
  if countpages = 0 then some (buf,s)
  else
    let (data,s) ← read (countpages*pageSize) s
    some ({buf with nrPhyspages := buf.nrPhyspages+countpages,
                    pages := buf.pages.take (buf.nrPhyspages*pageSize) ++ data},s)

def slavePagebufGetOne (c : Platform) (h : Host) : Nat → Pagebuf → List UInt8 → Option (Int × Pagebuf × List UInt8)
  | 0,_,_ => none
  | fuel+1,buf,s => do
    let (n,s) ← read 4 s
    match chunkOf (toInt32 n) with
    | .last => some (0,buf,s)
    | .paraMigrEnd => some (1,{buf with nrPages := 0,nrPhyspages := 1},s)
    | .lastIterFirst => some (1,{buf with nrPages := 1,nrPhyspages := 0},s)
    | .iterationBarrier => some (1,{buf with nrPages := 0,nrPhyspages := 0},s)
    | .verifyMode => slavePagebufGetOne c h fuel {buf with verify := true} s
    | .vcpuInfo =>
      let (buf,s) ← readVcpuInfo buf s
      slavePagebufGetOne c h fuel buf s
    | .identPt =>
      let (x,s) ← readPadded s
      slavePagebufGetOne c h fuel {buf with identpt := x} s
    | .vm86Tss =>
      let (x,s) ← readPadded s
      slavePagebufGetOne c h fuel {buf with vm86Tss := x} s
    | .tmem =>
      let s ← h.tmemRestore s
      slavePagebufGetOne c h fuel buf s
    | .tmemExtra =>
      let s ← h.tmemRestoreExtra s
      slavePagebufGetOne c h fuel buf s
    | .tscInfo =>
      let s ← readTscInfo h s
      some (0,buf,s)
    | .consolePfn =>
      let (x,s) ← readPadded s
      slavePagebufGetOne c h fuel {buf with consolePfn := x} s
    | .lastCheckpoint => slavePagebufGetOne c h fuel {buf with lastCheckpoint := true} s
    | .acpiIoports =>
      let (x,s) ← readPadded s
      slavePagebufGetOne c h fuel {buf with acpiIoportLocation := x} s
    | .tooBig => none
    | .batch n =>
      let (buf,s) ← readBatch c n buf s
      some (n,buf,s)

theorem pagetype_join {t p : Nat} (ht : t < 16) (hp : p < 2^28) : pagetypeOf (t <<< 28 ||| p) = t <<< 28 := by
  apply eq_of_testBit_eq
  intro i
  have hm : (15 <<< 28 : Nat).testBit i = decide (28 ≤ i ∧ i < 28+4) := BitField.testBit_mask 28 4 i
  rw [pagetypeOf,ltabMask,testBit_and,testBit_or,testBit_shiftLeft,hm]
  rcases lt_or_ge i 28 with hi | hi
  · simp [not_le.mpr hi]
  have hb : p.testBit i = false := BitField.testBit_of_le hp hi
  rcases lt_or_ge i (28+4) with h4 | h4
  · simp [hi,hb,h4]
  have ho : t.testBit (i-28) = false := BitField.testBit_of_le (show t < 2^4 from ht) (by omega)
  simp [ho,hb]

theorem pfn_join (t : Nat) {p : Nat} (hp : p < 2^28) : pfnIn (t <<< 28 ||| p) = p := by
  have hm : BitField.complement 32 ltabMask = 2^28-1 := rfl
  apply eq_of_testBit_eq
  intro i
  rw [pfnIn,hm,testBit_and,testBit_or,testBit_shiftLeft,testBit_two_pow_sub_one]
  rcases lt_or_ge i 28 with hi | hi
  · simp [not_le.mpr hi,hi]
  · simp [not_lt.mpr hi,BitField.testBit_of_le hp hi]

namespace Slot

variable {s : Slot}

theorem word_of_counted (h : s.counted = true) : s.word = s.pfnType ||| s.pfn.val := by
  simp only [counted,Bool.and_eq_true,Bool.not_eq_true',decide_eq_true_eq] at h
  simp [word,h.1,h.2]

theorem word_of_dropped (h : s.counted = false) : s.word = xtab := by
  by_cases hx : s.pfnType = xtab
  · simp [word,hx]
  · have he : s.err = true := by simpa [counted,hx] using h
    simp [word,hx,he]

theorem word_kept (h : s.counted = true) :
  pagetypeOf s.word = s.pfnType ∧ pfnIn s.word = s.pfn.val ∧ pagetypeOf s.word ≠ xtab := by
  have ht : pagetypeOf s.word = s.pfnType := by
    rw [word_of_counted h]
    exact pagetype_join s.nibble.isLt s.pfn.isLt
  refine ⟨ht,?_,?_⟩
  · rw [word_of_counted h]
    exact pfn_join s.nibble.val s.pfn.isLt
  rw [ht]
  simp only [counted,Bool.and_eq_true,decide_eq_true_eq] at h
  exact h.2

theorem word_lt (s : Slot) : s.word < 2^32 := by
  have ht : s.pfnType = s.nibble.val*2^28 := shiftLeft_eq ..
  have ho : s.pfnType ||| s.pfn.val < 2^32 := or_lt_two_pow (by omega) (by omega)
  rcases Bool.eq_false_or_eq_true s.counted with h | h
  · exact (word_of_counted h).trans_lt ho
  · exact (word_of_dropped h).trans_lt (by decide)

end Slot

def intendedPage (c : SaveCtx) (s : Slot) : Option (List UInt8) :=
  if pagetypeOf s.word = xtab then none
  else if isTable s.word then
    some (c.canonicalizePagetable (pagetypeOf s.word &&& ltabtypeMask) s.page).1
  else some s.page

def Batch.intended (b : Batch) (c : SaveCtx) : List (List UInt8) := b.slots.filterMap (intendedPage c)

def Raced (c : SaveCtx) (s : Slot) : Prop :=
  isTable s.word = true ∧ (c.canonicalizePagetable (pagetypeOf s.word &&& ltabtypeMask) s.page).2 = true

theorem pagetype_of_table {w : Nat} (h : isTable w = true) : pagetypeOf w ≠ 0 := by
  intro h0
  rw [isTable,h0] at h
  exact absurd h (by decide)

variable {c : SaveCtx} {live : Bool}

section
variable {region : List (List UInt8)} {out : List UInt8} {j run : Nat}

theorem writeRun_zero (region : List (List UInt8)) (start : Nat) : writeRun region start 0 = [] := by
  simp [writeRun]

theorem writeRun_succ {page : List UInt8} (hr : run ≤ j) (hp : region[j]? = some page) :
  writeRun region (j+1-(run+1)) (run+1) = writeRun region (j-run) run ++ page := by
  have hg : (region.drop (j-run))[run]? = some page := by rw [List.getElem?_drop,Nat.sub_add_cancel hr,hp]
  rw [Nat.add_sub_add_right,writeRun,writeRun,take_add_one,hg,flatten_append]
  simp

structure Pending (region : List (List UInt8)) (j : Nat) (total : List UInt8) (run : Nat)
    (out : List UInt8) : Prop where
  short : run ≤ j
  total_eq : out ++ writeRun region (j-run) run = total

variable {total : List UInt8}

theorem pending_flush (w : Nat) (h : Pending region j total run out) :
  Pending region j total (if pagetypeOf w ≠ 0 ∧ run ≠ 0 then 0 else run)
    (if pagetypeOf w ≠ 0 ∧ run ≠ 0 then out ++ writeRun region (j-run) run else out) := by
  split
  · exact ⟨zero_le j,by simp [writeRun_zero,h.total_eq]⟩
  · exact h

theorem flush_special {w : Nat} (hw : pagetypeOf w ≠ 0) : (if pagetypeOf w ≠ 0 ∧ run ≠ 0 then 0 else run) = 0 := by
  split <;> omega

structure Outcome (c : SaveCtx) (live : Bool) (slots : List Slot) (total : List UInt8)
    (r : Bool × List UInt8) : Prop where
  complete : r.1 = true → r.2 = total ++ (slots.filterMap (intendedPage c)).flatten
  stopped : r.1 = false → live = false ∧ ∃ s ∈ slots, Raced c s

theorem outcome_cons {s : Slot} {slots : List Slot} {more : List UInt8}
  {r : Bool × List UInt8} (h : Outcome c live slots (total ++ more) r)
  (hm : (intendedPage c s).getD [] = more) : Outcome c live (s :: slots) total r := by
  refine ⟨?_,?_⟩
  · intro hr
    rw [h.complete hr,← hm]
    cases hs : intendedPage c s with
    | none => simp [filterMap_cons_none hs]
    | some page => simp [filterMap_cons_some hs]
  intro hr
  obtain ⟨hl,s',hs',ha⟩ := h.stopped hr
  exact ⟨hl,s',mem_cons_of_mem s hs',ha⟩

theorem writePages_outcome {slots : List Slot} (hp : Pending region j total run out)
  (hr : region.drop j = slots.map Slot.page) :
  Outcome c live slots total (writePages c live region (slots.map Slot.word) j run out) := by
  induction slots generalizing j run out total with
  | nil =>
    refine ⟨fun _ => ?_,fun h => by cases h⟩
    rw [← hp.total_eq]
    rcases Nat.eq_zero_or_pos run with rfl | hc
    · simp [writePages,writeRun_zero]
    · simp [writePages,Nat.pos_iff_ne_zero.mp hc]
  | cons s slots ih =>
    have ha : region[j]? = some s.page := by
      rw [← List.head?_drop,hr]
      rfl
    have hr' : region.drop (j+1) = slots.map Slot.page := by
      rw [← tail_drop,hr]
      rfl
    have hf := pending_flush s.word hp
    have hs := @flush_special run s.word
    rw [map_cons,writePages]
    generalize (if pagetypeOf s.word ≠ 0 ∧ run ≠ 0 then 0 else run) = run' at hf hs ⊢
    generalize (if pagetypeOf s.word ≠ 0 ∧ run ≠ 0 then out ++ writeRun region (j-run) run
      else out) = out' at hf ⊢
    dsimp only
    by_cases hx : pagetypeOf s.word = xtab
    · obtain rfl := hs (by rw [hx]; decide)
      have hn : Pending region (j+1) (total ++ []) 0 out' :=
        ⟨zero_le _,by simpa [writeRun_zero] using hf.total_eq⟩
      rw [if_pos hx]
      exact outcome_cons (ih hn hr') (by simp [intendedPage,hx])
    rw [if_neg hx]
    by_cases ht : isTable s.word = true
    · obtain rfl := hs (pagetype_of_table ht)
      have ho : out' = total := by simpa [writeRun_zero] using hf.total_eq
      have hg : region.getD j [] = s.page := by simp [List.getD,ha]
      rw [if_pos ht,hg]
      split_ifs with hb
      · simp only [Bool.and_eq_true,Bool.not_eq_true'] at hb
        exact ⟨fun h => (by cases h),fun _ => ⟨hb.2,s,by simp,ht,hb.1⟩⟩
      have hn : ∀ more, Pending region (j+1) (total ++ more) 0 (out' ++ more) := by
        intro more
        exact ⟨zero_le _,by rw [writeRun_zero,append_nil,ho]⟩
      exact outcome_cons (ih (hn _) hr') (by simp [intendedPage,hx,ht])
    have hn : Pending region (j+1) (total ++ s.page) (run'+1) out' := by
      refine ⟨succ_le_succ hf.short,?_⟩
      rw [writeRun_succ hf.short ha,← append_assoc,hf.total_eq]
    rw [if_neg ht]
    exact outcome_cons (ih hn hr') (by simp [intendedPage,hx,ht])

end

theorem length_canonical (c : SaveCtx) (type : Nat) (page : List UInt8) :
  (c.canonicalizePagetable type page).1.length = pageSize := by
  simp [SaveCtx.canonicalizePagetable,SaveCtx.canonicalizeEntries,Platform.ptes,Platform.pteLast_mul]

variable {c : SaveCtx}

variable {s : Slot} {buf : Pagebuf}

theorem length_intendedPage {page : List UInt8} (h : intendedPage c s = some page) : page.length = pageSize := by
  rw [intendedPage] at h
  split at h
  · cases h
  split at h
  · cases h
    exact length_canonical ..
  · cases h
    exact s.page_length

theorem intendedPage_some (hx : pagetypeOf s.word ≠ xtab) : ∃ page, intendedPage c s = some page := by
  rw [intendedPage,if_neg hx]
  split <;> exact ⟨_,rfl⟩

theorem intended_count (c : SaveCtx) (slots : List Slot) : (slots.filterMap (intendedPage c)).length =
    slots.length-(slots.map Slot.word).countP fun w => pagetypeOf w = xtab := by
  induction slots with
  | nil => rfl
  | cons s slots ih =>
    have hl := (slots.map Slot.word).countP_le_length (p := fun w => pagetypeOf w = xtab)
    rw [length_map] at hl
    rw [map_cons]
    by_cases hx : pagetypeOf s.word = xtab
    · have hs : intendedPage c s = none := by simp [intendedPage,hx]
      rw [filterMap_cons_none hs,countP_cons_of_pos (by simpa using hx),ih]
      simp
    obtain ⟨page,hs⟩ := intendedPage_some (c := c) hx
    rw [filterMap_cons_some hs,countP_cons_of_neg (by simpa using hx),length_cons,length_cons,ih]
    omega

namespace Batch

variable {b : Batch} {c : SaveCtx}

theorem length_intended (b : Batch) (c : SaveCtx) : (b.intended c).flatten.length = (b.intended c).length*pageSize := by
  refine length_flatten fun page hp => ?_
  obtain ⟨s,-,hs⟩ := mem_filterMap.mp hp
  exact length_intendedPage hs

theorem intended_pos (h : b.slots.countP Slot.counted ≠ 0) : 0 < (b.intended c).length := by
  obtain ⟨s,hs,hc⟩ := countP_pos_iff.mp (Nat.pos_of_ne_zero h)
  obtain ⟨page,hp⟩ := intendedPage_some (c := c) (Slot.word_kept hc).2.2
  exact length_pos_of_mem (mem_filterMap.mpr ⟨s,hs,hp⟩)

end Batch

theorem toInt32_ofInt32 {n : Int} (ho : -2^31 ≤ n) (hh : n < 2^31) : toInt32 (ofInt32 n) = n := by
  have hl : (n%2^32).toNat < 256^4 := by omega
  rw [toInt32,ofInt32,decode_encode_of_lt hl]
  split <;> omega

theorem chunkOf_batch {n : Nat} (hp : 0 < n) (hl : n ≤ maxBatchSize) : chunkOf n = .batch n := by
  have hn : ∀ k : Int, k < 0 → (n : Int) ≠ k := by omega
  rw [maxBatchSize] at hl
  rw [chunkOf,if_neg (by omega)]
  iterate 13 rw [if_neg (hn _ (by decide))]
  rw [if_neg (by rw [maxBatchSize]; omega)]
  rfl

theorem readBatch_written {b : Batch} (h : b.slots.countP Slot.counted ≠ 0) (hp : buf.nrPages = 0)
  (hh : buf.nrPhyspages = 0)
  (rest : List UInt8) :
  readBatch c.toPlatform b.slots.length buf (store c.longSize b.words ++ ((b.intended c).flatten ++ rest)) =
    some ({buf with nrPages := b.slots.length,pfnTypes := b.words,
                    nrPhyspages := (b.intended c).length,pages := (b.intended c).flatten},rest) := by
  have ho : load c.longSize b.slots.length (store c.longSize b.words) = b.words := by
    have hl : 256^4 ≤ 256^c.longSize := by
      have hs := c.build.longSize_cases
      exact Nat.pow_le_pow_right (by omega) (by rw [Platform.longSize]; omega)
    have ha := @load_store_of_lt c.longSize b.words fun w hw => by
      obtain ⟨s,-,rfl⟩ := mem_map.mp hw
      exact s.word_lt.trans_le hl
    rwa [Batch.words,length_map] at ha
  have hc : b.slots.length-b.words.countP (fun w => pagetypeOf w = xtab) =
      (b.intended c).length := (intended_count c b.slots).symm
  have hn : (b.intended c).length ≠ 0 := (Batch.intended_pos h).ne'
  have hr : read (b.slots.length*c.longSize) (store c.longSize b.words ++ ((b.intended c).flatten ++ rest)) =
        some (store c.longSize b.words,(b.intended c).flatten ++ rest) :=
    read_append (by simp [Batch.words]) _
  have he : read ((b.intended c).length*pageSize) ((b.intended c).flatten ++ rest) =
      some ((b.intended c).flatten,rest) := read_append (b.length_intended c) _
  simp [readBatch,hr,ho,hc,hn,he,hp,hh]

inductive Signal where
  | finish
  | barrier
  | lastIteration
  | data
  deriving DecidableEq

def classify (buf : Pagebuf) : Signal :=
  if buf.nrPages = 0 ∧ buf.nrPhyspages = 1 then .finish
  else if buf.nrPages = 0 ∧ buf.nrPhyspages = 0 then .barrier
  else if buf.nrPages = 1 ∧ buf.nrPhyspages = 0 then .lastIteration
  else .data

theorem classify_data (h1 : 0 < buf.nrPages) (h2 : 0 < buf.nrPhyspages) : classify buf = .data := by
  rw [classify,if_neg (by omega),if_neg (by omega),if_neg (by omega)]

structure Emptied (buf : Pagebuf) : Prop where
  nrPages : buf.nrPages = 0
  nrPhyspages : buf.nrPhyspages = 0

structure Holds (b : Batch) (c : SaveCtx) (buf : Pagebuf) : Prop where
  nrPages : buf.nrPages = b.slots.length
  pfnTypes : buf.pfnTypes = b.words
  nrPhyspages : buf.nrPhyspages = (b.intended c).length
  pages : buf.pages = (b.intended c).flatten
  signal : classify buf = .data

variable {h : Host}

section
variable {b : Batch} {buf : Pagebuf}

inductive SendCases (c : SaveCtx) (live : Bool) (b : Batch) : Sent → Prop
  | skipped (hcount : b.slots.countP Slot.counted = 0) : SendCases c live b .skipped
  | failed (bytes : List UInt8) (hlive : live = false) (hrace : ∃ s ∈ b.slots, Raced c s) :
      SendCases c live b (.failed bytes)
  | written (hcount : b.slots.countP Slot.counted ≠ 0) : SendCases c live b
      (.written (ofInt32 b.slots.length ++ (store c.longSize b.words ++ (b.intended c).flatten)))

theorem sendPatch_cases (c : SaveCtx) (live : Bool) (b : Batch) : SendCases c live b (sendPatch c live b) := by
  by_cases hc : b.slots.countP Slot.counted = 0
  · rw [sendPatch,if_pos hc]
    exact .skipped hc
  have hp : ∀ out, Pending b.regionBase 0 out 0 out := by
    intro out
    exact ⟨le_rfl,by rw [writeRun_zero,append_nil]⟩
  have ho : ∀ out, Outcome c live b.slots out (writePages c live b.regionBase b.words 0 0 out) :=
    fun out => writePages_outcome (hp out) rfl
  rw [sendPatch,if_neg hc]
  dsimp only
  split
  · rename_i hd
    rw [(ho _).complete hd,append_assoc]
    exact .written hc
  rename_i hs
  obtain ⟨hl,hr⟩ := (ho _).stopped (by simpa using hs)
  exact .failed _ hl hr

theorem getOne_written (fuel : Nat) (hbuf : Emptied buf) (hc : b.slots.countP Slot.counted ≠ 0) (rest : List UInt8) :
  ∃ buf', slavePagebufGetOne c.toPlatform h (fuel+1) buf (ofInt32 b.slots.length ++
      (store c.longSize b.words ++ (b.intended c).flatten) ++ rest) = some ((b.slots.length : Int),buf',rest) ∧
      Holds b c buf' := by
  have hl := b.bounded
  have hi : toInt32 (ofInt32 b.slots.length) = b.slots.length := by
    rw [maxBatchSize] at hl
    exact toInt32_ofInt32 (by omega) (by omega)
  have hr : read 4 (ofInt32 b.slots.length ++ (store c.longSize b.words ++
      (b.intended c).flatten) ++ rest) = some (ofInt32 b.slots.length,
        store c.longSize b.words ++ ((b.intended c).flatten ++ rest)) := by
    rw [append_assoc,append_assoc]
    exact read_encode ..
  refine ⟨{buf with nrPages := b.slots.length,pfnTypes := b.words,
                    nrPhyspages := (b.intended c).length,pages := (b.intended c).flatten},?_,?_⟩
  · rw [slavePagebufGetOne,hr]
    simp only [Option.bind_eq_bind,Option.bind_some,hi,chunkOf_batch b.nonempty b.bounded,
      readBatch_written hc hbuf.nrPages hbuf.nrPhyspages]
  · exact ⟨rfl,rfl,rfl,rfl,classify_data b.nonempty (Batch.intended_pos hc)⟩

-- what becomes of a batch that send_patch has dealt with
def Decodes (c : SaveCtx) (live : Bool) (b : Batch) : Sent → Prop
  | .skipped => ∀ s ∈ b.slots, s.word = xtab
  | .failed _ => live = false ∧ ∃ s ∈ b.slots, Raced c s
  | .written bytes => ∀ h fuel buf rest, buf.nrPages = 0 → buf.nrPhyspages = 0 →
    ∃ buf', slavePagebufGetOne c.toPlatform h (fuel+1) buf (bytes ++ rest) = some ((b.slots.length : Int),buf',rest) ∧
      buf'.nrPages = b.slots.length ∧ buf'.pfnTypes = b.words ∧ buf'.nrPhyspages = (b.intended c).length ∧
      buf'.pages = (b.intended c).flatten ∧ chunks pageSize buf'.nrPhyspages buf'.pages = b.intended c ∧
      (buf'.nrPages,buf'.nrPhyspages) ∉ [(0,1),(1,0),(0,0)] ∧ classify buf' = .data

theorem sendPatch_decodes (c : SaveCtx) (live : Bool) (b : Batch) : Decodes c live b (sendPatch c live b) := by
  have ha := sendPatch_cases c live b
  generalize sendPatch c live b = sent at ha ⊢
  cases ha with
  | skipped hc =>
    intro s hs
    have hd := countP_eq_zero.mp hc s hs
    exact Slot.word_of_dropped (by simpa using hd)
  | failed bytes hl hr => exact ⟨hl,hr⟩
  | written hc =>
    intro h fuel buf rest hpages hphys
    obtain ⟨buf',hg,hbuf'⟩ := getOne_written (c := c) (h := h) fuel ⟨hpages,hphys⟩ hc rest
    have ho : 0 < (b.intended c).length := Batch.intended_pos hc
    refine ⟨buf',hg,hbuf'.nrPages,hbuf'.pfnTypes,hbuf'.nrPhyspages,hbuf'.pages,?_,?_,hbuf'.signal⟩
    · rw [hbuf'.nrPhyspages,hbuf'.pages]
      refine chunks_flatten fun page hp => ?_
      obtain ⟨s,-,hs⟩ := mem_filterMap.mp hp
      exact length_intendedPage hs
    have hf := b.nonempty
    intro hm
    simp only [hbuf'.nrPages,hbuf'.nrPhyspages,mem_cons,Prod.mk.injEq,not_mem_nil,or_false] at hm
    omega

end

def blankPage : Slot where
  pfn := ⟨3,by decide⟩
  nibble := 0
  err := false
  page := List.replicate pageSize 0
  page_length := length_replicate

def blankBatch : Batch where
  slots := [blankPage]
  nonempty := by decide
  bounded := by decide

def quietHost : Host where
  tmemRestore := some
  tmemRestoreExtra := some
  setTscInfo := fun _ _ _ _ => true

inductive Message where
  | barrier
  | lastIter
  | batch (b : Batch)

namespace Message

def bytes (c : SaveCtx) (live : Bool) : Message → List UInt8
  | .barrier => ofInt32 xcIterationBarrier
  | .lastIter => ofInt32 xcLastIterFirst
  | .batch b =>
    match sendPatch c live b with
    | .skipped => []
    | .failed bytes => bytes
    | .written bytes => bytes

def Completes (c : SaveCtx) (live : Bool) : Message → Prop
  | .batch b => ∀ bytes, sendPatch c live b ≠ .failed bytes
  | _ => True

end Message

section
variable {pool : Nat → Pagebuf} {fuel : Nat}

theorem getOne_control (c : Platform) (h : Host) (fuel : Nat) (buf : Pagebuf) (rest : List UInt8) :
  slavePagebufGetOne c h (fuel+1) buf (ofInt32 xcParaMigrEnd ++ rest) =
    some (1,{buf with nrPages := 0,nrPhyspages := 1},rest) ∧
    slavePagebufGetOne c h (fuel+1) buf (ofInt32 xcLastIterFirst ++ rest) =
      some (1,{buf with nrPages := 1,nrPhyspages := 0},rest) ∧
    slavePagebufGetOne c h (fuel+1) buf (ofInt32 xcIterationBarrier ++ rest) =
      some (1,{buf with nrPages := 0,nrPhyspages := 0},rest) := by
  refine ⟨?_,?_,?_⟩ <;> rw [slavePagebufGetOne,ofInt32,read_encode] <;> rfl

end

end BatchCodec
