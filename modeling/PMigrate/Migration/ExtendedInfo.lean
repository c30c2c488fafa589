import PMigrate.Migration.PageTable

namespace ExtendedInfo

open PageTable List Option Bytes

inductive GuestWidth where
  | four
  | eight

namespace GuestWidth

def bytes : GuestWidth → Nat
  | .four => 4
  | .eight => 8

def ctxtSize : GuestWidth → Nat
  | .four => 2800
  | .eight => 5168

def vmAssistOffset : GuestWidth → Nat
  | .four => 2796
  | .eight => 5136

def vmAssist (w : GuestWidth) (ctxt : List UInt8) : Nat := decode ((ctxt.drop w.vmAssistOffset).take w.bytes)

end GuestWidth

def vmasstTypePaeExtendedCr3 : Nat := 3

def ascii (s : String) : List UInt8 := s.toList.map fun ch => UInt8.ofNat ch.toNat

def vcpuSig : List UInt8 := ascii "vcpu"
def extvSig : List UInt8 := ascii "extv"
def xcntSig : List UInt8 := ascii "xcnt"

def signature (b : Build) : Nat := 2^(8*b.longSize)-1

def fpp (guestWidth : Nat) : Nat := pageSize/guestWidth

def p2mFlEntries (p2mSize guestWidth : Nat) : Nat := (p2mSize+fpp guestWidth-1)/fpp guestWidth

structure SavedTable (b : Build) where
  width : GuestWidth
  ctxt : List UInt8
  ctxt_length : ctxt.length = width.ctxtSize
  (xfeatureMask extstateSize p2mSize : Nat)
  p2mSize_pos : 0 < p2mSize
  frameList : List Nat
  frameList_length : frameList.length = p2mFlEntries p2mSize width.bytes
  frameList_lt : ∀ f ∈ frameList, f < 256^b.longSize

namespace SavedTable

variable {b : Build}

section
variable (t : SavedTable b)

def xcntSize : Nat := (t.extstateSize+2*8)%2^32

def totSz : Nat :=
  if t.xfeatureMask ≠ 0 then ((t.width.ctxtSize+8)+(0+8))+(4+8)
  else (t.width.ctxtSize+8)+(0+8)

def xcntBlock : List UInt8 :=
  if t.xfeatureMask ≠ 0 then xcntSig ++ (encode 4 4 ++ encode 4 t.xcntSize) else []

def mapAndSaveP2mTable : List UInt8 :=
  encode b.longSize (signature b) ++ (encode 4 t.totSz ++ (vcpuSig ++ (encode 4 t.width.ctxtSize ++ (t.ctxt ++
      (extvSig ++ (encode 4 0 ++ (t.xcntBlock ++ store b.longSize t.frameList)))))))

end

end SavedTable

structure Info where
  (guestWidth ptLevels : Nat)
  (paeExtendedCr3 extVcpucontext vcpuextstate : Bool)
  vcpuextstateSize : Nat

def Info.initial (guestWidth ptLevels : Nat) : Info where
  guestWidth := guestWidth
  ptLevels := ptLevels
  paeExtendedCr3 := false
  extVcpucontext := false
  vcpuextstate := false
  vcpuextstateSize := 0

def sub32 (x y : Nat) : Nat := (x+2^32-y)%2^32

def discard (size : Nat) : Nat → Nat → Nat → List UInt8 → Option (Nat × List UInt8)
  | 0,_,tot,s => some (tot,s)
  | fuel+1,chunk,tot,s =>
    if chunk = 0 then some (tot,s)
    else do
      let (_,s) ← read (min chunk size) s
      discard size fuel (chunk-min chunk size) (sub32 tot (min chunk size)) s

def widthOf (chunk : Nat) : Option GuestWidth :=
  if chunk = GuestWidth.ctxtSize .four then some .four
  else if chunk = GuestWidth.ctxtSize .eight then some .eight
  else none

def Info.pick (info : Info) : GuestWidth → Info
  | .four => {info with guestWidth := 4,ptLevels := if info.ptLevels > 2 then 3 else info.ptLevels}
  | .eight => {info with guestWidth := 8,ptLevels := 4}

def Info.assist (info : Info) (w : GuestWidth) (ctxt : List UInt8) : Info :=
  if w.vmAssist ctxt &&& (1 <<< vmasstTypePaeExtendedCr3) ≠ 0 then {info with paeExtendedCr3 := true}
  else info

def readExtstateSize (info : Info) (s : List UInt8) : Info × List UInt8 :=
  match read 4 s with
  | some (x,s) => ({info with vcpuextstate := true,vcpuextstateSize := decode x},s)
  | none => ({info with vcpuextstate := true},[])

def readBody (b : Build) (info : Info) (sig : List UInt8) (chunk tot : Nat) (s : List UInt8) :
    Option (Info × Nat × List UInt8) :=
  if sig = vcpuSig then do
    let w ← widthOf chunk
    let (ctxt,s) ← read chunk s
    some ((info.pick w).assist w ctxt,sub32 tot chunk,s)
  else if sig = extvSig then do
    let (tot,s) ← discard b.longSize chunk chunk tot s
    some ({info with extVcpucontext := true},tot,s)
  else if sig = xcntSig then
    let (info,s) := readExtstateSize info s
    some (info,sub32 tot chunk,s)
  else do
    let (tot,s) ← discard b.longSize chunk chunk tot s
    some (info,tot,s)

def readBlock (b : Build) (info : Info) (tot : Nat) (s : List UInt8) : Option (Info × Nat × List UInt8) := do
  let (sig,s) ← read 4 s
  let (n,s) ← read 4 s
  let chunk := decode n
  if tot < (chunk+8)%2^32 then none
  else readBody b info sig chunk (sub32 tot 8) s

def readBlocks (b : Build) : Nat → Info → Nat → List UInt8 → Option (Info × List UInt8)
  | 0,_,_,_ => none
  | fuel+1,info,tot,s =>
    if tot = 0 then some (info,s)
    else do
      let (info,tot,s) ← readBlock b info tot s
      readBlocks b fuel info tot s

def readFirst (b : Build) (info : Info) (s : List UInt8) : Option (Nat × Info × List UInt8) := do
  let (zero,s) ← read b.longSize s
  if decode zero = signature b then
    let (tot,s) ← read 4 s
    let (info,s) ← readBlocks b (s.length+1) info (decode tot) s
    let (first,s) ← read b.longSize s
    some (decode first,info,s)
  else some (decode zero,info,s)

def loadP2mFrameList (b : Build) (p2mSize : Nat) (info : Info) (s : List UInt8) :
    Option (List Nat × Info × List UInt8) := do
  let (first,info,s) ← readFirst b info s
  let entries := p2mFlEntries p2mSize info.guestWidth
  if entries = 0 then none
  else
    let (tail,s) ← read ((entries-1)*b.longSize) s
    some (first :: load b.longSize (entries-1) tail,info,s)

theorem sub32_of_le {x y : Nat} (hl : y ≤ x) (ht : x < 2^32) : sub32 x y = x-y := by
  rw [sub32,show x+2^32-y = x-y+2^32 by omega,Nat.add_mod_right]
  exact Nat.mod_eq_of_lt (by omega)

theorem decode_word {x : Nat} (h : x < 2^32) : decode (encode 4 x) = x := decode_encode_of_lt h

section
variable {b : Build} {info : Info} {tot : Nat} {s : List UInt8}

theorem widthOf_ctxtSize (w : GuestWidth) : widthOf w.ctxtSize = some w := by cases w <;> rfl

theorem ctxtSize_le (w : GuestWidth) : w.ctxtSize ≤ 5168 := by cases w <;> decide

theorem readBlock_body {sig : List UInt8} (hs : sig.length = 4) {n : Nat} (hn : n+8 ≤ tot) (hl : tot < 2^32) :
  readBlock b info tot (sig ++ (encode 4 n ++ s)) = readBody b info sig n (tot-8) s := by
  have hd : decode (encode 4 n) = n := decode_word (by omega)
  have hm : (n+8)%2^32 = n+8 := Nat.mod_eq_of_lt (by omega)
  simp only [readBlock,read_append hs,bind_eq_bind,bind_some,
    read_encode,hd,hm,if_neg (Nat.not_lt.mpr hn),sub32_of_le (by omega : 8 ≤ tot) hl]

theorem readBlock_vcpu {w : GuestWidth} {ctxt : List UInt8} (hc : ctxt.length = w.ctxtSize)
  (hl : w.ctxtSize+8 ≤ tot) (ht : tot < 2^32) : readBlock b info tot (vcpuSig ++ (encode 4 w.ctxtSize ++ (ctxt ++ s))) =
    some ((info.pick w).assist w ctxt,tot-8-w.ctxtSize,s) := by
  have hs : sub32 (tot-8) w.ctxtSize = tot-8-w.ctxtSize := sub32_of_le (by omega) (by omega)
  rw [readBlock_body (by decide) hl ht,readBody,if_pos rfl]
  simp only [bind_eq_bind,widthOf_ctxtSize,bind_some,read_append hc,hs]

theorem readBlock_extv (hl : 8 ≤ tot) (ht : tot < 2^32) : readBlock b info tot (extvSig ++ (encode 4 0 ++ s)) =
    some ({info with extVcpucontext := true},tot-8,s) := by
  rw [readBlock_body (by decide) hl ht,readBody,if_neg (by decide),if_pos rfl]
  rfl

theorem readBlock_xcnt {x : Nat} (hx : x < 2^32) (hl : 12 ≤ tot) (ht : tot < 2^32) :
  readBlock b info tot (xcntSig ++ (encode 4 4 ++ (encode 4 x ++ s))) =
    some ({info with vcpuextstate := true,vcpuextstateSize := x},tot-8-4,s) := by
  have hs : sub32 (tot-8) 4 = tot-8-4 := sub32_of_le (by omega) (by omega)
  rw [readBlock_body (by decide) hl ht,readBody,if_neg (by decide),if_neg (by decide),if_pos rfl]
  simp only [readExtstateSize,read_encode,decode_word hx,hs]

theorem readBlocks_step {info' : Info} {tot' : Nat} {s' : List UInt8} (fuel : Nat) (ht : tot ≠ 0)
  (h : readBlock b info tot s = some (info',tot',s')) :
  readBlocks b (fuel+1) info tot s = readBlocks b fuel info' tot' s' := by
  simp [readBlocks,ht,h]

theorem readBlocks_done (fuel : Nat) : readBlocks b (fuel+1) info 0 s = some (info,s) := by
  simp [readBlocks]

end

def SavedTable.report {b : Build} (t : SavedTable b) (info : Info) : Info :=
  let info := (info.pick t.width).assist t.width t.ctxt
  if t.xfeatureMask ≠ 0 then
    {info with extVcpucontext := true,vcpuextstate := true,vcpuextstateSize := t.xcntSize}
  else {info with extVcpucontext := true}

variable {b : Build}

theorem readBlocks_saved (t : SavedTable b) (info : Info) (s : List UInt8) {fuel : Nat} (hf : 4 ≤ fuel) :
  readBlocks b fuel info t.totSz (vcpuSig ++ (encode 4 t.width.ctxtSize ++ (t.ctxt ++
    (extvSig ++ (encode 4 0 ++ (t.xcntBlock ++ s)))))) = some (t.report info,s) := by
  have hs := ctxtSize_le t.width
  obtain ⟨fuel,rfl⟩ := Nat.exists_eq_add_of_le' hf
  by_cases hm : t.xfeatureMask = 0
  · have ht : t.totSz = t.width.ctxtSize+16 := by
      rw [SavedTable.totSz,if_neg (by simpa using hm)]
    have hr : t.report info = {(info.pick t.width).assist t.width t.ctxt with extVcpucontext := true} := by
      rw [SavedTable.report,if_neg (by simpa using hm)]
    rw [ht,hr,SavedTable.xcntBlock,if_neg (by simpa using hm),nil_append,
      readBlocks_step _ (by omega) (readBlock_vcpu t.ctxt_length (by omega) (by omega)),
      show t.width.ctxtSize+16-8-t.width.ctxtSize = 8 by omega,
      readBlocks_step _ (by decide) (readBlock_extv (by decide) (by decide)),readBlocks_done]
  have ht : t.totSz = t.width.ctxtSize+28 := by rw [SavedTable.totSz,if_pos hm]
  have hx : t.xcntSize < 2^32 := Nat.mod_lt _ (Nat.two_pow_pos 32)
  have hr : t.report info = {(info.pick t.width).assist t.width t.ctxt with
      extVcpucontext := true,vcpuextstate := true,vcpuextstateSize := t.xcntSize} := by
    rw [SavedTable.report,if_pos hm]
  rw [ht,hr,SavedTable.xcntBlock,if_pos hm,append_assoc,append_assoc,
    readBlocks_step _ (by omega) (readBlock_vcpu t.ctxt_length (by omega) (by omega)),
    show t.width.ctxtSize+28-8-t.width.ctxtSize = 20 by omega,
    readBlocks_step _ (by decide) (readBlock_extv (by decide) (by decide)),
    readBlocks_step _ (by decide) (readBlock_xcnt hx (by decide) (by decide)),readBlocks_done]

theorem entries_pos (t : SavedTable b) : 0 < p2mFlEntries t.p2mSize t.width.bytes := by
  have hp := t.p2mSize_pos
  have hf : 0 < fpp t.width.bytes := by cases t.width <;> decide
  exact Nat.div_pos (by omega) hf

theorem assist_guestWidth (info : Info) (w : GuestWidth) (ctxt : List UInt8) :
  ((info.pick w).assist w ctxt).guestWidth = w.bytes := by
  rw [Info.assist]
  split <;> cases w <;> rfl

theorem assist_vcpuextstate (info : Info) (w : GuestWidth) (ctxt : List UInt8) :
  ((info.pick w).assist w ctxt).vcpuextstate = info.vcpuextstate := by
  rw [Info.assist]
  split <;> cases w <;> rfl

theorem report_guestWidth (t : SavedTable b) (info : Info) : (t.report info).guestWidth = t.width.bytes := by
  rw [SavedTable.report]
  split <;> exact assist_guestWidth ..

theorem decode_signature (b : Build) : decode (encode b.longSize (signature b)) = signature b := by
  rcases b.longSize_cases with hs | hs <;> rw [signature,hs] <;> decide

section
variable (t : SavedTable b)
include t

theorem readFirst_saved (info : Info) (s : List UInt8)
  {first : Nat} {frames : List Nat} (hl : t.frameList = first :: frames) :
  readFirst b info (t.mapAndSaveP2mTable ++ s) = some (first,t.report info,store b.longSize frames ++ s) := by
  have hf : decode (encode b.longSize first) = first :=
    decode_encode_of_lt (t.frameList_lt first (by simp [hl]))
  have ht : decode (encode 4 t.totSz) = t.totSz := by
    have hs := ctxtSize_le t.width
    refine decode_word ?_
    rw [SavedTable.totSz]
    split <;> omega
  have hb := fun s fuel => @readBlocks_saved b t info s fuel
  simp only [readFirst,SavedTable.mapAndSaveP2mTable,append_assoc,bind_eq_bind,
    read_encode,bind_some,decode_signature,if_true,ht]
  rw [hb _ _ ?_]
  · rw [hl,store,map_cons,flatten_cons,append_assoc]
    simp only [bind_some,read_encode,hf]
    rfl
  · simp only [length_append,length_encode]
    omega

theorem loadP2mFrameList_saved (info : Info) (rest : List UInt8) :
  loadP2mFrameList b t.p2mSize info (t.mapAndSaveP2mTable ++ rest) = some (t.frameList,t.report info,rest) := by
  have hp := entries_pos t
  have he := t.frameList_length
  obtain ⟨first,frames,hl⟩ := exists_cons_of_length_pos (he ▸ hp)
  have ha : frames.length = p2mFlEntries t.p2mSize t.width.bytes-1 := by
    rw [← he,hl,length_cons,Nat.add_sub_cancel]
  have ho : load b.longSize frames.length (store b.longSize frames) = frames :=
    load_store_of_lt fun f hf => t.frameList_lt f (by simp [hl,hf])
  have hr : read (frames.length*b.longSize) (store b.longSize frames ++ rest) =
      some (store b.longSize frames,rest) := read_append (length_store ..) _
  simp only [loadP2mFrameList,readFirst_saved t _ _ hl,bind_eq_bind,bind_some,
    report_guestWidth,if_neg hp.ne',← ha,hr,ho,hl]

theorem report_extVcpucontext (info : Info) : (t.report info).extVcpucontext = true := by
  rw [SavedTable.report]
  split <;> rfl

theorem report_vcpuextstate (guestWidth ptLevels : Nat) :
  (t.report (.initial guestWidth ptLevels)).vcpuextstate = decide (t.xfeatureMask ≠ 0) := by
  rw [SavedTable.report]
  split_ifs with hm
  · exact (decide_eq_true hm).symm
  · rw [decide_eq_false hm]
    exact assist_vcpuextstate ..

theorem report_vcpuextstateSize (info : Info)
  (hm : t.xfeatureMask ≠ 0) : (t.report info).vcpuextstateSize = t.xcntSize := by
  rw [SavedTable.report,if_pos hm]

end

theorem header_round_trip (b : Build) (t : SavedTable b) (guestWidth ptLevels : Nat) (rest : List UInt8) :
  ∃ info, loadP2mFrameList b t.p2mSize (Info.initial guestWidth ptLevels)
      (t.mapAndSaveP2mTable ++ rest) = some (t.frameList,info,rest) ∧
    info.guestWidth = t.width.bytes ∧ info.extVcpucontext = true ∧ info.vcpuextstate = decide (t.xfeatureMask ≠ 0) ∧
    (t.xfeatureMask ≠ 0 → info.vcpuextstateSize = t.xcntSize) :=
  ⟨t.report (.initial guestWidth ptLevels),loadP2mFrameList_saved ..,report_guestWidth ..,
    report_extVcpucontext ..,report_vcpuextstate ..,report_vcpuextstateSize t _⟩

example : Nonempty (SavedTable .x86_64) :=
  ⟨{width := .eight
    ctxt := List.replicate 5168 0
    ctxt_length := length_replicate
    xfeatureMask := 3
    extstateSize := 576
    p2mSize := 600
    p2mSize_pos := by decide
    frameList := [5,9]
    frameList_length := by decide
    frameList_lt := by decide}⟩

end ExtendedInfo
