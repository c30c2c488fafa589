import PMigrate.Migration.ExtendedInfo

namespace ExtendedInfo.GuestWidth

def ofBytes (guestWidth : Nat) : GuestWidth := if guestWidth = 8 then .eight else .four

def flagsOffset : GuestWidth → Nat
  | .four => 512
  | .eight => 512

def edxOffset : GuestWidth → Nat
  | .four => 524
  | .eight => 616

def gdtFramesOffset : GuestWidth → Nat
  | .four => 2640
  | .eight => 4832

def gdtEntsOffset : GuestWidth → Nat
  | .four => 2704
  | .eight => 4960

def ctrlregOffset : GuestWidth → Nat
  | .four => 2716
  | .eight => 4984

def pfnToMfnFrameListListOffset : GuestWidth → Nat
  | .four => 2320
  | .eight => 3096

section
variable (w : GuestWidth)

def getField (off : Nat) (p : List UInt8) : Nat := Bytes.peek off w.bytes p

def setField (off v : Nat) (p : List UInt8) : List UInt8 := Bytes.poke off w.bytes v p

def gdtFrame (j : Nat) : Nat := w.gdtFramesOffset+j*w.bytes

def ctrlreg (j : Nat) : Nat := w.ctrlregOffset+j*w.bytes

end

def unfoldCr3 : GuestWidth → Nat → Nat
  | .four,c => ((c%2^32) >>> 12) ||| ((c <<< 20)%2^32)
  | .eight,c => c >>> 12

def foldCr3 : GuestWidth → Nat → Nat
  | .four,c => ((c <<< 12)%2^32) ||| ((c%2^32) >>> 20)
  | .eight,c => (c <<< 12)%2^64

@[simp] theorem length_setField (w : GuestWidth) (off v : Nat) (p : List UInt8) :
  (w.setField off v p).length = p.length := Bytes.length_poke ..

@[simp] theorem ofBytes_bytes (w : GuestWidth) : ofBytes w.bytes = w := by cases w <;> rfl

end ExtendedInfo.GuestWidth

namespace PvTail

open PageTable ExtendedInfo

def isMapped (mfn : Nat) : Bool := decide (mfn &&& 0x80000000 = 0)

def wrapLong (b : Build) (x : Nat) : Nat := x%2^(8*b.longSize)

def pfntabSize : Nat := 1024
def maxPfncount : Nat := 1 <<< 28
def extVcpucontextSize : Nat := 128
def maxGdtEnts : Nat := 8192
def gdtFrames : Nat := 16
def vgcfOnline : Nat := 1 <<< 5
def ltabShift : Nat := 28

def onlineVcpus (maxVcpuId vcpumap : Nat) : List Nat :=
  (List.range (maxVcpuId+1)).filter fun i => decide (vcpumap &&& (1 <<< i) ≠ 0)

def pfntabLoop (b : Build) (unmapped : Nat → Bool) : Nat → Nat → List Nat → List UInt8
  | 0,_,_ => []
  | left+1,i,pfntab =>
    let pfntab := if unmapped i then pfntab ++ [i] else pfntab
    if pfntab.length = pfntabSize ∨ left = 0 then
      Bytes.store b.longSize pfntab ++ pfntabLoop b unmapped left (i+1) []
    else pfntabLoop b unmapped left (i+1) pfntab

def gdtLoop (b : Build) (w : GuestWidth) (convert : Nat → Option Nat) : Nat → Nat → List UInt8 → Option (List UInt8)
  | 0,j,ctxt => if 512*j < w.getField w.gdtEntsOffset ctxt then none else some ctxt
  | n+1,j,ctxt =>
    if 512*j < w.getField w.gdtEntsOffset ctxt then do
      let frame ← convert (wrapLong b (w.getField (w.gdtFrame j) ctxt))
      gdtLoop b w convert n (j+1) (w.setField (w.gdtFrame j) frame ctxt)
    else some ctxt

structure Extstate where
  (xfeatureMask size : Nat)
  buffer : List UInt8

structure VcpuRecord where
  ctxt : List UInt8
  extVcpucontext : Option (List UInt8)
  vcpuextstate : Option Extstate

def Extstate.bytes (x : Extstate) : List UInt8 :=
  Bytes.encode 8 x.xfeatureMask ++ (Bytes.encode 8 x.size ++ x.buffer)

def VcpuRecord.bytes (r : VcpuRecord) : List UInt8 :=
  r.ctxt ++ (r.extVcpucontext.getD [] ++ (r.vcpuextstate.map Extstate.bytes).getD [])

end PvTail

namespace PageTable.SaveCtx

open ExtendedInfo PvTail

section
variable (c : SaveCtx)

def canonicalizeFrame (mfn : Nat) : Option Nat :=
  if c.mfnIsInPseudophysMap mfn then some (c.mfnToPfn mfn) else none

section
variable (w : GuestWidth)

def canonicalizeCr3 (cr3 : Nat) : Option Nat := do
  let pfn ← c.canonicalizeFrame (w.unfoldCr3 cr3)
  some (w.foldCr3 pfn)

def canonicalizeSuspend (ctxt : List UInt8) : Option (List UInt8) := do
  let pfn ← c.canonicalizeFrame (c.toLong (w.getField w.edxOffset ctxt))
  some (w.setField w.edxOffset pfn ctxt)

def canonicalizeUserBase (ctxt : List UInt8) : Option (List UInt8) :=
  let x64 := GuestWidth.eight
  if c.ptLevels = 4 ∧ x64.getField (x64.ctrlreg 1) ctxt ≠ 0 then do
    let cr1 ← c.canonicalizeCr3 w (x64.getField (x64.ctrlreg 1) ctxt)
    some (x64.setField (x64.ctrlreg 1) (1 ||| cr1) ctxt)
  else some ctxt

def canonicalizeContext (ctxt : List UInt8) : Option (List UInt8) := do
  let ctxt ← gdtLoop c.build w c.canonicalizeFrame gdtFrames 0 ctxt
  let cr3 ← c.canonicalizeCr3 w (w.getField (w.ctrlreg 3) ctxt)
  c.canonicalizeUserBase w (w.setField (w.ctrlreg 3) cr3 ctxt)

end

end

end PageTable.SaveCtx

namespace PvTail

open PageTable ExtendedInfo

structure VcpuState (w : GuestWidth) where
  ctxt : List UInt8
  ctxt_length : ctxt.length = w.ctxtSize
  extVcpucontext : List UInt8
  extVcpucontext_length : extVcpucontext.length = extVcpucontextSize
  xfeatureMask : Nat
  xfeatureMask_lt : xfeatureMask < 2^64
  size : Nat
  size_lt : size < 2^64
  buffer : List UInt8
  buffer_length : buffer.length = size

structure SavedGuest (b : Build) where
  table : SavedTable b
  ctx : SaveCtx
  build_eq : ctx.build = b
  guestWidth_eq : ctx.guestWidth = table.width.bytes
  p2mSize_eq : ctx.p2mSize = table.p2mSize
  p2mSize_lt : ctx.p2mSize < 2^28
  maxVcpuId : Nat
  maxVcpuId_lt : maxVcpuId < 64
  vcpumap : Nat
  vcpus : Nat → VcpuState table.width
  xfeatureMask_eq : table.xfeatureMask = (vcpus 0).xfeatureMask
  extstateSize_eq : table.extstateSize = (vcpus 0).size
  liveShinfo : List UInt8
  liveShinfo_length : liveShinfo.length = pageSize

namespace SavedGuest

variable {b : Build}

section
variable (g : SavedGuest b)

def unmapped (pfn : Nat) : Bool := !isMapped (g.ctx.pfnToMfn pfn)

def unmappedPfns : List Nat := (List.range g.ctx.p2mSize).filter g.unmapped

def online : List Nat := onlineVcpus g.maxVcpuId g.vcpumap

def pfncount : Nat := (List.range g.ctx.p2mSize).countP g.unmapped%2^32

def extstate (i : Nat) : Option Extstate :=
  let v := g.vcpus i
  if v.xfeatureMask = 0 then none
  else some ⟨v.xfeatureMask,v.size,v.buffer.take (wrapLong b v.size)⟩

def vcpuRecord (ctxt0 : List UInt8) (i : Nat) : Option (Nat × VcpuRecord) := do
  let ctxt ← g.ctx.canonicalizeContext g.table.width (if i = 0 then ctxt0 else (g.vcpus i).ctxt)
  some (i,⟨ctxt,some (g.vcpus i).extVcpucontext,g.extstate i⟩)

def vcpuRecords : Option (List (Nat × VcpuRecord)) := do
  let ctxt0 ← g.ctx.canonicalizeSuspend g.table.width (g.vcpus 0).ctxt
  g.online.mapM (g.vcpuRecord ctxt0)

def sharedInfoPage : List UInt8 :=
  g.table.width.setField g.table.width.pfnToMfnFrameListListOffset 0 g.liveShinfo

def savePvTail : Option (List UInt8) := do
  let records ← g.vcpuRecords
  some (Bytes.encode 4 g.pfncount ++ (pfntabLoop b g.unmapped g.ctx.p2mSize 0 [] ++
    (records.flatMap (fun p => p.2.bytes) ++ g.sharedInfoPage)))

end

end SavedGuest

structure TailbufPv where
  pfncount : Nat
  pfntab : List Nat
  vcpucount : Nat
  (vcpubuf sharedInfoPage : List UInt8)

def vcpulen (b : Build) (info : Info) (vcpucount : Nat) : Nat :=
  wrapLong b ((GuestWidth.ofBytes info.guestWidth).ctxtSize*vcpucount +
    (if info.extVcpucontext then extVcpucontextSize*vcpucount%2^32 else 0) +
    (if info.vcpuextstate then info.vcpuextstateSize*vcpucount%2^32 else 0))

def bufferTailPv (b : Build) (info : Info) (maxVcpuId vcpumap : Nat) (s : List UInt8) :
    Option (TailbufPv × List UInt8) := do
  let (x,s) ← Bytes.read 4 s
  let pfncount := Bytes.decode x
  if maxPfncount < pfncount then none
  else
    let (pfntab,s) ← Bytes.read (wrapLong b (b.longSize*pfncount)) s
    let vcpucount := (onlineVcpus maxVcpuId vcpumap).length
    let (vcpubuf,s) ← Bytes.read (vcpulen b info vcpucount) s
    let (page,s) ← Bytes.read pageSize s
    some (⟨pfncount,Bytes.load b.longSize pfncount pfntab,vcpucount,vcpubuf,page⟩,s)

structure RestoreCtx where
  build : Build
  p2mSize : Nat
  (p2m pfnType : Nat → Nat)

structure RestoredVcpu where
  vcpu : Nat
  record : VcpuRecord
  installed : List UInt8

namespace RestoreCtx

section
variable (r : RestoreCtx)

def uncanonicalizeFrame (pfn : Nat) : Option Nat :=
  if r.p2mSize ≤ pfn ∨ r.pfnType pfn ≠ notab then none else some (r.p2m pfn)

def uncanonicalizeCr3 (info : Info) (w : GuestWidth) (cr3 : Nat) : Option Nat :=
  let pfn := wrapLong r.build (w.unfoldCr3 cr3)
  if r.p2mSize ≤ pfn then none
  else if r.pfnType pfn &&& ltabtypeMask ≠ wrapLong r.build (info.ptLevels <<< ltabShift) then none
  else some (w.foldCr3 (r.p2m pfn))

def uncanonicalizeSuspend (w : GuestWidth) (i : Nat) (ctxt : List UInt8) : Option (List UInt8) :=
  if i = 0 then do
    let mfn ← r.uncanonicalizeFrame (wrapLong r.build (w.getField w.edxOffset ctxt))
    some (w.setField w.edxOffset mfn ctxt)
  else some ctxt

def uncanonicalizeGdt (w : GuestWidth) (ctxt : List UInt8) : Option (List UInt8) :=
  if maxGdtEnts < w.getField w.gdtEntsOffset ctxt then none
  else gdtLoop r.build w r.uncanonicalizeFrame gdtFrames 0 ctxt

def uncanonicalizeUserBase (info : Info) (w : GuestWidth) (ctxt : List UInt8) : Option (List UInt8) :=
  let x64 := GuestWidth.eight
  let cr1 := x64.getField (x64.ctrlreg 1) ctxt
  if info.ptLevels = 4 ∧ cr1 &&& 1 ≠ 0 then do
    let cr1 ← r.uncanonicalizeCr3 info w (cr1-1)
    some (x64.setField (x64.ctrlreg 1) cr1 ctxt)
  else some ctxt

def uncanonicalizeContext (info : Info) (i : Nat) (ctxt : List UInt8) : Option (List UInt8) := do
  let w := GuestWidth.ofBytes info.guestWidth
  let ctxt := w.setField w.flagsOffset (w.getField w.flagsOffset ctxt ||| vgcfOnline) ctxt
  let ctxt ← r.uncanonicalizeSuspend w i ctxt
  let ctxt ← r.uncanonicalizeGdt w ctxt
  let cr3 ← r.uncanonicalizeCr3 info w (w.getField (w.ctrlreg 3) ctxt)
  r.uncanonicalizeUserBase info w (w.setField (w.ctrlreg 3) cr3 ctxt)

end

def restoreExtVcpucontext (info : Info) (vcpup : List UInt8) : Option (Option (List UInt8) × List UInt8) :=
  if info.extVcpucontext then do
    let (ext,vcpup) ← Bytes.read extVcpucontextSize vcpup
    some (some ext,vcpup)
  else some (none,vcpup)

def restoreVcpuextstate (r : RestoreCtx) (info : Info) (vcpup : List UInt8) : Option (Option Extstate × List UInt8) :=
  if info.vcpuextstate then do
    let (mask,vcpup) ← Bytes.read 8 vcpup
    let (size,vcpup) ← Bytes.read 8 vcpup
    let (buffer,vcpup) ← Bytes.read (wrapLong r.build (Bytes.decode size)) vcpup
    some (some ⟨Bytes.decode mask,Bytes.decode size,buffer⟩,vcpup)
  else some (none,vcpup)

def restoreVcpu (r : RestoreCtx) (info : Info) (i : Nat) (vcpup : List UInt8) : Option (RestoredVcpu × List UInt8) := do
  let (ctxt,vcpup) ← Bytes.read (GuestWidth.ofBytes info.guestWidth).ctxtSize vcpup
  let installed ← r.uncanonicalizeContext info i ctxt
  let (ext,vcpup) ← restoreExtVcpucontext info vcpup
  let (extstate,vcpup) ← r.restoreVcpuextstate info vcpup
  some (⟨i,⟨ctxt,ext,extstate⟩,installed⟩,vcpup)

def restoreVcpus (r : RestoreCtx) (info : Info) : List Nat → List UInt8 → Option (List RestoredVcpu)
  | [],_ => some []
  | i :: online,vcpup => do
    let (v,vcpup) ← r.restoreVcpu info i vcpup
    let vs ← r.restoreVcpus info online vcpup
    some (v :: vs)

def install (r : RestoreCtx) (info : Info) (p : Nat × VcpuRecord) : Option RestoredVcpu := do
  let installed ← r.uncanonicalizeContext info p.1 p.2.ctxt
  some ⟨p.1,p.2,installed⟩

end RestoreCtx

variable {b : Build}

section
variable {unmapped : Nat → Bool}

theorem store_append (k : Nat) (xs ys : List Nat) :
  Bytes.store k (xs ++ ys) = Bytes.store k xs ++ Bytes.store k ys := by
  simp [Bytes.store]

theorem pfntabLoop_eq (left i : Nat) (pfntab : List Nat) (hd : left = 0 → pfntab = []) :
  pfntabLoop b unmapped left i pfntab = Bytes.store b.longSize (pfntab ++ (List.range' i left).filter unmapped) := by
  induction left generalizing i pfntab with
  | zero => simp [pfntabLoop,hd rfl,Bytes.store]
  | succ left ih =>
    have hl : pfntab ++ (List.range' i (left+1)).filter unmapped =
        (if unmapped i then pfntab ++ [i] else pfntab) ++ (List.range' (i+1) left).filter unmapped := by
      rw [List.range'_succ,List.filter_cons]
      split <;> simp
    rw [pfntabLoop,hl]
    generalize (if unmapped i then pfntab ++ [i] else pfntab) = pfntab'
    split
    · rw [ih _ _ fun _ => rfl,List.nil_append,store_append]
    · rename_i hf
      exact ih _ _ fun he => absurd (.inr he) hf

end

variable {c : SaveCtx} {w : GuestWidth}

section
variable {ctxt ctxt' : List UInt8}

theorem length_gdtLoop {convert : Nat → Option Nat} {n j : Nat}
  (h : gdtLoop b w convert n j ctxt = some ctxt') : ctxt'.length = ctxt.length := by
  induction n generalizing j ctxt with
  | zero =>
    rw [gdtLoop] at h
    split at h
    · cases h
    · cases h
      rfl
  | succ n ih =>
    rw [gdtLoop] at h
    split at h
    · obtain ⟨frame,-,h⟩ := Option.bind_eq_some_iff.mp h
      rw [ih h,GuestWidth.length_setField]
    · cases h
      rfl

theorem length_canonicalizeSuspend (h : c.canonicalizeSuspend w ctxt = some ctxt') : ctxt'.length = ctxt.length := by
  obtain ⟨pfn,-,h⟩ := Option.bind_eq_some_iff.mp h
  cases h
  exact GuestWidth.length_setField ..

theorem length_canonicalizeUserBase (h : c.canonicalizeUserBase w ctxt = some ctxt') : ctxt'.length = ctxt.length := by
  simp only [SaveCtx.canonicalizeUserBase] at h
  split at h
  · obtain ⟨cr1,-,h⟩ := Option.bind_eq_some_iff.mp h
    cases h
    exact GuestWidth.length_setField ..
  · cases h
    rfl

theorem length_canonicalizeContext (h : c.canonicalizeContext w ctxt = some ctxt') : ctxt'.length = ctxt.length := by
  obtain ⟨ctxt1,hg,h⟩ := Option.bind_eq_some_iff.mp h
  obtain ⟨cr3,-,h⟩ := Option.bind_eq_some_iff.mp h
  rw [length_canonicalizeUserBase h,GuestWidth.length_setField,length_gdtLoop hg]

end

structure Framed (b : Build) (info : Info) (r : VcpuRecord) : Prop where
  ctxt_length : r.ctxt.length = (GuestWidth.ofBytes info.guestWidth).ctxtSize
  ext_length : r.extVcpucontext.map List.length = if info.extVcpucontext then some extVcpucontextSize else none
  extstate_isSome : r.vcpuextstate.isSome = info.vcpuextstate
  extstate_lt : ∀ x ∈ r.vcpuextstate, x.xfeatureMask < 2^64 ∧ x.size < 2^64
  buffer_length : ∀ x ∈ r.vcpuextstate, x.buffer.length = wrapLong b x.size

section
variable {r : RestoreCtx} {info : Info} {v : VcpuRecord} {rest : List UInt8}

theorem restoreExtVcpucontext_framed (h : Framed r.build info v) :
  RestoreCtx.restoreExtVcpucontext info (v.extVcpucontext.getD [] ++ rest) = some (v.extVcpucontext,rest) := by
  have hl := h.ext_length
  rw [RestoreCtx.restoreExtVcpucontext]
  cases he : v.extVcpucontext with
  | none =>
    cases hi : info.extVcpucontext with
    | false => simp
    | true => simp [he,hi] at hl
  | some ext =>
    cases hi : info.extVcpucontext with
    | false => simp [he,hi] at hl
    | true =>
      have hr : ext.length = extVcpucontextSize := by simpa [he,hi] using hl
      simp [Bytes.read_append hr]

theorem restoreVcpuextstate_framed (h : Framed r.build info v) :
  r.restoreVcpuextstate info ((v.vcpuextstate.map Extstate.bytes).getD [] ++ rest) = some (v.vcpuextstate,rest) := by
  have hs := h.extstate_isSome
  rw [RestoreCtx.restoreVcpuextstate]
  cases ht : v.vcpuextstate with
  | none => simp [← hs,ht]
  | some x =>
    obtain ⟨hm,hi⟩ := h.extstate_lt x ht
    have hbuf := h.buffer_length x ht
    have hm' : Bytes.decode (Bytes.encode 8 x.xfeatureMask) = x.xfeatureMask := Bytes.decode_encode_of_lt hm
    have hi' : Bytes.decode (Bytes.encode 8 x.size) = x.size := Bytes.decode_encode_of_lt hi
    simp [← hs,ht,Extstate.bytes,hm',hi',Bytes.read_append hbuf]

theorem restoreVcpu_framed (h : Framed r.build info v) (i : Nat) : r.restoreVcpu info i (v.bytes ++ rest) =
    (r.install info (i,v)).map fun restored => (restored,rest) := by
  simp only [RestoreCtx.restoreVcpu,RestoreCtx.install,VcpuRecord.bytes,List.append_assoc,
    Bytes.read_append h.ctxt_length,Option.bind_eq_bind,Option.bind_some,
    restoreExtVcpucontext_framed h,restoreVcpuextstate_framed h]
  cases r.uncanonicalizeContext info i v.ctxt <;> rfl

theorem restoreVcpus_framed {records : List (Nat × VcpuRecord)} (h : ∀ p ∈ records, Framed r.build info p.2) :
  r.restoreVcpus info (records.map Prod.fst) (records.flatMap fun p => p.2.bytes) = records.mapM (r.install info) := by
  induction records with
  | nil => rfl
  | cons p records ih =>
    have hp := h p (by simp)
    have ht := ih fun q hq => h q (by simp [hq])
    rw [List.map_cons,List.flatMap_cons,RestoreCtx.restoreVcpus,restoreVcpu_framed hp,List.mapM_cons]
    cases r.install info p with
    | none => rfl
    | some restored =>
      simp only [Option.map_some,Option.bind_eq_bind,Option.bind_some,ht]
      rfl

end

theorem length_online_le (maxVcpuId vcpumap : Nat) : (onlineVcpus maxVcpuId vcpumap).length ≤ maxVcpuId+1 := by
  simpa [onlineVcpus] using
    List.length_filter_le (fun i => decide (vcpumap &&& (1 <<< i) ≠ 0)) (List.range (maxVcpuId+1))

namespace SavedGuest

variable {b : Build} (g : SavedGuest b)

def SameExtstate : Prop :=
  ∀ i ∈ g.online, (g.vcpus i).xfeatureMask = (g.vcpus 0).xfeatureMask ∧ (g.vcpus i).size = (g.vcpus 0).size

def recordSize : Nat :=
  g.table.width.ctxtSize+extVcpucontextSize +
    if g.table.xfeatureMask = 0 then 0 else 16+wrapLong b g.table.extstateSize

structure Fits : Prop where
  extstates : g.table.xfeatureMask ≠ 0 → (g.table.extstateSize+16)*g.online.length < 2^32
  records : g.recordSize*g.online.length < 2^(8*b.longSize)

def reported (guestWidth ptLevels : Nat) : Info := g.table.report (.initial guestWidth ptLevels)

variable {g} {ctxt0 : List UInt8} {guestWidth ptLevels : Nat}

variable {p : Nat × VcpuRecord} {i : Nat} {records : List (Nat × VcpuRecord)}

theorem vcpuRecord_fst (h : g.vcpuRecord ctxt0 i = some p) : p.1 = i := by
  obtain ⟨ctxt,-,h⟩ := Option.bind_eq_some_iff.mp h
  cases h
  rfl

variable {ids : List Nat} {out : List UInt8}

theorem mapM_vcpuRecord (h : ids.mapM (g.vcpuRecord ctxt0) = some records) : records.map Prod.fst = ids ∧
  ∀ p ∈ records, ∃ i ∈ ids, g.vcpuRecord ctxt0 i = some p := by
  induction ids generalizing records with
  | nil =>
    cases h
    exact ⟨rfl,by simp⟩
  | cons i ids ih =>
    rw [List.mapM_cons] at h
    obtain ⟨q,hq,h⟩ := Option.bind_eq_some_iff.mp h
    obtain ⟨qs,hs,h⟩ := Option.bind_eq_some_iff.mp h
    cases h
    obtain ⟨hf,he⟩ := ih hs
    refine ⟨by rw [List.map_cons,vcpuRecord_fst hq,hf],List.forall_mem_cons.mpr ⟨⟨i,by simp,hq⟩,fun p hp => ?_⟩⟩
    obtain ⟨j,hj,ha⟩ := he p hp
    exact ⟨j,by simp [hj],ha⟩

theorem vcpuRecords_fst (h : g.vcpuRecords = some records) : records.map Prod.fst = g.online := by
  obtain ⟨ctxt0,-,h⟩ := Option.bind_eq_some_iff.mp h
  exact (mapM_vcpuRecord h).1

theorem framed_vcpuRecord (hs : g.SameExtstate) (hi : i ∈ g.online) (h0 : ctxt0.length = g.table.width.ctxtSize)
  (h : g.vcpuRecord ctxt0 i = some p) : Framed b (g.reported guestWidth ptLevels) p.2 := by
  obtain ⟨ctxt,hc,h⟩ := Option.bind_eq_some_iff.mp h
  cases h
  have hm : (g.vcpus i).xfeatureMask = g.table.xfeatureMask := (hs i hi).1.trans g.xfeatureMask_eq.symm
  have hl : ctxt.length = g.table.width.ctxtSize := by
    rw [length_canonicalizeContext hc]
    split
    · exact h0
    · exact (g.vcpus i).ctxt_length
  refine ⟨?_,?_,?_,?_,?_⟩
  · simp only [reported,report_guestWidth,GuestWidth.ofBytes_bytes,hl]
  · simp only [reported,report_extVcpucontext,Option.map_some,(g.vcpus i).extVcpucontext_length,if_true]
  · rw [reported,report_vcpuextstate,extstate,hm]
    by_cases hzero : g.table.xfeatureMask = 0 <;> simp [hzero]
  · intro x hx
    simp only [extstate] at hx
    split at hx
    · cases hx
    · cases hx
      exact ⟨(g.vcpus i).xfeatureMask_lt,(g.vcpus i).size_lt⟩
  · intro x hx
    simp only [extstate] at hx
    split at hx
    · cases hx
    cases hx
    rw [List.length_take,(g.vcpus i).buffer_length]
    exact Nat.min_eq_left (Nat.mod_le ..)

theorem framed_vcpuRecords (hs : g.SameExtstate) (h : g.vcpuRecords = some records) (hp : p ∈ records) :
  Framed b (g.reported guestWidth ptLevels) p.2 := by
  obtain ⟨ctxt0,hc,h⟩ := Option.bind_eq_some_iff.mp h
  obtain ⟨i,hi,ha⟩ := (mapM_vcpuRecord h).2 p hp
  exact framed_vcpuRecord hs hi
    ((length_canonicalizeSuspend hc).trans (g.vcpus 0).ctxt_length) ha

theorem length_bytes_vcpuRecord (hs : g.SameExtstate) (hi : i ∈ g.online) (h0 : ctxt0.length = g.table.width.ctxtSize)
  (h : g.vcpuRecord ctxt0 i = some p) : p.2.bytes.length = g.recordSize := by
  have hf : Framed b (g.reported 0 0) p.2 := framed_vcpuRecord hs hi h0 h
  have hc := hf.ctxt_length
  have hm : (g.vcpus i).xfeatureMask = g.table.xfeatureMask := (hs i hi).1.trans g.xfeatureMask_eq.symm
  have ha : (g.vcpus i).size = g.table.extstateSize := (hs i hi).2.trans g.extstateSize_eq.symm
  rw [reported,report_guestWidth,GuestWidth.ofBytes_bytes] at hc
  obtain ⟨ctxt,-,h⟩ := Option.bind_eq_some_iff.mp h
  cases h
  have hbuf : ((g.vcpus i).buffer.take (wrapLong b g.table.extstateSize)).length = wrapLong b g.table.extstateSize := by
    rw [List.length_take,(g.vcpus i).buffer_length,ha]
    exact Nat.min_eq_left (Nat.mod_le ..)
  simp only [VcpuRecord.bytes,List.length_append,hc,recordSize,Option.getD_some,
    (g.vcpus i).extVcpucontext_length,extstate,hm,ha]
  split
  · simp
  · simp only [Option.map_some,Option.getD_some,Extstate.bytes,List.length_append,Bytes.length_encode,hbuf]
    omega

theorem length_flatMap_of_forall {n : Nat} (h : ∀ p ∈ records, p.2.bytes.length = n) :
  (records.flatMap fun p => p.2.bytes).length = n*records.length := by
  have ha : ∀ c ∈ records.map fun p => p.2.bytes, c.length = n := by
    intro c hc
    obtain ⟨p,hp,rfl⟩ := List.mem_map.mp hc
    exact h p hp
  rw [List.flatMap_def,Bytes.length_flatten ha,List.length_map,Nat.mul_comm]

theorem length_vcpuRecords (hs : g.SameExtstate) (h : g.vcpuRecords = some records) :
  (records.flatMap fun p => p.2.bytes).length = g.recordSize*g.online.length := by
  have hf := congrArg List.length (vcpuRecords_fst h)
  rw [List.length_map] at hf
  rw [← hf]
  obtain ⟨ctxt0,hc,h⟩ := Option.bind_eq_some_iff.mp h
  refine length_flatMap_of_forall fun p hp => ?_
  obtain ⟨i,hi,ha⟩ := (mapM_vcpuRecord h).2 p hp
  exact length_bytes_vcpuRecord hs hi
    ((length_canonicalizeSuspend hc).trans (g.vcpus 0).ctxt_length) ha

theorem length_online_le_sixty_four (g : SavedGuest b) : g.online.length ≤ 64 := by
  have hl := length_online_le g.maxVcpuId g.vcpumap
  have ht := g.maxVcpuId_lt
  rw [online]
  omega

theorem two_pow_thirty_two_le (b : Build) : 2^32 ≤ 2^(8*b.longSize) := by
  refine Nat.pow_le_pow_right (by decide) ?_
  rcases b.longSize_cases with hs | hs <;> omega

theorem vcpulen_reported (hf : g.Fits) : vcpulen b (g.reported guestWidth ptLevels) g.online.length =
    g.recordSize*g.online.length := by
  have hc := length_online_le_sixty_four g
  have he : extVcpucontextSize*g.online.length%2^32 = extVcpucontextSize*g.online.length :=
    Nat.mod_eq_of_lt (by rw [extVcpucontextSize]; omega)
  have hl := two_pow_thirty_two_le b
  have hr := hf.records
  rw [vcpulen,reported,report_guestWidth,GuestWidth.ofBytes_bytes,report_extVcpucontext,
    report_vcpuextstate,if_pos rfl,he]
  by_cases hm : g.table.xfeatureMask = 0
  · rw [recordSize,if_pos hm,Nat.add_zero] at hr ⊢
    rw [hm]
    rw [← Nat.add_mul]
    exact Nat.mod_eq_of_lt hr
  have hs := hf.extstates hm
  rw [report_vcpuextstateSize _ _ hm,SavedTable.xcntSize]
  rw [recordSize,if_neg hm] at hr ⊢
  simp only [ne_eq,hm,not_false_eq_true,decide_true,if_true]
  rcases Nat.eq_zero_or_pos g.online.length with hzero | hp
  · simp [hzero,wrapLong]
  have ho : g.table.extstateSize+16 ≤ (g.table.extstateSize+16)*g.online.length :=
    Nat.le_mul_of_pos_right _ hp
  have hw : wrapLong b g.table.extstateSize = g.table.extstateSize := Nat.mod_eq_of_lt (by omega)
  rw [hw] at hr ⊢
  rw [Nat.mod_eq_of_lt (show g.table.extstateSize+2*8 < 2^32 by omega),
    Nat.mod_eq_of_lt (show (g.table.extstateSize+2*8)*g.online.length < 2^32 from hs),
    ← Nat.add_mul,← Nat.add_mul,Nat.add_comm g.table.extstateSize (2*8)]
  exact Nat.mod_eq_of_lt hr

theorem length_unmappedPfns (g : SavedGuest b) : g.unmappedPfns.length = g.pfncount ∧ g.pfncount < 2^28 := by
  have hl : g.unmappedPfns.length ≤ g.ctx.p2mSize := by
    simpa [unmappedPfns] using List.length_filter_le g.unmapped (List.range g.ctx.p2mSize)
  have ht := g.p2mSize_lt
  rw [pfncount,List.countP_eq_length_filter,← unmappedPfns,Nat.mod_eq_of_lt (by omega)]
  omega

theorem pfntabLoop_unmapped (g : SavedGuest b) :
  pfntabLoop b g.unmapped g.ctx.p2mSize 0 [] = Bytes.store b.longSize g.unmappedPfns := by
  rw [pfntabLoop_eq _ _ _ fun _ => rfl,List.nil_append,unmappedPfns,List.range_eq_range']

theorem load_unmappedPfns (g : SavedGuest b) :
  Bytes.load b.longSize g.pfncount (Bytes.store b.longSize g.unmappedPfns) = g.unmappedPfns := by
  rw [← (length_unmappedPfns g).1]
  refine Bytes.load_store_of_lt fun pfn hp => ?_
  have hp' : pfn < g.ctx.p2mSize := by simpa using (List.mem_filter.mp hp).1
  have hl := g.p2mSize_lt
  rcases b.longSize_cases with hs | hs <;> rw [hs] <;> omega

theorem read_pfntab (g : SavedGuest b) (s : List UInt8) : Bytes.read (wrapLong b (b.longSize*g.pfncount))
      (Bytes.store b.longSize g.unmappedPfns ++ s) = some (Bytes.store b.longSize g.unmappedPfns,s) := by
  have hl := (length_unmappedPfns g).2
  have hw : wrapLong b (b.longSize*g.pfncount) = g.pfncount*b.longSize := by
    rw [wrapLong,Nat.mul_comm]
    refine Nat.mod_eq_of_lt ?_
    rcases b.longSize_cases with hs | hs <;> rw [hs] <;> omega
  rw [hw,← (length_unmappedPfns g).1]
  exact Bytes.read_append (Bytes.length_store ..) s

theorem bufferTailPv_saved (info : Info) (h : g.vcpuRecords = some records) (ho : g.savePvTail = some out)
  (rest : List UInt8) :
  bufferTailPv b info g.maxVcpuId g.vcpumap (out ++ rest) = (do
    let (vcpubuf,s) ← Bytes.read (vcpulen b info g.online.length)
      (records.flatMap (fun p => p.2.bytes) ++ (g.sharedInfoPage ++ rest))
    let (page,s) ← Bytes.read pageSize s
    some (⟨g.pfncount,g.unmappedPfns,g.online.length,vcpubuf,page⟩,s)) := by
  have hl := (length_unmappedPfns g).2
  have hd : Bytes.decode (Bytes.encode 4 g.pfncount) = g.pfncount := Bytes.decode_encode_of_lt (by omega)
  have hm : ¬maxPfncount < g.pfncount := by
    rw [maxPfncount]
    omega
  rw [savePvTail,h,pfntabLoop_unmapped] at ho
  cases ho
  simp only [bufferTailPv,List.append_assoc,Bytes.read_encode,Option.bind_eq_bind,
    Option.bind_some,hd,if_neg hm,read_pfntab,load_unmappedPfns,online]

theorem length_sharedInfoPage (g : SavedGuest b) : g.sharedInfoPage.length = pageSize :=
  (GuestWidth.length_setField ..).trans g.liveShinfo_length

theorem pv_tail_round_trip (g : SavedGuest b) (hsame : g.SameExtstate) (hfit : g.Fits)
  {out : List UInt8} (hout : g.savePvTail = some out) (guestWidth ptLevels : Nat)
  (body rest : List UInt8) : ∃ info records buf,loadP2mFrameList b g.ctx.p2mSize (.initial guestWidth ptLevels)
      (g.table.mapAndSaveP2mTable ++ body) = some (g.table.frameList,info,body) ∧
    g.vcpuRecords = some records ∧ records.map Prod.fst = g.online ∧
    bufferTailPv b info g.maxVcpuId g.vcpumap (out ++ rest) = some (buf,rest) ∧
    buf.pfntab = g.unmappedPfns ∧ buf.sharedInfoPage = g.sharedInfoPage ∧ ∀ r : RestoreCtx, r.build = b →
      r.restoreVcpus info g.online buf.vcpubuf = records.mapM (r.install info) := by
  obtain ⟨records,hr,-⟩ := Option.bind_eq_some_iff.mp hout
  have hl : (records.flatMap fun p => p.2.bytes).length =
      vcpulen b (g.reported guestWidth ptLevels) g.online.length := by
    rw [length_vcpuRecords hsame hr,vcpulen_reported hfit]
  have hf := vcpuRecords_fst hr
  refine ⟨g.reported guestWidth ptLevels,records,
    ⟨g.pfncount,g.unmappedPfns,g.online.length,records.flatMap fun p => p.2.bytes,
      g.sharedInfoPage⟩,?_,hr,hf,?_,rfl,rfl,?_⟩
  · rw [g.p2mSize_eq]
    exact loadP2mFrameList_saved ..
  · rw [bufferTailPv_saved _ hr hout]
    simp only [Bytes.read_append hl,Bytes.read_append (length_sharedInfoPage g),Option.bind_eq_bind,Option.bind_some]
  · rintro r rfl
    rw [← hf]
    exact restoreVcpus_framed fun p hp => framed_vcpuRecords hsame hr hp

theorem vcpulen_of_consumed {info : Info} {buf : TailbufPv} (ha : g.SameExtstate) (ho : g.savePvTail = some out)
  (h : bufferTailPv b info g.maxVcpuId g.vcpumap out = some (buf,[])) :
  vcpulen b info g.online.length = g.recordSize*g.online.length := by
  obtain ⟨records,hr,-⟩ := Option.bind_eq_some_iff.mp ho
  have hs := bufferTailPv_saved info hr ho []
  rw [List.append_nil,h] at hs
  obtain ⟨⟨vcpubuf,s⟩,hbuf,hs⟩ := Option.bind_eq_some_iff.mp hs.symm
  obtain ⟨⟨page,s'⟩,hp,hs⟩ := Option.bind_eq_some_iff.mp hs
  cases hs
  have hb' := Bytes.length_of_read hbuf
  have hp' := Bytes.length_of_read hp
  rw [List.append_nil,List.length_append,length_vcpuRecords ha hr,length_sharedInfoPage] at hb'
  rw [List.length_nil] at hp'
  omega

end SavedGuest

def blankTable (size : Nat) : SavedTable .x86_64 where
  width := .four
  ctxt := List.replicate 2800 0
  ctxt_length := List.length_replicate
  xfeatureMask := 1
  extstateSize := size
  p2mSize := 2
  p2mSize_pos := by decide
  frameList := [0]
  frameList_length := by decide
  frameList_lt := by decide

def blankVcpu (size : Nat) (h : size < 2^64) : VcpuState .four where
  ctxt := List.replicate 2800 0
  ctxt_length := List.length_replicate
  extVcpucontext := List.replicate 128 0
  extVcpucontext_length := List.length_replicate
  xfeatureMask := 1
  xfeatureMask_lt := by decide
  size := size
  size_lt := h
  buffer := List.replicate size 0
  buffer_length := List.length_replicate

def blankGuest (size : Nat) (h : size < 2^64) : SavedGuest .x86_64 where
  table := blankTable size
  ctx :=
    {build := .x86_64
     ptLevels := 3
     guestWidth := 4
     hvirtStart := 0xf5800000
     maxMfn := 1
     m2pMfn0 := 0
     p2mSize := 2
     liveM2p := fun _ => 0
     liveP2m := fun pfn => if pfn = 0 then 0 else 0xffffffff}
  build_eq := rfl
  guestWidth_eq := rfl
  p2mSize_eq := rfl
  p2mSize_lt := by decide
  maxVcpuId := 0
  maxVcpuId_lt := by decide
  vcpumap := 1
  vcpus := fun _ => blankVcpu size h
  xfeatureMask_eq := rfl
  extstateSize_eq := rfl
  liveShinfo := List.replicate 4096 0
  liveShinfo_length := List.length_replicate

theorem getField_blank (off n : Nat) : w.getField off (List.replicate n 0) = 0 := Bytes.peek_blank ..

theorem setField_blank (off n : Nat) : w.setField off 0 (List.replicate n 0) = List.replicate n 0 := Bytes.poke_blank ..

variable (hzero : c.canonicalizeFrame 0 = some 0)
include hzero

theorem canonicalizeSuspend_blank (n : Nat) :
  c.canonicalizeSuspend w (List.replicate n 0) = some (List.replicate n 0) := by
  have hl : c.toLong 0 = 0 := Nat.zero_mod _
  simp [SaveCtx.canonicalizeSuspend,getField_blank,hl,hzero,setField_blank]

theorem canonicalizeCr3_blank : c.canonicalizeCr3 w 0 = some 0 := by
  cases w <;> simp [SaveCtx.canonicalizeCr3,GuestWidth.unfoldCr3,GuestWidth.foldCr3,hzero]

theorem canonicalizeContext_blank (n : Nat) :
  c.canonicalizeContext w (List.replicate n 0) = some (List.replicate n 0) := by
  have hg : gdtLoop c.build w c.canonicalizeFrame gdtFrames 0 (List.replicate n 0) = some (List.replicate n 0) := by
    rw [gdtFrames,gdtLoop,getField_blank,if_neg (by decide)]
  simp [SaveCtx.canonicalizeContext,hg,getField_blank,canonicalizeCr3_blank hzero,
    setField_blank,SaveCtx.canonicalizeUserBase]

omit hzero

theorem blankGuest_saved (size : Nat) (h : size < 2^64) : ∃ out, (blankGuest size h).savePvTail = some out := by
  have hzero : (blankGuest size h).ctx.canonicalizeFrame 0 = some 0 := rfl
  have ho : (blankGuest size h).online = [0] := show onlineVcpus 0 1 = [0] by decide
  have hc : ((blankGuest size h).vcpus 0).ctxt = List.replicate 2800 0 := rfl
  simp only [SavedGuest.savePvTail,SavedGuest.vcpuRecords,SavedGuest.vcpuRecord,ho,hc,
    canonicalizeSuspend_blank hzero,canonicalizeContext_blank hzero,List.mapM_cons,List.mapM_nil,
    if_true,Option.bind_eq_bind,Option.bind_some,Option.pure_def,Option.some.injEq,exists_eq']

theorem blankGuest_same (size : Nat) (h : size < 2^64) : (blankGuest size h).SameExtstate :=
  fun _ _ => ⟨rfl,rfl⟩

theorem one_vcpu_tail_round_trips : ∃ out, (blankGuest 576 (by decide)).savePvTail = some out ∧
    ∃ info buf, bufferTailPv .x86_64 info 0 1 (out ++ [7]) = some (buf,[7]) ∧ buf.pfntab = [1] := by
  obtain ⟨out,ho⟩ := blankGuest_saved 576 (by decide)
  have hf : (blankGuest 576 (by decide)).Fits := ⟨fun _ => by decide,by decide⟩
  obtain ⟨info,-,buf,-,-,-,hr,hp,-⟩ :=
    SavedGuest.pv_tail_round_trip _ (blankGuest_same 576 _) hf ho 4 3 [] [7]
  exact ⟨out,ho,info,buf,hr,hp⟩

theorem extstate_size_wraps : ∃ g : SavedGuest .x86_64, g.SameExtstate ∧ g.table.xfeatureMask ≠ 0 ∧
    ∃ out info, g.savePvTail = some out ∧
    loadP2mFrameList .x86_64 g.ctx.p2mSize (.initial 4 3) g.table.mapAndSaveP2mTable =
        some (g.table.frameList,info,[]) ∧ ∀ buf, bufferTailPv .x86_64 info g.maxVcpuId g.vcpumap out ≠ some
        (buf,[]) := by
  obtain ⟨out,ho⟩ := blankGuest_saved (2^32-16) (by decide)
  refine ⟨_,blankGuest_same (2^32-16) (by decide),by decide,out,
    (blankTable (2^32-16)).report (.initial 4 3),ho,?_,fun buf hbuf => ?_⟩
  · have hl := loadP2mFrameList_saved (blankTable (2^32-16)) (.initial 4 3) []
    rwa [List.append_nil] at hl
  have he := SavedGuest.vcpulen_of_consumed (blankGuest_same (2^32-16) (by decide)) ho hbuf
  revert he
  decide +kernel

end PvTail
