import PMigrate.Core.Transition
import PMigrate.Migration.ExactTransfer

namespace Outbuf

open ExactTransfer CInt Transition List Nat

structure Buffer where
  buf : List UInt8
  (size pos : Nat)
  allocated : buf.length = size
  fits : pos ≤ size

-- write(2) transfers at most this many bytes
def maxRwCount : Nat := 0x7ffff000

-- rc and cur are ints, and their sum wraps
def flushLoop (buf : List UInt8) (pos : Nat) :
    List WriteResult → Nat → List UInt8 → Option (Int × List UInt8)
  | [],_,_ => none
  | .interrupted :: results,cur,out => flushLoop buf pos results cur out
  | .again :: results,cur,out => flushLoop buf pos results cur out
  | .failed :: _,_,out => some (-1,out)
  | .wrote n :: results,cur,out =>
    let rc := min n (min maxRwCount (pos-cur))
    let out := out ++ (buf.drop cur).take rc
    if asSize (asInt (cur+rc)) < pos then flushLoop buf pos results (cur+rc) out
    else some (0,out)

namespace Buffer

def outbufInit (memory : List UInt8) : Buffer where
  buf := memory
  size := memory.length
  pos := 0
  allocated := rfl
  fits := zero_le _

def outbufWrite (b : Buffer) (data : List UInt8) : Int × Buffer :=
  if h : data.length > b.size-b.pos then (-1,b)
  else
    (0,{b with buf := b.buf.take b.pos ++ (data ++ b.buf.drop (b.pos+data.length))
               pos := b.pos+data.length
               allocated := by
                 have hbuf := b.allocated
                 have hfits := b.fits
                 simp only [length_append,length_take,length_drop]
                 omega
               fits := by
                 have hfits := b.fits
                 omega})

def outbufFlush (b : Buffer) (results : List WriteResult) : Option (Int × Buffer × List UInt8) :=
  if b.pos = 0 then some (0,b,[])
  else
    match flushLoop b.buf b.pos results 0 [] with
    | none => none
    | some (rc,out) => if rc < 0 then some (-1,b,out) else some (0,{b with pos := 0,fits := zero_le _},out)

def outbufHardwrite (b : Buffer) (data : List UInt8) (results : List WriteResult) :
    Option (Int × Buffer × List UInt8) :=
  if data.length = 0 then some (0,b,[])
  else
    match b.outbufWrite data with
    | (0,b) => some (0,b,[])
    | _ =>
      match b.outbufFlush results with
      | none => none
      | some (rc,b,out) =>
        if rc < 0 then some (-1,b,out)
        else some ((b.outbufWrite data).1,(b.outbufWrite data).2,out)

def pending (b : Buffer) : List UInt8 := b.buf.take b.pos

end Buffer

inductive Op where
  | write (data : List UInt8)
  | hardwrite (data : List UInt8) (results : List WriteResult)
  | flush (results : List WriteResult)

def Op.data : Op → List UInt8
  | .write data => data
  | .hardwrite data _ => data
  | .flush _ => []

def Buffer.apply (b : Buffer) : Op → Option (Int × Buffer × List UInt8)
  | .write data => some ((b.outbufWrite data).1,(b.outbufWrite data).2,[])
  | .hardwrite data results => b.outbufHardwrite data results
  | .flush results => b.outbufFlush results

structure State where
  ob : Buffer
  (delivered accepted : List UInt8)
  failed : Bool

def initial (memory : List UInt8) : State := ⟨.outbufInit memory,[],[],false⟩

def step (s : State) (op : Op) : Option State :=
  (s.ob.apply op).map fun (rc,ob,out) =>
    {ob := ob
     delivered := s.delivered ++ out
     accepted := if rc = 0 then s.accepted ++ op.data else s.accepted
     failed := s.failed || decide (rc ≠ 0)}

namespace Buffer

variable {b b' : Buffer} {data out : List UInt8} {results : List WriteResult}

theorem outbufWrite_size (b : Buffer) (data : List UInt8) : (b.outbufWrite data).2.size = b.size := by
  rw [outbufWrite]
  split <;> rfl

theorem outbufWrite_pending (h : (b.outbufWrite data).1 = 0) : (b.outbufWrite data).2.pending = b.pending ++ data := by
  rw [outbufWrite] at h ⊢
  split_ifs with hf
  · rw [dif_pos hf] at h
    cases h
  have hl : (b.buf.take b.pos).length = b.pos := length_take_of_le (by rw [b.allocated]; exact b.fits)
  simp only [pending]
  rw [← append_assoc]
  exact take_left' (by rw [length_append,hl])

variable {rc : Int}

theorem flushLoop_delivers {buf : List UInt8} {pos cur : Nat} (hp : pos < 2^31) (hc : cur ≤ pos)
  (ho : out = buf.take cur)
  {out' : List UInt8} (h : flushLoop buf pos results cur out = some (rc,out')) (hr : ¬rc < 0) :
  out' = buf.take pos := by
  induction results generalizing cur out with
  | nil => cases h
  | cons x results ih =>
    cases x with
    | interrupted | again => exact ih hc ho h
    | failed =>
      cases h
      exact absurd (by decide) hr
    | wrote count =>
      rw [flushLoop] at h
      have hs : cur+min count (min maxRwCount (pos-cur)) ≤ pos := by omega
      have ht : out ++ (buf.drop cur).take (min count (min maxRwCount (pos-cur))) =
          buf.take (cur+min count (min maxRwCount (pos-cur))) := by
        rw [ho,take_add]
      rw [asSize_asInt (by omega),ht] at h
      split at h
      · exact ih hs rfl h
      · cases h
        rw [le_antisymm hs (by omega)]

theorem outbufFlush_stream (hs : b.size < 2^31) (h : b.outbufFlush results = some (rc,b',out)) (hr : ¬rc < 0) :
  out ++ b'.pending = b.pending := by
  rw [outbufFlush] at h
  split at h
  · cases h
    rfl
  split at h
  · cases h
  rename_i hl
  split at h
  · cases h
    exact absurd (by decide) hr
  rename_i hp
  cases h
  have hf := b.fits
  have hd : out = b.buf.take b.pos := flushLoop_delivers (by omega) (zero_le _) take_zero.symm hl hp
  simp [pending,hd]

theorem outbufFlush_size (h : b.outbufFlush results = some (rc,b',out)) : b'.size = b.size := by
  rw [outbufFlush] at h
  split at h
  · cases h
    rfl
  split at h
  · cases h
  split at h <;> cases h <;> rfl

theorem outbufHardwrite_stream (hs : b.size < 2^31) (h : b.outbufHardwrite data results = some (0,b',out)) :
  out ++ b'.pending = b.pending ++ data := by
  rw [outbufHardwrite] at h
  split at h
  · rename_i he
    cases h
    rw [length_eq_zero_iff.mp he,append_nil]
    rfl
  split at h
  · rename_i hw
    cases h
    have hp : (b.outbufWrite data).2.pending = b.pending ++ data := outbufWrite_pending (by rw [hw])
    rw [hw] at hp
    exact hp
  split at h
  · cases h
  rename_i rc b1 out1 hf
  split at h
  · cases h
  rename_i hr
  simp only [Option.some.injEq,Prod.mk.injEq] at h
  obtain ⟨hw,rfl,rfl⟩ := h
  rw [outbufWrite_pending hw,← append_assoc,outbufFlush_stream hs hf hr]

theorem outbufHardwrite_size (h : b.outbufHardwrite data results = some (rc,b',out)) : b'.size = b.size := by
  rw [outbufHardwrite] at h
  split at h
  · cases h
    rfl
  split at h
  · rename_i hw
    cases h
    have hs := b.outbufWrite_size data
    rw [hw] at hs
    exact hs
  split at h
  · cases h
  rename_i hf
  split at h
  · cases h
    exact outbufFlush_size hf
  · cases h
    exact (outbufWrite_size ..).trans (outbufFlush_size hf)

theorem apply_size {op : Op} (h : b.apply op = some (rc,b',out)) : b'.size = b.size := by
  cases op with
  | write data =>
    cases h
    exact outbufWrite_size ..
  | hardwrite data results => exact outbufHardwrite_size h
  | flush results => exact outbufFlush_size h

theorem apply_stream {op : Op} (hs : b.size < 2^31) (h : b.apply op = some (0,b',out)) :
  out ++ b'.pending = b.pending ++ op.data := by
  cases op with
  | write data =>
    simp only [apply,Option.some.injEq,Prod.mk.injEq] at h
    obtain ⟨hw,rfl,rfl⟩ := h
    exact outbufWrite_pending hw
  | hardwrite data results => exact outbufHardwrite_stream hs h
  | flush results =>
    rw [outbufFlush_stream hs h (by decide)]
    exact (append_nil _).symm

end Buffer

def stream (s : State) : List UInt8 := s.delivered ++ s.ob.pending

theorem step_stream {s s' : State} {op : Op} (hc : s.ob.size < 2^31)
  (hi : s.failed = false → stream s = s.accepted) (h : step s op = some s') :
  s'.ob.size = s.ob.size ∧ (s'.failed = false → stream s' = s'.accepted) := by
  obtain ⟨⟨rc,ob,out⟩,ha,rfl⟩ := Option.map_eq_some_iff.mp h
  refine ⟨Buffer.apply_size ha,?_⟩
  intro ho
  simp only [Bool.or_eq_false_iff,decide_eq_false_iff_not,not_not] at ho
  obtain ⟨hb,rfl⟩ := ho
  have hs := Buffer.apply_stream hc ha
  have hold := hi hb
  simp only [stream,if_true] at hold ⊢
  rw [append_assoc,hs,← append_assoc,hold]

theorem buffered_stream_preserved (memory : List UInt8) (hsize : memory.length < 2^31) {s : State}
  (h : Reach step (fun _ _ => True) (initial memory) s) : s.ob.pos ≤ s.ob.size ∧
    (s.failed = false → s.delivered ++ s.ob.buf.take s.ob.pos = s.accepted) := by
  have hi : s.ob.size = memory.length ∧ (s.failed = false → stream s = s.accepted) := by
    refine reach_invariant (I := fun s => s.ob.size = memory.length ∧
      (s.failed = false → stream s = s.accepted)) ⟨rfl,fun _ => rfl⟩ ?_ h
    intro u op v _ hu _ hs
    obtain ⟨hl,hk⟩ := step_stream (by rw [hu.1]; exact hsize) hu.2 hs
    exact ⟨hl.trans hu.1,hk⟩
  exact ⟨s.ob.fits,hi.2⟩

def smallRun : List Op := [.write [1,2,3],.hardwrite [4,5,6,7,8,9] [.wrote 2,.again,.wrote 0,.wrote 1]]

def smallEnd : State :=
  (runIf step (fun _ _ => true) (initial (List.replicate 8 0)) smallRun).get (by decide +kernel)

theorem short_writes_preserved : Reach step (fun _ _ => True) (initial (List.replicate 8 0)) smallEnd ∧
    smallEnd.delivered = [1,2,3] ∧ smallEnd.failed = false ∧
    smallEnd.delivered ++ smallEnd.ob.buf.take smallEnd.ob.pos = [1,2,3,4,5,6,7,8,9] := by
  have hr : Reach step (fun _ _ => True) (initial (List.replicate 8 0)) smallEnd :=
    reach_get (fun _ _ _ => trivial) _
  have hf : smallEnd.failed = false := by decide +kernel
  have ha : smallEnd.accepted = [1,2,3,4,5,6,7,8,9] := by decide +kernel
  refine ⟨hr,by decide +kernel,hf,?_⟩
  rw [(buffered_stream_preserved _ (by decide) hr).2 hf,ha]

def bigSize : Nat := 2^31+8

theorem flushLoop_stops_short (buf : List UInt8) :
  flushLoop buf bigSize [.wrote (2^31),.wrote 4096] 0 [] = some (0,buf.take (2^31)) := by
  have hf : min (2^31) (min maxRwCount (bigSize-0)) = 2^31-4096 := by decide
  have hs : min 4096 (min maxRwCount (bigSize-(0+(2^31-4096)))) = 4096 := by decide
  have hw : ¬asSize (asInt (0+(2^31-4096)+4096)) < bigSize := by
    rw [asSize_asInt_wrapped (by decide) (by decide)]
    decide
  have hg : asSize (asInt (0+(2^31-4096))) < bigSize := by
    rw [asSize_asInt (by decide)]
    decide
  rw [flushLoop,hf,if_pos hg,flushLoop,hs,if_neg hw,nil_append,drop_zero,
    Nat.zero_add,← take_add,Nat.sub_add_cancel (by decide)]

theorem step_write_full {memory data : List UInt8} (h : data.length = memory.length) : ∃ b, b.pos = data.length ∧
    step (initial memory) (.write data) = some ⟨b,[],data,false⟩ := by
  have hr : ¬data.length > (Buffer.outbufInit memory).size-(Buffer.outbufInit memory).pos :=
    not_lt.mpr (le_of_eq h)
  have hc : ((Buffer.outbufInit memory).outbufWrite data).1 = 0 := by rw [Buffer.outbufWrite,dif_neg hr]
  refine ⟨((Buffer.outbufInit memory).outbufWrite data).2,?_,?_⟩
  · rw [Buffer.outbufWrite,dif_neg hr]
    exact Nat.zero_add _
  · simp [step,initial,Buffer.apply,hc,Op.data]

theorem step_flush {s : State} {results : List WriteResult} {b : Buffer} {out : List UInt8}
  (h : s.ob.outbufFlush results = some (0,b,out)) :
  step s (.flush results) = some {s with ob := b,delivered := s.delivered ++ out} := by
  simp [step,Buffer.apply,h,Op.data]

theorem big_buffer_loses_bytes : ∃ s, Reach step (fun _ _ => True) (initial (List.replicate bigSize 0)) s ∧
  s.failed = false ∧
    s.delivered ++ s.ob.buf.take s.ob.pos ≠ s.accepted := by
  have hl : (List.replicate bigSize (1 : UInt8)).length = bigSize := length_replicate
  have ha : (List.replicate bigSize (1 : UInt8)).length =
      (List.replicate bigSize (0 : UInt8)).length := by
    rw [length_replicate,length_replicate]
  obtain ⟨b,hp,hw⟩ := step_write_full ha
  rw [hl] at hp
  have hf : b.outbufFlush [.wrote (2^31),.wrote 4096] =
      some (0,{b with pos := 0,fits := zero_le _},b.buf.take (2^31)) := by
    rw [Buffer.outbufFlush,hp,if_neg (by decide),flushLoop_stops_short]
    rfl
  refine ⟨_,(Relation.ReflTransGen.single ⟨_,trivial,hw⟩).tail
    ⟨_,trivial,step_flush hf⟩,rfl,?_⟩
  intro he
  have hs := congrArg List.length he
  simp only [nil_append,take_zero,append_nil,length_take,hl] at hs
  have hb : bigSize = 2^31+8 := rfl
  omega

end Outbuf
