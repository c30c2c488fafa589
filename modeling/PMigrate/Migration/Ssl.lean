import PMigrate.Core.BlockChain
import PMigrate.Core.CInt

namespace Ssl

open CInt List Nat

structure CipherContext (σ : Type) where
  blockSize : Nat
  blockSize_pos : 0 < blockSize
  evp : σ → List UInt8 → σ × List UInt8
  evp_length : ∀ s xs, xs.length = blockSize → (evp s xs).2.length = blockSize
  state : σ

structure Wrap (σ : Type) where
  cc : CipherContext σ
  sslBufLen : Nat
  sslBuf : List UInt8
  allocated : sslBuf.length = sslBufLen

inductive Fault where
  | fatal
  | tempOverrun
  | bufOverrun
  | bufOverread
  deriving DecidableEq

variable {σ τ : Type} (garbage : Nat → UInt8)

def fresh (n : Nat) : List UInt8 := (List.range n).map garbage

@[simp] theorem length_fresh (n : Nat) : (fresh garbage n).length = n := by simp [fresh]

def padded (k size : Nat) : Nat := if size < k then k else if size%k ≠ 0 then (size/k+1)*k else size

namespace Wrap

section
variable (w : Wrap σ)

def resize (size : Nat) : Wrap σ :=
  if h : w.sslBufLen < size then
    {w with sslBufLen := size
            sslBuf := w.sslBuf ++ fresh garbage (size-w.sslBufLen)
            allocated := by
              rw [length_append,length_fresh,w.allocated]
              omega}
  else w

def fill (bytes : List UInt8) : Except Fault (Wrap σ) :=
  if h : bytes.length ≤ w.sslBufLen then
    .ok {w with sslBuf := bytes ++ w.sslBuf.drop bytes.length
                allocated := by
                  rw [length_append,length_drop,w.allocated]
                  omega}
  else .error .bufOverrun

def crypted (src : List UInt8) (len : Nat) : σ × List UInt8 :=
  BlockChain.run w.cc.blockSize w.cc.evp (len/w.cc.blockSize) w.cc.state src

def advance (state : σ) : Wrap σ := {w with cc := {w.cc with state := state}}

-- the length is a u_int
def cipherCrypt (src : List UInt8) (len : Nat) : Except Fault (Wrap σ × List UInt8) :=
  if len%2^32%w.cc.blockSize ≠ 0 then .error .fatal
  else
    let r := w.crypted src (len%2^32)
    .ok (w.advance r.1,r.2)

def encryptInto (buf : List UInt8) (size : Nat) : Except Fault (Wrap σ × Int) := do
  let (w,out) ← w.cipherCrypt buf size
  let w ← w.fill out
  .ok (w,asInt size)

def sslEncrypt (data : List UInt8) : Except Fault (Wrap σ × Int) :=
  let k := w.cc.blockSize
  let size := data.length
  if size < k then w.encryptInto (data ++ List.replicate (k-size) 0) k
  else if size%k ≠ 0 then
    let temSize := asInt ((size/k+1)*k)
    if temSize < size then .error .tempOverrun
    else w.encryptInto (data ++ fresh garbage (temSize.toNat-size)) temSize.toNat
  else (w.resize garbage size).encryptInto data size

def readSizeAdjust (size : Nat) : Wrap σ × Int :=
  let k := w.cc.blockSize
  if size < k then (w,asInt k)
  else if size%k ≠ 0 then (w,asInt ((size/k+1)*k))
  else (w.resize garbage size,asInt size)

def sslDecrypt (newSize oriSize : Nat) : Except Fault (Wrap σ × List UInt8) :=
  if w.sslBufLen < newSize%2^32 then .error .bufOverread
  else do
    let (w,out) ← w.cipherCrypt w.sslBuf newSize
    if newSize = w.cc.blockSize then
      if newSize < oriSize then .error .tempOverrun else .ok (w,out.take oriSize)
    else if oriSize ≠ newSize then
      if newSize < oriSize then .error .tempOverrun else .ok (w,out.take oriSize)
    else .ok (w,out)

def sslSend (data : List UInt8) : Except Fault (Wrap σ × List UInt8) := do
  let (w,size) ← w.sslEncrypt garbage data
  if w.sslBufLen < asSize size then .error .bufOverread
  else .ok (w,w.sslBuf.take (asSize size))

def sslReceive (size : Nat) (incoming : List UInt8) : Except Fault (Wrap σ × Option (List UInt8)) :=
  let r := w.readSizeAdjust garbage size
  if r.2 < 0 then .ok (r.1,none)
  else do
    let w ← r.1.fill (incoming.take r.2.toNat)
    let (w,data) ← w.sslDecrypt r.2.toNat size
    .ok (w,some data)

end

end Wrap

def Whole (k n : Nat) : Prop := k ≤ n ∧ n%k = 0

instance (k n : Nat) : Decidable (Whole k n) := by unfold Whole; infer_instance

def grown (k len n : Nat) : Nat := if Whole k n then max len n else len

variable {k : Nat}

theorem lt_round (n : Nat) (hk : 0 < k) : n < (n/k+1)*k := by
  rw [Nat.mul_comm]
  exact lt_mul_div_succ n hk

def Stored {σ β : Type} (k len : Nat) : Except Fault (Wrap σ × β) → Prop
  | .ok (w,_) => w.cc.blockSize = k ∧ w.sslBufLen = len
  | .error e => e ≠ .bufOverrun

namespace Wrap

variable {w : Wrap σ} {buf : List UInt8} {size : Nat}

theorem resize_len (w : Wrap σ) (size : Nat) : (w.resize garbage size).sslBufLen = max w.sslBufLen size := by
  rw [resize]
  split
  · exact (max_eq_right (le_of_lt ‹_›)).symm
  · exact (Nat.max_eq_left (Nat.le_of_not_lt ‹_›)).symm

theorem resize_cc (w : Wrap σ) (size : Nat) : (w.resize garbage size).cc = w.cc := by
  rw [resize]
  split <;> rfl

variable {k len n : Nat}

theorem length_crypted {src : List UInt8} (hl : len%w.cc.blockSize = 0)
  (hs : len ≤ src.length) : (w.crypted src len).2.length = len := by
  have hd : len/w.cc.blockSize*w.cc.blockSize = len := Nat.div_mul_cancel (Nat.dvd_of_mod_eq_zero hl)
  have hh : (src.take len).length = len/w.cc.blockSize*w.cc.blockSize := by rw [hd,length_take_of_le hs]
  rw [crypted,← take_append_drop len src,BlockChain.run_cut _ _ _ hh,
    BlockChain.length_run w.cc.evp_length _ _ hh,hd]

structure Filled (w w' : Wrap σ) (bytes : List UInt8) : Prop where
  cc : w'.cc = w.cc
  len : w'.sslBufLen = w.sslBufLen
  bytes : w'.sslBuf.take bytes.length = bytes

theorem fill_ok (w : Wrap σ) {bytes : List UInt8} (h : bytes.length ≤ w.sslBufLen) :
  ∃ w', w.fill bytes = .ok w' ∧ Filled w w' bytes := by
  rw [fill,dif_pos h]
  exact ⟨_,rfl,rfl,rfl,take_left⟩

theorem encryptInto_ok (hd : size%2^32%w.cc.blockSize = 0) (hbuf : size ≤ buf.length)
  (hi : size ≤ w.sslBufLen) : ∃ w', w.encryptInto buf size = .ok (w',asInt size) ∧
    Filled (w.advance (w.crypted buf (size%2^32)).1) w' (w.crypted buf (size%2^32)).2 := by
  have hm := mod_le size (2^32)
  have ho := length_crypted hd (le_trans hm hbuf)
  have hr : (w.crypted buf (size%2^32)).2.length ≤ w.sslBufLen := by omega
  obtain ⟨w',hf,hw'⟩ := (w.advance (w.crypted buf (size%2^32)).1).fill_ok hr
  refine ⟨w',?_,hw'⟩
  rw [encryptInto,cipherCrypt,if_neg (by simpa using hd)]
  simp only [bind,Except.bind,hf]

theorem encryptInto_stored (hbuf : size ≤ buf.length) (hf : size ≤ w.sslBufLen) :
  Stored w.cc.blockSize w.sslBufLen (w.encryptInto buf size) := by
  by_cases hd : size%2^32%w.cc.blockSize = 0
  · obtain ⟨w',ho,hw'⟩ := encryptInto_ok hd hbuf hf
    rw [ho]
    refine ⟨?_,hw'.len⟩
    rw [hw'.cc]
    rfl
  · rw [encryptInto,cipherCrypt,if_pos hd]
    exact nofun

theorem sslEncrypt_stored {data : List UInt8}
  (hf : Whole w.cc.blockSize data.length ∨ padded w.cc.blockSize data.length ≤ w.sslBufLen) :
  Stored w.cc.blockSize (grown w.cc.blockSize w.sslBufLen data.length) (w.sslEncrypt garbage data) := by
  rw [sslEncrypt]
  dsimp only
  split
  · rename_i hs
    have hw : ¬Whole w.cc.blockSize data.length := fun h => absurd h.1 (by omega)
    have hr : padded w.cc.blockSize data.length ≤ w.sslBufLen := hf.resolve_left hw
    rw [padded,if_pos hs] at hr
    rw [grown,if_neg hw]
    exact encryptInto_stored (by simp; omega) hr
  split
  · rename_i hs he
    have hw : ¬Whole w.cc.blockSize data.length := fun h => he h.2
    have hr : padded w.cc.blockSize data.length ≤ w.sslBufLen := hf.resolve_left hw
    rw [padded,if_neg hs,if_pos he] at hr
    rw [grown,if_neg hw]
    split
    · exact nofun
    rename_i ht
    have hl := asInt_le ((data.length/w.cc.blockSize+1)*w.cc.blockSize)
    exact encryptInto_stored (by simp; omega) (by omega)
  rename_i hs he
  have hw : Whole w.cc.blockSize data.length := ⟨by omega,by simpa using he⟩
  rw [grown,if_pos hw,← resize_len garbage,← resize_cc garbage w data.length]
  exact encryptInto_stored le_rfl (by rw [resize_len]; omega)

theorem readSizeAdjust_len (w : Wrap σ) (size : Nat) :
  (w.readSizeAdjust garbage size).1.sslBufLen = grown w.cc.blockSize w.sslBufLen size ∧
    (w.readSizeAdjust garbage size).1.cc = w.cc := by
  rw [readSizeAdjust,grown]
  split
  · rw [if_neg fun h : Whole _ _ => absurd h.1 (by omega)]
    exact ⟨rfl,rfl⟩
  split
  · rename_i hr
    rw [if_neg fun h : Whole _ _ => hr h.2]
    exact ⟨rfl,rfl⟩
  rename_i hs hr
  rw [if_pos ⟨by omega,by simpa using hr⟩]
  exact ⟨resize_len garbage w size,resize_cc garbage w size⟩

theorem readSizeAdjust_le (w : Wrap σ) (size : Nat) :
  (w.readSizeAdjust garbage size).2 ≤ padded w.cc.blockSize size := by
  rw [readSizeAdjust,padded]
  split
  · exact asInt_le _
  split <;> exact asInt_le _

theorem sslDecrypt_stored (w : Wrap σ) (newSize oriSize : Nat) :
  Stored w.cc.blockSize w.sslBufLen (w.sslDecrypt newSize oriSize) := by
  rw [sslDecrypt,cipherCrypt]
  split
  · exact nofun
  split
  · exact nofun
  simp only [bind,Except.bind]
  split
  · split
    · exact nofun
    · exact ⟨rfl,rfl⟩
  split
  · split
    · exact nofun
    · exact ⟨rfl,rfl⟩
  · exact ⟨rfl,rfl⟩

theorem padded_whole (h : Whole k n) : padded k n = n := by
  rw [padded,if_neg (not_lt.mpr h.1),if_neg (by simpa using h.2)]

theorem room (hf : Whole k n ∨ padded k n ≤ len) : padded k n ≤ grown k len n := by
  rw [grown]
  split_ifs with hw
  · rw [padded_whole hw]
    exact le_max_right ..
  · exact hf.resolve_left hw

theorem sslReceive_stored {incoming : List UInt8}
  (hi : Whole w.cc.blockSize size ∨ padded w.cc.blockSize size ≤ w.sslBufLen) :
  Stored w.cc.blockSize (grown w.cc.blockSize w.sslBufLen size) (w.sslReceive garbage size incoming) := by
  obtain ⟨hl,ha⟩ := w.readSizeAdjust_len garbage size
  have he := w.readSizeAdjust_le garbage size
  have hr := room hi
  rw [sslReceive]
  split
  · exact ⟨congrArg CipherContext.blockSize ha,hl⟩
  have ht : (incoming.take (w.readSizeAdjust garbage size).2.toNat).length ≤
      (w.readSizeAdjust garbage size).1.sslBufLen := by
    rw [length_take,hl]
    omega
  obtain ⟨w',hf,hw'⟩ := (w.readSizeAdjust garbage size).1.fill_ok ht
  have hd := w'.sslDecrypt_stored (w.readSizeAdjust garbage size).2.toNat size
  simp only [bind,Except.bind,hf]
  rw [← hl,← ha,← hw'.len,← hw'.cc]
  cases hc : w'.sslDecrypt (w.readSizeAdjust garbage size).2.toNat size with
  | error e | ok r =>
    rw [hc] at hd
    exact hd

end Wrap

inductive Op where
  | encrypt (data : List UInt8)
  | receive (size : Nat) (incoming : List UInt8)

def Op.size : Op → Nat
  | .encrypt data => data.length
  | .receive size _ => size

namespace Wrap

def apply (w : Wrap σ) : Op → Except Fault (Wrap σ × Option (List UInt8))
  | .encrypt data => (w.sslEncrypt garbage data).map fun r => (r.1,none)
  | .receive size incoming => w.sslReceive garbage size incoming

def applyAll (w : Wrap σ) : List Op → Except Fault (Wrap σ)
  | [] => .ok w
  | op :: ops =>
    match w.apply garbage op with
    | .error e => .error e
    | .ok (w,_) => w.applyAll ops

end Wrap

def Covered (k room : Nat) (sizes : List Nat) : Prop :=
  ∀ pre n post, sizes = pre ++ n :: post → ¬Whole k n → padded k n ≤ room ∨ ∃ m ∈ pre, Whole k m ∧ padded k n ≤ m

theorem covered_nil (k room : Nat) : Covered k room [] := by
  intro pre n post h
  cases pre <;> cases h

variable {sizes : List Nat} {room n : Nat}

theorem covered_cons (hn : Whole k n ∨ padded k n ≤ room) (h : Covered k (grown k room n) sizes) :
  Covered k room (n :: sizes) := by
  intro pre m post hs hm
  cases pre with
  | nil =>
    cases hs
    exact .inl (hn.resolve_left hm)
  | cons l pre =>
    obtain ⟨rfl,ht⟩ := cons_eq_cons.mp hs
    rcases h pre m post ht hm with hr | ⟨l,hl,hw,ha⟩
    · rw [grown] at hr
      split_ifs at hr with hw
      · rcases le_total room n with he | he
        · rw [max_eq_right he] at hr
          exact .inr ⟨n,mem_cons_self,hw,hr⟩
        · rw [Nat.max_eq_left he] at hr
          exact .inl hr
      · exact .inl hr
    · exact .inr ⟨l,mem_cons_of_mem _ hl,hw,ha⟩

theorem Covered.head (h : Covered k room (n :: sizes)) : Whole k n ∨ padded k n ≤ room := by
  by_cases hn : Whole k n
  · exact .inl hn
  rcases h [] n sizes rfl hn with hr | ⟨m,hm,-⟩
  · exact .inr hr
  · cases hm

theorem Covered.tail (h : Covered k room (n :: sizes)) : Covered k (grown k room n) sizes := by
  intro pre m post hs hm
  have he : room ≤ grown k room n := by
    rw [grown]
    split
    · exact le_max_left ..
    · exact le_rfl
  rcases h (n :: pre) m post (by rw [hs,cons_append]) hm with hr | ⟨l,hl,hw,ha⟩
  · exact .inl (le_trans hr he)
  rcases mem_cons.mp hl with rfl | hl
  · refine .inl (le_trans ha ?_)
    rw [grown,if_pos hw]
    exact le_max_right ..
  · exact .inr ⟨l,hl,hw,ha⟩

namespace Wrap

variable {w : Wrap σ}

theorem apply_stored {op : Op} (hf : Whole w.cc.blockSize op.size ∨ padded w.cc.blockSize op.size ≤ w.sslBufLen) :
  Stored w.cc.blockSize (grown w.cc.blockSize w.sslBufLen op.size) (w.apply garbage op) := by
  cases op with
  | encrypt data =>
    have he := sslEncrypt_stored (w := w) garbage hf
    rw [apply]
    cases hc : w.sslEncrypt garbage data with
    | error e | ok r =>
      rw [hc] at he
      exact he
  | receive size incoming => exact sslReceive_stored garbage hf

theorem applyAll_bounded {ops : List Op} (h : Covered w.cc.blockSize w.sslBufLen (ops.map Op.size)) :
  w.applyAll garbage ops ≠ .error .bufOverrun := by
  induction ops generalizing w with
  | nil => exact nofun
  | cons op ops ih =>
    rw [map_cons] at h
    have hs := apply_stored (w := w) garbage h.head
    rw [applyAll]
    cases hc : w.apply garbage op with
    | error e =>
      rw [hc] at hs
      exact fun he => hs (Except.error.inj he)
    | ok r =>
      rw [hc] at hs
      refine ih ?_
      rw [hs.1,hs.2]
      exact h.tail

end Wrap

namespace Wrap

variable {w : Wrap σ} {buf data : List UInt8} {size : Nat}

theorem encryptInto_overruns (hd : size%w.cc.blockSize = 0) (ht : size < 2^32)
  (hbuf : size ≤ buf.length) (hr : w.sslBufLen < size) : w.encryptInto buf size = .error .bufOverrun := by
  have hm : size%2^32 = size := mod_eq_of_lt ht
  have ho := length_crypted hd hbuf
  have hl : ¬(w.crypted buf size).2.length ≤ (w.advance (w.crypted buf size).1).sslBufLen :=
    fun h => absurd (ho ▸ h : size ≤ w.sslBufLen) (by omega)
  rw [encryptInto,cipherCrypt,hm,if_neg (by simpa using hd)]
  simp only [bind,Except.bind,fill,dif_neg hl]

theorem sslEncrypt_overruns (hw : ¬Whole w.cc.blockSize data.length) (hl : padded w.cc.blockSize data.length < 2^31)
  (hr : w.sslBufLen < padded w.cc.blockSize data.length) : w.sslEncrypt garbage data = .error .bufOverrun := by
  rw [padded] at hl hr
  rw [sslEncrypt]
  split
  · rename_i hs
    rw [if_pos hs] at hl hr
    exact encryptInto_overruns (mod_self _) (by omega) (by simp; omega) hr
  rename_i hs
  rw [if_neg hs] at hl hr
  split
  · rename_i he
    rw [if_pos he] at hl hr
    have hi := asInt_of_lt hl
    have hg := lt_round data.length w.cc.blockSize_pos
    rw [hi,if_neg (by omega),Int.toNat_natCast]
    exact encryptInto_overruns (mul_mod_left ..) (by omega) (by simp; omega) hr
  · rename_i he
    exact absurd ⟨by omega,by simpa using he⟩ hw

end Wrap

def shiftUp (s : UInt8) (xs : List UInt8) : UInt8 × List UInt8 := ((xs.map (· + s)).headD s,xs.map (· + s))

def shiftDown (s : UInt8) (xs : List UInt8) : UInt8 × List UInt8 := (xs.headD s,xs.map (· - s))

def shiftContext (evp : UInt8 → List UInt8 → UInt8 × List UInt8)
    (h : ∀ s xs, (evp s xs).2.length = xs.length) : CipherContext UInt8 where
  blockSize := 16
  blockSize_pos := by decide
  evp := evp
  evp_length := fun s xs hxs => (h s xs).trans hxs
  state := 7

theorem blank_length : (List.replicate 4096 (0 : UInt8)).length = 4096 := length_replicate

def newWrap (cc : CipherContext σ) : Wrap σ where
  cc := cc
  sslBufLen := 4096
  sslBuf := List.replicate 4096 0
  allocated := blank_length

def sender : Wrap UInt8 := newWrap (shiftContext shiftUp fun _ _ => length_map _)

def receiver : Wrap UInt8 := newWrap (shiftContext shiftDown fun _ _ => length_map _)

def wireArray (batch : Nat) : List UInt8 := List.replicate (8*batch) 0

theorem buffer_capacity (w : Wrap σ) (ops : List Op) (hlen : w.sslBufLen = 4096)
  (hcover : Covered w.cc.blockSize 4096 (ops.map Op.size)) : w.applyAll garbage ops ≠ .error .bufOverrun :=
  Wrap.applyAll_bounded garbage (hlen ▸ hcover)

theorem full_batch_makes_room : Covered 16 4096 ([Op.encrypt (wireArray 1024),Op.encrypt (wireArray 513)].map Op.size) ∧
    sender.applyAll (fun _ => 0) [.encrypt (wireArray 1024),.encrypt (wireArray 513)] ≠ .error .bufOverrun := by
  have hc : Covered 16 4096
      ([Op.encrypt (wireArray 1024),Op.encrypt (wireArray 513)].map Op.size) := by
    simp only [map_cons,map_nil,Op.size,wireArray,length_replicate]
    exact covered_cons (.inl (by decide)) (covered_cons (.inr (by decide)) (covered_nil _ _))
  exact ⟨hc,buffer_capacity _ sender _ rfl hc⟩

theorem odd_type_array_overruns : sender.sslBufLen = 4096 ∧
    sender.applyAll (fun _ => 0) [.encrypt (wireArray 513)] = .error .bufOverrun := by
  have hl : (wireArray 513).length = 4104 := length_replicate
  have he : sender.sslEncrypt (fun _ => 0) (wireArray 513) = .error .bufOverrun := by
    refine Wrap.sslEncrypt_overruns _ ?_ ?_ ?_ <;> rw [hl] <;> decide
  refine ⟨rfl,?_⟩
  rw [Wrap.applyAll,Wrap.apply,he]
  rfl

end Ssl
