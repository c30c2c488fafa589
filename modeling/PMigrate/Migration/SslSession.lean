import PMigrate.Migration.Ssl

namespace Ssl

open CInt List Nat

variable {σ τ : Type} (garbage : Nat → UInt8)

structure Delivery where
  requested : Int
  data : Option (List UInt8)

namespace Wrap

def sendAll (w : Wrap σ) : List (List UInt8) → Except Fault (Wrap σ × List UInt8)
  | [] => .ok (w,[])
  | r :: rs =>
    match w.sslSend garbage r with
    | .error e => .error e
    | .ok (w,bytes) =>
      match w.sendAll rs with
      | .error e => .error e
      | .ok (w,rest) => .ok (w,bytes ++ rest)

def sendGroups (w : Wrap σ) : List (List (List UInt8)) → Except Fault (Wrap σ × List (List UInt8))
  | [] => .ok (w,[])
  | g :: gs =>
    match w.sendAll garbage g with
    | .error e => .error e
    | .ok (w,wire) =>
      match w.sendGroups gs with
      | .error e => .error e
      | .ok (w,wires) => .ok (w,wire :: wires)

def receiveAll (w : Wrap σ) :
    List Nat → List UInt8 → Except Fault (Wrap σ × List Delivery × List UInt8)
  | [],stream => .ok (w,[],stream)
  | size :: sizes,stream =>
    let requested := (w.readSizeAdjust garbage size).2
    match w.sslReceive garbage size (stream.take requested.toNat) with
    | .error e => .error e
    | .ok (w,data) =>
      match w.receiveAll sizes (stream.drop requested.toNat) with
      | .error e => .error e
      | .ok (w,deliveries,rest) => .ok (w,⟨requested,data⟩ :: deliveries,rest)

end Wrap

inductive Group (k : Nat) : List (List UInt8) → Prop
  | single {r : List UInt8} (h : r ≠ []) : Group k [r]
  | whole {g : List (List UInt8)} (hg : g ≠ []) (h : ∀ r ∈ g, Whole k r.length) : Group k g

def Encrypted (w w' : Wrap σ) (src wire : List UInt8) : Prop :=
  ∃ n, src.length = n*w.cc.blockSize ∧
    BlockChain.run w.cc.blockSize w.cc.evp n w.cc.state src = (w'.cc.state,wire) ∧
    w'.cc = {w.cc with state := w'.cc.state}

namespace Wrap

variable {w : Wrap σ} {data : List UInt8}

theorem dvd_padded {k : Nat} (hk : 0 < k) (n : Nat) : padded k n%k = 0 ∧ n ≤ padded k n := by
  rw [padded]
  split
  · exact ⟨mod_self k,by omega⟩
  split
  · exact ⟨mul_mod_left ..,le_of_lt (lt_round n hk)⟩
  · rename_i hr
    exact ⟨by simpa using hr,le_refl _⟩

def prepared (w : Wrap σ) (n : Nat) : Wrap σ := if Whole w.cc.blockSize n then w.resize garbage n else w

theorem prepared_len (w : Wrap σ) (n : Nat) :
  (w.prepared garbage n).sslBufLen = grown w.cc.blockSize w.sslBufLen n := by
  rw [prepared,grown]
  split
  · exact resize_len garbage w n
  · rfl

theorem prepared_cc (w : Wrap σ) (n : Nat) : (w.prepared garbage n).cc = w.cc := by
  rw [prepared]
  split
  · exact resize_cc garbage w n
  · rfl

theorem sslEncrypt_eq (hl : padded w.cc.blockSize data.length < 2^31) :
  ∃ pad, data.length+pad.length = padded w.cc.blockSize data.length ∧
    w.sslEncrypt garbage data = (w.prepared garbage data.length).encryptInto (data ++ pad)
      (padded w.cc.blockSize data.length) := by
  rw [padded] at hl ⊢
  rw [sslEncrypt,prepared]
  split
  · rename_i hs
    refine ⟨List.replicate (w.cc.blockSize-data.length) 0,by simp; omega,?_⟩
    rw [if_neg fun h : Whole _ _ => absurd h.1 (by omega)]
  rename_i hs
  rw [if_neg hs] at hl
  split
  · rename_i hr
    rw [if_pos hr] at hl
    have hg := lt_round data.length w.cc.blockSize_pos
    rw [asInt_of_lt hl,if_neg (by omega),Int.toNat_natCast,
      if_neg fun h : Whole _ _ => hr h.2]
    exact ⟨_,by simp; omega,rfl⟩
  rename_i hr
  rw [if_pos ⟨by omega,by simpa using hr⟩]
  exact ⟨[],by simp,by rw [append_nil]⟩

theorem sslSend_ok (ht : padded w.cc.blockSize data.length < 2^31)
  (hf : Whole w.cc.blockSize data.length ∨ padded w.cc.blockSize data.length ≤ w.sslBufLen) :
  ∃ w' wire pad, w.sslSend garbage data = .ok (w',wire) ∧ Encrypted w w' (data ++ pad) wire ∧
    data.length+pad.length = padded w.cc.blockSize data.length ∧
    w'.sslBufLen = grown w.cc.blockSize w.sslBufLen data.length := by
  obtain ⟨pad,hp,he⟩ := sslEncrypt_eq garbage ht
  obtain ⟨hd,-⟩ := dvd_padded w.cc.blockSize_pos data.length
  generalize hs : padded w.cc.blockSize data.length = size at ht hf hp he hd ⊢
  have ha := w.prepared_cc garbage data.length
  have hl := w.prepared_len garbage data.length
  have hr : size ≤ grown w.cc.blockSize w.sslBufLen data.length := hs ▸ room (hs ▸ hf)
  have hm : size%2^32 = size := mod_eq_of_lt (by omega)
  have hbuf : size ≤ (data ++ pad).length := by
    rw [length_append]
    omega
  have hg : size%2^32%(w.prepared garbage data.length).cc.blockSize = 0 := by
    rw [hm,ha]
    exact hd
  obtain ⟨w',hk,hw'⟩ := encryptInto_ok hg hbuf (hl ▸ hr)
  have hc : (w.prepared garbage data.length).crypted (data ++ pad) size =
      w.crypted (data ++ pad) size := by
    rw [crypted,crypted,ha]
  rw [hm,hc] at hw'
  have ho := length_crypted hd hbuf
  have hcc' : w'.cc = {w.cc with state := (w.crypted (data ++ pad) size).1} := by rw [hw'.cc,advance,ha]
  have hl' : w'.sslBufLen = grown w.cc.blockSize w.sslBufLen data.length := hw'.len.trans hl
  refine ⟨w',(w.crypted (data ++ pad) size).2,pad,?_,⟨size/w.cc.blockSize,?_,?_,?_⟩,hp,hl'⟩
  · rw [sslSend,he,hk]
    simp only [bind,Except.bind,asSize_asInt ht]
    rw [if_neg (by omega)]
    have hb := hw'.bytes
    rw [ho] at hb
    rw [hb]
  · rw [length_append,hp,Nat.div_mul_cancel (Nat.dvd_of_mod_eq_zero hd)]
  · rw [hcc']
    rfl
  · rw [hcc']

end Wrap

theorem Encrypted.refl (w : Wrap σ) : Encrypted w w [] [] := ⟨0,by simp,rfl,rfl⟩

variable {wire src : List UInt8} {w' w : Wrap σ}

theorem Encrypted.append {w1 w2 w3 : Wrap σ} {src' wire' : List UInt8}
  (h : Encrypted w1 w2 src wire) (h' : Encrypted w2 w3 src' wire') : Encrypted w1 w3 (src ++ src') (wire ++ wire') := by
  obtain ⟨n,hn,hr,hc⟩ := h
  obtain ⟨m,hm,hr',hc'⟩ := h'
  rw [hc] at hm hr' hc'
  refine ⟨n+m,?_,?_,hc'⟩
  · rw [length_append,hn,hm,Nat.add_mul]
  · rw [BlockChain.run_append n m _ _ hn,hr]
    rw [hr']

section
variable (h : Encrypted w w' src wire)
include h

theorem Encrypted.blockSize : w'.cc.blockSize = w.cc.blockSize := by
  obtain ⟨-,-,-,hc⟩ := h
  rw [hc]

theorem Encrypted.evp : w'.cc.evp = w.cc.evp := by
  obtain ⟨-,-,-,hc⟩ := h
  rw [hc]

theorem Encrypted.length : wire.length = src.length := by
  obtain ⟨n,hn,hr,-⟩ := h
  have hl := BlockChain.length_run w.cc.evp_length n w.cc.state hn
  rw [hr] at hl
  rw [hn]
  exact hl

end

namespace Wrap

variable {w : Wrap σ} {g : List (List UInt8)} {later : List Nat}

theorem sendAll_whole (ha : ∀ r ∈ g, Whole w.cc.blockSize r.length ∧ r.length < 2^31)
  (hc : Covered w.cc.blockSize w.sslBufLen (g.map List.length ++ later)) :
  ∃ w' wire, w.sendAll garbage g = .ok (w',wire) ∧ Encrypted w w' g.flatten wire ∧
    Covered w.cc.blockSize w'.sslBufLen later := by
  induction g generalizing w with
  | nil => exact ⟨w,[],rfl,.refl w,hc⟩
  | cons r g ih =>
    obtain ⟨hw,ht⟩ := ha r mem_cons_self
    have hp := padded_whole hw
    obtain ⟨w1,wire,pad,hb,he,hf,hd⟩ := sslSend_ok (w := w) garbage (by rw [hp]; exact ht) (.inl hw)
    have hn : pad = [] := length_eq_zero_iff.mp (by omega)
    have hs := he.blockSize
    obtain ⟨w2,wires,hr,he',hl⟩ := ih (w := w1)
      (fun r' hr' => hs ▸ ha r' (mem_cons_of_mem r hr'))
      (by rw [hs,hd]; exact hc.tail)
    rw [hn,append_nil] at he
    refine ⟨w2,wire ++ wires,?_,?_,hs ▸ hl⟩
    · rw [sendAll,hb]
      dsimp only
      rw [hr]
    · rw [flatten_cons]
      exact he.append he'

theorem whole_flatten {k : Nat} (hg : g ≠ []) (h : ∀ r ∈ g, Whole k r.length) : Whole k g.flatten.length := by
  induction g with
  | nil => exact absurd rfl hg
  | cons r g ih =>
    obtain ⟨hl,hm⟩ := h r mem_cons_self
    rw [flatten_cons,length_append]
    cases g with
    | nil => exact ⟨by simpa using hl,by simpa using hm⟩
    | cons r' g =>
      obtain ⟨-,hm'⟩ := ih (by simp) fun x hx => h x (mem_cons_of_mem r hx)
      exact ⟨by omega,by rw [add_mod,hm,hm',zero_mod]⟩

theorem length_le_flatten {r : List UInt8} (hr : r ∈ g) : r.length ≤ g.flatten.length :=
  (sublist_flatten_of_mem hr).length_le

theorem sendAll_group (hg : Group w.cc.blockSize g) (ht : padded w.cc.blockSize g.flatten.length < 2^31)
  (hc : Covered w.cc.blockSize w.sslBufLen (g.map List.length ++ later)) :
  ∃ w' wire pad, w.sendAll garbage g = .ok (w',wire) ∧ Encrypted w w' (g.flatten ++ pad) wire ∧
    g.flatten.length+pad.length = padded w.cc.blockSize g.flatten.length ∧
    Covered w.cc.blockSize w'.sslBufLen later := by
  cases hg with
  | @single r hr =>
    have hf : [r].flatten = r := by simp
    rw [hf] at ht ⊢
    obtain ⟨w',wire,pad,hs,he,hp,hb⟩ := sslSend_ok garbage ht hc.head
    refine ⟨w',wire,pad,?_,he,hp,hb ▸ hc.tail⟩
    rw [sendAll,hs]
    simp [sendAll]
  | whole hn ha =>
    have hw := whole_flatten hn ha
    rw [padded_whole hw] at ht ⊢
    obtain ⟨w',wire,hs,he,hl⟩ := sendAll_whole garbage
      (fun r hr => ⟨ha r hr,lt_of_le_of_lt (length_le_flatten hr) ht⟩) hc
    exact ⟨w',wire,[],hs,by rwa [append_nil],by simp,hl⟩

variable {size : Nat} {wire : List UInt8}

theorem readSizeAdjust_eq (hl : padded w.cc.blockSize size < 2^31) :
  (w.readSizeAdjust garbage size).2 = padded w.cc.blockSize size := by
  rw [readSizeAdjust]
  rw [padded] at hl ⊢
  split
  · rename_i hs
    rw [if_pos hs] at hl
    exact asInt_of_lt hl
  rename_i hs
  rw [if_neg hs] at hl
  split_ifs with hr
  · rw [if_pos hr] at hl
    exact asInt_of_lt hl
  · rw [if_neg hr] at hl
    exact asInt_of_lt hl

theorem sslDecrypt_ok {newSize oriSize : Nat} (hd : newSize%w.cc.blockSize = 0) (hl : newSize < 2^32)
  (hr : newSize ≤ w.sslBufLen)
  (ho : oriSize ≤ newSize) (hw : wire.length = newSize) (hbuf : w.sslBuf.take newSize = wire) :
  ∃ w' out, w.sslDecrypt newSize oriSize = .ok (w',out.take oriSize) ∧
    Encrypted w w' wire out ∧ w'.sslBufLen = w.sslBufLen := by
  have hm : newSize%2^32 = newSize := mod_eq_of_lt hl
  have hb : wire.length = newSize/w.cc.blockSize*w.cc.blockSize := by
    rw [hw,Nat.div_mul_cancel (Nat.dvd_of_mod_eq_zero hd)]
  have hc : w.crypted w.sslBuf newSize = w.crypted wire newSize := by
    rw [← take_append_drop newSize w.sslBuf,hbuf,crypted,crypted,
      BlockChain.run_cut _ _ _ hb]
  have hu := length_crypted hd (le_of_eq hw.symm)
  refine ⟨w.advance (w.crypted wire newSize).1,(w.crypted wire newSize).2,?_,
    ⟨newSize/w.cc.blockSize,hb,rfl,rfl⟩,rfl⟩
  rw [sslDecrypt,cipherCrypt,hm,if_neg (by omega),if_neg (by simpa using hd),hc]
  simp only [bind,Except.bind,if_neg (not_lt.mpr ho)]
  split
  · rfl
  split
  · rfl
  · rename_i he
    rw [take_of_length_le (by omega)]

theorem sslReceive_ok (ht : padded w.cc.blockSize size < 2^31)
  (hg : Whole w.cc.blockSize size ∨ padded w.cc.blockSize size ≤ w.sslBufLen)
  (hw : wire.length = padded w.cc.blockSize size) :
  ∃ w' out, w.sslReceive garbage size wire = .ok (w',some (out.take size)) ∧ Encrypted w w' wire out ∧
    w'.sslBufLen = grown w.cc.blockSize w.sslBufLen size := by
  obtain ⟨hl,hc⟩ := w.readSizeAdjust_len garbage size
  obtain ⟨hd,ho⟩ := dvd_padded w.cc.blockSize_pos size
  have ha := readSizeAdjust_eq garbage ht
  have hr := room hg
  rw [sslReceive,ha,if_neg (by omega),Int.toNat_natCast,take_of_length_le (by omega)]
  have hf : wire.length ≤ (w.readSizeAdjust garbage size).1.sslBufLen := by omega
  obtain ⟨w1,hi,hw1⟩ := (w.readSizeAdjust garbage size).1.fill_ok hf
  have hb := hw1.bytes
  have hc1 := hw1.cc.trans hc
  have hl1 := hw1.len.trans hl
  rw [hw] at hb
  obtain ⟨w',out,hk,he,hl'⟩ := sslDecrypt_ok (w := w1) (by rw [hc1]; exact hd) (by omega)
    (by omega) ho hw hb
  refine ⟨w',out,?_,?_,hl'.trans hl1⟩
  · simp only [bind,Except.bind,hi,hk]
  obtain ⟨n,hn,hu,hs⟩ := he
  rw [hc1] at hn hu hs
  exact ⟨n,hn,hu,hs⟩

end Wrap

namespace Wrap

theorem sslReceive_overruns {w : Wrap σ} {size : Nat} {incoming : List UInt8}
  (hw : ¬Whole w.cc.blockSize size) (ha : padded w.cc.blockSize size < 2^31)
  (hr : w.sslBufLen < padded w.cc.blockSize size) (hm : padded w.cc.blockSize size ≤ incoming.length) :
  w.sslReceive garbage size incoming = .error .bufOverrun := by
  obtain ⟨hl,-⟩ := w.readSizeAdjust_len garbage size
  rw [grown,if_neg hw] at hl
  have ht := length_take_of_le hm
  rw [sslReceive,readSizeAdjust_eq garbage ha,if_neg (by omega),Int.toNat_natCast,fill,
    dif_neg (by omega)]
  rfl

end Wrap

section
variable {ws : Wrap σ} {wr : Wrap τ} {inStep : σ → τ → Prop}

theorem Encrypted.inverts {k : Nat} {ws' : Wrap σ} {wr' : Wrap τ} {src wire out : List UInt8}
  (hi : BlockChain.Inverts k ws.cc.evp wr.cc.evp inStep) (hs : ws.cc.blockSize = k)
  (hr : wr.cc.blockSize = k) (ht : inStep ws.cc.state wr.cc.state)
  (he : Encrypted ws ws' src wire) (hd : Encrypted wr wr' wire out) : out = src ∧ inStep ws'.cc.state wr'.cc.state := by
  obtain ⟨n,hn,hu,-⟩ := he
  obtain ⟨m,hm,hru',-⟩ := hd
  have hk : 0 < k := hs ▸ ws.cc.blockSize_pos
  rw [hs] at hn hu
  rw [hr] at hm hru'
  have hl := BlockChain.length_run hi.length n ws.cc.state hn
  rw [hu,hm] at hl
  obtain rfl : m = n := eq_of_mul_eq_mul_right hk hl
  obtain ⟨hb,ha⟩ := BlockChain.run_inverts hi m ht hn
  rw [hu] at hb ha
  rw [hru'] at hb ha
  exact ⟨hb,ha⟩

theorem encrypted_framing (k : Nat) (hinv : BlockChain.Inverts k ws.cc.evp wr.cc.evp inStep)
  (hs : ws.cc.blockSize = k) (hr : wr.cc.blockSize = k)
  (hstep : inStep ws.cc.state wr.cc.state) (groups : List (List (List UInt8))) (hgroups : ∀ g ∈ groups, Group k g)
  (hsmall : ∀ g ∈ groups, padded k g.flatten.length < 2^31)
  (hsend : Covered k ws.sslBufLen (groups.flatten.map List.length))
  (hrecv : Covered k wr.sslBufLen (groups.map fun g => g.flatten.length)) :
  ∃ ws' wires wr', ws.sendGroups garbage groups = .ok (ws',wires) ∧ inStep ws'.cc.state wr'.cc.state ∧
    ∀ rest, wr.receiveAll garbage (groups.map fun g => g.flatten.length) (wires.flatten ++ rest) =
      .ok (wr',List.zipWith (fun g wire => ⟨wire.length,some g.flatten⟩) groups wires,rest) := by
  induction groups generalizing ws wr with
  | nil => exact ⟨ws,[],wr,rfl,hstep,fun _ => rfl⟩
  | cons g groups ih =>
    subst hs
    have ho : Covered ws.cc.blockSize ws.sslBufLen
        (g.map List.length ++ groups.flatten.map List.length) := by
      rw [← map_append,← flatten_cons]
      exact hsend
    obtain ⟨ws1,wire,pad,hn,he,hp,hl⟩ := Wrap.sendAll_group garbage
      (hgroups g mem_cons_self) (hsmall g mem_cons_self) ho
    have hw : wire.length = padded wr.cc.blockSize g.flatten.length := by
      rw [he.length,length_append,hp,hr]
    obtain ⟨wr1,out,hg,hd,hb⟩ := Wrap.sslReceive_ok (w := wr) garbage
      (hr ▸ hsmall g mem_cons_self) (hr ▸ hrecv.head) hw
    obtain ⟨hu,hstep1⟩ := he.inverts hinv rfl hr hstep hd
    have hk : (wr.readSizeAdjust garbage g.flatten.length).2 = wire.length := by
      rw [Wrap.readSizeAdjust_eq garbage (hr ▸ hsmall g mem_cons_self),hw]
    have ha : out.take g.flatten.length = g.flatten := by rw [hu,take_left]
    obtain ⟨ws2,wires,wr2,hsent2,hstep2,hc⟩ := @ih ws1 wr1
      (by rw [he.evp,hd.evp]; exact hinv) he.blockSize (hd.blockSize.trans hr) hstep1
      (fun g' hg' => hgroups g' (mem_cons_of_mem g hg'))
      (fun g' hg' => hsmall g' (mem_cons_of_mem g hg')) hl
      (by rw [hb,hr]; exact hrecv.tail)
    refine ⟨ws2,wire :: wires,wr2,?_,hstep2,?_⟩
    · rw [Wrap.sendGroups,hn]
      dsimp only
      rw [hsent2]
    intro rest
    rw [map_cons,Wrap.receiveAll,hk,flatten_cons,append_assoc,
      Int.toNat_natCast,take_left,drop_left,hg]
    dsimp only
    rw [hc rest,ha,zipWith_cons_cons]

end

theorem shift_inverts : BlockChain.Inverts 16 sender.cc.evp receiver.cc.evp Eq where
  length := sender.cc.evp_length
  recovers := by
    rintro s t xs rfl -
    change (xs.map (· + s)).map (· - s) = xs
    simp [Function.comp_def]
  stays := by
    rintro s t xs rfl -
    rfl

def twoGroups : List (List (List UInt8)) := [[[1,2,3,4]],[List.replicate 16 5,List.replicate 32 6]]

theorem two_groups_framed : ∃ ws' wires wr', sender.sendGroups (fun _ => 0) twoGroups = .ok (ws',wires) ∧
    ws'.cc.state = wr'.cc.state ∧ ∀ rest, receiver.receiveAll (fun _ => 0) [4,48] (wires.flatten ++ rest) =
      .ok (wr',List.zipWith (fun g wire => ⟨wire.length,some g.flatten⟩) twoGroups wires,rest) := by
  refine encrypted_framing (fun _ => 0) 16 shift_inverts rfl rfl rfl twoGroups ?_ ?_ ?_ ?_
  · intro g hg
    rcases mem_cons.mp hg with rfl | hg
    · exact .single (by decide)
    · rw [mem_singleton.mp hg]
      exact .whole (by decide) (by decide)
  · decide
  · exact covered_cons (.inr (by decide)) (covered_cons (.inl (by decide))
      (covered_cons (.inl (by decide)) (covered_nil _ _)))
  · exact covered_cons (.inr (by decide)) (covered_cons (.inl (by decide)) (covered_nil _ _))

theorem type_array_breaks_framing : Group 16 [wireArray 513] ∧
    sender.sendGroups (fun _ => 0) [[wireArray 513]] = .error .bufOverrun ∧
    ∀ wire : List UInt8, wire.length = padded 16 (wireArray 513).length →
      receiver.receiveAll (fun _ => 0) [(wireArray 513).length] wire = .error .bufOverrun := by
  have hl : (wireArray 513).length = 4104 := length_replicate
  have he : sender.sslEncrypt (fun _ => 0) (wireArray 513) = .error .bufOverrun := by
    refine Wrap.sslEncrypt_overruns _ ?_ ?_ ?_ <;> rw [hl] <;> decide
  refine ⟨.single fun h => absurd (h ▸ hl) (by decide),?_,?_⟩
  · rw [Wrap.sendGroups,Wrap.sendAll,Wrap.sslSend,he]
    rfl
  intro wire hw
  rw [hl] at hw ⊢
  have ha : (receiver.readSizeAdjust (fun _ => 0) 4104).2 = padded 16 4104 :=
    Wrap.readSizeAdjust_eq _ (by decide)
  rw [Wrap.receiveAll,ha,Int.toNat_natCast,take_of_length_le (le_of_eq hw),
    Wrap.sslReceive_overruns _ (by decide) (by decide) (by decide) (le_of_eq hw.symm)]

end Ssl
