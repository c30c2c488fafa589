import PMigrate.Migration.SslSession

namespace ExactTransfer

open Ssl CInt List Nat

inductive Select where
  | ready
  | interrupted
  | quiet
  deriving DecidableEq

inductive ReadResult where
  | got (bytes : List UInt8)
  | interrupted
  | again
  | failed
  deriving DecidableEq

structure Round where
  select : Select
  read : ReadResult
  deriving DecidableEq

inductive WriteResult where
  | wrote (count : Nat)
  | interrupted
  | again
  | failed
  deriving DecidableEq

-- data lists the bytes taken off the descriptor, in order; left, the outcomes of calls that are not made
structure Transfer where
  rc : Int
  data : List UInt8
  left : List Round
  deriving DecidableEq

def rdexact (completed : Bool) (size : Nat) : List Round → List UInt8 → Option Transfer
  | rounds,data =>
    if size ≤ data.length then some ⟨0,data,rounds⟩
    else
      match rounds with
      | [] => none
      | r :: rounds =>
        if completed && r.select == .interrupted then rdexact completed size rounds data
        else if completed && r.select == .quiet then some ⟨-1,data,rounds⟩
        else
          match r.read with
          | .interrupted => rdexact completed size rounds data
          | .again => rdexact completed size rounds data
          | .failed => some ⟨-1,data,rounds⟩
          | .got bytes =>
            let bytes := bytes.take (size-data.length)
            if bytes = [] then some ⟨-1,data,rounds⟩ else rdexact completed size rounds (data ++ bytes)

-- the tests for a failed or empty read are commented out in the source; after a failed read offset steps back, so that
-- the next one overwrites the last byte of the buffer (data keeps both)
def mcRdexact (completed : Bool) (size : Nat) : List Round → Nat → List UInt8 → Option Transfer
  | rounds,offset,data =>
    if size ≤ offset then some ⟨0,data,rounds⟩
    else
      match rounds with
      | [] => none
      | r :: rounds =>
        if completed && r.select == .interrupted then mcRdexact completed size rounds offset data
        else if completed && r.select == .quiet then some ⟨-1,data,rounds⟩
        else
          match r.read with
          | .interrupted => mcRdexact completed size rounds offset data
          | .again => mcRdexact completed size rounds offset data
          | .failed => mcRdexact completed size rounds ((offset+(2^64-1))%2^64) data
          | .got bytes =>
            let bytes := bytes.take (size-offset)
            mcRdexact completed size rounds ((offset+bytes.length)%2^64) (data ++ bytes)

def writeExact (data : List UInt8) : List WriteResult → Nat → Option (Int × Nat)
  | writes,offset =>
    if data.length ≤ offset then some (0,offset)
    else
      match writes with
      | [] => none
      | .interrupted :: writes => writeExact data writes offset
      | .again :: _ => some (-1,offset)
      | .failed :: _ => some (-1,offset)
      | .wrote n :: writes =>
        let len := min n (data.length-offset)
        if len = 0 then some (-1,offset) else writeExact data writes (offset+len)

def noncachedWrite (data : List UInt8) (writes : List WriteResult) : Option (Int × Nat) :=
  (writeExact data writes 0).map fun r => (if r.1 = 0 then (data.length : Int) else -1,r.2)

structure Finished (σ : Type) where
  rc : Int
  moved : Nat
  wrap : Wrap σ
  data : Option (List UInt8)

section
variable {σ : Type} (garbage : Nat → UInt8) (w : Wrap σ)

def sslRdexact (completed : Bool) (size : Nat) (rounds : List Round) : Except Fault (Option (Finished σ)) :=
  let r := w.readSizeAdjust garbage size
  if r.2 < 0 then .ok (some ⟨-1,0,r.1,none⟩)
  else
    match rdexact completed r.2.toNat rounds [] with
    | none => .ok none
    | some t =>
      match w.sslReceive garbage size t.data with
      | .error e => .error e
      | .ok (w,data) => .ok (some ⟨0,t.data.length,w,data⟩)

section
variable (data : List UInt8) (writes : List WriteResult)

def sslWrexact : Except Fault (Option (Finished σ)) :=
  match w.sslSend garbage data with
  | .error e => .error e
  | .ok (w,wire) => .ok ((writeExact wire writes 0).map fun r => ⟨0,r.2,w,none⟩)

def sslRatewrite : Except Fault (Option (Finished σ)) :=
  match w.sslSend garbage data with
  | .error e => .error e
  | .ok (w,wire) => .ok ((noncachedWrite wire writes).map fun r => ⟨asInt wire.length,r.2,w,none⟩)

end

end

-- Whether a read that fails or finds the end of the file is made before size bytes have come in; quiet is the answer
-- when a select that ends without the descriptor ready comes first.
def readFails (completed quiet : Bool) (size : Nat) : List Round → Nat → Bool
  | rounds,got =>
    if size ≤ got then false
    else
      match rounds with
      | [] => false
      | r :: rounds =>
        if completed && r.select == .interrupted then readFails completed quiet size rounds got
        else if completed && r.select == .quiet then quiet
        else
          match r.read with
          | .interrupted => readFails completed quiet size rounds got
          | .again => readFails completed quiet size rounds got
          | .failed => true
          | .got bytes => bytes.isEmpty || readFails completed quiet size rounds (got+min (size-got) bytes.length)

-- Whether a write that gives no positive count and is not interrupted is made before size bytes are out.
def writeFails (size : Nat) : List WriteResult → Nat → Bool
  | writes,offset =>
    if size ≤ offset then false
    else
      match writes with
      | [] => false
      | .interrupted :: writes => writeFails size writes offset
      | .again :: _ => true
      | .failed :: _ => true
      | .wrote n :: writes => decide (n = 0) || writeFails size writes (offset+min n (size-offset))

section
variable {completed quiet : Bool} {size offset : Nat} {rounds : List Round} {data : List UInt8} {t : Transfer}

theorem take_eq_nil {bytes : List UInt8} (hm : ¬size ≤ data.length) :
  bytes.take (size-data.length) = [] ↔ bytes = [] := by
  rw [take_eq_nil_iff,or_iff_right (by omega)]

theorem rdexact_spec (hl : data.length ≤ size) (h : rdexact completed size rounds data = some t) :
  (t.rc = 0 ↔ t.data.length = size) ∧ t.data.length ≤ size ∧
    (t.data.length = size ↔ readFails completed true size rounds data.length = false) := by
  induction rounds generalizing data with
  | nil =>
    rw [rdexact] at h
    rw [readFails]
    split at h
    · cases h
      simp [*,le_antisymm hl ‹_›]
    · cases h
  | cons r rounds ih =>
    rw [rdexact] at h
    rw [readFails]
    split at h
    · cases h
      simp [*,le_antisymm hl ‹_›]
    rename_i hm
    have hx : ((-1 : Int) = 0 ↔ data.length = size) ∧ data.length ≤ size ∧ (data.length = size ↔ true = false) :=
      ⟨iff_of_false (by decide) (by omega),hl,iff_of_false (by omega) nofun⟩
    rw [if_neg hm]
    split at h
    · rw [if_pos ‹_›]
      exact ih hl h
    rw [if_neg ‹_›]
    split at h
    · rw [if_pos ‹_›]
      cases h
      exact hx
    rw [if_neg ‹_›]
    cases hr : r.read with
    | interrupted | again =>
      rw [hr] at h
      exact ih hl h
    | failed =>
      rw [hr] at h
      cases h
      exact hx
    | got bytes =>
      rw [hr] at h
      dsimp only at h ⊢
      split at h
      · rename_i hb
        cases h
        rw [(take_eq_nil hm).mp hb]
        exact hx
      · rename_i hb
        have hk : (data ++ bytes.take (size-data.length)).length = data.length+min (size-data.length) bytes.length := by
          rw [length_append,length_take]
        rw [isEmpty_eq_false_iff.mpr fun he => hb ((take_eq_nil hm).mpr he),Bool.false_or,← hk]
        exact ih (by omega) h

-- once mc_rdexact has passed a failed read, it returns 0 or has made a further call
theorem mcRdexact_goes_on (h : mcRdexact completed size rounds offset data = some t) :
  t.rc = 0 ∨ t.left.length < rounds.length := by
  induction rounds generalizing offset data with
  | nil =>
    rw [mcRdexact] at h
    split at h
    · cases h
      exact .inl rfl
    · cases h
  | cons r rounds ih =>
    have hs {q : Prop} (hq : q ∨ t.left.length < rounds.length) : q ∨ t.left.length < (r :: rounds).length :=
      hq.imp_right (Nat.lt_succ_of_lt ·)
    rw [mcRdexact] at h
    split at h
    · cases h
      exact .inl rfl
    split at h
    · exact hs (ih h)
    split at h
    · cases h
      exact .inr (Nat.lt_succ_self _)
    split at h <;> exact hs (ih h)

theorem mcRdexact_eq_iff (hi : size < 2^64) (ha : data.length ≤ size) :
  mcRdexact completed size rounds data.length data = rdexact completed size rounds data ↔
    readFails completed false size rounds data.length = false := by
  induction rounds generalizing data with
  | nil =>
    rw [mcRdexact,rdexact,readFails]
    simp
  | cons r rounds ih =>
    have hf (o : Nat) : mcRdexact completed size rounds o data ≠ some ⟨-1,data,rounds⟩ := fun h =>
      (mcRdexact_goes_on h).elim nofun (lt_irrefl _)
    rw [mcRdexact,rdexact,readFails]
    by_cases hm : size ≤ data.length
    · simp [hm]
    simp only [if_neg hm]
    split
    · exact ih ha
    split
    · exact iff_of_true rfl rfl
    cases hb : r.read with
    | interrupted | again => exact ih ha
    | failed => exact iff_of_false (hf _) nofun
    | got bytes =>
      dsimp only
      split
      · rename_i he
        rw [he,append_nil,(take_eq_nil hm).mp he]
        exact iff_of_false (hf _) nofun
      · rename_i he
        have hk : (data ++ bytes.take (size-data.length)).length = data.length+(bytes.take (size-data.length)).length :=
          length_append
        have hh : (bytes.take (size-data.length)).length ≤ size-data.length := length_take_le ..
        rw [isEmpty_eq_false_iff.mpr fun hn => he ((take_eq_nil hm).mpr hn),Bool.false_or,← length_take,← hk,
          mod_eq_of_lt (by omega)]
        exact ih (by omega)

theorem writeExact_spec {writes : List WriteResult} {moved : Nat} (hl : offset ≤ data.length) {rc : Int}
  (h : writeExact data writes offset = some (rc,moved)) :
  moved ≤ data.length ∧ (moved = data.length ↔ writeFails data.length writes offset = false) := by
  induction writes generalizing offset with
  | nil =>
    rw [writeExact] at h
    rw [writeFails]
    split at h
    · cases h
      simp [*,le_antisymm hl ‹_›]
    · cases h
  | cons x writes ih =>
    unfold writeExact at h
    unfold writeFails
    split at h
    · cases h
      simp [*,le_antisymm hl ‹_›]
    rename_i hm
    rw [if_neg hm]
    cases x with
    | interrupted => exact ih hl h
    | again | failed =>
      cases h
      exact ⟨hl,iff_of_false (by omega) nofun⟩
    | wrote n =>
      dsimp only at h ⊢
      split at h
      · cases h
        rw [decide_eq_true (by omega),Bool.true_or]
        exact ⟨hl,iff_of_false (by omega) nofun⟩
      · rw [decide_eq_false (by omega),Bool.false_or]
        exact ih (by omega) h

end

section
variable {σ : Type} {garbage : Nat → UInt8} {w : Wrap σ} {data : List UInt8}

theorem encryptInto_spec {w' : Wrap σ} {buf : List UInt8} {size : Nat} {n : Int}
  (h : w.encryptInto buf size = .ok (w',n)) : n = asInt size ∧ w'.sslBufLen = w.sslBufLen := by
  rw [Wrap.encryptInto,Wrap.cipherCrypt] at h
  split at h
  · cases h
  simp only [bind,Except.bind,Wrap.fill] at h
  split at h
  · cases h
  · rename_i hf
    split at hf
    · cases hf
      cases h
      exact ⟨rfl,rfl⟩
    · cases hf

theorem sslEncrypt_size {w' : Wrap σ} {n : Int} (hb : w.sslBufLen < 2^63) (hd : data.length < 2^63)
  (h : w.sslEncrypt garbage data = .ok (w',n)) :
  n = asInt (padded w.cc.blockSize data.length) ∧ w'.sslBufLen < 2^63 := by
  rw [Wrap.sslEncrypt] at h
  rw [padded]
  split at h
  · rw [if_pos ‹_›]
    obtain ⟨hs,hl⟩ := encryptInto_spec h
    exact ⟨hs,hl ▸ hb⟩
  rw [if_neg ‹_›]
  split at h
  · rw [if_pos ‹_›]
    dsimp only at h
    split at h
    · cases h
    · rename_i hl
      have hi := asInt_bounds ((data.length/w.cc.blockSize+1)*w.cc.blockSize)
      obtain ⟨hs,hk⟩ := encryptInto_spec h
      rw [hs,asInt_of_lt (by omega),Int.toNat_of_nonneg (by omega)]
      exact ⟨rfl,hk ▸ hb⟩
  · rw [if_neg ‹_›]
    obtain ⟨hs,hl⟩ := encryptInto_spec h
    refine ⟨hs,hl ▸ ?_⟩
    rw [Wrap.resize]
    split
    · exact hd
    · exact hb

-- no object is larger than half of the address space, so an int that came out negative is refused as a size
theorem sslSend_length {w' : Wrap σ} {wire : List UInt8} (hb : w.sslBufLen < 2^63) (hd : data.length < 2^63)
  (h : w.sslSend garbage data = .ok (w',wire)) : wire.length < 2^31 ∧ wire.length ≤ padded w.cc.blockSize data.length ∧
    (padded w.cc.blockSize data.length < 2^31 → wire.length = padded w.cc.blockSize data.length) := by
  rw [Wrap.sslSend] at h
  cases he : w.sslEncrypt garbage data with
  | error e => simp [he,bind,Except.bind] at h
  | ok r =>
    obtain ⟨hn,hl⟩ := sslEncrypt_size hb hd he
    simp only [he,bind,Except.bind] at h
    split at h
    · cases h
    rename_i hs
    cases h
    have hi := asInt_bounds (padded w.cc.blockSize data.length)
    have hj := asInt_le (padded w.cc.blockSize data.length)
    have hk := @asInt_of_lt (padded w.cc.blockSize data.length)
    rw [length_take_of_le (by rw [Wrap.allocated]; omega)]
    rw [hn,asSize] at hs ⊢
    omega

theorem readSizeAdjust_snd (size : Nat) : (w.readSizeAdjust garbage size).2 = asInt (padded w.cc.blockSize size) := by
  rw [Wrap.readSizeAdjust,padded]
  split
  · rfl
  · split <;> rfl

variable {r : Finished σ} {writes : List WriteResult}

theorem sslRdexact_moved {completed : Bool} {size : Nat} {rounds : List Round}
  (h : sslRdexact garbage w completed size rounds = .ok (some r)) (hc : r.rc = 0) :
  r.moved = padded w.cc.blockSize size ↔
    padded w.cc.blockSize size < 2^31 ∧ readFails completed true (padded w.cc.blockSize size) rounds 0 = false := by
  rw [sslRdexact,readSizeAdjust_snd] at h
  generalize padded w.cc.blockSize size = p at h ⊢
  split at h
  · cases h
    cases hc
  rename_i hp
  cases hr : rdexact completed (asInt p).toNat rounds [] with
  | none => simp [hr] at h
  | some t =>
    obtain ⟨-,hl,hs⟩ := rdexact_spec (zero_le _) hr
    have hb := asInt_bounds p
    have hm : r.moved = t.data.length := by
      rw [hr] at h
      dsimp only at h
      split at h
      · cases h
      · cases h
        rfl
    rw [hm]
    by_cases hk : p < 2^31
    · rw [asInt_of_lt hk,Int.toNat_natCast] at hs
      rw [hs,and_iff_right hk]
      rfl
    · exact iff_of_false (by omega) fun ha => hk ha.1

variable (hb : w.sslBufLen < 2^63) (hd : data.length < 2^63)
include hb hd

theorem sent_iff {w' : Wrap σ} {wire : List UInt8} {rc : Int} {moved : Nat}
  (he : w.sslSend garbage data = .ok (w',wire))
  (hw : writeExact wire writes 0 = some (rc,moved)) : moved = padded w.cc.blockSize data.length ↔
    padded w.cc.blockSize data.length < 2^31 ∧ writeFails (padded w.cc.blockSize data.length) writes 0 = false := by
  obtain ⟨hs,hl,hp⟩ := sslSend_length hb hd he
  obtain ⟨hm,hf⟩ := writeExact_spec (zero_le _) hw
  by_cases hk : padded w.cc.blockSize data.length < 2^31
  · rw [and_iff_right hk,← hp hk]
    exact hf
  · exact iff_of_false (by omega) fun h => hk h.1

theorem sslWrexact_moved (h : sslWrexact garbage w data writes = .ok (some r)) :
  r.moved = padded w.cc.blockSize data.length ↔
    padded w.cc.blockSize data.length < 2^31 ∧ writeFails (padded w.cc.blockSize data.length) writes 0 = false := by
  rw [sslWrexact] at h
  split at h
  · cases h
  rename_i w' wire he
  obtain ⟨⟨rc,moved⟩,hw,rfl⟩ := Option.map_eq_some_iff.mp (Except.ok.inj h)
  exact sent_iff hb hd he hw

theorem sslRatewrite_moved (h : sslRatewrite garbage w data writes = .ok (some r)) :
  r.moved = padded w.cc.blockSize data.length ↔
    padded w.cc.blockSize data.length < 2^31 ∧ writeFails (padded w.cc.blockSize data.length) writes 0 = false := by
  rw [sslRatewrite] at h
  split at h
  · cases h
  rename_i w' wire he
  obtain ⟨q,hn,rfl⟩ := Option.map_eq_some_iff.mp (Except.ok.inj h)
  obtain ⟨⟨rc,moved⟩,hw,rfl⟩ := Option.map_eq_some_iff.mp hn
  exact sent_iff hb hd he hw

end

theorem transfers_complete {σ : Type} (garbage : Nat → UInt8) (w : Wrap σ) (completed : Bool)
  (size : Nat) (data : List UInt8) (rounds : List Round) (writes : List WriteResult)
  (hsize : size < 2^64) (hbuf : w.sslBufLen < 2^63) (hdata : data.length < 2^63) :
  ((mcRdexact completed size rounds 0 [] = rdexact completed size rounds [] ∧
      ∀ t, mcRdexact completed size rounds 0 [] = some t → t.rc = 0 → t.data.length = size) ↔
    readFails completed false size rounds 0 = false) ∧
  (∀ r, sslRdexact garbage w completed size rounds = .ok (some r) → r.rc = 0 → (r.moved = padded w.cc.blockSize size ↔
    padded w.cc.blockSize size < 2^31 ∧ readFails completed true (padded w.cc.blockSize size) rounds 0 = false)) ∧
  (∀ r, sslWrexact garbage w data writes = .ok (some r) → r.rc = 0 → (r.moved = padded w.cc.blockSize data.length ↔
    padded w.cc.blockSize data.length < 2^31 ∧ writeFails (padded w.cc.blockSize data.length) writes 0 = false)) ∧
  ∀ r, sslRatewrite garbage w data writes = .ok (some r) → r.rc = padded w.cc.blockSize data.length →
    (r.moved = padded w.cc.blockSize data.length ↔
      padded w.cc.blockSize data.length < 2^31 ∧ writeFails (padded w.cc.blockSize data.length) writes 0 = false) := by
  have ha : mcRdexact completed size rounds 0 [] = rdexact completed size rounds [] ↔ _ :=
    mcRdexact_eq_iff hsize (show ([] : List UInt8).length ≤ size from zero_le _)
  refine ⟨⟨fun h => ha.mp h.1,fun h => ?_⟩,fun r => sslRdexact_moved,fun r h _ => sslWrexact_moved hbuf hdata h,
    fun r h _ => sslRatewrite_moved hbuf hdata h⟩
  rw [ha.mpr h]
  exact ⟨rfl,fun t ht => (rdexact_spec (zero_le _) ht).1.mp⟩

theorem interrupted_transfer_complete :
  ∃ t, mcRdexact false 3 [⟨.ready,.again⟩,⟨.ready,.got [1,2]⟩,⟨.ready,.got [3,4]⟩] 0 [] = some t ∧
    t.rc = 0 ∧ t.data.length = 3 ∧ ∃ r, sslWrexact (fun _ => 0) sender [1,2,3] [.wrote 10,.interrupted,.wrote 6] =
        .ok (some r) ∧ r.moved = 16 := by
  obtain ⟨hm,-,hw,-⟩ := transfers_complete (fun _ => 0) sender false 3 [1,2,3]
    [⟨.ready,.again⟩,⟨.ready,.got [1,2]⟩,⟨.ready,.got [3,4]⟩] [.wrote 10,.interrupted,.wrote 6] (by decide) (by decide)
    (by decide)
  exact ⟨⟨0,[1,2,3],[]⟩,by decide,rfl,(hm.mpr (by decide)).2 _ (by decide) rfl,_,rfl,(hw _ rfl rfl).mpr (by decide)⟩

theorem failures_reported_as_success : mcRdexact false 8 [⟨.ready,.failed⟩] 0 [] = some ⟨0,[],[]⟩ ∧
    rdexact false 8 [⟨.ready,.failed⟩] [] = some ⟨-1,[],[]⟩ ∧
    (∃ r, sslRdexact (fun _ => 0) receiver false 4 [⟨.ready,.failed⟩] = .ok (some r) ∧ r.rc = 0 ∧ r.moved = 0) ∧
    (∃ r, sslWrexact (fun _ => 0) sender [1,2,3,4] [.failed] = .ok (some r) ∧ r.rc = 0 ∧ r.moved = 0) ∧
    ∃ r, sslRatewrite (fun _ => 0) sender [1,2,3,4] [.failed] = .ok (some r) ∧ r.rc = 16 ∧ r.moved = 0 := by
  refine ⟨by decide,by decide,⟨_,rfl,rfl,rfl⟩,⟨_,rfl,rfl,rfl⟩,⟨_,rfl,rfl,rfl⟩⟩

end ExactTransfer
