import PMigrate.Core.Bytes
import PMigrate.Core.Transition

namespace HvmSave

open Transition List Bytes Nat

inductive Trap where
  | fault
  | bug
  deriving DecidableEq

def fetch (data : List UInt8) (off n : Nat) : Except Trap (List UInt8) :=
  if off+n ≤ data.length then .ok ((data.drop off).take n) else .error .fault

def put (data : List UInt8) (off : Nat) (src : List UInt8) : Except Trap (List UInt8) :=
  if off+src.length ≤ data.length then
    .ok (data.take off ++ (src ++ data.drop (off+src.length)))
  else .error .fault

structure Descriptor where
  (typecode inst : UInt16)
  length : UInt32
  deriving DecidableEq

def sizeofDescriptor : Nat := 8

def Descriptor.bytes (d : Descriptor) : List UInt8 :=
  encode 2 d.typecode.toNat ++ (encode 2 d.inst.toNat ++ encode 4 d.length.toNat)

def Descriptor.parse (bs : List UInt8) : Descriptor where
  typecode := UInt16.ofNat (peek 0 2 bs)
  inst := UInt16.ofNat (peek 2 2 bs)
  length := UInt32.ofNat (peek 4 4 bs)

structure Context where
  (cur size : UInt32)
  data : List UInt8
  deriving DecidableEq

structure Record where
  (tc inst : UInt16)
  len : UInt32
  src : List UInt8
  src_len : src.length = len.toNat

def Record.bytes (r : Record) : List UInt8 := Descriptor.bytes ⟨r.tc,r.inst,r.len⟩ ++ r.src

def need (bits : Nat) (len : UInt32) : Nat := (len.toNat+sizeofDescriptor)%2^bits

namespace Context

def left (h : Context) : Nat := (h.size-h.cur).toNat

def initEntry (bits : Nat) (h : Context) (tc inst : UInt16) (len : UInt32) : Except Trap (Int × Context) :=
  if h.left < need bits len then .ok (-1,h)
  else (put h.data h.cur.toNat (Descriptor.bytes ⟨tc,inst,len⟩)).map fun data =>
    (0,{h with cur := h.cur+UInt32.ofNat sizeofDescriptor,data := data})

def writeEntry (h : Context) (src : List UInt8) (srcLen : UInt32) : Except Trap Context :=
  (put h.data h.cur.toNat src).map fun data => {h with cur := h.cur+srcLen,data := data}

section
variable (bits : Nat) (h : Context)

def saveEntry (r : Record) : Except Trap (Int × Context) :=
  match h.initEntry bits r.tc r.inst r.len with
  | .error e => .error e
  | .ok (rc,h) => if rc = 0 then (h.writeEntry r.src r.len).map fun h => (0,h) else .ok (rc,h)

def checkEntry (type : UInt16) (len : UInt32) (strictLength : Bool) :
    Except Trap (Int × Context) :=
  if h.left < need bits len then .ok (-1,h)
  else (fetch h.data h.cur.toNat sizeofDescriptor).map fun bs =>
    let d := Descriptor.parse bs
    if type ≠ d.typecode ∨ len < d.length ∨ (strictLength = true ∧ len ≠ d.length) then (-1,h)
    else (0,{h with cur := h.cur+UInt32.ofNat sizeofDescriptor})

def readEntry (destLen : UInt32) : Except Trap (List UInt8 × Context) :=
  match fetch h.data ((h.cur.toNat+2^bits-sizeofDescriptor)%2^bits) sizeofDescriptor with
  | .error e => .error e
  | .ok bs =>
    let d := Descriptor.parse bs
    if destLen < d.length then .error .bug
    else (fetch h.data h.cur.toNat d.length.toNat).map fun src =>
      (src ++ List.replicate (destLen.toNat-d.length.toNat) 0,{h with cur := h.cur+d.length})

end

end Context

structure SaveType where
  code : UInt16
  length : UInt32
  compat : Option (UInt32 × (List UInt8 → Int × List UInt8))

def Context.loadWith (bits : Nat) (h : Context) (type : UInt16) (len : UInt32) (strict : Bool) :
    Except Trap (Int × List UInt8 × Context) :=
  match h.checkEntry bits type len strict with
  | .error e => .error e
  | .ok (rc,h) => if rc = 0 then (h.readEntry bits len).map fun (dst,h) => (0,dst,h) else .ok (rc,[],h)

def Context.loadEntry (bits : Nat) (h : Context) (x : SaveType) (strict : Bool) :
    Except Trap (Int × List UInt8 × Context) :=
  match h.loadWith bits x.code x.length strict with
  | .error e => .error e
  | .ok (rc,dst,h) =>
    if rc = 0 then .ok (rc,dst,h)
    else
      match x.compat with
      | none => .ok (rc,dst,h)
      | some (len,fix) =>
        match h.loadWith bits x.code len strict with
        | .error e => .error e
        | .ok (rc,dst,h) => if rc = 0 then .ok ((fix dst).1,(fix dst).2,h) else .ok (rc,dst,h)

def Context.saveAll (bits : Nat) (h : Context) : List Record → Except Trap (List Int × Context)
  | [] => .ok ([],h)
  | r :: rs =>
    match h.saveEntry bits r with
    | .error e => .error e
    | .ok (rc,h) => (Context.saveAll bits h rs).map fun (rcs,h) => (rc :: rcs,h)

structure Reading where
  type : UInt16
  len : UInt32
  strict : Bool

def Context.loadAll (bits : Nat) (h : Context) : List Reading → Except Trap (List (Int × List UInt8) × Context)
  | [] => .ok ([],h)
  | q :: qs =>
    match h.loadWith bits q.type q.len q.strict with
    | .error e => .error e
    | .ok (rc,dst,h) => (Context.loadAll bits h qs).map fun (rs,h) => ((rc,dst) :: rs,h)

inductive Call where
  | check (type : UInt16) (len : UInt32) (strict : Bool)
  | read (destLen : UInt32)
  | load (x : SaveType) (strict : Bool)

structure Reader where
  h : Context
  checked : Bool

def Reader.call (bits : Nat) (r : Reader) : Call → Except Trap Reader
  | .check type len strict => (r.h.checkEntry bits type len strict).map fun (rc,h) => ⟨h,decide (rc = 0)⟩
  | .read destLen => (r.h.readEntry bits destLen).map fun (_,h) => ⟨h,false⟩
  | .load x strict => (r.h.loadEntry bits x strict).map fun (_,_,h) => ⟨h,false⟩

def Reader.step (bits : Nat) (r : Reader) (c : Call) : Option Reader := (r.call bits c).toOption

def Fits (bits : Nat) (len : UInt32) : Prop := len.toNat+sizeofDescriptor < 2^bits

def Allowed (bits : Nat) (r : Reader) : Call → Prop
  | .check _ len _ => Fits bits len
  | .read _ => r.checked = true
  | .load x _ => Fits bits x.length ∧ ∀ c ∈ x.compat, Fits bits c.1

structure Context.Ok (h : Context) : Prop where
  cur_le : h.cur.toNat ≤ h.size.toNat
  length : h.data.length = h.size.toNat

def Matching (size : Nat) : Nat → List Record → List Reading → Prop
  | _,_,[] => True
  | _,[],_ :: _ => False
  | pos,r :: rs,q :: qs =>
    q.type = r.tc ∧ (q.len = r.len ∨ q.strict = false ∧ r.len ≤ q.len ∧ pos+sizeofDescriptor+q.len.toNat ≤ size) ∧
    Matching size (pos+sizeofDescriptor+r.len.toNat) rs qs

theorem fetch_ok {data : List UInt8} {off n : Nat} (h : off+n ≤ data.length) :
  fetch data off n = .ok ((data.drop off).take n) := if_pos h

theorem put_ok {data src : List UInt8} {off : Nat} (h : off+src.length ≤ data.length) :
  put data off src = .ok (data.take off ++ (src ++ data.drop (off+src.length))) := if_pos h

@[simp] theorem length_descriptor (d : Descriptor) : d.bytes.length = sizeofDescriptor := by
  simp [Descriptor.bytes,sizeofDescriptor]

@[simp] theorem length_record (r : Record) : r.bytes.length = sizeofDescriptor+r.len.toNat := by
  rw [Record.bytes,length_append,length_descriptor,r.src_len]

theorem parse_bytes (d : Descriptor) : Descriptor.parse d.bytes = d := by
  have ht : decode (encode 2 d.typecode.toNat) = d.typecode.toNat := decode_encode_of_lt d.typecode.toNat_lt
  have hi : decode (encode 2 d.inst.toNat) = d.inst.toNat := decode_encode_of_lt d.inst.toNat_lt
  have he : decode (encode 4 d.length.toNat) = d.length.toNat := decode_encode_of_lt d.length.toNat_lt
  have hl : (encode 2 d.typecode.toNat ++ (encode 2 d.inst.toNat ++ encode 4 d.length.toNat)).drop 4 =
        encode 4 d.length.toNat := by
    rw [← append_assoc]
    exact drop_left' (by simp)
  have ha : (encode 4 d.length.toNat).take 4 = encode 4 d.length.toNat := take_of_length_le (by simp)
  simp [Descriptor.parse,Descriptor.bytes,peek,ht,hi,hl,ha,he]

theorem toNat_advance {a n b : UInt32} (h : a.toNat+n.toNat ≤ b.toNat) : (a+n).toNat = a.toNat+n.toNat := by
  rw [UInt32.toNat_add]
  exact mod_eq_of_lt (lt_of_le_of_lt h b.toNat_lt)

theorem Fits.need_eq {bits : Nat} {len : UInt32} (h : Fits bits len) :
  need bits len = len.toNat+sizeofDescriptor := mod_eq_of_lt h

namespace Context

def desc (h : Context) : Descriptor := .parse ((h.data.drop h.cur.toNat).take sizeofDescriptor)

def skip (h : Context) (n : UInt32) : Context := {h with cur := h.cur+n}

def past (h : Context) : Context := h.skip (UInt32.ofNat sizeofDescriptor)

def Refuses (h : Context) (type : UInt16) (len : UInt32) (strict : Bool) : Prop :=
  h.left < len.toNat+sizeofDescriptor ∨ type ≠ h.desc.typecode ∨ len < h.desc.length ∨
    (strict = true ∧ len ≠ h.desc.length)

variable {bits : Nat} {h : Context}

section
variable {type : UInt16} {len : UInt32} {strict : Bool}

theorem Ok.left_eq (ho : h.Ok) : h.left = h.size.toNat-h.cur.toNat := UInt32.toNat_sub_of_le _ _ ho.cur_le

theorem Ok.skip {n : UInt32} (ho : h.Ok) (hn : n.toNat ≤ h.left) :
  (h.skip n).Ok ∧ (h.skip n).cur.toNat = h.cur.toNat+n.toNat := by
  have hl := ho.cur_le
  rw [ho.left_eq] at hn
  have hc : (h.skip n).cur.toNat = h.cur.toNat+n.toNat := @toNat_advance h.cur n h.size (by omega)
  exact ⟨⟨by rw [hc]; change _ ≤ h.size.toNat; omega,ho.length⟩,hc⟩

theorem checkEntry_refused (ho : h.Ok) (hf : Fits bits len) (he : h.Refuses type len strict) :
  h.checkEntry bits type len strict = .ok (-1,h) := by
  rw [checkEntry,hf.need_eq]
  split
  · rfl
  rename_i hr
  have hl := ho.cur_le
  rw [ho.left_eq] at hr
  rw [fetch_ok (by rw [ho.length]; omega)]
  have hm := he.resolve_left (by rwa [ho.left_eq])
  exact congrArg Except.ok (if_pos hm)

theorem checkEntry_accepted (ho : h.Ok) (hf : Fits bits len) (ha : ¬h.Refuses type len strict) :
  h.checkEntry bits type len strict = .ok (0,h.past) := by
  obtain ⟨hr,hm⟩ := not_or.mp ha
  have hl := ho.cur_le
  rw [checkEntry,hf.need_eq,if_neg hr]
  rw [ho.left_eq] at hr
  rw [fetch_ok (by rw [ho.length]; omega)]
  exact congrArg Except.ok (if_neg hm)

theorem not_refuses_room (ha : ¬h.Refuses type len strict) :
  sizeofDescriptor+len.toNat ≤ h.left ∧ h.desc.length.toNat ≤ len.toNat := by
  obtain ⟨hr,hm⟩ := not_or.mp ha
  obtain ⟨-,hl⟩ := not_or.mp hm
  have he := UInt32.not_lt.mp (not_or.mp hl).1
  exact ⟨by omega,he⟩

theorem Ok.past (ho : h.Ok) (hr : sizeofDescriptor ≤ h.left) :
  h.past.Ok ∧ h.past.cur.toNat = h.cur.toNat+sizeofDescriptor :=
  ho.skip hr

theorem readEntry_past (hb : 32 ≤ bits) (ho : h.Ok) {destLen : UInt32}
  (hr : sizeofDescriptor+h.desc.length.toNat ≤ h.left) : h.past.readEntry bits destLen =
    if destLen < h.desc.length then .error .bug
    else .ok ((h.data.drop (h.cur.toNat+sizeofDescriptor)).take h.desc.length.toNat ++
      List.replicate (destLen.toNat-h.desc.length.toNat) 0,h.past.skip h.desc.length) := by
  have hl := ho.cur_le
  have ht := h.cur.toNat_lt
  have hp : 2^32 ≤ 2^bits := Nat.pow_le_pow_right (by decide) hb
  obtain ⟨-,hc⟩ := ho.past (by omega)
  rw [ho.left_eq] at hr
  have ha : (h.past.cur.toNat+2^bits-sizeofDescriptor)%2^bits = h.cur.toNat := by
    rw [hc,show h.cur.toNat+sizeofDescriptor+2^bits-sizeofDescriptor =
      h.cur.toNat+2^bits by omega,add_mod_right]
    exact mod_eq_of_lt (by omega)
  have hd : fetch h.past.data h.cur.toNat sizeofDescriptor = .ok ((h.data.drop h.cur.toNat).take sizeofDescriptor) :=
    fetch_ok (by change _ ≤ h.data.length; rw [ho.length]; omega)
  have he : fetch h.past.data h.past.cur.toNat h.desc.length.toNat =
      .ok ((h.data.drop (h.cur.toNat+sizeofDescriptor)).take h.desc.length.toNat) := by
    rw [hc]
    exact fetch_ok (by change _ ≤ h.data.length; rw [ho.length]; omega)
  rw [readEntry,ha,hd]
  change (if destLen < h.desc.length then _ else _) = _
  split
  · rfl
  change Except.map _ (fetch h.past.data h.past.cur.toNat h.desc.length.toNat) = _
  rw [he]
  rfl

theorem past_skip_ok (ho : h.Ok) (hr : sizeofDescriptor+h.desc.length.toNat ≤ h.left) :
  (h.past.skip h.desc.length).Ok ∧ (h.past.skip h.desc.length).cur.toNat =
      h.cur.toNat+sizeofDescriptor+h.desc.length.toNat := by
  obtain ⟨hp,hc⟩ := ho.past (by omega)
  have hl : h.desc.length.toNat ≤ h.past.left := by
    rw [hp.left_eq,hc]
    rw [ho.left_eq] at hr
    change _ ≤ h.size.toNat-_
    omega
  obtain ⟨hs,he⟩ := hp.skip hl
  exact ⟨hs,by rw [he,hc]⟩

theorem loadWith_refused (ho : h.Ok) (hf : Fits bits len) (hr : h.Refuses type len strict) :
  h.loadWith bits type len strict = .ok (-1,[],h) := by
  rw [loadWith,checkEntry_refused ho hf hr]
  rfl

theorem loadWith_accepted (hb : 32 ≤ bits) (ho : h.Ok) (hf : Fits bits len) (ha : ¬h.Refuses type len strict) :
  h.loadWith bits type len strict = .ok (0,(h.data.drop (h.cur.toNat+sizeofDescriptor)).take h.desc.length.toNat ++
      List.replicate (len.toNat-h.desc.length.toNat) 0,h.past.skip h.desc.length) := by
  obtain ⟨hc,hl⟩ := not_refuses_room ha
  have hr := @readEntry_past bits h hb ho len (by omega)
  rw [if_neg (show ¬len < h.desc.length from not_lt.mpr hl)] at hr
  rw [loadWith,checkEntry_accepted ho hf ha]
  simp only [hr,Except.map]
  rfl

theorem loadWith_safe (hb : 32 ≤ bits) (ho : h.Ok) (hf : Fits bits len) :
  ∃ rc dst h', h.loadWith bits type len strict = .ok (rc,dst,h') ∧ h'.Ok ∧ h'.data = h.data := by
  by_cases he : h.Refuses type len strict
  · exact ⟨_,_,_,loadWith_refused ho hf he,ho,rfl⟩
  · obtain ⟨hr,hl⟩ := not_refuses_room he
    exact ⟨_,_,_,loadWith_accepted hb ho hf he,(past_skip_ok ho (by omega)).1,rfl⟩

end

section
variable {r : Record}

theorem saveEntry_refused (hf : Fits bits r.len) (hr : h.left < r.len.toNat+sizeofDescriptor) :
  h.saveEntry bits r = .ok (-1,h) := by
  have hi : h.initEntry bits r.tc r.inst r.len = .ok (-1,h) := by rw [initEntry,hf.need_eq,if_pos hr]
  rw [saveEntry,hi]
  rfl

def written (h : Context) (r : Record) : Context where
  cur := h.cur+UInt32.ofNat sizeofDescriptor+r.len
  size := h.size
  data := h.data.take h.cur.toNat ++ (r.bytes ++ h.data.drop (h.cur.toNat+r.bytes.length))

theorem saveEntry_accepted (ho : h.Ok) (ha : Fits bits r.len)
  (hr : ¬h.left < r.len.toNat+sizeofDescriptor) : h.saveEntry bits r = .ok (0,h.written r) := by
  have he := ho.cur_le
  have hn := ho.length
  obtain ⟨-,hc⟩ := ho.past (by omega)
  have hl := ho.left_eq
  have hd := length_descriptor ⟨r.tc,r.inst,r.len⟩
  have ht : (h.data.take h.cur.toNat).length = h.cur.toNat := by
    rw [length_take]
    omega
  have hi : h.initEntry bits r.tc r.inst r.len = .ok (0,{h.past with
      data := h.data.take h.cur.toNat ++ (Descriptor.bytes ⟨r.tc,r.inst,r.len⟩ ++
        h.data.drop (h.cur.toNat+sizeofDescriptor))}) := by
    rw [initEntry,ha.need_eq,if_neg hr,put_ok (by omega),hd]
    rfl
  rw [saveEntry,hi]
  simp only [if_pos trivial]
  rw [writeEntry,put_ok]
  · have hf : (h.data.take h.cur.toNat ++ (Descriptor.bytes ⟨r.tc,r.inst,r.len⟩ ++
        h.data.drop (h.cur.toNat+sizeofDescriptor))).take (h.cur.toNat+sizeofDescriptor) =
          h.data.take h.cur.toNat ++ Descriptor.bytes ⟨r.tc,r.inst,r.len⟩ := by
      rw [← append_assoc]
      exact take_left' (by rw [length_append,ht,hd])
    have hb : (h.data.take h.cur.toNat ++ (Descriptor.bytes ⟨r.tc,r.inst,r.len⟩ ++
        h.data.drop (h.cur.toNat+sizeofDescriptor))).drop
          (h.cur.toNat+sizeofDescriptor+r.src.length) = h.data.drop (h.cur.toNat+r.bytes.length) := by
      rw [← append_assoc,drop_append,length_append,ht,hd,drop_drop,
        drop_eq_nil_of_le (by rw [length_append,ht,hd]; omega),length_record,r.src_len]
      exact congrArg (List.drop · h.data) (by omega)
    simp only [hc,hf,hb,Except.map,written,Record.bytes,append_assoc]
    rfl
  · simp only [hc,length_append,ht,hd,length_drop,r.src_len,hn]
    omega

theorem Ok.written (ho : h.Ok) (ha : ¬h.left < r.len.toNat+sizeofDescriptor) :
  (h.written r).Ok ∧ (h.written r).cur.toNat = h.cur.toNat+r.bytes.length := by
  have hb := ho.cur_le
  have hn := ho.length
  have hl := ho.left_eq
  obtain ⟨hp,hc⟩ := ho.past (by omega)
  have hr : r.len.toNat ≤ h.past.left := by
    rw [hp.left_eq,hc]
    change _ ≤ h.size.toNat-_
    omega
  have he : (h.written r).cur.toNat = h.cur.toNat+r.bytes.length := by
    rw [length_record,← Nat.add_assoc,← hc]
    exact (hp.skip hr).2
  refine ⟨⟨?_,?_⟩,he⟩
  · rw [he,length_record]
    change _ ≤ h.size.toNat
    omega
  · simp only [Context.written,length_append,length_take,length_drop,length_record]
    omega

theorem saveAll_spec (ho : h.Ok) {rs : List Record} (hi : ∀ r ∈ rs, Fits bits r.len) :
  ∃ rcs h', h.saveAll bits rs = .ok (rcs,h') ∧ h'.Ok ∧ h'.size = h.size ∧
    h.cur.toNat ≤ h'.cur.toNat ∧ h'.data.take h.cur.toNat = h.data.take h.cur.toNat ∧
    (∀ n, h'.cur.toNat ≤ n → h'.data.drop n = h.data.drop n) ∧
    ((∀ rc ∈ rcs, rc = 0) → h'.data = h.data.take h.cur.toNat ++
      ((rs.map Record.bytes).flatten ++ h.data.drop h'.cur.toNat)) := by
  induction rs generalizing h with
  | nil =>
    refine ⟨_,_,rfl,ho,rfl,le_refl _,rfl,fun _ _ => rfl,fun _ => ?_⟩
    simp
  | cons r rs ih =>
    have hi' := hi r (by simp)
    have he : ∀ q ∈ rs, Fits bits q.len := fun q hq => hi q (by simp [hq])
    by_cases hr : h.left < r.len.toNat+sizeofDescriptor
    · obtain ⟨rcs,h',ha,ho',hs,hc,ht,hd,-⟩ := ih ho he
      refine ⟨-1 :: rcs,h',?_,ho',hs,hc,ht,hd,fun hz => ?_⟩
      · rw [saveAll,saveEntry_refused hi' hr]
        simp only [ha,Except.map]
      · have hg := hz (-1) (by simp)
        cases hg
    obtain ⟨ho1,hc1⟩ := ho.written hr
    obtain ⟨rcs,h',ha,ho',hs,hc,ht,hd,hk⟩ := ih ho1 he
    have hv := ho.cur_le
    have hl := ho.length
    have hp : (h.data.take h.cur.toNat).length = h.cur.toNat := by
      rw [length_take]
      omega
    have hf : (h.written r).data.take (h.written r).cur.toNat = h.data.take h.cur.toNat ++ r.bytes := by
      rw [hc1,Context.written,← append_assoc]
      exact take_left' (by rw [length_append,hp])
    have hb (n : Nat) (hn : (h.written r).cur.toNat ≤ n) : (h.written r).data.drop n = h.data.drop n := by
      rw [hc1] at hn
      rw [Context.written,← append_assoc,drop_append,drop_eq_nil_of_le,length_append,hp,drop_drop,nil_append]
      · exact congrArg (List.drop · h.data) (by omega)
      · rw [length_append,hp]
        exact hn
    refine ⟨0 :: rcs,h',?_,ho',hs,by omega,?_,fun n hn => ?_,fun hz => ?_⟩
    · rw [saveAll,saveEntry_accepted ho hi' hr]
      simp only [ha,Except.map]
    · have hta' := congrArg (List.take h.cur.toNat) ht
      rw [hf,take_take,min_eq_left (by omega)] at hta'
      rw [hta']
      exact take_left' hp
    · rw [hd n hn,hb n (by omega)]
    · have hm := hk fun rc hu => hz rc (by simp [hu])
      rw [hm,hf,hb _ hc]
      simp only [map_cons,flatten_cons,append_assoc]

end

theorem desc_at {h : Context} {pre post : List UInt8} {r : Record} (hp : pre.length = h.cur.toNat)
  (hd : h.data = pre ++ (r.bytes ++ post)) : h.desc = ⟨r.tc,r.inst,r.len⟩ ∧
    (h.data.drop (h.cur.toNat+sizeofDescriptor)).take r.len.toNat = r.src := by
  have he := length_descriptor ⟨r.tc,r.inst,r.len⟩
  refine ⟨?_,?_⟩
  · rw [desc,hd,drop_left' hp,Record.bytes,append_assoc,take_left' he,parse_bytes]
  · rw [hd,Record.bytes,append_assoc,← append_assoc,drop_left',take_left' r.src_len]
    rw [length_append,hp,he]

theorem loadWith_record (hb : 32 ≤ bits) {h : Context} (ho : h.Ok) {pre post : List UInt8}
  {r : Record} {q : Reading} (hp : pre.length = h.cur.toNat)
  (hd : h.data = pre ++ (r.bytes ++ post)) (hf : Fits bits q.len) (hy : q.type = r.tc)
  (hl : q.len = r.len ∨ q.strict = false ∧ r.len ≤ q.len ∧
    h.cur.toNat+sizeofDescriptor+q.len.toNat ≤ h.size.toNat) : h.loadWith bits q.type q.len q.strict =
    .ok (0,r.src ++ List.replicate (q.len.toNat-r.len.toNat) 0,h.past.skip r.len) := by
  obtain ⟨hc,hg⟩ := desc_at hp hd
  have ht := congrArg List.length hd
  rw [length_append,length_append,length_record,ho.length,hp] at ht
  have hi : r.len.toNat ≤ q.len.toNat := hl.elim (fun he => he ▸ le_refl _) fun hz => hz.2.1
  have hk : h.cur.toNat+sizeofDescriptor+q.len.toNat ≤ h.size.toNat := by
    rcases hl with he | hz
    · rw [he]
      omega
    · exact hz.2.2
  have ha : ¬h.Refuses q.type q.len q.strict := by
    rw [Refuses,hc,ho.left_eq]
    rintro (hr | hr | hr | ⟨hs,hr⟩)
    · omega
    · exact hr hy
    · exact not_lt.mpr hi hr
    · rcases hl with he | hz
      · exact hr he
      · rw [hz.1] at hs
        cases hs
  rw [loadWith_accepted hb ho hf ha,hc]
  simp only [hg]

theorem loadAll_records (hb : 32 ≤ bits) {h : Context} (ho : h.Ok) {pre post : List UInt8}
  {rs : List Record} {qs : List Reading} (hp : pre.length = h.cur.toNat)
  (hd : h.data = pre ++ ((rs.map Record.bytes).flatten ++ post))
  (hf : ∀ q ∈ qs, Fits bits q.len) (hm : Matching h.size.toNat h.cur.toNat rs qs) :
  ∃ h', h.loadAll bits qs = .ok (List.zipWith (fun r q =>
    ((0 : Int),r.src ++ List.replicate (q.len.toNat-r.len.toNat) 0)) rs qs,h') := by
  induction qs generalizing h rs pre with
  | nil => exact ⟨h,by rw [loadAll,zipWith_nil_right]⟩
  | cons q qs ih =>
    cases rs with
    | nil => exact hm.elim
    | cons r rs =>
      obtain ⟨hy,hc,hr⟩ := hm
      rw [map_cons,flatten_cons,append_assoc] at hd
      have hl := loadWith_record hb ho hp hd (hf q (by simp)) hy hc
      obtain ⟨he,-⟩ := desc_at hp hd
      have ht := congrArg List.length hd
      rw [length_append,length_append,length_record,ho.length,hp] at ht
      have hg : sizeofDescriptor+h.desc.length.toNat ≤ h.left := by
        rw [he,ho.left_eq]
        change _+r.len.toNat ≤ _
        omega
      obtain ⟨ho',hc'⟩ := past_skip_ok ho hg
      rw [he] at ho' hc'
      obtain ⟨h',ha⟩ := @ih (h.past.skip r.len) ho' (pre ++ r.bytes) rs
        (by rw [length_append,hp,length_record,hc',Nat.add_assoc])
        (by rw [append_assoc]; exact hd) (fun q hq => hf q (by simp [hq]))
        (by rw [hc']; exact hr)
      refine ⟨h',?_⟩
      rw [loadAll,hl]
      simp only [ha,Except.map,zipWith_cons_cons]

end Context

structure Reader.Inv (data : List UInt8) (r : Reader) : Prop where
  data_eq : r.h.data = data
  ok : r.h.Ok
  checked : r.checked = true → ∃ g : Context, g.Ok ∧ r.h = g.past ∧ sizeofDescriptor+g.desc.length.toNat ≤ g.left

section
variable {bits : Nat} {data : List UInt8} {r : Reader}

theorem loadEntry_safe (hb : 32 ≤ bits) {h : Context} (ho : h.Ok) {x : SaveType} {strict : Bool}
  (hf : Fits bits x.length) (ha : ∀ c ∈ x.compat, Fits bits c.1) :
  ∃ rc dst h', h.loadEntry bits x strict = .ok (rc,dst,h') ∧ h'.Ok ∧ h'.data = h.data := by
  obtain ⟨rc,dst,h1,hl,ho1,hd1⟩ := @Context.loadWith_safe bits h x.code x.length strict hb ho hf
  rw [Context.loadEntry,hl]
  dsimp only
  split
  · exact ⟨_,_,_,rfl,ho1,hd1⟩
  cases hc : x.compat with
  | none => exact ⟨_,_,_,rfl,ho1,hd1⟩
  | some c =>
    obtain ⟨rc,dst,h2,hl2,ho2,hd2⟩ := @Context.loadWith_safe bits h1 x.code c.1 strict hb ho1 (ha c hc)
    simp only [hl2]
    split <;> exact ⟨_,_,_,rfl,ho2,hd2.trans hd1⟩

theorem Reader.Inv.call (hb : 32 ≤ bits) (h : r.Inv data) {c : Call} (hc : Allowed bits r c) :
  r.call bits c = .error .bug ∨ ∃ r', r.call bits c = .ok r' ∧ r'.Inv data := by
  cases c with
  | check type len strict =>
    by_cases hf : r.h.Refuses type len strict
    · refine .inr ⟨⟨r.h,false⟩,?_,h.data_eq,h.ok,nofun⟩
      rw [Reader.call,Context.checkEntry_refused h.ok hc hf]
      rfl
    obtain ⟨hr,hi⟩ := Context.not_refuses_room hf
    refine .inr ⟨⟨r.h.past,true⟩,?_,h.data_eq,(h.ok.past (by omega)).1,fun _ => ⟨r.h,h.ok,rfl,by omega⟩⟩
    rw [Reader.call,Context.checkEntry_accepted h.ok hc hf]
    rfl
  | read destLen =>
    obtain ⟨g,hg,he,hr⟩ := h.checked hc
    have ha := @Context.readEntry_past bits g hb hg destLen hr
    rw [Reader.call,he,ha]
    split
    · exact .inl rfl
    refine .inr ⟨⟨g.past.skip g.desc.length,false⟩,rfl,?_,(Context.past_skip_ok hg hr).1,nofun⟩
    rw [← h.data_eq,he]
    rfl
  | load x strict =>
    obtain ⟨rc,dst,h',hl,ho,hd⟩ := @loadEntry_safe bits hb r.h h.ok x strict hc.1 hc.2
    refine .inr ⟨⟨h',false⟩,?_,hd.trans h.data_eq,ho,nofun⟩
    rw [Reader.call,hl]
    rfl

theorem Reader.Inv.reach (hb : 32 ≤ bits) {t : Reader} (h : r.Inv data)
  (hr : Reach (Reader.step bits) (Allowed bits) r t) : t.Inv data := by
  refine reach_invariant h (fun u c v _ hu hc hv => ?_) hr
  rcases hu.call hb hc with ha | ⟨r',ho,hi⟩
  · rw [Reader.step,ha] at hv
    cases hv
  rw [Reader.step,ho] at hv
  cases hv
  exact hi

end

theorem record_stream {bits : Nat} (hbits : 32 ≤ bits) {h : Context} (hok : h.Ok) :
  (∀ rs : List Record, (∀ r ∈ rs, Fits bits r.len) → ∃ rcs h', h.saveAll bits rs = .ok (rcs,h') ∧ h'.Ok ∧
    h'.size = h.size ∧
      (∀ qs : List Reading, (∀ rc ∈ rcs, rc = 0) → (∀ q ∈ qs, Fits bits q.len) →
        Matching h.size.toNat h.cur.toNat rs qs →
        ∃ g, {h' with cur := h.cur}.loadAll bits qs = .ok (List.zipWith (fun r q =>
          ((0 : Int),r.src ++ List.replicate (q.len.toNat-r.len.toNat) 0)) rs qs,g))) ∧
  (∀ (r : Record) (rc : Int) (h' : Context), Fits bits r.len → h.saveEntry bits r = .ok (rc,h') → rc ≠ 0 → h' = h) ∧
  (∀ t, Reach (Reader.step bits) (Allowed bits) ⟨h,false⟩ t →
    t.h.Ok ∧ t.h.data = h.data ∧ ∀ c, Allowed bits t c → t.call bits c ≠ .error .fault) := by
  refine ⟨fun rs hf => ?_,fun r rc h' hf hs hg => ?_,fun t he => ?_⟩
  · obtain ⟨rcs,h',ha,hok',hi,hu,-,-,hd⟩ := Context.saveAll_spec hok hf
    refine ⟨rcs,h',ha,hok',hi,fun qs hz ht hm => ?_⟩
    have hl := hok.cur_le
    have hp := hok.length
    refine @Context.loadAll_records bits hbits {h' with cur := h.cur} ⟨?_,hok'.length⟩ _ _ rs qs ?_
      (hd hz) ht ?_
    · change h.cur.toNat ≤ h'.size.toNat
      rw [hi]
      exact hl
    · rw [length_take]
      change _ = h.cur.toNat
      omega
    · change Matching h'.size.toNat h.cur.toNat rs qs
      rw [hi]
      exact hm
  · by_cases ho : h.left < r.len.toNat+sizeofDescriptor
    · rw [Context.saveEntry_refused hf ho] at hs
      cases hs
      rfl
    rw [Context.saveEntry_accepted hok hf ho] at hs
    cases hs
    exact absurd rfl hg
  · have hn : t.Inv h.data := 
      Reader.Inv.reach hbits ⟨rfl,hok,fun hk => by cases hk⟩ he
    refine ⟨hn.ok,hn.data_eq,fun c hc => ?_⟩
    rcases hn.call hbits hc with hb | ⟨r',hr,-⟩
    · rw [hb]
      exact fun hq => nomatch hq
    · rw [hr]
      exact fun hq => nomatch hq

def blank (n : Nat) (size : UInt32) : Context := ⟨0,size,List.replicate n 0⟩

def byteRecord (b : UInt8) : Record := ⟨5,0,4,[b,0,0,b],rfl⟩

theorem two_records_round_trip : ∃ h', (blank 64 64).saveAll 64 [byteRecord 7,byteRecord 9] = .ok ([0,0],h') ∧
    ∃ g, {h' with cur := 0}.loadAll 64 [⟨5,4,true⟩,⟨5,6,false⟩] = .ok ([(0,[7,0,0,7]),(0,[9,0,0,9,0,0])],g) := by
  have ho : (blank 64 64).Ok := ⟨by decide,by decide +kernel⟩
  have hr : ((blank 64 64).saveAll 64 [byteRecord 7,byteRecord 9]).map Prod.fst = .ok [0,0] := by
    decide +kernel
  obtain ⟨rcs,h',ha,-,-,hl⟩ := (record_stream (by decide : 32 ≤ 64) ho).1
    [byteRecord 7,byteRecord 9] (by simp [byteRecord,Fits,sizeofDescriptor])
  rw [ha] at hr
  cases hr
  obtain ⟨g,hg⟩ := hl [⟨5,4,true⟩,⟨5,6,false⟩] (by simp) (by simp [Fits,sizeofDescriptor])
    (by simp [Matching,byteRecord,blank,sizeofDescriptor])
  exact ⟨h',ha,g,hg⟩

theorem unguarded_calls_fail : (blank 16 16).readEntry 64 4 = .error .fault ∧
  (((blank 12 12).saveEntry 64 (byteRecord 7)).map Prod.fst = .ok 0 ∧
    ∀ h', (blank 12 12).saveEntry 64 (byteRecord 7) = .ok (0,h') →
      ({h' with cur := 0}.loadWith 64 5 8 false).map Prod.fst = .ok (-1)) ∧
  (blank 0 0).checkEntry 32 5 4294967288 true = .error .fault := by
  refine ⟨by decide +kernel,⟨by decide +kernel,fun h' hs => ?_⟩,by decide +kernel⟩
  have hr : (blank 12 12).saveEntry 64 (byteRecord 7) = .ok (0,⟨12,12,[5,0,0,0,4,0,0,0,7,0,0,7]⟩) := by decide +kernel
  rw [hr] at hs
  cases hs
  decide +kernel

end HvmSave
