import PMigrate.Hypervisor.HvmSave

namespace HvmSave

open List Bytes

inductive RecordType where
  | cpu
  | pic
  | ioapic
  | lapic
  | lapicRegs
  | pciIrq
  | isaIrq
  | pciLink
  | pit
  | rtc
  | hpet
  | pmtimer
  | mtrr
  | viridian
  | cpuXsave
  deriving DecidableEq

def RecordType.code : RecordType → Nat
  | .cpu => 2
  | .pic => 3
  | .ioapic => 4
  | .lapic => 5
  | .lapicRegs => 6
  | .pciIrq => 7
  | .isaIrq => 8
  | .pciLink => 9
  | .pit => 10
  | .rtc => 11
  | .hpet => 12
  | .pmtimer => 13
  | .mtrr => 14
  | .viridian => 15
  | .cpuXsave => 16

-- the third and fourth arguments of HVM_REGISTER_SAVE_RESTORE; CPU_XSAVE has a registration of its own
def RecordType.num : RecordType → Nat
  | .pic => 2
  | _ => 1

def RecordType.perVcpu : RecordType → Bool
  | .cpu | .lapic | .lapicRegs | .mtrr | .cpuXsave => true
  | _ => false

inductive Errno where
  | einval
  | enomem
  | efault
  deriving DecidableEq

variable (len : RecordType → Nat)

structure Guest where
  dying : Bool
  vcpus : Nat
  (down xsaveEnabled : Nat → Bool)
  (viridian cpuHasXsave : Bool)
  payload : RecordType → Nat → List UInt8
  length_payload : ∀ t i, (payload t i).length = len t

variable {len} (d : Guest len) (t : RecordType)

def Guest.instances : RecordType → List Nat
  | .cpu => (range d.vcpus).filter fun v => !d.down v
  | .lapic | .lapicRegs | .mtrr => range d.vcpus
  | .pic => [0,1]
  | .viridian => if d.viridian then [0] else []
  | .cpuXsave => if d.cpuHasXsave then (range d.vcpus).filter d.xsaveEnabled else []
  | _ => [0]

def Guest.block (i : Nat) : List UInt8 :=
  Descriptor.bytes ⟨UInt16.ofNat t.code,UInt16.ofNat i,UInt32.ofNat (len t)⟩ ++ d.payload t i

def Guest.save (sz : Nat) : List Nat → List UInt8 → Option (List UInt8)
  | [],out => some out
  | i :: is,out => if sz-out.length < len t+sizeofDescriptor then none else Guest.save sz is (out ++ d.block t i)

variable (len) in
def handlerSize (t : RecordType) : Nat := t.num*(len t+sizeofDescriptor)

def Guest.count : Nat := if t.perVcpu then d.vcpus else 1

-- mem is what xmalloc_bytes returns, with what was in it before
def hvmSaveOne (inst : Nat) (mem : Option (List UInt8)) (copyFails : Bool) : Except Errno (List UInt8) :=
  if d.dying then .error .einval
  else if d.count t*handlerSize len t < (inst+1)*handlerSize len t then .error .einval
  else match mem with
    | none => .error .enomem
    | some mem =>
      match d.save t (d.count t*handlerSize len t) (d.instances t) [] with
      | none => .error .efault
      | some out =>
        if copyFails then .error .efault
        else .ok (((out ++ mem.drop out.length).drop (inst*handlerSize len t+sizeofDescriptor)).take
          (handlerSize len t-sizeofDescriptor))

variable {d t}

theorem length_block (i : Nat) : (d.block t i).length = len t+sizeofDescriptor := by
  rw [Guest.block,length_append,length_descriptor,d.length_payload,Nat.add_comm]

theorem save_eq {sz : Nat} (is : List Nat) (out : List UInt8) (h : out.length+is.length*(len t+sizeofDescriptor) ≤ sz) :
  d.save t sz is out = some (out ++ is.flatMap (d.block t)) := by
  induction is generalizing out with
  | nil => simp [Guest.save]
  | cons i is ih =>
    rw [length_cons,Nat.succ_mul] at h
    rw [Guest.save,if_neg (by omega),ih _ (by rw [length_append,length_block]; omega),append_assoc,flatMap_cons]

theorem length_flatMap_block (is : List Nat) :
  (is.flatMap (d.block t)).length = is.length*(len t+sizeofDescriptor) := by
  induction is with
  | nil => simp
  | cons i is ih => rw [flatMap_cons,length_append,length_block,ih,length_cons,Nat.succ_mul,Nat.add_comm]

theorem block_at {is : List Nat} {k i : Nat} (h : is[k]? = some i) (rest : List UInt8) :
  ((is.flatMap (d.block t) ++ rest).drop (k*(len t+sizeofDescriptor)+sizeofDescriptor)).take (len t) =
    d.payload t i := by
  induction is generalizing k with
  | nil => cases h
  | cons j is ih =>
    rw [flatMap_cons,append_assoc]
    cases k with
    | zero =>
      cases h
      have hd := length_descriptor ⟨UInt16.ofNat t.code,UInt16.ofNat i,UInt32.ofNat (len t)⟩
      rw [Nat.zero_mul,Nat.zero_add,Guest.block,append_assoc,← hd,drop_left,← d.length_payload t i,take_left]
    | succ k =>
      rw [Nat.succ_mul,Nat.add_right_comm,Nat.add_comm,← drop_drop,← @length_block len d t j,drop_left,length_block]
      exact ih h

-- past the last record the buffer keeps what it held before
theorem stale_at {is : List Nat} {k n : Nat} (hk : is.length ≤ k) (hn : k < n) (b : UInt8) :
  ((is.flatMap (d.block t) ++ (replicate (n*(len t+sizeofDescriptor)) b).drop (is.length*(len t+sizeofDescriptor))).drop
    (k*(len t+sizeofDescriptor)+sizeofDescriptor)).take (len t) = replicate (len t) b := by
  have hl := Nat.mul_le_mul_right (len t+sizeofDescriptor) hk
  have hh := Nat.mul_le_mul_right (len t+sizeofDescriptor) (Nat.succ_le_of_lt hn)
  rw [Nat.succ_mul] at hh
  rw [drop_append,drop_eq_nil_of_le (by rw [length_flatMap_block]; omega),nil_append,length_flatMap_block,
    drop_replicate,drop_replicate,take_replicate]
  congr 1
  omega

theorem instances_subset (ht : t ≠ .pic) : d.instances t <+ range (d.count t) := by
  cases t with
  | cpu => exact filter_sublist
  | pic => exact absurd rfl ht
  | viridian =>
    rw [Guest.instances]
    split
    · exact Sublist.refl _
    · exact nil_sublist _
  | cpuXsave =>
    rw [Guest.instances]
    split
    · exact filter_sublist
    · exact nil_sublist _
  | _ => exact Sublist.refl _

theorem handlerSize_eq (ht : t ≠ .pic) : handlerSize len t = len t+sizeofDescriptor := by
  have hn : t.num = 1 := by
    cases t with
    | pic => exact absurd rfl ht
    | _ => rfl
  rw [handlerSize,hn,Nat.one_mul]

theorem instances_fit : (d.instances t).length*(len t+sizeofDescriptor) ≤ d.count t*handlerSize len t := by
  by_cases ht : t = .pic
  · subst ht
    exact Nat.le_of_eq (Nat.one_mul _).symm
  · have hl := (@instances_subset len d t ht).length_le
    rw [length_range] at hl
    rw [handlerSize_eq ht]
    exact Nat.mul_le_mul_right _ hl

theorem hvmSaveOne_eq (hd : d.dying = false) (inst : Nat) (mem : List UInt8) : hvmSaveOne d t inst (some mem) false =
    if inst < d.count t then
      .ok ((((d.instances t).flatMap (d.block t) ++ mem.drop ((d.instances t).length*(len t+sizeofDescriptor))).drop
        (inst*handlerSize len t+sizeofDescriptor)).take (handlerSize len t-sizeofDescriptor))
    else .error .einval := by
  have hp : 0 < handlerSize len t := Nat.mul_pos (by cases t <;> decide) (Nat.add_pos_right _ (by decide))
  rw [hvmSaveOne,if_neg (by rw [hd]; exact Bool.false_ne_true),save_eq _ _ (by simpa using instances_fit)]
  by_cases hi : inst < d.count t
  · rw [if_neg (Nat.not_lt.mpr (Nat.mul_le_mul_right _ hi)),if_pos hi,nil_append,← @length_flatMap_block len d t]
    rfl
  · rw [if_pos (Nat.mul_lt_mul_of_pos_right (by omega) hp),if_neg hi]

variable (d t) in
-- one call hands out the record of its instance, or an error where there is none, whatever the buffer held before
def Guest.Extracts (inst : Nat) : Prop :=
  ∀ mem : List UInt8, mem.length = d.count t*handlerSize len t →
    (inst ∈ d.instances t → hvmSaveOne d t inst (some mem) false = .ok (d.payload t inst)) ∧
    (inst ∉ d.instances t → ∃ e, hvmSaveOne d t inst (some mem) false = .error e)

theorem pic_extracts (hd : d.dying = false) (inst : Nat) : d.Extracts .pic inst ↔ inst ∉ d.instances .pic := by
  constructor
  · intro h hi
    have hr := (h (replicate (d.count .pic*handlerSize len .pic) 0) length_replicate).1 hi
    rw [hvmSaveOne_eq hd] at hr
    split at hr
    · have hl := congrArg List.length (Except.ok.inj hr)
      obtain rfl : inst = 0 := by
        rename_i hc
        exact Nat.lt_one_iff.mp hc
      simp only [length_take,length_drop,length_append,length_flatMap_block,length_replicate,d.length_payload,
        Guest.instances,Guest.count,handlerSize,RecordType.num,RecordType.perVcpu,sizeofDescriptor,length_cons,
        length_nil] at hl
      simp only [Bool.false_eq_true,if_false] at hl
      omega
    · cases hr
  · intro h mem _
    refine ⟨fun hi => absurd hi h,fun _ => ⟨.einval,?_⟩⟩
    rw [hvmSaveOne_eq hd,if_neg fun hc => h ?_]
    rw [Nat.lt_one_iff.mp hc]
    exact mem_cons_self

-- two buffers with different bytes past the last record show that a payload is never what they held before
theorem place_of_extracts (hlen : 0 < len t) (hd : d.dying = false) (ht : t ≠ .pic) {inst : Nat} (hi : inst < d.count t)
  (h : d.Extracts t inst) (hm : inst ∈ d.instances t) :
  ∃ i, (d.instances t)[inst]? = some i ∧ d.payload t i = d.payload t inst := by
  have hr (b : UInt8) := (h (replicate (d.count t*handlerSize len t) b) length_replicate).1 hm
  simp only [hvmSaveOne_eq hd,if_pos hi,handlerSize_eq ht,Nat.add_sub_cancel,Except.ok.injEq] at hr
  cases hg : (d.instances t)[inst]? with
  | some i => exact ⟨i,rfl,(block_at hg _).symm.trans (hr 0)⟩
  | none =>
    simp only [stale_at (getElem?_eq_none_iff.mp hg) hi] at hr
    have hb := congrArg List.head? ((hr 0).trans (hr 1).symm)
    simp [head?_replicate,hlen.ne'] at hb

def sampleGuest (down : Nat → Bool) : Guest fun _ => 2 :=
  ⟨false,2,down,fun _ => true,false,false,fun _ i => [UInt8.ofNat i,7],fun _ _ => rfl⟩

end HvmSave
