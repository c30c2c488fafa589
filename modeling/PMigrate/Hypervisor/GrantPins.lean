import Mathlib.Data.Nat.Bitwise
import PMigrate.Hypervisor.Maptrack

namespace GrantTable

open Function Nat

def counter (k : Kind) (pin : Nat) : Nat := pin/2^k.shift%256

def share (k : Kind) (device host readonly : Bool) : Nat :=
  match k with
  | .hstw => (host && !readonly).toNat
  | .hstr => (host && readonly).toNat
  | .devw => (device && !readonly).toNat
  | .devr => (device && readonly).toNat

def addHalves (pin : Nat) (device host readonly : Bool) : Nat :=
  let pin := if device then addPin pin (.deviceKind readonly) else pin
  if host then addPin pin (.hostKind readonly) else pin

def subHalves (pin : Nat) (device host readonly : Bool) : Nat :=
  let pin := if device then subPin pin (.deviceKind readonly) else pin
  if host then subPin pin (.hostKind readonly) else pin

variable {k : Kind} {device host readonly : Bool}

section

variable {pin : Nat}

theorem addPin_spec (hp : pin < 2^32) (hk : counter k pin < 255) : addPin pin k < 2^32 ∧
    ∀ j, counter j (addPin pin k) = counter j pin+if j = k then 1 else 0 := by
  refine ⟨mod_lt _ (by decide),fun j => ?_⟩
  cases k <;> cases j <;> simp only [counter,addPin,Kind.inc,Kind.shift,reduceCtorEq,if_true,if_false] at hk ⊢ <;> omega

theorem subPin_spec (hp : pin < 2^32) (hk : 1 ≤ counter k pin) : subPin pin k < 2^32 ∧
    ∀ j, counter j (subPin pin k)+(if j = k then 1 else 0) = counter j pin := by
  refine ⟨mod_lt _ (by decide),fun j => ?_⟩
  cases k <;> cases j <;> simp only [counter,subPin,Kind.inc,Kind.shift,reduceCtorEq,if_true,if_false] at hk ⊢ <;> omega

theorem share_eq (j : Kind) : share j device host readonly =
    (if device ∧ j = .deviceKind readonly then 1 else 0)+if host ∧ j = .hostKind readonly then 1 else 0 := by
  cases j <;> cases device <;> cases host <;> cases readonly <;> rfl

theorem share_none (j : Kind) : share j false false readonly = 0 := by cases j <;> rfl

theorem addIf_spec (b : Bool) (hp : pin < 2^32) (hk : counter k pin < 255) : (if b then addPin pin k else pin) < 2^32 ∧
    ∀ j, counter j (if b then addPin pin k else pin) = counter j pin+if b ∧ j = k then 1 else 0 := by
  cases b with
  | false => simpa using hp
  | true => simpa using addPin_spec hp hk

theorem subIf_spec (b : Bool) (hp : pin < 2^32) (hk : b = true → 1 ≤ counter k pin) :
  (if b then subPin pin k else pin) < 2^32 ∧
    ∀ j, counter j (if b then subPin pin k else pin)+(if b ∧ j = k then 1 else 0) = counter j pin := by
  cases b with
  | false => simpa using hp
  | true => simpa using subPin_spec hp (hk rfl)

theorem addHalves_spec (device host readonly : Bool) (hp : pin < 2^32) (hk : ∀ k, counter k pin < 128) :
  addHalves pin device host readonly < 2^32 ∧ ∀ j,
    counter j (addHalves pin device host readonly) = counter j pin+share j device host readonly := by
  obtain ⟨hl,hc⟩ := addIf_spec device hp ((hk (.deviceKind readonly)).trans (by decide))
  have hs : counter (.hostKind readonly) (if device then addPin pin (.deviceKind readonly) else pin) < 255 := by
    have h1 := hk (.hostKind readonly)
    rw [hc]
    split <;> omega
  obtain ⟨hl',hc'⟩ := addIf_spec host hl hs
  exact ⟨hl',fun j => (hc' j).trans (by rw [hc,share_eq,add_assoc])⟩

theorem subHalves_spec (hp : pin < 2^32) (hk : ∀ j, share j device host readonly ≤ counter j pin) :
  subHalves pin device host readonly < 2^32 ∧ ∀ j,
    counter j (subHalves pin device host readonly)+share j device host readonly = counter j pin := by
  simp only [share_eq] at hk ⊢
  obtain ⟨hl,hc⟩ := subIf_spec (k := .deviceKind readonly) device hp fun hd => by
    have h1 := hk (.deviceKind readonly)
    rw [if_pos ⟨hd,rfl⟩] at h1
    omega
  obtain ⟨hl',hc'⟩ := subIf_spec (k := .hostKind readonly) host hl fun hh => by
    have h1 := hk (.hostKind readonly)
    have h2 := hc (.hostKind readonly)
    rw [← h2,if_pos (And.intro hh rfl)] at h1
    omega
  refine ⟨hl',fun j => ?_⟩
  rw [add_comm (ite _ _ _),← add_assoc,← hc j,← hc' j]
  rfl

theorem testBit_of_mask {m i : Nat} (hm : pin &&& m = 0) (hi : m.testBit i = true) : pin.testBit i = false := by
  have := congrArg (Nat.testBit · i) hm
  simpa [hi] using this

theorem counter_lt_of_mask (hm : pin &&& 0x80808080 = 0) (k : Kind) : counter k pin < 128 := by
  have hb : ∀ i, (0x80808080 : Nat).testBit i = true → pin/2^i%2 = 0 := by
    intro i hi
    have := testBit_of_mask hm hi
    rw [testBit_eq_decide_div_mod_eq] at this
    simpa using this
  have h7 := hb 7 (by decide)
  have h15 := hb 15 (by decide)
  have h23 := hb 23 (by decide)
  have h31 := hb 31 (by decide)
  cases k <;> simp only [counter,Kind.shift] <;> omega

theorem counter_zero (k : Kind) : counter k 0 = 0 := by cases k <;> rfl

end

variable {rd : Nat}

section

variable {t t' : Track} {ref : Nat}

def Holds (m : Mapping) (rd ref : Nat) (k : Kind) : Prop :=
  m.domid = rd ∧ m.ref = ref ∧ share k m.flags.device m.flags.host m.flags.readonly = 1

instance (m : Mapping) (rd ref : Nat) (k : Kind) : Decidable (Holds m rd ref k) :=
  inferInstanceAs (Decidable (_ ∧ _ ∧ _))

def liveEntries (t : Track) (rd ref : Nat) (k : Kind) : Nat :=
  ((Finset.range t.maptrackLimit).filter fun h => Holds (t.maptrack h) rd ref k).card

def part (m : Mapping) (rd ref : Nat) (k : Kind) : Nat :=
  if m.domid = rd ∧ m.ref = ref then share k m.flags.device m.flags.host m.flags.readonly else 0

theorem share_le_one (k : Kind) (device host readonly : Bool) : share k device host readonly ≤ 1 := by
  cases k <;> cases device <;> cases host <;> cases readonly <;> decide

theorem part_eq (m : Mapping) : part m rd ref k = if Holds m rd ref k then 1 else 0 := by
  have hl := share_le_one k m.flags.device m.flags.host m.flags.readonly
  rw [part]
  by_cases hd : m.domid = rd ∧ m.ref = ref
  · rw [if_pos hd]
    by_cases hs : share k m.flags.device m.flags.host m.flags.readonly = 1
    · rw [if_pos ⟨hd.1,hd.2,hs⟩,hs]
    · rw [if_neg fun hh => hs hh.2.2]
      omega
  · rw [if_neg hd,if_neg fun hh => hd ⟨hh.1,hh.2.1⟩]

theorem liveEntries_eq (t : Track) (rd ref : Nat) (k : Kind) :
  liveEntries t rd ref k = ∑ h ∈ Finset.range t.maptrackLimit, part (t.maptrack h) rd ref k := by
  rw [liveEntries,Finset.card_filter]
  exact Finset.sum_congr rfl fun h _ => (part_eq _).symm

theorem part_of_idle {m : Mapping} (hm : m.flags.live = false) : part m rd ref k = 0 := by
  rw [Flags.live,Bool.or_eq_false_iff] at hm
  rw [part,hm.1,hm.2,share_none,ite_self]

theorem liveEntries_congr (hl : t.maptrackLimit ≤ t'.maptrackLimit)
  (he : ∀ x, part (t'.maptrack x) rd ref k = part (t.maptrack x) rd ref k)
  (hi : ∀ x, t.maptrackLimit ≤ x → part (t.maptrack x) rd ref k = 0) :
  liveEntries t' rd ref k = liveEntries t rd ref k := by
  rw [liveEntries_eq,liveEntries_eq,Finset.sum_congr rfl fun x _ => he x]
  refine (Finset.sum_subset (Finset.range_mono hl) fun x _ hx => hi x ?_).symm
  rw [Finset.mem_range] at hx
  omega

theorem liveEntries_write (rd ref : Nat) (k : Kind) {h : Nat} (hh : h < t.maptrackLimit) (m : Mapping) :
  liveEntries {t with maptrack := update t.maptrack h m} rd ref k +
    part (t.maptrack h) rd ref k = liveEntries t rd ref k+part m rd ref k := by
  have hm : h ∈ Finset.range t.maptrackLimit := Finset.mem_range.mpr hh
  rw [liveEntries_eq,liveEntries_eq,← Finset.sum_erase_add _ _ hm,← Finset.sum_erase_add _ _ hm]
  have hr : ∑ x ∈ (Finset.range t.maptrackLimit).erase h,part (update t.maptrack h m x) rd ref k =
      ∑ x ∈ (Finset.range t.maptrackLimit).erase h, part (t.maptrack x) rd ref k :=
    Finset.sum_congr rfl fun x hx => by rw [update_of_ne (Finset.ne_of_mem_erase hx)]
  simp only [hr,update_self]
  omega

end

section

variable {C : Config} {cnt cnt' : Nat → Kind → Nat} {a : Active} {held held' heldType heldType' : Nat → Int}

def pageRefs (pin : Nat) : Nat :=
  counter .hstw pin+counter .hstr pin+counter .devw pin+counter .devr pin

def typeRefs (hostTyped : Bool) (pin : Nat) : Nat :=
  counter .devw pin+if hostTyped then counter .hstw pin else 0

def hostTyped (C : Config) (ld rd : Nat) : Bool := ld == rd || !C.external rd

structure EntryInv (C : Config) (rd : Nat) (cnt : Nat → Kind → Nat) (a : Active)
    (held heldType : Nat → Int) : Prop where
  bound : a.pin < 2^32
  small : ∀ k, counter k a.pin ≤ 128
  entries : ∀ ld k, cnt ld k = if ld = a.domid then counter k a.pin else 0
  pages : ∀ f, held f = if f = a.frame ∧ C.iomem f = false then (pageRefs a.pin : Int) else 0
  types : ∀ f, heldType f = if f = a.frame ∧ C.iomem f = false then
    (typeRefs (hostTyped C a.domid rd) a.pin : Int) else 0

def sharePages (device host : Bool) : Nat := device.toNat+host.toNat

def shareTypes (typed device host readonly : Bool) : Nat :=
  if readonly then 0 else device.toNat+if typed then host.toNat else 0

theorem share_sum (device host readonly : Bool) : share .hstw device host readonly+share .hstr device host readonly +
  share .devw device host readonly+share .devr device host readonly = sharePages device host := by
  cases device <;> cases host <;> cases readonly <;> rfl

theorem share_types (typed : Bool) : share .devw device host readonly +
  (if typed then share .hstw device host readonly else 0) = shareTypes typed device host readonly := by
  cases typed <;> cases device <;> cases host <;> cases readonly <;> rfl

theorem pageRefs_shift {p q : Nat} (hc : ∀ j, counter j q = counter j p+share j device host readonly) :
  pageRefs q = pageRefs p+sharePages device host := by
  rw [← share_sum device host readonly]
  simp only [pageRefs,hc]
  omega

theorem typeRefs_shift {p q : Nat} (typed : Bool) (hc : ∀ j, counter j q = counter j p+share j device host readonly) :
  typeRefs typed q = typeRefs typed p+shareTypes typed device host readonly := by
  rw [← share_types]
  cases typed with
  | false => simp only [typeRefs,hc,Bool.false_eq_true,if_false,add_zero]
  | true =>
    simp only [typeRefs,hc,if_true]
    omega

variable (h : EntryInv C rd cnt a held heldType)
include h

theorem EntryInv.counter_of_pin (hp : a.pin = 0) (ld : Nat) (k : Kind) : cnt ld k = 0 := by
  rw [h.entries,hp,counter_zero,ite_self]

theorem EntryInv.reuse (hp : a.pin = 0) (ld frame : Nat) (b : Bool) :
  EntryInv C rd cnt ⟨0,ld,frame,b⟩ held heldType where
  bound := Nat.two_pow_pos 32
  small := fun k => by rw [counter_zero]; omega
  entries := fun ld' k => by rw [h.counter_of_pin hp,counter_zero,ite_self]
  pages := fun f => by
    rw [h.pages,hp]
    simp [pageRefs,counter_zero]
  types := fun f => by
    rw [h.types,hp]
    simp [typeRefs,counter_zero]

theorem EntryInv.add (device host readonly : Bool) (hl : ∀ k, counter k a.pin < 128)
  (hn : ∀ ld k, cnt' ld k = cnt ld k+if ld = a.domid then share k device host readonly else 0)
  (hh : ∀ f, held' f = held f+if f = a.frame ∧ C.iomem f = false then (sharePages device host : Int) else 0)
  (ht : ∀ f, heldType' f = heldType f+if f = a.frame ∧ C.iomem f = false then
    (shareTypes (hostTyped C a.domid rd) device host readonly : Int) else 0) :
  EntryInv C rd cnt' {a with pin := addHalves a.pin device host readonly} held' heldType' := by
  obtain ⟨hb,hc⟩ := addHalves_spec device host readonly h.bound hl
  constructor
  case bound => exact hb
  case small =>
    intro k
    have := share_le_one k device host readonly
    have := hl k
    have := hc k
    simp only
    omega
  case entries =>
    intro ld k
    simp only [hn,h.entries,hc]
    split <;> rfl
  case pages =>
    intro f
    simp only [hh,h.pages,pageRefs_shift hc]
    split <;> rfl
  case types =>
    intro f
    simp only [ht,h.types,typeRefs_shift _ hc]
    split <;> rfl

theorem EntryInv.sub (device host readonly : Bool)
  (hn : ∀ ld k, cnt ld k = cnt' ld k+if ld = a.domid then share k device host readonly else 0)
  (hh : ∀ f, held f = held' f+if f = a.frame ∧ C.iomem f = false then (sharePages device host : Int) else 0)
  (ht : ∀ f, heldType f = heldType' f+if f = a.frame ∧ C.iomem f = false then
    (shareTypes (hostTyped C a.domid rd) device host readonly : Int) else 0) :
  EntryInv C rd cnt' {a with pin := subHalves a.pin device host readonly} held' heldType' := by
  have hl : ∀ k, share k device host readonly ≤ counter k a.pin := by
    intro k
    have h1 := hn a.domid k
    rw [h.entries,if_pos rfl,if_pos rfl] at h1
    omega
  obtain ⟨hb,hc⟩ := subHalves_spec h.bound hl
  constructor
  case bound => exact hb
  case small =>
    intro k
    have := h.small k
    have := hc k
    simp only
    omega
  case entries =>
    intro ld k
    have h1 := hn ld k
    have h2 := hc k
    rw [h.entries] at h1
    by_cases hd : ld = a.domid
    · simp only [if_pos hd] at h1 ⊢
      omega
    · simp only [if_neg hd] at h1 ⊢
      omega
  case pages =>
    intro f
    have h1 := hh f
    rw [h.pages,pageRefs_shift fun j => (hc j).symm] at h1
    by_cases hf : f = a.frame ∧ C.iomem f = false
    · simp only [if_pos hf] at h1 ⊢
      omega
    · simp only [if_neg hf] at h1 ⊢
      omega
  case types =>
    intro f
    have h1 := ht f
    rw [h.types,typeRefs_shift _ fun j => (hc j).symm] at h1
    by_cases hf : f = a.frame ∧ C.iomem f = false
    · simp only [if_pos hf] at h1 ⊢
      omega
    · simp only [if_neg hf] at h1 ⊢
      omega

end

end GrantTable
