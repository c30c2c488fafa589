import Mathlib.Tactic

namespace CpuPick

open Finset Function

variable {n : Nat}

abbrev CpuMask (n : Nat) := Finset (Fin n)

-- none: the mask is empty and the source's result is NR_CPUS
def cycleCpu (cpu : Fin n) (mask : CpuMask n) : Option (Fin n) :=
  ((List.finRange n).find? fun x => decide (cpu < x ∧ x ∈ mask)).or
    ((List.finRange n).find? fun x => decide (x ∈ mask))

structure Topology (n : Nat) where
  (sibling core : Fin n → CpuMask n)
  sibling_self : ∀ a, a ∈ sibling a
  core_self : ∀ a, a ∈ core a
  core_symm : ∀ a b, a ∈ core b → b ∈ core a

structure Choice (n : Nat) where
  cpu : Fin n
  cpus : CpuMask n
  idleBias : Fin n → Fin n

section
variable (T : Topology n) (powerSavings commit : Bool) (idlers : CpuMask n)

-- one round of the loop; none: an ASSERT fails or a CPU is taken from an empty mask
def tryNext (c : Choice n) : Option (Choice n) :=
  (cycleCpu c.cpu c.cpus).bind fun nxt =>
    if decide (nxt ∈ T.core c.cpu) ≠ decide (c.cpu ∈ T.core nxt) then none
    else
      let map := if c.cpu ∈ T.core nxt then T.sibling else T.core
      let migrateFactor := if c.cpu ∈ T.core nxt then 1 else 2
      let nxtIdlers := idlers ∩ map nxt
      let weightCpu := (idlers ∩ map c.cpu).card
      let weightNxt := nxtIdlers.card
      if (powerSavings ∧ weightNxt < weightCpu) ∨ (¬powerSavings ∧ weightCpu*migrateFactor < weightNxt) then
        (cycleCpu (c.idleBias nxt) (c.cpus ∩ nxtIdlers)).map fun cpu =>
          ⟨cpu,c.cpus \ T.sibling cpu,if commit then update c.idleBias nxt cpu else c.idleBias⟩
      else some {c with cpus := c.cpus \ nxtIdlers}

def tryAll : Nat → Choice n → Option (Choice n)
  | 0,_ => none
  | fuel+1,c =>
    if c.cpus = ∅ then some c else (tryNext T powerSavings commit idlers c).bind (tryAll fuel)

end

def preferred (processor : Fin n) (cpus : CpuMask n) : Option (Fin n) :=
  if processor ∈ cpus then some processor else cycleCpu processor cpus

def cschedCpuPick (T : Topology n) (powerSavings commit : Bool) (online affinity onlineMap idlers : CpuMask n)
    (processor : Fin n) (idleBias : Fin n → Fin n) (fuel : Nat) : Option (Choice n) :=
  let cpus := online ∩ affinity
  (preferred processor cpus).bind fun cpu =>
    if cpu ∉ cpus then none
    else
      let idlers := insert cpu (onlineMap ∩ idlers)
      tryAll T powerSavings commit idlers fuel ⟨cpu,(cpus ∩ idlers).erase cpu,idleBias⟩

theorem cycleCpu_spec (cpu : Fin n) {mask : CpuMask n} (h : mask.Nonempty) :
  ∃ x ∈ mask, cycleCpu cpu mask = some x := by
  rw [cycleCpu]
  cases hf : (List.finRange n).find? fun x => decide (cpu < x ∧ x ∈ mask) with
  | some x =>
    have hx := List.find?_some hf
    exact ⟨x,(of_decide_eq_true hx).2,rfl⟩
  | none =>
    obtain ⟨y,hy⟩ := h
    cases hg : (List.finRange n).find? fun x => decide (x ∈ mask) with
    | some x =>
      have hx := List.find?_some hg
      exact ⟨x,of_decide_eq_true hx,rfl⟩
    | none => exact absurd hy (by simpa using List.find?_eq_none.mp hg y (List.mem_finRange y))

section
variable {T : Topology n} {powerSavings commit : Bool} {idlers : CpuMask n} {c : Choice n}

theorem tryNext_spec (h : c.cpus.Nonempty) (hs : c.cpus ⊆ idlers) :
  ∃ d, tryNext T powerSavings commit idlers c = some d ∧ d.cpus ⊂ c.cpus ∧ (d.cpu = c.cpu ∨ d.cpu ∈ c.cpus) := by
  obtain ⟨nxt,hn,hc⟩ := cycleCpu_spec c.cpu h
  have hy : decide (nxt ∈ T.core c.cpu) = decide (c.cpu ∈ T.core nxt) :=
    decide_eq_decide.mpr ⟨T.core_symm _ _,T.core_symm _ _⟩
  simp only [tryNext,hc,Option.bind_some,hy,ne_eq,not_true_eq_false,if_false]
  generalize hm : (if c.cpu ∈ T.core nxt then T.sibling else T.core) = map
  have hi : nxt ∈ idlers ∩ map nxt := by
    refine mem_inter.mpr ⟨hs hn,?_⟩
    rw [← hm]
    split
    · exact T.sibling_self nxt
    · exact T.core_self nxt
  generalize (if c.cpu ∈ T.core nxt then 1 else 2) = factor
  split
  · obtain ⟨x,hx,he⟩ := cycleCpu_spec (c.idleBias nxt) ⟨nxt,mem_inter.mpr ⟨hn,hi⟩⟩
    rw [he]
    have ha := (mem_inter.mp hx).1
    exact ⟨_,rfl,(ssubset_iff_of_subset sdiff_subset).mpr ⟨x,ha,by simp [T.sibling_self]⟩,.inr ha⟩
  · exact ⟨_,rfl,(ssubset_iff_of_subset sdiff_subset).mpr ⟨nxt,hn,fun hd => (mem_sdiff.mp hd).2 hi⟩,.inl rfl⟩

theorem tryAll_spec {fuel : Nat} (hf : c.cpus.card < fuel) (hs : c.cpus ⊆ idlers) :
  ∃ d, tryAll T powerSavings commit idlers fuel c = some d ∧ (d.cpu = c.cpu ∨ d.cpu ∈ c.cpus) := by
  induction fuel generalizing c with
  | zero => omega
  | succ fuel ih =>
    rw [tryAll]
    split
    · exact ⟨c,rfl,.inl rfl⟩
    · rename_i he
      obtain ⟨d,hd,ha,hm⟩ := tryNext_spec (nonempty_iff_ne_empty.mpr he) hs
      have hl := card_lt_card ha
      obtain ⟨e,ht,hr⟩ := ih (by omega) (ha.subset.trans hs)
      refine ⟨e,by rw [hd]; exact ht,?_⟩
      rcases hr with hr | hr
      · exact hr ▸ hm
      · exact .inr (ha.subset hr)

theorem cpu_pick_sound {online affinity onlineMap : CpuMask n} {processor : Fin n} {idleBias : Fin n → Fin n}
  {fuel : Nat} (h : (online ∩ affinity).Nonempty) (hf : n < fuel) :
  ∃ d, cschedCpuPick T powerSavings commit online affinity onlineMap idlers processor idleBias fuel = some d ∧
    d.cpu ∈ online ∧ d.cpu ∈ affinity ∧ (preferred processor (online ∩ affinity) = some d.cpu ∨ d.cpu ∈ idlers) := by
  obtain ⟨cpu,hc,hp⟩ : ∃ x ∈ online ∩ affinity, preferred processor (online ∩ affinity) = some x := by
    rw [preferred]
    split
    · exact ⟨processor,‹_›,rfl⟩
    · exact cycleCpu_spec processor h
  simp only [cschedCpuPick,hp,Option.bind_some,hc,not_true_eq_false,if_false]
  generalize hi : insert cpu (onlineMap ∩ idlers) = I
  have hk : ((online ∩ affinity ∩ I).erase cpu).card < fuel :=
    ((card_le_univ _).trans_eq (Fintype.card_fin n)).trans_lt hf
  obtain ⟨d,hd,hm⟩ := tryAll_spec (T := T) (c := ⟨cpu,(online ∩ affinity ∩ I).erase cpu,idleBias⟩) hk
    ((erase_subset ..).trans inter_subset_right)
  refine ⟨d,hd,?_⟩
  rcases hm with hm | hm
  · rw [hm]
    exact ⟨(mem_inter.mp hc).1,(mem_inter.mp hc).2,.inl rfl⟩
  · simp only [mem_erase,mem_inter,← hi,mem_insert] at hm
    grind

end

def twoSockets : Topology 4 where
  sibling a := {a}
  core a := univ.filter fun b => a.val/2 = b.val/2
  sibling_self := by decide
  core_self := by decide
  core_symm := by decide

theorem cpu_pick_two_sockets :
  ∃ d, cschedCpuPick twoSockets false true univ {1,2,3} univ {2,3} 0 id 5 = some d ∧ d.cpu ∈ (univ : CpuMask 4) ∧
    d.cpu ∈ ({1,2,3} : CpuMask 4) ∧ (preferred 0 (univ ∩ {1,2,3}) = some d.cpu ∨ d.cpu ∈ ({2,3} : CpuMask 4)) :=
  cpu_pick_sound ⟨1,by decide⟩ (by decide)

end CpuPick
