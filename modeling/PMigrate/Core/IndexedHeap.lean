import Mathlib.Tactic.Ring

namespace IndexedHeap

structure Slots (α : Type) where
  slot : Nat → α
  offset : α → Nat

variable {α K : Type} [DecidableEq α] [LinearOrder K]

namespace Slots

def place (S : Slots α) (pos : Nat) (t : α) : Slots α where
  slot i := if i = pos then t else S.slot i
  offset x := if x = t then pos else S.offset x

def downLoop (key : α → K) (sz : Nat) : Nat → Nat → α → Slots α → Slots α
  | 0,pos,t,S => S.place pos t
  | fuel+1,pos,t,S =>
    if 2*pos ≤ sz then
      let nxt :=
        if 2*pos+1 ≤ sz ∧ key (S.slot (2*pos+1)) < key (S.slot (2*pos)) then 2*pos+1
        else 2*pos
      if key t < key (S.slot nxt) then S.place pos t
      else downLoop key sz fuel nxt t (S.place pos (S.slot nxt))
    else S.place pos t

def downHeap (key : α → K) (S : Slots α) (sz pos : Nat) : Slots α := downLoop key sz sz pos (S.slot pos) S

def upLoop (key : α → K) : Nat → Nat → α → Slots α → Slots α
  | 0,pos,t,S => S.place pos t
  | fuel+1,pos,t,S =>
    if 1 < pos ∧ key t < key (S.slot (pos/2)) then
      upLoop key fuel (pos/2) t (S.place pos (S.slot (pos/2)))
    else S.place pos t

section
variable (key : α → K) (S : Slots α)

def upHeap (pos : Nat) : Slots α := upLoop key pos pos (S.slot pos) S

def removeFromHeap (sz : Nat) (t : α) : Slots α :=
  let pos := S.offset t
  if pos = sz then S
  else
    let S' := S.place pos (S.slot sz)
    if 1 < pos ∧ key (S'.slot pos) < key (S'.slot (pos/2)) then S'.upHeap key pos
    else S'.downHeap key (sz-1) pos

def addToHeap (sz : Nat) (t : α) : Slots α := (S.place (sz+1) t).upHeap key (sz+1)

end

end Slots

structure Tracks (base : α → Nat) (M : α → Prop) (S : Slots α) (n : Nat) : Prop where
  indexed : ∀ i, 1 ≤ i → i ≤ n → S.offset (S.slot i) = i
  members : ∀ x, M x ↔ ∃ i, 1 ≤ i ∧ i ≤ n ∧ S.slot i = x
  frame : ∀ x, ¬M x → S.offset x = base x

section
variable (key : α → K) (f : Nat → α)

def Ordered (n : Nat) : Prop := ∀ i, 1 < i → i ≤ n → key (f (i/2)) ≤ key (f i)

structure OrderedBelow (n pos : Nat) : Prop where
  other : ∀ i, 1 < i → i ≤ n → i/2 ≠ pos → key (f (i/2)) ≤ key (f i)
  across : 1 < pos → ∀ i ≤ n, i/2 = pos → key (f (pos/2)) ≤ key (f i)

structure OrderedAbove (n pos : Nat) : Prop where
  other : ∀ i, 1 < i → i ≤ n → i ≠ pos → key (f (i/2)) ≤ key (f i)
  across : 1 < pos → ∀ i ≤ n, i/2 = pos → key (f (pos/2)) ≤ key (f i)

end

variable {S : Slots α} {pos q : Nat} {t : α}

section

variable {i : Nat} {x : α}

@[simp] theorem place_slot_self : (S.place pos t).slot pos = t := if_pos rfl

theorem place_slot_ne (h : i ≠ pos) : (S.place pos t).slot i = S.slot i := if_neg h

@[simp] theorem place_offset_self : (S.place pos t).offset t = pos := if_pos rfl

theorem place_offset_ne (h : x ≠ t) : (S.place pos t).offset x = S.offset x := if_neg h

theorem place_self (h : S.offset (S.slot pos) = pos) : S.place pos (S.slot pos) = S := by
  have hs : (S.place pos (S.slot pos)).slot = S.slot := by
    funext i
    by_cases hi : i = pos
    · rw [hi,place_slot_self]
    · exact place_slot_ne hi
  have ho : (S.place pos (S.slot pos)).offset = S.offset := by
    funext x
    by_cases hx : x = S.slot pos
    · rw [hx,place_offset_self,h]
    · exact place_offset_ne hx
  obtain ⟨slot,offset⟩ := S
  exact congrArg₂ Slots.mk hs ho

end

variable {key : α → K} {base : α → Nat} {M : α → Prop} {n : Nat}

section

omit [DecidableEq α] in
theorem Tracks.slot_ne {S : Slots α} (h : Tracks base M S n) {i j : Nat} (hi : 1 ≤ i ∧ i ≤ n)
  (hj : 1 ≤ j ∧ j ≤ n) (ha : i ≠ j) : S.slot i ≠ S.slot j := by
  intro he
  have ho := h.indexed i hi.1 hi.2
  rw [he,h.indexed j hj.1 hj.2] at ho
  exact ha ho.symm

theorem Tracks.shift (h : Tracks base M (S.place pos t) n) (hp : 1 ≤ pos ∧ pos ≤ n)
  (hq : 1 ≤ q ∧ q ≤ n) (hd : q ≠ pos) : Tracks base M ((S.place pos (S.slot q)).place q t) n := by
  have hs (i : Nat) (hi : i ≠ pos) : (S.place pos t).slot i = S.slot i := place_slot_ne hi
  have hm : S.slot q ≠ t := by
    have := h.slot_ne hq hp hd
    rwa [hs q hd,place_slot_self] at this
  have hw (i : Nat) (hi : i ≠ pos) (hb : i ≠ q) : ((S.place pos (S.slot q)).place q t).slot i = S.slot i := by
    rw [place_slot_ne hb,place_slot_ne hi]
  have hn : ((S.place pos (S.slot q)).place q t).slot pos = S.slot q := by
    rw [place_slot_ne (Ne.symm hd),place_slot_self]
  refine ⟨fun i hi hc => ?_,fun x => ?_,fun x hx => ?_⟩
  · by_cases hb : i = q
    · rw [hb,place_slot_self,place_offset_self]
    by_cases ha : i = pos
    · rw [ha,hn,place_offset_ne hm,place_offset_self]
    have ht := h.slot_ne ⟨hi,hc⟩ hp ha
    have hu := h.slot_ne ⟨hi,hc⟩ hq hb
    have ho := h.indexed i hi hc
    rw [hs i ha,place_slot_self] at ht
    rw [hs i ha,hs q hd] at hu
    rw [hs i ha,place_offset_ne ht] at ho
    rw [hw i ha hb,place_offset_ne ht,place_offset_ne hu,ho]
  · rw [h.members x]
    constructor
    · rintro ⟨i,hi,hc,rfl⟩
      by_cases ha : i = pos
      · exact ⟨q,hq.1,hq.2,by rw [ha,place_slot_self,place_slot_self]⟩
      by_cases hb : i = q
      · exact ⟨pos,hp.1,hp.2,by rw [hn,hs i ha,hb]⟩
      · exact ⟨i,hi,hc,by rw [hw i ha hb,hs i ha]⟩
    rintro ⟨i,hi,hc,rfl⟩
    by_cases hb : i = q
    · exact ⟨pos,hp.1,hp.2,by rw [hb,place_slot_self,place_slot_self]⟩
    by_cases ha : i = pos
    · exact ⟨q,hq.1,hq.2,by rw [ha,hn,hs q hd]⟩
    · exact ⟨i,hi,hc,by rw [hw i ha hb,hs i ha]⟩
  · have hf : x ≠ t := fun he =>
      hx ((h.members x).mpr ⟨pos,hp.1,hp.2,by rw [place_slot_self,he]⟩)
    have hg : x ≠ S.slot q := fun he =>
      hx ((h.members x).mpr ⟨q,hq.1,hq.2,by rw [hs q hd,he]⟩)
    rw [place_offset_ne hf,place_offset_ne hg,← h.frame x hx,place_offset_ne hf]

theorem shift_slot (S : Slots α) (pos q i : Nat) (t : α) : ((S.place pos (S.slot q)).place q t).slot i =
    if i = q then t else if i = pos then S.slot q else S.slot i := rfl

theorem OrderedBelow.shift (h : OrderedBelow key (S.place pos t).slot n pos) (ha : q ≤ n)
  (hq : q/2 = pos) (hl : pos < q) (ht : key (S.slot q) ≤ key t)
  (hm : ∀ i ≤ n, i/2 = pos → key (S.slot q) ≤ key (S.slot i)) :
  OrderedBelow key ((S.place pos (S.slot q)).place q t).slot n q where
  other i hi hn hb := by
    rw [shift_slot,shift_slot,if_neg hb]
    by_cases hp : i/2 = pos
    · rw [if_pos hp]
      split
      · exact ht
      · rw [if_neg (by omega)]
        exact hm i hn hp
    rw [if_neg hp,if_neg (show i ≠ q by rintro rfl; exact hp hq)]
    by_cases hi' : i = pos
    · have := h.across (by omega) q ha hq
      rw [place_slot_ne (by omega),place_slot_ne (by omega)] at this
      rw [if_pos hi',hi']
      exact this
    have := h.other i hi hn hp
    rw [place_slot_ne hp,place_slot_ne hi'] at this
    rw [if_neg hi']
    exact this
  across _ i hn hi := by
    have := h.other i (by omega) hn (by omega)
    rw [place_slot_ne (by omega),place_slot_ne (by omega),hi] at this
    rw [shift_slot,shift_slot,if_neg (by omega),if_pos hq,if_neg (by omega),if_neg (by omega)]
    exact this

theorem OrderedBelow.finish (h : OrderedBelow key (S.place pos t).slot n pos)
  (hm : ∀ i, 1 < i → i ≤ n → i/2 = pos → key t ≤ key (S.slot i)) : Ordered key (S.place pos t).slot n := by
  intro i hi hn
  by_cases hp : i/2 = pos
  · rw [hp,place_slot_self,place_slot_ne (by omega)]
    exact hm i hi hn hp
  · exact h.other i hi hn hp

theorem OrderedAbove.shift (h : OrderedAbove key (S.place pos t).slot n pos) (ho : 1 < pos)
  (hp : pos ≤ n) (ht : key t < key (S.slot (pos/2))) :
  OrderedAbove key ((S.place pos (S.slot (pos/2))).place (pos/2) t).slot n (pos/2) where
  other i hi hn hb := by
    rw [shift_slot,shift_slot,if_neg hb]
    by_cases ha : i = pos
    · rw [if_pos (by rw [ha]),if_pos ha]
      exact le_of_lt ht
    rw [if_neg ha]
    by_cases hiq' : i/2 = pos/2
    · have := h.other i hi hn ha
      rw [hiq',place_slot_ne (by omega),place_slot_ne ha] at this
      rw [if_pos hiq']
      exact le_trans (le_of_lt ht) this
    rw [if_neg hiq']
    by_cases hi2 : i/2 = pos
    · have := h.across ho i hn hi2
      rw [place_slot_ne (by omega),place_slot_ne ha] at this
      rw [if_pos hi2]
      exact this
    have := h.other i hi hn ha
    rw [place_slot_ne hi2,place_slot_ne ha] at this
    rw [if_neg hi2]
    exact this
  across hq i hn hi := by
    have hu := h.other (pos/2) hq (by omega) (by omega)
    rw [place_slot_ne (by omega),place_slot_ne (by omega)] at hu
    rw [shift_slot,shift_slot,if_neg (by omega),if_neg (by omega),if_neg (by omega)]
    split
    · exact hu
    rename_i ha
    have := h.other i (by omega) hn ha
    rw [hi,place_slot_ne (by omega),place_slot_ne ha] at this
    exact le_trans hu this

theorem OrderedAbove.finish (h : OrderedAbove key (S.place pos t).slot n pos)
  (hs : 1 < pos → key (S.slot (pos/2)) ≤ key t) : Ordered key (S.place pos t).slot n := by
  intro i hi hn
  by_cases hp : i = pos
  · rw [hp,place_slot_self,place_slot_ne (by omega)]
    exact hs (by omega)
  · exact h.other i hi hn hp

end

structure Heap (key : α → K) (base : α → Nat) (M : α → Prop) (S : Slots α) (n : Nat) : Prop where
  tracks : Tracks base M S n
  ordered : Ordered key S.slot n

section

variable {sz : Nat}

variable {M' : α → Prop} {fuel : Nat}

theorem downLoop_heap (hf : sz < fuel+pos) (hp : 1 ≤ pos ∧ pos ≤ sz) (ht : Tracks base M (S.place pos t) sz)
  (ho : OrderedBelow key (S.place pos t).slot sz pos) : Heap key base M (S.downLoop key sz fuel pos t) sz := by
  induction fuel generalizing pos S with
  | zero => omega
  | succ fuel ih =>
    rw [Slots.downLoop]
    split
    · rename_i hc
      generalize hx : (if 2*pos+1 ≤ sz ∧ key (S.slot (2*pos+1)) < key (S.slot (2*pos))
        then 2*pos+1 else 2*pos) = nxt
      have hq : nxt/2 = pos ∧ pos < nxt ∧ nxt ≤ sz := by split at hx <;> omega
      have hm (i : Nat) (hi : i ≤ sz) (ha : i/2 = pos) : key (S.slot nxt) ≤ key (S.slot i) := by
        obtain rfl | rfl : i = 2*pos ∨ i = 2*pos+1 := by omega
        · split_ifs at hx with hl
          · exact hx ▸ le_of_lt hl.2
          · exact hx ▸ le_refl _
        split at hx
        · exact hx ▸ le_refl _
        · rename_i hg
          exact hx ▸ not_lt.mp fun hl => hg ⟨hi,hl⟩
      dsimp only
      split
      · rename_i hl
        exact ⟨ht,ho.finish fun i _ hb ha => le_trans (le_of_lt hl) (hm i hb ha)⟩
      rename_i hg
      exact ih (by omega) (by omega) (ht.shift hp ⟨by omega,hq.2.2⟩ (by omega))
        (ho.shift hq.2.2 hq.1 hq.2.1 (not_lt.mp hg) hm)
    · rename_i hn
      exact ⟨ht,ho.finish fun i _ hb ha => by omega⟩

theorem upLoop_heap (hf : pos ≤ fuel+1) (hp : 1 ≤ pos ∧ pos ≤ sz) (ht : Tracks base M (S.place pos t) sz)
  (ho : OrderedAbove key (S.place pos t).slot sz pos) : Heap key base M (S.upLoop key fuel pos t) sz := by
  induction fuel generalizing pos S with
  | zero => exact ⟨ht,ho.finish fun hl => by omega⟩
  | succ fuel ih =>
    rw [Slots.upLoop]
    split
    · rename_i hu
      exact ih (by omega) (by omega) (ht.shift hp (by omega) (by omega)) (ho.shift hu.1 hp.2 hu.2)
    · rename_i hs
      exact ⟨ht,ho.finish fun hl => not_lt.mp fun h => hs ⟨hl,h⟩⟩

theorem downHeap_heap (hp : 1 ≤ pos ∧ pos ≤ sz) (ht : Tracks base M S sz) (ho : OrderedBelow key S.slot sz pos) :
  Heap key base M (S.downHeap key sz pos) sz := by
  have hs := place_self (ht.indexed pos hp.1 hp.2)
  exact downLoop_heap (by omega) hp (hs.symm ▸ ht) (hs.symm ▸ ho)

theorem upHeap_heap (hp : 1 ≤ pos ∧ pos ≤ sz) (ht : Tracks base M S sz) (ho : OrderedAbove key S.slot sz pos) :
  Heap key base M (S.upHeap key pos) sz := by
  have hs := place_self (ht.indexed pos hp.1 hp.2)
  exact upLoop_heap (by omega) hp (hs.symm ▸ ht) (hs.symm ▸ ho)

section
variable (h : Heap key base M S n)
include h

theorem addToHeap_heap (ht : ¬M t) :
  Heap key S.offset (fun x => M x ∨ x = t) (S.addToHeap key n t) (n+1) := by
  have hs (i : Nat) (hi : i ≤ n) : (S.place (n+1) t).slot i = S.slot i := place_slot_ne (by omega)
  have hn (i : Nat) (hi : 1 ≤ i) (ha : i ≤ n) : S.slot i ≠ t := fun he =>
    ht ((h.tracks.members t).mpr ⟨i,hi,ha,he⟩)
  refine upHeap_heap (by omega) ⟨fun i hi ha => ?_,fun x => ?_,fun x hx => ?_⟩
    ⟨fun i hi ha hn => ?_,fun _ i ha hi => by omega⟩
  · by_cases hl : i = n+1
    · rw [hl,place_slot_self,place_offset_self]
    · rw [hs i (by omega),place_offset_ne (hn i hi (by omega)),h.tracks.indexed i hi (by omega)]
  · constructor
    · rintro (hx | rfl)
      · obtain ⟨i,hi,ha,hb⟩ := (h.tracks.members x).mp hx
        exact ⟨i,hi,by omega,by rw [hs i ha,hb]⟩
      · exact ⟨n+1,by omega,Nat.le_refl _,place_slot_self⟩
    rintro ⟨i,hi,ha,rfl⟩
    by_cases hl : i = n+1
    · exact .inr (by rw [hl,place_slot_self])
    · rw [hs i (by omega)]
      exact .inl ((h.tracks.members _).mpr ⟨i,hi,by omega,rfl⟩)
  · exact place_offset_ne fun he => hx (.inr he)
  · rw [hs _ (by omega),hs i (by omega)]
    exact h.ordered i hi (by omega)

omit [DecidableEq α] in
theorem Heap.congr {S' : Slots α} {key' : α → K}
  (hs : ∀ i ≤ n, S'.slot i = S.slot i) (ho : ∀ x, M x → S'.offset x = S.offset x)
  (hk : ∀ x, M x → key' x = key x) (hM : ∀ x, M' x ↔ M x) : Heap key' S'.offset M' S' n := by
  have hm (i : Nat) (hi : 1 ≤ i) (hn : i ≤ n) : M (S.slot i) := (h.tracks.members _).mpr ⟨i,hi,hn,rfl⟩
  refine ⟨⟨fun i hi hn => ?_,fun x => ?_,fun _ _ => rfl⟩,fun i hi hn => ?_⟩
  · rw [hs i hn,ho _ (hm i hi hn),h.tracks.indexed i hi hn]
  · rw [hM x,h.tracks.members x]
    constructor <;> rintro ⟨i,hi,hn,rfl⟩
    · exact ⟨i,hi,hn,hs i hn⟩
    · exact ⟨i,hi,hn,(hs i hn).symm⟩
  · rw [hs i hn,hs _ (by omega),hk _ (hm i (by omega) hn),hk _ (hm (i/2) (by omega) (by omega))]
    exact h.ordered i hi hn

omit [DecidableEq α] in
theorem Heap.of_iff (hM : ∀ x, M' x ↔ M x) : Heap key base M' S n := by
  obtain rfl : M' = M := funext fun x => propext (hM x)
  exact h

omit [DecidableEq α] in
theorem Heap.offset_mem (ht : M t) : 1 ≤ S.offset t ∧ S.offset t ≤ n ∧ S.slot (S.offset t) = t := by
  obtain ⟨i,hi,hn,rfl⟩ := (h.tracks.members t).mp ht
  rw [h.tracks.indexed i hi hn]
  exact ⟨hi,hn,rfl⟩

omit [DecidableEq α] in
theorem Heap.shrink (ht : M t)
  (hl : S.offset t = n) : Heap key S.offset (fun x => M x ∧ x ≠ t) S (n-1) := by
  obtain ⟨ho,_,hs⟩ := h.offset_mem ht
  refine ⟨⟨fun i hi ha => h.tracks.indexed i hi (by omega),fun x => ?_,fun _ _ => rfl⟩,
    fun i hi ha => h.ordered i hi (by omega)⟩
  rw [h.tracks.members x]
  constructor
  · rintro ⟨⟨i,hi,ha,rfl⟩,hn⟩
    have : i ≠ n := by
      rintro rfl
      exact hn (by rw [← hl,hs])
    exact ⟨i,hi,by omega,rfl⟩
  rintro ⟨i,hi,ha,rfl⟩
  refine ⟨⟨i,hi,by omega,rfl⟩,fun he => ?_⟩
  have := h.tracks.indexed i hi (by omega)
  rw [he] at this
  omega

theorem Heap.fill (ht : M t) (hl : S.offset t ≠ n) :
  Tracks S.offset (fun x => M x ∧ x ≠ t) (S.place (S.offset t) (S.slot n)) (n-1) := by
  obtain ⟨ho,hh,hs⟩ := h.offset_mem ht
  have hn (i : Nat) (hi : 1 ≤ i) (ha : i ≤ n-1) : S.slot i ≠ S.slot n :=
    h.tracks.slot_ne ⟨hi,by omega⟩ ⟨by omega,Nat.le_refl n⟩ (by omega)
  have hl' : S.slot n ≠ t := fun he => by
    have := h.tracks.indexed n (by omega) le_rfl
    rw [he] at this
    exact hl this
  refine ⟨fun i hi ha => ?_,fun x => ?_,fun x hx => ?_⟩
  · by_cases hp : i = S.offset t
    · rw [hp,place_slot_self,place_offset_self]
    · rw [place_slot_ne hp,place_offset_ne (hn i hi ha),h.tracks.indexed i hi (by omega)]
  · rw [h.tracks.members x]
    constructor
    · rintro ⟨⟨i,hi,ha,rfl⟩,hb⟩
      have hp : i ≠ S.offset t := fun he => hb (he ▸ hs)
      by_cases hi' : i = n
      · exact ⟨S.offset t,ho,by omega,by rw [place_slot_self,hi']⟩
      · exact ⟨i,hi,by omega,place_slot_ne hp⟩
    rintro ⟨i,hi,ha,rfl⟩
    by_cases hp : i = S.offset t
    · rw [hp,place_slot_self]
      exact ⟨⟨n,by omega,Nat.le_refl n,rfl⟩,hl'⟩
    rw [place_slot_ne hp]
    refine ⟨⟨i,hi,by omega,rfl⟩,fun he => hp ?_⟩
    rw [← he,h.tracks.indexed i hi (by omega)]
  · refine place_offset_ne fun he => hx ⟨?_,he ▸ hl'⟩
    exact (h.tracks.members x).mpr ⟨n,by omega,Nat.le_refl n,he.symm⟩

theorem removeFromHeap_heap (ht : M t) :
  Heap key S.offset (fun x => M x ∧ x ≠ t) (S.removeFromHeap key n t) (n-1) := by
  obtain ⟨ho,hh,hs⟩ := h.offset_mem ht
  rw [Slots.removeFromHeap]
  dsimp only
  split
  · rename_i hl
    exact h.shrink ht hl
  rename_i hl
  have hr := h.fill ht hl
  have hb (i : Nat) (hn : i ≤ n-1) (hc : i/2 = S.offset t) : key t ≤ key (S.slot i) := by
    have := h.ordered i (by omega) (by omega)
    rwa [hc,hs] at this
  have he (hd : 1 < S.offset t) : key (S.slot (S.offset t/2)) ≤ key t := by
    have := h.ordered (S.offset t) hd hh
    rwa [hs] at this
  have hp (hd : 1 < S.offset t) : (S.place (S.offset t) (S.slot n)).slot (S.offset t/2) = S.slot (S.offset t/2) :=
    place_slot_ne (by omega)
  have ha : 1 < S.offset t → ∀ i ≤ n-1, i/2 = S.offset t →
      key ((S.place (S.offset t) (S.slot n)).slot (S.offset t/2)) ≤
        key ((S.place (S.offset t) (S.slot n)).slot i) := fun hd i hn hc => by
    rw [hp hd,place_slot_ne (by omega)]
    exact le_trans (he hd) (hb i hn hc)
  split
  · rename_i hu
    rw [place_slot_self,hp hu.1] at hu
    refine upHeap_heap (by omega) hr ⟨fun i hi hn hc => ?_,ha⟩
    rw [place_slot_ne hc]
    by_cases hi2 : i/2 = S.offset t
    · rw [hi2,place_slot_self]
      exact le_trans (le_of_lt hu.2) (le_trans (he hu.1) (hb i hn hi2))
    · rw [place_slot_ne hi2]
      exact h.ordered i hi (by omega)
  rename_i hf
  refine downHeap_heap (by omega) hr ⟨fun i hi hn hi2 => ?_,ha⟩
  by_cases hc : i = S.offset t
  · rw [hc] at hi ⊢
    rw [place_slot_self,hp hi] at hf ⊢
    exact not_lt.mp fun hd => hf ⟨hi,hd⟩
  · rw [place_slot_ne hi2,place_slot_ne hc]
    exact h.ordered i hi (by omega)

end

end

end IndexedHeap
