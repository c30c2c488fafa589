import PMigrate.Core.Transition
import PMigrate.Migration.PageTable

namespace HypercallBuffer

open PageTable Transition Nat List Option

structure Region where
  (base len : Nat)

namespace Region

def Contains (r : Region) (a : Nat) : Prop := r.base ≤ a ∧ a < r.base+r.len

def Disjoint (r r' : Region) : Prop := ∀ a, r.Contains a → ¬r'.Contains a

def Within (r r' : Region) : Prop := ∀ a, r.Contains a → r'.Contains a

variable {r r' q q' : Region}

theorem Disjoint.symm (h : r.Disjoint r') : r'.Disjoint r := fun a ha ha' => h a ha' ha

theorem Disjoint.mono (h : r.Disjoint r') (hq : q.Within r) (hq' : q'.Within r') :
  q.Disjoint q' := fun a ha ha' => h a (hq a ha) (hq' a ha')

theorem Within.refl : r.Within r := fun _ h => h

theorem Disjoint.mono_left (h : r.Disjoint r') (hq : q.Within r) : q.Disjoint r' := h.mono hq .refl

theorem Disjoint.mono_right (h : r.Disjoint r') (hq : q.Within r') : r.Disjoint q := h.mono .refl hq

theorem within_of_le {base len len' : Nat} (h : len ≤ len') : Within ⟨base,len⟩ ⟨base,len'⟩ := by
  rintro a ⟨hl,hh⟩
  exact ⟨hl,by dsimp only at hh ⊢; omega⟩

end Region

def hypercallBufferCacheSize : Nat := 4
def localMallocPages : Nat := 10
def allocationHeaderSize : Nat := 4

def pages (p n : Nat) : Region := ⟨p,n*pageSize⟩

structure Setup where
  build : Build
  isMigrate : Bool
  localMallocBuf : Nat → Option Nat
  localMallocBuf_apart : ∀ t t' a a', t ≠ t' → localMallocBuf t = some a →
    localMallocBuf t' = some a' → (pages a localMallocPages).Disjoint (pages a' localMallocPages)

structure Buffer where
  (thread page nrPages hbuf size : Nat)
  header : Bool

def Buffer.region (x : Buffer) : Region := ⟨x.hbuf,x.size⟩

def Buffer.block (x : Buffer) : Region := pages x.page x.nrPages

structure State where
  cache : List Nat
  live : Nat → Option Buffer

inductive Call where
  | allocPages (t k nrPages : Nat) (memalign : Option Nat)
  | alloc (t k size : Nat) (memalign : Option Nat)
  | freePages (k : Nat)
  | free (k : Nat)
  | bouncePre (t k : Nat) (ubuf : Bool) (sz : Nat) (memalign : Option Nat)
  | bouncePost (k : Nat)

def State.hold (s : State) (k : Nat) (x : Option Buffer) : State :=
  {s with live := fun k' => if k' = k then x else s.live k'}

def cacheAlloc (s : State) (nrPages : Nat) : Option Nat × State :=
  if 1 < nrPages then (none,s)
  else
    match s.cache with
    | [] => (none,s)
    | p :: cache => (some p,{s with cache := cache})

def cacheFree (s : State) (p nrPages : Nat) : Bool × State :=
  if nrPages = 1 ∧ s.cache.length < hypercallBufferCacheSize then
    (true,{s with cache := p :: s.cache})
  else (false,s)

def roundup (b : Build) (x w : Nat) : Nat := (x+2^w-1)%2^(8*b.longSize)/2^w*2^w

def allocationPages (b : Build) (size : Nat) : Nat :=
  roundup b ((size+allocationHeaderSize)%2^(8*b.longSize)) pageShift/pageSize%2^32

namespace Setup

variable (st : Setup)

def scratchFor (t nrPages : Nat) : Option Nat :=
  if nrPages ≤ localMallocPages ∧ st.isMigrate = true then st.localMallocBuf t else none

section
variable (s : State)

def allocPages (t nrPages : Nat) (memalign : Option Nat) : Option Nat × State :=
  match cacheAlloc s nrPages with
  | (some p,s) => (some p,s)
  | (none,s) =>
    match st.scratchFor t nrPages with
    | some p => (some p,s)
    | none => (memalign,s)

def freePages (t p nrPages : Nat) : State :=
  if st.localMallocBuf t = some p then s else (cacheFree s p nrPages).2

def takePages (t k nrPages : Nat) (memalign : Option Nat) : State :=
  match st.allocPages s t nrPages memalign with
  | (none,s) => s
  | (some p,s) => s.hold k (some ⟨t,p,nrPages,p,nrPages*pageSize,false⟩)

def take (t k size : Nat) (memalign : Option Nat) : State :=
  let nrPages := allocationPages st.build size
  match st.allocPages s t nrPages memalign with
  | (none,s) => s
  | (some p,s) => s.hold k (some ⟨t,p,nrPages,p+allocationHeaderSize,size,true⟩)

def give (k : Nat) (x : Buffer) : State := st.freePages (s.hold k none) x.thread x.page x.nrPages

def giveIf (k : Nat) (header : Bool) : Option State :=
  match s.live k with
  | none => some s
  | some x => if x.header = header then some (st.give s k x) else none

def step : Call → Option State
  | .allocPages t k nrPages memalign =>
    if (s.live k).isNone ∧ nrPages < 2^31 then some (st.takePages s t k nrPages memalign) else none
  | .alloc t k size memalign =>
    if (s.live k).isNone ∧ allocationPages st.build size < 2^31 then
      some (st.take s t k size memalign)
    else none
  | .freePages k => st.giveIf s k false
  | .free k => st.giveIf s k true
  | .bouncePre t k ubuf sz memalign =>
    if ubuf = false then some (s.hold k none)
    else if (s.live k).isNone ∧ allocationPages st.build sz < 2^31 then
      some (st.take s t k sz memalign)
    else none
  | .bouncePost k => st.giveIf s k true

end

end Setup

def Call.request (b : Build) : Call → Option (Nat × Nat × Option Nat)
  | .allocPages t _ nrPages memalign => some (t,nrPages,memalign)
  | .alloc t _ size memalign => some (t,allocationPages b size,memalign)
  | .bouncePre t _ true sz memalign => some (t,allocationPages b sz,memalign)
  | _ => none

def sizeCounted (b : Build) (size : Nat) : Prop :=
  size+allocationHeaderSize+(pageSize-1) < 2^(8*b.longSize) ∧
    (size+allocationHeaderSize+(pageSize-1))/pageSize < 2^31

def Call.Counted (b : Build) : Call → Prop
  | .allocPages _ _ nrPages _ => nrPages*pageSize < 2^(8*b.longSize)
  | .alloc _ _ size _ => sizeCounted b size
  | .bouncePre _ _ _ sz _ => sizeCounted b sz
  | _ => True

namespace Setup

variable (st : Setup)

section
variable (s : State)

structure Vacant (r : Region) : Prop where
  live : ∀ k x, s.live k = some x → r.Disjoint x.block
  cached : ∀ p ∈ s.cache, r.Disjoint (pages p 1)
  scratch : ∀ t a, st.localMallocBuf t = some a → r.Disjoint (pages a localMallocPages)

def MemalignFresh (c : Call) : Prop :=
  ∀ t n p, c.request st.build = some (t,n,some p) → st.Vacant s ⟨p,n*pageSize%2^(8*st.build.longSize)⟩

def ScratchFree (c : Call) : Prop :=
  ∀ t n m a, c.request st.build = some (t,n,m) → (cacheAlloc s n).1 = none → st.scratchFor t n = some a →
      ∀ k x, s.live k = some x → x.thread = t → st.localMallocBuf t ≠ some x.page

structure Allowed (c : Call) : Prop where
  fresh : st.MemalignFresh s c
  counted : c.Counted st.build
  scratchFree : st.ScratchFree s c

structure Start : Prop where
  live : ∀ k, s.live k = none
  length : s.cache.length ≤ hypercallBufferCacheSize
  distinct : s.cache.Pairwise fun p q => (pages p 1).Disjoint (pages q 1)
  scratch : ∀ p ∈ s.cache, ∀ t a, st.localMallocBuf t = some a → (pages p 1).Disjoint (pages a localMallocPages)

end

def InScratch (x : Buffer) : Prop :=
  st.localMallocBuf x.thread = some x.page ∧ x.block.Within (pages x.page localMallocPages)

def OffScratch (x : Buffer) : Prop :=
  ∀ t a, st.localMallocBuf t = some a → x.block.Disjoint (pages a localMallocPages)

structure Inv (s : State) : Prop where
  apart : ∀ k k' x y, k ≠ k' → s.live k = some x → s.live k' = some y → x.block.Disjoint y.block
  cached : ∀ k x, s.live k = some x → ∀ p ∈ s.cache, x.block.Disjoint (pages p 1)
  distinct : s.cache.Pairwise fun p q => (pages p 1).Disjoint (pages q 1)
  scratch : ∀ p ∈ s.cache, ∀ t a, st.localMallocBuf t = some a → (pages p 1).Disjoint (pages a localMallocPages)
  placed : ∀ k x, s.live k = some x → st.InScratch x ∨ st.OffScratch x
  within : ∀ k x, s.live k = some x → x.region.Within x.block

structure Fresh (s : State) (x : Buffer) : Prop where
  apart : ∀ k y, s.live k = some y → x.block.Disjoint y.block
  cached : ∀ p ∈ s.cache, x.block.Disjoint (pages p 1)
  placed : st.InScratch x ∨ st.OffScratch x
  within : x.region.Within x.block

end Setup

section
variable {s : State} {k k' : Nat} {x : Option Buffer}

@[simp] theorem State.hold_cache : (s.hold k x).cache = s.cache := rfl

theorem State.hold_live {y : Buffer} (h : (s.hold k x).live k' = some y) :
  (k' = k ∧ x = some y) ∨ (k' ≠ k ∧ s.live k' = some y) := by
  simp only [State.hold] at h
  split at h
  · exact .inl ⟨‹_›,h⟩
  · exact .inr ⟨‹_›,h⟩

end

namespace Setup

variable {st : Setup} {s : State} {k t n : Nat} {x : Buffer}

theorem Start.inv (h : st.Start s) : st.Inv s where
  apart := fun k _ _ _ _ hk => by simp [h.live k] at hk
  cached := fun k _ hk => by simp [h.live k] at hk
  distinct := h.distinct
  scratch := h.scratch
  placed := fun k _ hk => by simp [h.live k] at hk
  within := fun k _ hk => by simp [h.live k] at hk

section
variable (h : st.Inv s)
include h

theorem Inv.grant (hx : st.Fresh s x) : st.Inv (s.hold k (some x)) where
  apart := by
    intro j j' y z hn hy hz
    rcases State.hold_live hy with ⟨hj,ha⟩ | ⟨-,hy'⟩ <;> rcases State.hold_live hz with ⟨hj',hb⟩ | ⟨-,hz'⟩
    · exact absurd (hj.trans hj'.symm) hn
    · cases ha
      exact hx.apart _ _ hz'
    · cases hb
      exact (hx.apart _ _ hy').symm
    · exact h.apart _ _ _ _ hn hy' hz'
  cached := by
    intro j y hy p hp
    rcases State.hold_live hy with ⟨rfl,ha⟩ | ⟨-,hy⟩
    · cases ha
      exact hx.cached p hp
    · exact h.cached _ _ hy p hp
  distinct := h.distinct
  scratch := h.scratch
  placed := by
    intro j y hy
    rcases State.hold_live hy with ⟨rfl,ha⟩ | ⟨-,hy⟩
    · cases ha
      exact hx.placed
    · exact h.placed _ _ hy
  within := by
    intro j y hy
    rcases State.hold_live hy with ⟨rfl,ha⟩ | ⟨-,hy⟩
    · cases ha
      exact hx.within
    · exact h.within _ _ hy

variable {s' : State} {p : Nat}

theorem Inv.mono (hl : ∀ j y, s'.live j = some y → s.live j = some y)
  (hc : s'.cache.Sublist s.cache) : st.Inv s' where
  apart := fun _ _ _ _ hn hy hz => h.apart _ _ _ _ hn (hl _ _ hy) (hl _ _ hz)
  cached := fun _ _ hy p hp => h.cached _ _ (hl _ _ hy) p (hc.subset hp)
  distinct := h.distinct.sublist hc
  scratch := fun p hp => h.scratch p (hc.subset hp)
  placed := fun _ _ hy => h.placed _ _ (hl _ _ hy)
  within := fun _ _ hy => h.within _ _ (hl _ _ hy)

theorem Inv.release (k : Nat) : st.Inv (s.hold k none) := by
  refine h.mono (fun j y hy => ?_) (List.Sublist.refl _)
  rcases State.hold_live hy with ⟨-,hx⟩ | ⟨-,hy⟩
  · cases hx
  · exact hy

theorem Inv.push (hv : st.Vacant s (pages p 1)) : st.Inv {s with cache := p :: s.cache} where
  apart := h.apart
  cached := by
    intro j y hy q hq
    rcases mem_cons.mp hq with rfl | hq
    · exact (hv.live j y hy).symm
    · exact h.cached j y hy q hq
  distinct := pairwise_cons.mpr ⟨hv.cached,h.distinct⟩
  scratch := by
    intro q hq
    rcases mem_cons.mp hq with rfl | hq
    · exact hv.scratch
    · exact h.scratch q hq
  placed := h.placed
  within := h.within

theorem Inv.vacant_of_pop {cache : List Nat} (hc : s.cache = p :: cache) :
  st.Vacant {s with cache := cache} (pages p 1) where
  live := fun j y hy => (h.cached j y hy p (by simp [hc])).symm
  cached := (pairwise_cons.mp (hc ▸ h.distinct)).1
  scratch := h.scratch p (by simp [hc])

end

theorem Vacant.fresh {r : Region} (hv : st.Vacant s r) (hb : x.block.Within r) (hr : x.region.Within x.block) :
  st.Fresh s x where
  apart := fun j y hy => (hv.live j y hy).mono_left hb
  cached := fun p hp => (hv.cached p hp).mono_left hb
  placed := .inr fun t a ha => (hv.scratch t a ha).mono_left hb
  within := hr

theorem Inv.fresh_of_scratch (h : st.Inv s) (hp : st.localMallocBuf x.thread = some p)
  (ha : x.page = p) (hm : x.nrPages ≤ localMallocPages)
  (hf : ∀ j y, s.live j = some y → y.thread = x.thread → st.localMallocBuf x.thread ≠ some y.page)
  (hr : x.region.Within x.block) : st.Fresh s x := by
  subst ha
  have hb : x.block.Within (pages x.page localMallocPages) := Region.within_of_le (mul_le_mul_right _ hm)
  refine ⟨fun j y hy => ?_,fun q hq => ?_,.inl ⟨hp,hb⟩,hr⟩
  · rcases h.placed j y hy with ⟨hs,hi⟩ | ho
    · have hn : x.thread ≠ y.thread := fun he => hf j y hy he.symm (he ▸ hs)
      exact (st.localMallocBuf_apart _ _ _ _ hn hp hs).mono hb hi
    · exact ((ho _ _ hp).mono_right hb).symm
  · exact ((h.scratch q hq _ _ hp).mono_right hb).symm

theorem Inv.give (h : st.Inv s) (hk : s.live k = some x) : st.Inv (st.give s k x) := by
  have hr := h.release k
  rw [Setup.give,freePages]
  split
  · exact hr
  rename_i ha
  rw [cacheFree]
  split_ifs with ho
  · have hb : x.block = pages x.page 1 := by rw [Buffer.block,ho.1]
    have hf : st.OffScratch x := (h.placed k x hk).resolve_left fun hi => ha hi.1
    refine hr.push ⟨fun j y hy => ?_,fun p hp => ?_,hb ▸ hf⟩
    · rcases State.hold_live hy with ⟨-,hx⟩ | ⟨hn,hy⟩
      · cases hx
      · exact hb ▸ h.apart _ _ _ _ (Ne.symm hn) hk hy
    · exact hb ▸ h.cached k x hk p hp
  · exact hr

theorem allocPages_cases (m : Option Nat) : (∃ p cache, s.cache = p :: cache ∧ n ≤ 1 ∧
    st.allocPages s t n m = (some p,{s with cache := cache})) ∨
  (∃ p, (cacheAlloc s n).1 = none ∧ st.scratchFor t n = some p ∧ st.allocPages s t n m = (some p,s)) ∨
  st.allocPages s t n m = (m,s) := by
  have hm : cacheAlloc s n = (none,s) → (∃ p, (cacheAlloc s n).1 = none ∧ st.scratchFor t n = some p ∧
        st.allocPages s t n m = (some p,s)) ∨ st.allocPages s t n m = (m,s) := by
    intro hn
    cases hs : st.scratchFor t n with
    | none => exact .inr (by simp only [allocPages,hn,hs])
    | some p => exact .inl ⟨p,by rw [hn],rfl,by simp only [allocPages,hn,hs]⟩
  by_cases hb : 1 < n
  · exact .inr (hm (if_pos hb))
  cases hc : s.cache with
  | nil => exact .inr (hm (by simp [cacheAlloc,hb,hc]))
  | cons p cache =>
    refine .inl ⟨p,cache,rfl,by omega,?_⟩
    simp only [allocPages,cacheAlloc,if_neg hb,hc]

theorem scratchFor_some (h : st.scratchFor t n = some p) : n ≤ localMallocPages ∧ st.localMallocBuf t = some p := by
  rw [scratchFor] at h
  split at h
  · exact ⟨(by assumption : _ ∧ _).1,h⟩
  · cases h

section
variable {m : Option Nat} {mk : Nat → Buffer}

structure Shaped (t n : Nat) (mk : Nat → Buffer) : Prop where
  thread : ∀ p, (mk p).thread = t
  page : ∀ p, (mk p).page = p
  nrPages : ∀ p, (mk p).nrPages = n
  within : ∀ p, (mk p).region.Within (mk p).block

theorem Shaped.block (h : Shaped t n mk) (p : Nat) : (mk p).block = pages p n := by
  rw [Buffer.block,h.page,h.nrPages]

theorem Inv.allocated (h : st.Inv s) (hk : Shaped t n mk) (hf : ∀ p, m = some p → st.Vacant s (pages p n))
  (hr : ∀ a, (cacheAlloc s n).1 = none → st.scratchFor t n = some a →
    ∀ j y, s.live j = some y → y.thread = t → st.localMallocBuf t ≠ some y.page) :
    st.Inv (match st.allocPages s t n m with
      | (none,s) => s
      | (some p,s) => s.hold k (some (mk p))) := by
  rcases @allocPages_cases st s t n m with
    ⟨p,cache,hc,hn,he⟩ | ⟨p,hm,hs,he⟩ | he
  · rw [he]
    have hp : st.Inv {s with cache := cache} := h.mono (fun _ _ hy => hy) (hc ▸ sublist_cons_self ..)
    refine hp.grant ((h.vacant_of_pop hc).fresh ?_ (hk.within p))
    rw [hk.block]
    exact Region.within_of_le (mul_le_mul_right _ hn)
  · rw [he]
    obtain ⟨ha,hbuf⟩ := scratchFor_some hs
    refine h.grant (h.fresh_of_scratch (p := p) ?_ (hk.page p) ?_ ?_ (hk.within p))
    · rw [hk.thread,hbuf]
    · rw [hk.nrPages]
      exact ha
    · rw [hk.thread]
      exact hr p hm hs
  · rw [he]
    cases m with
    | none => exact h
    | some p =>
      refine h.grant ((hf p rfl).fresh ?_ (hk.within p))
      rw [hk.block]
      exact .refl

end

variable {size : Nat} {m : Option Nat} {c : Call}

theorem le_allocationPages {b : Build} (h : sizeCounted b size) :
  size+allocationHeaderSize ≤ allocationPages b size*pageSize ∧
    allocationPages b size*pageSize < 2^(8*b.longSize) := by
  obtain ⟨hl,hi⟩ := h
  have hs : (size+allocationHeaderSize)%2^(8*b.longSize) = size+allocationHeaderSize :=
    mod_eq_of_lt (by omega)
  have hr : size+allocationHeaderSize+2^pageShift-1 = size+allocationHeaderSize+(pageSize-1) := rfl
  have hp : allocationPages b size = (size+allocationHeaderSize+(pageSize-1))/pageSize := by
    rw [allocationPages,roundup,hs,hr,mod_eq_of_lt hl]
    rw [show (2 : Nat)^pageShift = pageSize from rfl,Nat.mul_div_cancel _ (by decide)]
    exact mod_eq_of_lt (by omega)
  rw [hp]
  generalize 2^(8*b.longSize) = w at hl
  simp only [pageSize,allocationHeaderSize] at hl ⊢
  omega

theorem Inv.takePages (h : st.Inv s) (hf : st.MemalignFresh s (.allocPages t k n m))
  (hc : Call.Counted st.build (.allocPages t k n m))
  (hr : st.ScratchFree s (.allocPages t k n m)) : st.Inv (st.takePages s t k n m) := by
  have hs : n*pageSize%2^(8*st.build.longSize) = n*pageSize := mod_eq_of_lt hc
  have hm : Shaped t n fun p => ⟨t,p,n,p,n*pageSize,false⟩ :=
    ⟨fun _ => rfl,fun _ => rfl,fun _ => rfl,fun _ => .refl⟩
  refine h.allocated hm (fun p hp => ?_) fun a => hr t n m a rfl
  have hv := hf t n p (by rw [← hp]; rfl)
  rwa [hs] at hv

theorem Inv.take (h : st.Inv s) (hc : c.request st.build = some (t,allocationPages st.build size,m))
  (hf : st.MemalignFresh s c) (ho : sizeCounted st.build size) (hr : st.ScratchFree s c) :
  st.Inv (st.take s t k size m) := by
  obtain ⟨he,hl⟩ := le_allocationPages ho
  have hm : Shaped t (allocationPages st.build size) fun p =>
      ⟨t,p,allocationPages st.build size,p+allocationHeaderSize,size,true⟩ := by
    refine ⟨fun _ => rfl,fun _ => rfl,fun _ => rfl,fun p a ha => ?_⟩
    obtain ⟨hb,hh⟩ := ha
    dsimp only [Buffer.region] at hb hh
    exact ⟨by dsimp only [Buffer.block,pages]; omega,by dsimp only [Buffer.block,pages]; omega⟩
  refine h.allocated hm (fun p hp => ?_) fun a => hr t _ m a hc
  have hv := hf t _ p (by rw [hc,hp])
  rwa [mod_eq_of_lt hl] at hv

theorem Inv.giveIf {header : Bool} (h : st.Inv s) (hs : st.giveIf s k header = some s') : st.Inv s' := by
  rw [Setup.giveIf] at hs
  split at hs
  · cases hs
    exact h
  split at hs
  · cases hs
    exact h.give ‹_›
  · cases hs

theorem Inv.step (h : st.Inv s) (hc : st.Allowed s c) (hs : st.step s c = some s') : st.Inv s' := by
  cases c with
  | allocPages t k n m =>
    simp only [Setup.step] at hs
    split at hs
    · cases hs
      exact h.takePages hc.fresh hc.counted hc.scratchFree
    · cases hs
  | alloc t k size m =>
    simp only [Setup.step] at hs
    split at hs
    · cases hs
      exact h.take rfl hc.fresh hc.counted hc.scratchFree
    · cases hs
  | freePages k | free k | bouncePost k => exact h.giveIf hs
  | bouncePre t k ubuf sz m =>
    simp only [Setup.step] at hs
    cases ubuf with
    | false =>
      simp only [if_true,some.injEq] at hs
      exact hs ▸ h.release k
    | true =>
      simp only [Bool.true_eq_false,if_false] at hs
      split at hs
      · cases hs
        exact h.take rfl hc.fresh hc.counted hc.scratchFree
      · cases hs

theorem inv_of_reach {s0 : State} (h0 : st.Start s0) (h : Reach st.step st.Allowed s0 s) : st.Inv s :=
  reach_invariant h0.inv (fun _ _ _ _ hu ha hv => hu.step ha hv) h

theorem live_buffers_disjoint (st : Setup) {s0 s : State} (h0 : st.Start s0)
  (h : Reach st.step st.Allowed s0 s) {k k' : Nat} {x y : Buffer} (hne : k ≠ k')
  (hx : s.live k = some x) (hy : s.live k' = some y) : x.region.Disjoint y.region := by
  have hi := inv_of_reach h0 h
  exact (hi.apart k k' x y hne hx hy).mono (hi.within k x hx) (hi.within k' y hy)

end Setup

def reservationSize : Nat := 32

def populatePhysmap (b : Build) (t extents arg nrExtents : Nat) : List Call :=
  [.bouncePre t extents true (nrExtents*b.longSize) none,
    .bouncePre t arg true reservationSize none,.bouncePost arg,.bouncePost extents]

def oneThread : Setup where
  build := .x86_64
  isMigrate := true
  localMallocBuf := fun t => if t = 0 then some 0x10000 else none
  localMallocBuf_apart := by
    intro t t' a a' hne ht ht'
    simp only [ite_none_right_eq_some] at ht ht'
    exact absurd (ht.1.trans ht'.1.symm) hne

def emptyWith (cache : List Nat) : State := ⟨cache,fun _ => none⟩

theorem memalignFresh_of_none {st : Setup} {s : State} {c : Call} {t n : Nat}
  (h : c.request st.build = some (t,n,none)) : st.MemalignFresh s c := by
  intro t' n' p hp
  simp [h] at hp

theorem pages_disjoint {p q m n : Nat} (h : p+m*pageSize ≤ q) : (pages p m).Disjoint (pages q n) := by
  rintro a ⟨-,hh⟩ ⟨hl,-⟩
  dsimp only [pages] at hh hl
  omega

theorem start_oneThread : oneThread.Start (emptyWith [0x40000]) where
  live := fun _ => rfl
  length := by decide
  distinct := pairwise_singleton ..
  scratch := by
    intro p hp t a ha
    cases mem_singleton.mp hp
    have ha' : a = 0x10000 := by
      simp only [oneThread,ite_none_right_eq_some,some.injEq] at ha
      exact ha.2.symm
    subst ha'
    exact (pages_disjoint (by decide)).symm

theorem nested_bounce_from_cache : ∃ s x y, Reach oneThread.step oneThread.Allowed (emptyWith [0x40000]) s ∧
    s.live 0 = some x ∧ s.live 1 = some y ∧ x.region.Disjoint y.region := by
  have hp : oneThread.Allowed (emptyWith [0x40000]) (.bouncePre 0 0 true 8192 none) := by
    refine ⟨memalignFresh_of_none rfl,⟨by decide,by decide⟩,?_⟩
    intro t n m a _ _ _ k x hx
    cases hx
  have ha : oneThread.Allowed (oneThread.take (emptyWith [0x40000]) 0 0 8192 none)
      (.bouncePre 0 1 true reservationSize none) := by
    refine ⟨memalignFresh_of_none rfl,⟨by decide,by decide⟩,?_⟩
    intro t n m a he hm
    simp only [Call.request,some.injEq,Prod.mk.injEq] at he
    obtain ⟨rfl,rfl,rfl⟩ := he
    exact absurd hm (by decide)
  have hr : Reach oneThread.step oneThread.Allowed (emptyWith [0x40000])
      (oneThread.take (oneThread.take (emptyWith [0x40000]) 0 0 8192 none) 0 1 reservationSize none) :=
    (Relation.ReflTransGen.single ⟨_,hp,rfl⟩).tail ⟨_,ha,rfl⟩
  exact ⟨_,_,_,hr,rfl,rfl,oneThread.live_buffers_disjoint start_oneThread hr (by decide : 0 ≠ 1) rfl rfl⟩

theorem nested_bounce_shares_scratch : ∃ s x y, oneThread.Start (emptyWith []) ∧
    runIf oneThread.step (fun _ _ => true) (emptyWith []) ((populatePhysmap .x86_64 0 0 1 1024).take 2) = some s ∧
    Reach oneThread.step oneThread.MemalignFresh (emptyWith []) s ∧
    s.live 0 = some x ∧ s.live 1 = some y ∧ ¬x.region.Disjoint y.region := by
  have hr : Reach oneThread.step oneThread.MemalignFresh (emptyWith [])
      (oneThread.take (oneThread.take (emptyWith []) 0 0 8192 none) 0 1 reservationSize none) :=
    (Relation.ReflTransGen.single ⟨.bouncePre 0 0 true 8192 none,memalignFresh_of_none rfl,rfl⟩).tail
      ⟨.bouncePre 0 1 true reservationSize none,memalignFresh_of_none rfl,rfl⟩
  refine ⟨_,_,_,?_,rfl,hr,rfl,rfl,?_⟩
  · exact ⟨fun _ => rfl,by decide,List.Pairwise.nil,fun _ hp => by cases hp⟩
  · intro h
    exact h 0x10004 ⟨by decide,by decide⟩ ⟨by decide,by decide⟩

end HypercallBuffer
