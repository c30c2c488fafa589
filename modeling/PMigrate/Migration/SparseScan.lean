import PMigrate.Migration.Plan
import PMigrate.Migration.PageTable
import PMigrate.Core.CInt

namespace SparseScan

open PageTable Migration List Nat

def bitsPerLong (b : Build) : Nat := b.longSize*8

def orderLong (b : Build) : Nat := if b.longSize = 4 then 5 else 6

def bitsToLongs (b : Build) (bits : Nat) : Nat := (bits+bitsPerLong b-1)/bitsPerLong b

def largestGuest : Nat := BitField.complement 32 ltabMask

inductive Stop where
  | tooBigGuest
  | outsideBitmap
  | unfinished
deriving DecidableEq

structure Cursor where
  N : Nat
  batch : List Nat
deriving DecidableEq

def testBit (b : Build) (nr : Int) (bmap : List Nat) : Except Stop Bool :=
  let nr := CInt.asUnsigned (bitsPerLong b) nr
  match bmap[nr/bitsPerLong b]? with
  | none => .error .outsideBitmap
  | some w => .ok (w.testBit (nr%bitsPerLong b))

-- `N` is an unsigned int, the `n` tested and stored is a plain int
def visit (b : Build) (toSend : List Nat) (c : Cursor) : Except Stop Cursor :=
  let n := CInt.asInt c.N
  match toSend[c.N >>> orderLong b]? with
  | none => .error .outsideBitmap
  | some w =>
    if w = 0 then .ok {c with N := ((c.N+(bitsPerLong b-1))%2^32+1)%2^32}
    else
      match testBit b n toSend with
      | .error e => .error e
      | .ok false => .ok {c with N := (c.N+1)%2^32}
      | .ok true => .ok ⟨(c.N+1)%2^32,c.batch ++ [CInt.asUnsigned (bitsPerLong b) n]⟩

def loadBatch (b : Build) (p2mSize : Nat) (toSend : List Nat) : Nat → Cursor → Except Stop Cursor
  | 0,_ => .error .unfinished
  | fuel+1,c =>
    if c.batch.length < maxBatchSize ∧ c.N < p2mSize then
      match visit b toSend c with
      | .error e => .error e
      | .ok c => loadBatch b p2mSize toSend fuel c
    else .ok c

def iteration (b : Build) (p2mSize : Nat) (toSend : List Nat) : Nat → Nat → Except Stop (List (List Nat))
  | 0,_ => .error .unfinished
  | fuel+1,N =>
    if N < p2mSize then
      match loadBatch b p2mSize toSend (p2mSize+1) ⟨N,[]⟩ with
      | .error e => .error e
      | .ok c =>
        if c.batch = [] then .ok []
        else
          match iteration b p2mSize toSend fuel c.N with
          | .error e => .error e
          | .ok rest => .ok (c.batch :: rest)
    else .ok []

def checkpointScan (b : Build) (p2mSize : Nat) (toSend : List Nat) : Except Stop (List (List Nat)) :=
  if largestGuest < p2mSize then .error .tooBigGuest
  else iteration b p2mSize toSend (p2mSize+1) 0

def marked (b : Build) (toSend : List Nat) (n : Nat) : Bool :=
  (toSend.getD (n/bitsPerLong b) 0).testBit (n%bitsPerLong b)

def markedBelow (b : Build) (toSend : List Nat) (k : Nat) : List Nat := (List.range k).filter (marked b toSend)

variable {p2mSize : Nat} {toSend : List Nat}

section

variable (b : Build)

theorem bitsPerLong_cases : bitsPerLong b = 32 ∧ orderLong b = 5 ∨ bitsPerLong b = 64 ∧ orderLong b = 6 := by
  cases b with
  | x86_32 => exact .inl ⟨rfl,rfl⟩
  | x86_64 => exact .inr ⟨rfl,rfl⟩

theorem shift_orderLong (n : Nat) : n >>> orderLong b = n/bitsPerLong b := by
  rcases bitsPerLong_cases b with ⟨hb,ho⟩ | ⟨hb,ho⟩ <;> rw [hb,ho,shiftRight_eq_div_pow]

theorem word_inside {n : Nat} (hl : bitsToLongs b p2mSize ≤ toSend.length) (hn : n < p2mSize) :
  ∃ w, toSend[n/bitsPerLong b]? = some w ∧ toSend.getD (n/bitsPerLong b) 0 = w := by
  have ht : n/bitsPerLong b < toSend.length := by
    rw [bitsToLongs] at hl
    rcases bitsPerLong_cases b with ⟨hb,-⟩ | ⟨hb,-⟩ <;> rw [hb] at hl ⊢ <;> omega
  refine ⟨toSend[n/bitsPerLong b],List.getElem?_eq_getElem ht,?_⟩
  rw [getD_eq_getElem?_getD,List.getElem?_eq_getElem ht,Option.getD_some]

theorem testBit_marked {n : Nat} (hl : bitsToLongs b p2mSize ≤ toSend.length)
  (hn : n < p2mSize) (hs : n < 2^31) : testBit b (CInt.asInt n) toSend = .ok (marked b toSend n) := by
  have hw : 31 ≤ bitsPerLong b := by rcases bitsPerLong_cases b with ⟨hb,-⟩ | ⟨hb,-⟩ <;> omega
  obtain ⟨w,ho,hv⟩ := word_inside b hl hn
  rw [testBit,CInt.asUnsigned_asInt hs hw]
  simp only [ho]
  rw [marked,hv]

theorem markedBelow_succ (k : Nat) : markedBelow b toSend (k+1) =
  markedBelow b toSend k ++ if marked b toSend k then [k] else [] := by
  rw [markedBelow,range_succ,filter_append,markedBelow,filter_singleton,Bool.cond_eq_ite]

theorem markedBelow_clear {k m : Nat} (hl : k ≤ m) (hc : ∀ n, k ≤ n → n < m → marked b toSend n = false) :
  markedBelow b toSend m = markedBelow b toSend k := by
  induction m,hl using le_induction with
  | base => rfl
  | succ m hk ih =>
    rw [markedBelow_succ,hc m hk (by omega),ih fun n hn ht => hc n hn (by omega)]
    exact append_nil _

theorem zero_word_clear {n N : Nat} (hz : toSend.getD (N/bitsPerLong b) 0 = 0)
  (ha : N%bitsPerLong b = 0) (he : N ≤ n) (hl : n < N+bitsPerLong b) : marked b toSend n = false := by
  have hs : n/bitsPerLong b = N/bitsPerLong b := by
    rcases bitsPerLong_cases b with ⟨hb,-⟩ | ⟨hb,-⟩ <;> rw [hb] at ha hl ⊢ <;> omega
  rw [marked,hs,hz,zero_testBit]

end

def Entered (b : Build) (toSend : List Nat) (N : Nat) : Prop :=
  toSend.getD (N/bitsPerLong b) 0 = 0 → N%bitsPerLong b = 0

structure Scanned (b : Build) (p2mSize : Nat) (toSend : List Nat) (N : Nat) (c : Cursor) : Prop where
  entered : Entered b toSend c.N
  exact : markedBelow b toSend (min c.N p2mSize) = markedBelow b toSend (min N p2mSize) ++ c.batch

section

variable {b : Build}

variable {c : Cursor} {N fuel : Nat}

theorem entered_succ (h : toSend.getD (N/bitsPerLong b) 0 ≠ 0) : Entered b toSend (N+1) := by
  intro hz
  by_contra hm
  have hs : (N+1)/bitsPerLong b = N/bitsPerLong b := by
    rcases bitsPerLong_cases b with ⟨hb,-⟩ | ⟨hb,-⟩ <;> rw [hb] at hm ⊢ <;> omega
  rw [hs] at hz
  exact h hz

theorem visit_scanned (hi : p2mSize < 2^31) (hl : bitsToLongs b p2mSize ≤ toSend.length)
  (hc : Scanned b p2mSize toSend N c) (hN : c.N < p2mSize) :
  ∃ d, visit b toSend c = .ok d ∧ Scanned b p2mSize toSend N d ∧ c.N < d.N ∧ d.batch.length ≤ c.batch.length+1 := by
  have hm : 32 ≤ bitsPerLong b ∧ bitsPerLong b ≤ 64 := by
    rcases bitsPerLong_cases b with ⟨hb,-⟩ | ⟨hb,-⟩ <;> omega
  obtain ⟨w,ho,hv⟩ := word_inside b hl hN
  have hf : min c.N p2mSize = c.N := by omega
  have he := hc.exact
  rw [hf] at he
  rw [visit]
  simp only [shift_orderLong,ho]
  by_cases hw : w = 0
  · rw [if_pos hw]
    have ha := hc.entered (hv.trans hw)
    have hn : ((c.N+(bitsPerLong b-1))%2^32+1)%2^32 = c.N+bitsPerLong b := by omega
    rw [hn]
    refine ⟨_,rfl,⟨fun _ => ?_,?_⟩,by dsimp only; omega,le_succ _⟩
    · rw [add_mod_right,ha]
    · refine (markedBelow_clear b (k := c.N) (by dsimp only; omega) fun n hg hk => ?_).trans he
      exact zero_word_clear b (hv.trans hw) ha hg (by dsimp only at hk; omega)
  rw [if_neg hw,testBit_marked b hl hN (by omega),CInt.asUnsigned_asInt (by omega) (by omega),mod_eq_of_lt (by omega)]
  have hd : Entered b toSend (c.N+1) := entered_succ (by rw [hv]; exact hw)
  have hn : min (c.N+1) p2mSize = c.N+1 := by omega
  have hs : markedBelow b toSend (c.N+1) = markedBelow b toSend c.N ++ if marked b toSend c.N then [c.N] else [] :=
    markedBelow_succ b c.N
  cases ht : marked b toSend c.N with
  | false =>
    rw [ht,if_neg Bool.false_ne_true,append_nil] at hs
    refine ⟨_,rfl,⟨hd,?_⟩,lt_succ_self _,le_succ _⟩
    rw [hn,hs,he]
  | true =>
    rw [ht,if_pos rfl] at hs
    refine ⟨_,rfl,⟨hd,?_⟩,lt_succ_self _,?_⟩
    · rw [hn,hs,he,append_assoc]
    · rw [length_append,length_singleton]

structure Loaded (b : Build) (p2mSize : Nat) (toSend : List Nat) (N : Nat) (c : Cursor) : Prop
    extends Scanned b p2mSize toSend N c where
  bounded : c.batch.length ≤ maxBatchSize
  stopped : c.batch.length = maxBatchSize ∨ p2mSize ≤ c.N

theorem loadBatch_loaded (hs : p2mSize < 2^31) (ha : bitsToLongs b p2mSize ≤ toSend.length)
  (hc : Scanned b p2mSize toSend N c) (hr : c.batch.length ≤ maxBatchSize)
  (hf : p2mSize-c.N < fuel) : ∃ d, loadBatch b p2mSize toSend fuel c = .ok d ∧ Loaded b p2mSize toSend N d ∧
    c.N ≤ d.N ∧ (d.batch.length ≠ c.batch.length → c.N < d.N) := by
  induction fuel generalizing c with
  | zero => exact absurd hf (not_lt_zero _)
  | succ fuel ih =>
    rw [loadBatch]
    by_cases ho : c.batch.length < maxBatchSize ∧ c.N < p2mSize
    · rw [if_pos ho]
      obtain ⟨d,hv,hd,ht,hg⟩ := visit_scanned hs ha hc ho.2
      obtain ⟨e,hl,he,hb,-⟩ := ih hd (by omega) (by omega)
      rw [hv]
      exact ⟨e,hl,he,by omega,fun _ => by omega⟩
    · rw [if_neg ho]
      exact ⟨c,rfl,⟨hc,hr,by omega⟩,le_rfl,fun hn => absurd rfl hn⟩

theorem iteration_exact (hi : p2mSize < 2^31) (hn : bitsToLongs b p2mSize ≤ toSend.length)
  (hN : Entered b toSend N) (hf : p2mSize-N < fuel) : ∃ batches, iteration b p2mSize toSend fuel N = .ok batches ∧
    markedBelow b toSend p2mSize = markedBelow b toSend (min N p2mSize) ++ batches.flatten ∧
    ∀ batch ∈ batches, batch.length ≤ maxBatchSize := by
  induction fuel generalizing N with
  | zero => exact absurd hf (not_lt_zero _)
  | succ fuel ih =>
    rw [iteration]
    by_cases hg : N < p2mSize
    · rw [if_pos hg]
      have hs : Scanned b p2mSize toSend N ⟨N,[]⟩ := ⟨hN,(append_nil _).symm⟩
      have hu : p2mSize-N < p2mSize+1 := by omega
      obtain ⟨c,hl,hc,hd,ht⟩ := loadBatch_loaded hi hn hs (zero_le _) hu
      rw [hl]
      dsimp only
      by_cases he : c.batch = []
      · rw [if_pos he]
        have ha : p2mSize ≤ c.N := hc.stopped.resolve_left (by rw [he]; exact succ_ne_zero _ ∘ Eq.symm)
        refine ⟨[],rfl,?_,forall_mem_nil _⟩
        have hx := hc.exact
        rwa [Nat.min_eq_right ha,he] at hx
      rw [if_neg he]
      have hm : N < c.N := ht (by simpa using he)
      obtain ⟨rest,hr,hx,hb⟩ := ih (N := c.N) hc.entered (by omega)
      rw [hr]
      refine ⟨c.batch :: rest,rfl,?_,forall_mem_cons.mpr ⟨hc.bounded,hb⟩⟩
      rw [hx,hc.exact,append_assoc,flatten_cons]
    rw [if_neg hg]
    refine ⟨[],rfl,?_,forall_mem_nil _⟩
    rw [Nat.min_eq_right (Nat.le_of_not_lt hg),flatten_nil,append_nil]

end

theorem entered_zero (b : Build) (toSend : List Nat) : Entered b toSend 0 := fun _ => zero_mod _

theorem sparse_scan_exact (b : Build) (p2mSize : Nat) (toSend : List Nat)
  (hlen : bitsToLongs b p2mSize ≤ toSend.length) :
  (largestGuest < p2mSize → checkpointScan b p2mSize toSend = .error .tooBigGuest) ∧
  (p2mSize ≤ largestGuest → ∃ batches, checkpointScan b p2mSize toSend = .ok batches ∧
    batches.flatten = (List.range p2mSize).filter (marked b toSend) ∧ ∀ batch ∈ batches,
    batch.length ≤ maxBatchSize) := by
  constructor
  · intro hi
    rw [checkpointScan,if_pos hi]
  intro hl
  have hs : p2mSize < 2^31 := lt_of_le_of_lt hl (by decide)
  obtain ⟨batches,hr,he,hb⟩ := iteration_exact hs hlen (entered_zero b toSend) (lt_succ_self _)
  refine ⟨batches,?_,?_,hb⟩
  · rw [checkpointScan,if_neg (not_lt.mpr hl)]
    exact hr
  · rw [Nat.zero_min] at he
    exact he.symm

theorem two_words_scanned : bitsToLongs .x86_64 70 ≤ [0,5].length ∧ ∃ batches,
    checkpointScan .x86_64 70 [0,5] = .ok batches ∧ batches.flatten = [64,66] := by
  refine ⟨by decide,?_⟩
  obtain ⟨batches,hr,he,-⟩ := (sparse_scan_exact .x86_64 70 [0,5] (by decide)).2 (by decide)
  exact ⟨batches,hr,he.trans (by decide)⟩

end SparseScan
