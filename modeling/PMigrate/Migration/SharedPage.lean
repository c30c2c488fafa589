import PMigrate.Migration.BatchCodec
import PMigrate.Core.Transition

namespace BatchCodec

open PageTable Migration Transition List Bytes

-- a thread in send_patch: in the loop that writes a batch out, storing a canonicalised table into the page, writing
-- the page from byte k on, or past the loop (false: the exit on a page table race)
inductive Phase where
  | skipped
  | looping
  | filling (k : Nat)
  | writing (k : Nat)
  | left (complete : Bool)
  deriving DecidableEq

-- one batch on its way
structure Sender where
  batch : Batch
  (j run : Nat)
  out : List UInt8
  phase : Phase

-- page is the array in xc_domain_save that every batch is given
structure Senders where
  page : List UInt8
  sender : Nat → Sender

namespace Sender

variable (c : SaveCtx) (live : Bool) (x : Sender)

def sent : Option Sent :=
  match x.phase with
  | .skipped => some .skipped
  | .left complete => some (if complete then .written x.out else .failed x.out)
  | _ => none

def holdsPage : Bool :=
  match x.phase with
  | .filling k => decide (0 < k)
  | .writing _ => true
  | _ => false

def table : List UInt8 × Bool :=
  c.canonicalizePagetable (pagetypeOf (x.batch.words.getD x.j 0) &&& ltabtypeMask) (x.batch.regionBase.getD x.j [])

def turn : Sender :=
  match x.batch.words[x.j]? with
  | none =>
    {x with out := if x.run ≠ 0 then x.out ++ writeRun x.batch.regionBase (x.j-x.run) x.run else x.out
            phase := .left true}
  | some w =>
    let flush := pagetypeOf w ≠ 0 ∧ x.run ≠ 0
    let out := if flush then x.out ++ writeRun x.batch.regionBase (x.j-x.run) x.run else x.out
    let run := if flush then 0 else x.run
    if pagetypeOf w = xtab then {x with j := x.j+1, run := run, out := out}
    else if isTable w then {x with run := run, out := out, phase := .filling 0}
    else {x with j := x.j+1, run := run+1, out := out}

-- n more bytes of the table are in the page
def filled (k n : Nat) : Sender :=
  {x with phase := if k+n < pageSize then .filling (k+n)
                   else if (x.table c).2 && !live then .left false else .writing 0}

-- n more bytes of the page are on the wire
def wrote (page : List UInt8) (k n : Nat) : Sender :=
  let out := x.out ++ (page.drop k).take n
  if k+n < pageSize then {x with out := out, phase := .writing (k+n)}
  else {x with j := x.j+1, out := out, phase := .looping}

end Sender

def storeAt (page : List UInt8) (k : Nat) (bytes : List UInt8) (n : Nat) : List UInt8 :=
  page.take k ++ (bytes.drop k).take n ++ page.drop (k+n)

section
variable (c : SaveCtx) (live : Bool)

-- batch a.1 goes on; a store into the page or a read of it covers a.2 bytes
def step (s : Senders) (a : Nat × Nat) : Option Senders :=
  let x := s.sender a.1
  match x.phase with
  | .skipped | .left _ => none
  | .looping => some {s with sender := Function.update s.sender a.1 x.turn}
  | .filling k => some ⟨storeAt s.page k (x.table c).1 a.2,Function.update s.sender a.1 (x.filled c live k a.2)⟩
  | .writing k => some {s with sender := Function.update s.sender a.1 (x.wrote s.page k a.2)}

def Sender.start (b : Batch) : Sender where
  batch := b
  j := 0
  run := 0
  out := ofInt32 b.slots.length ++ store c.longSize b.words
  phase := if b.slots.countP Slot.counted = 0 then .skipped else .looping

def Senders.start (batches : Nat → Batch) (page : List UInt8) : Senders := ⟨page,fun i => .start c (batches i)⟩

def Senders.Alone (s : Senders) (i : Nat) : Prop := ∀ m ≠ i, (s.sender m).holdsPage = false

-- a table goes into the page only while the page holds no other batch's table
def Guarded (s : Senders) (a : Nat × Nat) : Prop := (∃ k, (s.sender a.1).phase = .filling k) → s.Alone a.1

def Sent.of (r : Bool × List UInt8) : Sent := if r.1 then .written r.2 else .failed r.2

namespace Sender

variable (x : Sender)

-- what the loop makes of the slots from j on
def rest (j run : Nat) (out : List UInt8) : Sent :=
  .of (writePages c live x.batch.regionBase (x.batch.words.drop j) j run out)

structure AtTable (out : List UInt8) : Prop where
  short : x.j < x.batch.slots.length
  future : sendPatch c live x.batch =
    if (x.table c).2 && !live then .failed out else x.rest c live (x.j+1) x.run (out ++ (x.table c).1)

-- the rest of the loop gives what the whole of send_patch gives with a page of its own
def Follows (page : List UInt8) : Prop :=
  match x.phase with
  | .skipped => sendPatch c live x.batch = .skipped
  | .looping => sendPatch c live x.batch = x.rest c live x.j x.run x.out
  | .filling k => x.AtTable c live x.out ∧ page.take k = (x.table c).1.take k
  | .writing k => ((x.table c).2 && !live) = false ∧ page = (x.table c).1 ∧
    ∃ out, x.AtTable c live out ∧ x.out = out ++ page.take k
  | .left complete => sendPatch c live x.batch = if complete then .written x.out else .failed x.out

end Sender

end

variable {c : SaveCtx} {live : Bool} {x : Sender} {s t : Senders} {page page' : List UInt8} {k n : Nat}

theorem length_table : (x.table c).1.length = pageSize := length_canonical ..

namespace Sender

theorem start_follows (b : Batch) : (start c b).Follows c live page := by
  rw [Follows,start]
  dsimp only
  by_cases hc : b.slots.countP Slot.counted = 0
  · simp only [if_pos hc]
    exact if_pos hc
  · simp only [if_neg hc]
    exact if_neg hc

theorem turn_follows (h : sendPatch c live x.batch = x.rest c live x.j x.run x.out) (hl : x.phase = .looping) :
  x.turn.Follows c live page := by
  have hw : x.batch.words.length = x.batch.slots.length := length_map ..
  rw [turn]
  cases hj : x.batch.words[x.j]? with
  | none =>
    have hd : x.batch.words.drop x.j = [] := drop_eq_nil_of_le (getElem?_eq_none_iff.mp hj)
    rw [rest,hd,writePages] at h
    exact h
  | some w =>
    obtain ⟨hi,hg⟩ := List.getElem?_eq_some_iff.mp hj
    have hd : x.batch.words.drop x.j = w :: x.batch.words.drop (x.j+1) := by rw [drop_eq_getElem_cons hi,hg]
    rw [rest,hd,writePages] at h
    dsimp only at h ⊢
    by_cases hx : pagetypeOf w = xtab
    · rw [if_pos hx] at h ⊢
      simp only [Follows,hl]
      exact h
    rw [if_neg hx] at h ⊢
    by_cases ht : isTable w = true
    · rw [if_pos ht] at h ⊢
      have hv : x.batch.words.getD x.j 0 = w := by rw [getD,hj]; rfl
      refine ⟨⟨hw ▸ hi,h.trans ?_⟩,rfl⟩
      rw [table]
      dsimp only
      rw [hv]
      split <;> rfl
    · rw [if_neg ht] at h ⊢
      simp only [Follows,hl]
      exact h

theorem storeAt_table (h : page.take k = (x.table c).1.take k) :
  storeAt page k (x.table c).1 n = (x.table c).1.take (k+n) ++ page.drop (k+n) := by
  rw [storeAt,h,take_add]

theorem take_storeAt (h : page.take k = (x.table c).1.take k) (hn : k+n < pageSize) :
  (storeAt page k (x.table c).1 n).take (k+n) = (x.table c).1.take (k+n) := by
  have hl : ((x.table c).1.take (k+n)).length = k+n := length_take_of_le (length_table ▸ hn.le)
  rw [storeAt_table h]
  exact take_left' hl

theorem storeAt_whole (h : page.take k = (x.table c).1.take k) (hp : page.length = pageSize) (hn : ¬k+n < pageSize) :
  storeAt page k (x.table c).1 n = (x.table c).1 := by
  have hl := not_lt.mp hn
  rw [storeAt_table h,take_of_length_le (length_table ▸ hl),drop_eq_nil_of_le (hp ▸ hl),append_nil]

theorem filled_follows (hp : page.length = pageSize) (h : x.AtTable c live x.out)
  (ht : page.take k = (x.table c).1.take k) :
  (x.filled c live k n).Follows c live (storeAt page k (x.table c).1 n) := by
  rw [filled]
  by_cases hn : k+n < pageSize
  · rw [if_pos hn]
    exact ⟨⟨h.short,h.future⟩,take_storeAt ht hn⟩
  rw [if_neg hn]
  by_cases hr : ((x.table c).2 && !live) = true
  · rw [if_pos hr]
    exact h.future.trans (if_pos hr)
  · rw [if_neg hr]
    exact ⟨Bool.eq_false_iff.mpr hr,storeAt_whole ht hp hn,x.out,⟨h.short,h.future⟩,(append_nil _).symm⟩

theorem wrote_follows {out : List UInt8} (hr : ((x.table c).2 && !live) = false) (hp : page = (x.table c).1)
  (h : x.AtTable c live out) (ho : x.out = out ++ page.take k) : (x.wrote page k n).Follows c live page := by
  have ha : x.out ++ (page.drop k).take n = out ++ page.take (k+n) := by rw [ho,append_assoc,← take_add]
  rw [wrote,ha]
  by_cases hn : k+n < pageSize
  · rw [if_pos hn]
    exact ⟨hr,hp,out,⟨h.short,h.future⟩,rfl⟩
  · have hf := h.future
    rw [if_neg (by rw [hr]; exact Bool.false_ne_true),← hp] at hf
    rw [if_neg hn,take_of_length_le (hp ▸ length_table ▸ not_lt.mp hn)]
    exact hf

theorem Follows.of_free (h : x.Follows c live page) (hf : x.holdsPage = false) : x.Follows c live page' := by
  rcases x with ⟨b,j,run,out,phase⟩
  cases phase with
  | filling k =>
    obtain rfl : k = 0 := Nat.eq_zero_of_not_pos (of_decide_eq_false hf)
    exact ⟨h.1,rfl⟩
  | writing k => cases hf
  | _ => exact h

end Sender

structure Inv (c : SaveCtx) (live : Bool) (batches : Nat → Batch) (s : Senders) : Prop where
  page_length : s.page.length = pageSize
  batch : ∀ i, (s.sender i).batch = batches i
  follows : ∀ i, (s.sender i).Follows c live s.page

variable {batches : Nat → Batch}

theorem Inv.put {i : Nat} {x' : Sender} (h : Inv c live batches s) (hp : page.length = pageSize)
  (ho : ∀ m ≠ i, (s.sender m).Follows c live page) (hb : x'.batch = (s.sender i).batch) (hx : x'.Follows c live page) :
  Inv c live batches ⟨page,Function.update s.sender i x'⟩ := by
  refine ⟨hp,fun m => ?_,fun m => ?_⟩ <;> rcases eq_or_ne m i with rfl | hm
  · simpa using hb.trans (h.batch m)
  · simpa [hm] using h.batch m
  · simpa using hx
  · simpa [hm] using ho m hm

theorem Sender.batch_turn (x : Sender) : x.turn.batch = x.batch := by
  rw [turn]
  split <;> dsimp only
  split_ifs <;> rfl

theorem Sender.batch_wrote (x : Sender) : (x.wrote page k n).batch = x.batch := by
  rw [wrote]
  split_ifs <;> rfl

theorem length_storeAt (h : page.take k = (x.table c).1.take k) (hp : page.length = pageSize) :
  (storeAt page k (x.table c).1 n).length = pageSize := by
  have hl := @length_table c x
  rw [Sender.storeAt_table h,length_append,length_take,length_drop]
  omega

theorem Inv.step {a : Nat × Nat} (h : Inv c live batches s) (hg : Guarded s a) (ht : step c live s a = some t) :
  Inv c live batches t := by
  have hf := h.follows a.1
  rw [BatchCodec.step] at ht
  rw [Sender.Follows] at hf
  cases hx : (s.sender a.1).phase with
  | skipped | left complete => simp [hx] at ht
  | looping =>
    simp only [hx,Option.some.injEq] at ht hf
    exact ht ▸ h.put h.page_length (fun m _ => h.follows m) (Sender.batch_turn _) (Sender.turn_follows hf hx)
  | filling k =>
    simp only [hx,Option.some.injEq] at ht hf
    have ho := hg ⟨k,hx⟩
    exact ht ▸ h.put (length_storeAt hf.2 h.page_length) (fun m hm => (h.follows m).of_free (ho m hm)) rfl
      (Sender.filled_follows h.page_length hf.1 hf.2)
  | writing k =>
    simp only [hx,Option.some.injEq] at ht hf
    obtain ⟨hr,hp,out,hb,ho⟩ := hf
    exact ht ▸ h.put h.page_length (fun m _ => h.follows m) (Sender.batch_wrote _) (Sender.wrote_follows hr hp hb ho)

def Sender.rank (x : Sender) : Nat :=
  match x.phase with
  | .looping => 3*(x.batch.slots.length-x.j)+1
  | .filling _ => 3*(x.batch.slots.length-x.j)
  | .writing _ => 3*(x.batch.slots.length-x.j)-1
  | _ => 0

theorem Sender.rank_turn (hl : x.phase = .looping) : x.turn.rank < x.rank := by
  have hw : x.batch.words.length = x.batch.slots.length := length_map ..
  rw [turn]
  cases hj : x.batch.words[x.j]? with
  | none => simp [rank,hl]
  | some w =>
    have hi := (List.getElem?_eq_some_iff.mp hj).1
    dsimp only
    split_ifs <;> simp only [rank,hl] <;> omega

theorem Inv.advance {i : Nat} (h : Inv c live batches s) (hn : (s.sender i).sent = none) :
  ∃ page x', BatchCodec.step c live s (i,pageSize) = some ⟨page,Function.update s.sender i x'⟩ ∧
  x'.rank < (s.sender i).rank := by
  have hf := h.follows i
  rw [Sender.Follows] at hf
  rw [Sender.sent] at hn
  have hp : ∀ k, ¬k+pageSize < pageSize := fun k => by omega
  simp only [BatchCodec.step]
  cases hx : (s.sender i).phase with
  | skipped | left complete => simp [hx] at hn
  | looping => exact ⟨_,_,rfl,Sender.rank_turn hx⟩
  | filling k =>
    simp only [hx] at hf
    have hs := hf.1.short
    refine ⟨_,_,rfl,?_⟩
    rw [Sender.filled,if_neg (hp k)]
    split_ifs <;> simp only [Sender.rank,hx] <;> omega
  | writing k =>
    simp only [hx] at hf
    obtain ⟨-,-,out,hb,-⟩ := hf
    have hs := hb.short
    refine ⟨_,_,rfl,?_⟩
    rw [Sender.wrote,if_neg (hp k)]
    simp only [Sender.rank,hx]
    omega

-- by induction on the turns, stores and writes the batch has still before it
theorem Inv.finishes {i : Nat} (h : Inv c live batches s) (ha : s.Alone i) :
  ∃ t, Reach (BatchCodec.step c live) Guarded s t ∧ ∃ sent, (t.sender i).sent = some sent := by
  induction hr : (s.sender i).rank using Nat.strong_induction_on generalizing s with
  | _ n ih =>
    cases hn : (s.sender i).sent with
    | some sent => exact ⟨s,.refl,sent,hn⟩
    | none =>
      obtain ⟨page,x',ht,hl⟩ := h.advance hn
      have ho : Senders.Alone ⟨page,Function.update s.sender i x'⟩ i := by
        intro m hm
        simpa [hm] using ha m hm
      have hi := h.step (fun _ => ha) ht
      obtain ⟨t,hu,hs⟩ := ih _ (by simpa [← hr] using hl) hi ho rfl
      exact ⟨t,.head ⟨_,fun _ => ha,ht⟩ hu,hs⟩

theorem Sender.sent_follows {sent : Sent} (h : x.Follows c live page) (hs : x.sent = some sent) :
  sendPatch c live x.batch = sent := by
  rcases x with ⟨b,j,run,out,phase⟩
  cases phase with
  | skipped | left complete =>
    cases hs
    exact h
  | looping | filling k | writing k => cases hs

theorem batch_round_trip (hpage : page.length = pageSize)
  (hreach : Reach (step c live) Guarded (.start c batches page) s) (i : Nat) :
  (∀ sent, (s.sender i).sent = some sent → Decodes c live (batches i) sent) ∧
    (s.Alone i → ∃ t, Reach (step c live) Guarded s t ∧ ∃ sent, (t.sender i).sent = some sent) := by
  have hi : Inv c live batches s := by
    refine reach_invariant ?_ (fun _ _ _ _ hi hg ht => hi.step hg ht) hreach
    exact ⟨hpage,fun _ => rfl,fun i => Sender.start_follows (batches i)⟩
  refine ⟨fun sent hs => ?_,hi.finishes⟩
  have hd := sendPatch_decodes c live (batches i)
  rwa [← hi.batch i,Sender.sent_follows (hi.follows i) hs,hi.batch i] at hd

theorem l1_lt : 1 < 16 := by decide

def tableSlot (pfn : Fin (2^28)) (entry : Nat) : Slot where
  pfn := pfn
  nibble := ⟨1,l1_lt⟩
  err := false
  page := SaveCtx.singleEntry SaveCtx.longCtx.toPlatform entry
  page_length := SaveCtx.length_singleEntry ..

def tableBatch (pfn : Fin (2^28)) (entry : Nat) : Batch where
  slots := [tableSlot pfn entry]
  nonempty := Nat.one_pos
  bounded := show 1 ≤ maxBatchSize by decide

def blank : List UInt8 := List.replicate pageSize 0

theorem table_alone_round_trips : ∃ t bytes buf', Reach (step SaveCtx.longCtx true) Guarded
      (.start SaveCtx.longCtx (fun _ => tableBatch 3 2) blank) t ∧ (t.sender 0).sent = some (.written bytes) ∧
    slavePagebufGetOne SaveCtx.longCtx.toPlatform quietHost 1 pagebufInit (bytes ++ []) = some (1,buf',[]) ∧
    buf'.pages = ((tableBatch 3 2).intended SaveCtx.longCtx).flatten := by
  have hb : blank.length = pageSize := length_replicate
  have hf : (Senders.start SaveCtx.longCtx (fun _ => tableBatch 3 2) blank).Alone 0 := fun m _ => rfl
  obtain ⟨t,ht,sent,hs⟩ := (@batch_round_trip SaveCtx.longCtx true _ _ _ hb .refl 0).2 hf
  have hd := (batch_round_trip hb ht 0).1 sent hs
  cases sent with
  | skipped => exact absurd (hd (tableSlot 3 2) mem_cons_self) (by decide)
  | failed bytes => exact absurd hd.1 (by decide)
  | written bytes =>
    obtain ⟨buf',hg,-,-,-,hp,-⟩ := hd quietHost 0 pagebufInit [] rfl rfl
    exact ⟨t,bytes,buf',ht,hs,hg,hp⟩

def rivals (i : Nat) : Batch := if i = 0 then tableBatch 3 2 else tableBatch 4 4

-- the second batch fills the page between the first one's canonicalisation and its write
def overtaken : Senders :=
  (runIf (step SaveCtx.longCtx true) (fun _ _ => true) (.start SaveCtx.longCtx rivals blank)
    [(0,0),(0,pageSize),(1,0),(1,pageSize),(0,pageSize),(0,0)]).get (by decide +kernel)

theorem rival_table_sent :
  Reach (step SaveCtx.longCtx true) (fun _ _ => True) (.start SaveCtx.longCtx rivals blank) overtaken ∧
  ∃ bytes buf', (overtaken.sender 0).sent = some (.written bytes) ∧
    slavePagebufGetOne SaveCtx.longCtx.toPlatform quietHost 1 pagebufInit bytes = some (1,buf',[]) ∧
    buf'.pages ≠ ((rivals 0).intended SaveCtx.longCtx).flatten := by
  have hl : (overtaken.sender 0).phase = .left true := by decide +kernel
  have hs : (overtaken.sender 0).sent = some (.written (overtaken.sender 0).out) := by
    rw [Sender.sent,hl]
    rfl
  have hg : (slavePagebufGetOne SaveCtx.longCtx.toPlatform quietHost 1 pagebufInit (overtaken.sender 0).out).map
      (fun r => (r.1,r.2.1.pages.head?,r.2.2)) = some (1,some 4,[]) := by decide +kernel
  obtain ⟨⟨n,buf',rest⟩,hr,he⟩ := Option.map_eq_some_iff.mp hg
  simp only [Prod.mk.injEq] at he
  obtain ⟨rfl,hp,rfl⟩ := he
  refine ⟨reach_get (fun _ _ _ => trivial) _,_,buf',hs,hr,fun hb => ?_⟩
  have hh : ((rivals 0).intended SaveCtx.longCtx).flatten.head? = some 2 := by decide +kernel
  rw [hb,hh] at hp
  exact absurd hp (by decide)

end BatchCodec
