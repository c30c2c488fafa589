import PMigrate.Core.IntervalList

namespace Rangeset

open IntervalList List Nat

def enomem : Int := 12

def succ (w x : Nat) : Nat := (x+1)%2^w

def pred (w x : Nat) : Nat := (x+2^w-1)%2^w

def findRange (s : Nat) : List Interval → Nat
  | [] => 0
  | y :: l => if s < y.s then 0 else findRange s l+1

section
variable (l : List Interval) (x : Nat)

def rangeAt : Interval := l.getD (x-1) ⟨0,0⟩

def setAt (r : Interval) : List Interval := l.take (x-1) ++ r :: l.drop x

def insertRange (y : Interval) : List Interval := l.take x ++ y :: l.drop x

def destroyRange : List Interval := l.take (x-1) ++ l.drop x

def absorb : List Interval := l.take x ++ (l.drop x).dropWhile fun y => decide (y.e ≤ (rangeAt l x).e)

end

section
variable (w : Nat) (l : List Interval)

def mergeNext (x : Nat) : List Interval :=
  match l.drop x with
  | [] => l
  | y :: _ =>
    if succ w (rangeAt l x).e = y.s then
      destroyRange (setAt l x ⟨(rangeAt l x).s,y.e⟩) (x+1)
    else l

def detached (x s : Nat) : Bool := decide ((rangeAt l x).e < s) && decide (succ w (rangeAt l x).e ≠ s)

def rangesetAddRange (s e : Nat) (xsm : Int) (xmalloc : Bool) : Int × List Interval :=
  if xsm ≠ 0 then (xsm,l)
  else
    let x := findRange s l
    let y := findRange e l
    if x = y then
      if x = 0 ∨ detached w l x s then
        if xmalloc then (0,mergeNext w (insertRange l y ⟨s,e⟩) (y+1)) else (-enomem,l)
      else if (rangeAt l x).e < e then
        (0,mergeNext w (setAt l x ⟨(rangeAt l x).s,e⟩) x)
      else (0,mergeNext w l x)
    else
      let p : Nat × Nat :=
        if x = 0 then (1,s)
        else if detached w l x s then (x+1,s)
        else (x,(rangeAt l x).s)
      let e' := if (rangeAt l y).e > e then (rangeAt l y).e else e
      (0,mergeNext w (absorb (setAt l p.1 ⟨p.2,e'⟩) p.1) p.1)

end

def rangesetContainsRange (l : List Interval) (s e : Nat) : Bool :=
  let x := findRange s l
  decide (x ≠ 0) && decide (e ≤ (rangeAt l x).e)

def rangesetOverlapsRange (l : List Interval) (s e : Nat) : Bool :=
  let x := findRange e l
  decide (x ≠ 0) && decide (s ≤ (rangeAt l x).e)

section
variable {A B : List Interval} {x r : Interval} {s : Nat}

theorem findRange_append (hA : ∀ r ∈ A, r.s ≤ s) (hB : ∀ r ∈ B, s < r.s) : findRange s (A ++ B) = A.length := by
  induction A with
  | nil =>
    cases B with
    | nil => rfl
    | cons b B => exact if_pos (hB b (by simp))
  | cons a A ih =>
    have ha := hA a (by simp)
    rw [cons_append,findRange,if_neg (by omega),ih fun r hr => hA r (by simp [hr])]
    rfl

@[simp] theorem rangeAt_cursor : rangeAt (A ++ x :: B) (A.length+1) = x := by simp [rangeAt]

@[simp] theorem setAt_cursor : setAt (A ++ x :: B) (A.length+1) r = A ++ r :: B := by simp [setAt]

@[simp] theorem drop_cursor : (A ++ x :: B).drop (A.length+1) = B := by simp

@[simp] theorem take_cursor : (A ++ x :: B).take (A.length+1) = A ++ [x] := by
  simp [take_append,take_of_length_le]

@[simp] theorem insertRange_cursor : insertRange (A ++ B) A.length r = A ++ r :: B := by simp [insertRange]

@[simp] theorem destroyRange_cursor : destroyRange (A ++ x :: B) (A.length+1) = A ++ B := by
  simp [destroyRange]

theorem destroyRange_cursor_next {y : Interval} : destroyRange (A ++ x :: y :: B) (A.length+1+1) = A ++ x :: B := by
  have h := @destroyRange_cursor (A ++ [x]) B y
  simpa using h

theorem absorb_cursor {M C : List Interval} (hM : ∀ m ∈ M, m.e ≤ r.e) (hC : ∀ c ∈ C, r.e < c.e) :
  absorb (A ++ r :: (M ++ C)) (A.length+1) = A ++ r :: C := by
  have hd : (M ++ C).dropWhile (fun y => decide (y.e ≤ r.e)) = C := by
    rw [dropWhile_append_of_pos fun m hm => decide_eq_true (hM m hm)]
    cases C with
    | nil => rfl
    | cons c C =>
      have hc := hC c (by simp)
      exact dropWhile_cons_of_neg (by simpa using hc)
  rw [absorb,rangeAt_cursor,drop_cursor,take_cursor,hd]
  simp

end

variable {l : List Interval}

variable {bound w : Nat} {r : Interval}

theorem exists_split (h : Canonical bound l) (s : Nat) : ∃ A B, l = A ++ B ∧ (∀ r ∈ A, r.s ≤ s) ∧ ∀ r ∈ B, s < r.s := by
  induction l with
  | nil => exact ⟨[],[],rfl,by simp,by simp⟩
  | cons a l ih =>
    by_cases ha : a.s ≤ s
    · obtain ⟨A,B,rfl,hA,hB⟩ := ih (canonical_cons.mp h).2.1
      refine ⟨a :: A,B,rfl,fun r hr => ?_,hB⟩
      exact (mem_cons.mp hr).elim (fun he => he ▸ ha) (hA r)
    refine ⟨[],a :: l,rfl,by simp,fun r hr => ?_⟩
    have hl := h.head_le hr
    omega

structure Split (l : List Interval) (s e : Nat) (A M C : List Interval) : Prop where
  eq : l = A ++ (M ++ C)
  left : ∀ r ∈ A, r.s ≤ s
  low : ∀ r ∈ M, s < r.s
  high : ∀ r ∈ M, r.s ≤ e
  right : ∀ r ∈ C, e < r.s

theorem exists_split_pair (h : Canonical bound l) (s e : Nat) : ∃ A M C, Split l s e A M C := by
  obtain ⟨A,B,rfl,hA,hB⟩ := exists_split h s
  obtain ⟨M,C,rfl,hM,hC⟩ := exists_split (canonical_append.mp h).2.1 e
  exact ⟨A,M,C,rfl,hA,fun r hr => hB r (by simp [hr]),hM,hC⟩

namespace Split

variable {l A M C : List Interval} {s e : Nat}

theorem findRange_s (h : Split l s e A M C) (hs : s ≤ e) : findRange s l = A.length := by
  rw [h.eq]
  refine findRange_append h.left fun r hr => ?_
  rcases mem_append.mp hr with hr | hr
  · exact h.low r hr
  · exact lt_of_le_of_lt hs (h.right r hr)

theorem findRange_e (h : Split l s e A M C) (hs : s ≤ e) : findRange e l = (A ++ M).length := by
  rw [h.eq,← append_assoc]
  refine findRange_append (fun r hr => ?_) h.right
  rcases mem_append.mp hr with hr | hr
  · exact (h.left r hr).trans hs
  · exact h.high r hr

end Split

theorem mergeNext_spec {P C : List Interval} (hP : Canonical (2^w) P)
  (hC : Canonical (2^w) C) (hr : Proper (2^w) r) (hd : ∀ p ∈ P, Before p r)
  (hi : ∀ c ∈ C, r.e < c.s) : Canonical (2^w) (mergeNext w (P ++ r :: C) (P.length+1)) ∧
    ∀ n, Member (mergeNext w (P ++ r :: C) (P.length+1)) n ↔ Member P n ∨ r.Contains n ∨ Member C n := by
  cases C with
  | nil =>
    have hm : mergeNext w (P ++ [r]) (P.length+1) = P ++ [r] := by simp [mergeNext]
    rw [hm]
    exact ⟨canonical_link hP (canonical_cons.mpr ⟨hr,hC,by simp⟩) hd,fun n => by simp⟩
  | cons c C =>
    obtain ⟨hc,hC,he⟩ := canonical_cons.mp hC
    have ho := hi c (by simp)
    have hs : succ w r.e = r.e+1 := by
      have hk := hc.nonempty
      have hb := hc.bounded
      exact mod_eq_of_lt (by omega)
    by_cases ha : r.e+1 = c.s
    · have hm : mergeNext w (P ++ r :: c :: C) (P.length+1) = P ++ ⟨r.s,c.e⟩ :: C := by
        rw [mergeNext,drop_cursor,rangeAt_cursor]
        simp only [hs,if_pos ha,setAt_cursor]
        exact destroyRange_cursor_next
      have hk := hc.nonempty
      rw [hm]
      refine ⟨canonical_link hP (canonical_cons.mpr ⟨⟨?_,hc.bounded⟩,hC,he⟩) hd,fun n => ?_⟩
      · have hl := hr.nonempty
        dsimp only
        omega
      have hg : Interval.Contains ⟨r.s,c.e⟩ n ↔ r.Contains n ∨ c.Contains n := by
        have hl := hr.nonempty
        simp only [Interval.Contains]
        omega
      simp only [member_append,member_cons,hg,or_assoc]
    have hm : mergeNext w (P ++ r :: c :: C) (P.length+1) = P ++ r :: c :: C := by
      rw [mergeNext,drop_cursor,rangeAt_cursor]
      simp only [hs,if_neg ha]
    have hn : Before r c := by
      rw [Before]
      omega
    have hf := before_cons hc.nonempty he hn
    rw [hm]
    exact ⟨canonical_link hP (canonical_cons.mpr ⟨hr,canonical_cons.mpr ⟨hc,hC,he⟩,hf⟩) hd,
      fun n => by simp only [member_append,member_cons]⟩

structure Swallows (w : Nat) (l : List Interval) (s e : Nat) (out P K : List Interval)
    (r : Interval) (C : List Interval) : Prop where
  eq : l = P ++ (K ++ C)
  out_eq : out = mergeNext w (P ++ r :: C) (P.length+1)
  proper : Proper (2^w) r
  left : ∀ p ∈ P, Before p r
  right : ∀ c ∈ C, r.e < c.s
  covers : ∀ n, r.Contains n ↔ (s ≤ n ∧ n ≤ e) ∨ Member K n

theorem Swallows.spec {s e : Nat} {out P K C : List Interval} (h : Swallows w l s e out P K r C)
  (hl : Canonical (2^w) l) :
  Canonical (2^w) out ∧ ∀ n, Member out n ↔ Member l n ∨ (s ≤ n ∧ n ≤ e) := by
  have hl' := h.eq ▸ hl
  obtain ⟨hP,hK,-⟩ := canonical_append.mp hl'
  obtain ⟨-,hC,-⟩ := canonical_append.mp hK
  obtain ⟨hc,hm⟩ := mergeNext_spec hP hC h.proper h.left h.right
  rw [h.out_eq]
  refine ⟨hc,fun n => ?_⟩
  rw [hm,h.eq,member_append,member_append,h.covers]
  tauto

section
variable {w s e : Nat} {l A M C : List Interval} {x y : Interval}

theorem detached_iff {B : List Interval} (hs : s < 2^w) :
  detached w (A ++ x :: B) (A.length+1) s = true ↔ x.e+1 < s := by
  simp only [detached,rangeAt_cursor,Bool.and_eq_true,decide_eq_true_eq,succ]
  by_cases hl : x.e < s
  · rw [mod_eq_of_lt (show x.e+1 < 2^w by omega)]
    omega
  · omega

theorem add_disjoint_eq (xmalloc : Bool) (h : Split l s e A [] C) (hs : s ≤ e)
  (hn : A.length = 0 ∨ detached w l A.length s = true) : rangesetAddRange w l s e 0 xmalloc =
    if xmalloc then (0,mergeNext w (A ++ ⟨s,e⟩ :: C) (A.length+1)) else (-enomem,l) := by
  have hx := h.findRange_s hs
  have hy : findRange e l = A.length := by simpa using h.findRange_e hs
  have he : l = A ++ C := by simpa using h.eq
  have hi : insertRange l A.length ⟨s,e⟩ = A ++ ⟨s,e⟩ :: C := by rw [he,insertRange_cursor]
  simp only [rangesetAddRange,hx,hy,ne_eq,not_true_eq_false,if_false,if_true,if_pos hn,hi]

theorem add_disjoint (h : Split l s e A [] C) (hs : s ≤ e) (he : e < 2^w) (hA : ∀ a ∈ A, a.e+1 < s) :
  Swallows w l s e (mergeNext w (A ++ ⟨s,e⟩ :: C) (A.length+1)) A [] ⟨s,e⟩ C :=
  ⟨by simpa using h.eq,rfl,⟨hs,he⟩,hA,h.right,fun n => by simp [Interval.Contains]⟩

variable {A0 : List Interval}

theorem add_extend (xmalloc : Bool) (h : Split l s e (A0 ++ [x]) [] C) (hs : s ≤ e) (he : e < 2^w)
  (hl : Canonical (2^w) l)
  (hg : s ≤ x.e+1) : (rangesetAddRange w l s e 0 xmalloc).1 = 0 ∧
    Swallows w l s e (rangesetAddRange w l s e 0 xmalloc).2 A0 [x] ⟨x.s,max x.e e⟩ C := by
  have hx : findRange s l = A0.length+1 := by simpa using h.findRange_s hs
  have hy : findRange e l = A0.length+1 := by simpa using h.findRange_e hs
  have hq : l = A0 ++ x :: C := by simpa using h.eq
  have hi := h.left x (by simp)
  obtain ⟨-,ha,hA⟩ := canonical_append.mp (hq ▸ hl)
  obtain ⟨hb,-,ha⟩ := canonical_cons.mp ha
  have hd : ¬(A0.length+1 = 0 ∨ detached w l (A0.length+1) s = true) := by
    rw [hq,detached_iff (by omega)]
    omega
  have hr : rangesetAddRange w l s e 0 xmalloc = (0,mergeNext w (A0 ++ ⟨x.s,max x.e e⟩ :: C) (A0.length+1)) := by
    simp only [rangesetAddRange,hx,hy,ne_eq,not_true_eq_false,if_false,if_true,if_neg hd]
    rw [hq,rangeAt_cursor,setAt_cursor]
    split
    · rw [max_eq_right (by omega)]
    · rw [max_eq_left (by omega)]
  rw [hr]
  refine ⟨rfl,by simpa using h.eq,rfl,⟨?_,?_⟩,fun p hp => hA p hp x (by simp),fun c hc => ?_,fun n => ?_⟩
  · have hn := hb.nonempty
    dsimp only
    omega
  · exact Nat.max_lt.mpr ⟨hb.bounded,he⟩
  · have hc' := h.right c hc
    have hf := ha c hc
    rw [Before] at hf
    dsimp only
    omega
  · have hn := hb.nonempty
    simp only [Interval.Contains,member_cons,not_member_nil,or_false]
    omega

structure Tail (w e : Nat) (M C : List Interval) (y : Interval) : Prop where
  last : ∃ M0, M = M0 ++ [y]
  below : ∀ m ∈ M, m.e ≤ y.e
  above : ∀ c ∈ C, max y.e e < c.s ∧ c.s ≤ c.e
  start : y.s ≤ e
  bounded : y.e < 2^w

theorem Split.tail (h : Split l s e A M C) (hl : Canonical (2^w) l) (hM : M ≠ []) : ∃ y, Tail w e M C y := by
  rcases eq_nil_or_concat M with hn | ⟨M0,y,hy⟩
  · exact absurd hn hM
  rw [concat_eq_append] at hy
  obtain ⟨-,hd,-⟩ := canonical_append.mp (h.eq ▸ hl)
  obtain ⟨hM',hC,hb⟩ := canonical_append.mp hd
  have ha : y ∈ M := by simp [hy]
  refine ⟨y,⟨M0,hy⟩,fun m hm => ?_,fun c hc => ⟨?_,(hC.proper c hc).nonempty⟩,h.high y ha,(hM'.proper y ha).bounded⟩
  · subst hy
    exact hM'.le_last hm
  have hf := hb y ha c hc
  have he := h.right c hc
  rw [Before] at hf
  omega

theorem add_run_eq (xmalloc : Bool) (h : Split l s e A M C) (hs : s ≤ e) (hM : M ≠ []) (ht : Tail w e M C y) {p r : Nat}
  (hp : (if A.length = 0 then (1,s) else if detached w l A.length s = true then (A.length+1,s)
    else (A.length,(rangeAt l A.length).s)) = (p,r)) :
  rangesetAddRange w l s e 0 xmalloc = (0,mergeNext w (absorb (setAt l p ⟨r,max y.e e⟩) p) p) := by
  have hx := h.findRange_s hs
  have hy := h.findRange_e hs
  obtain ⟨M0,rfl⟩ := ht.last
  have hn : A.length ≠ (A ++ (M0 ++ [y])).length := by simp
  have ha : rangeAt l (A ++ (M0 ++ [y])).length = y := by
    have hc := @rangeAt_cursor (A ++ M0) C y
    rw [h.eq]
    simpa [Nat.add_assoc] using hc
  have hm : (if y.e > e then y.e else e) = max y.e e := by split <;> omega
  simp only [rangesetAddRange,hx,hy,ne_eq,not_true_eq_false,if_false,if_neg hn,ha,hm,hp]

theorem add_run_open (xmalloc : Bool) (h : Split l s e A M C) (ha : s ≤ e)
  (he : e < 2^w) (hM : M ≠ []) (ht : Tail w e M C y) (hA : ∀ a ∈ A, a.e+1 < s)
  (hw : A.length = 0 ∨ detached w l A.length s = true) : (rangesetAddRange w l s e 0 xmalloc).1 = 0 ∧
    Swallows w l s e (rangesetAddRange w l s e 0 xmalloc).2 A M ⟨s,max y.e e⟩ C := by
  obtain ⟨m,M',rfl⟩ := exists_cons_of_ne_nil hM
  have hp : (if A.length = 0 then (1,s) else if detached w l A.length s = true then (A.length+1,s)
      else (A.length,(rangeAt l A.length).s)) = (A.length+1,s) := by
    rcases hw with hz | hd
    · rw [if_pos hz,hz]
    · rw [if_pos hd]
      split <;> simp_all
  have hr := add_run_eq xmalloc h ha hM ht hp
  have hs : setAt l (A.length+1) ⟨s,max y.e e⟩ = A ++ ⟨s,max y.e e⟩ :: (M' ++ C) := by
    rw [h.eq,cons_append,setAt_cursor]
  rw [hs,absorb_cursor] at hr
  · rw [hr]
    refine ⟨rfl,h.eq,rfl,⟨?_,Nat.max_lt.mpr ⟨ht.bounded,he⟩⟩,hA,fun c hc => (ht.above c hc).1,fun n => ?_⟩
    · dsimp only
      omega
    refine ⟨fun hn => ?_,fun hn => ?_⟩
    · obtain ⟨hl,hh⟩ := hn
      dsimp only at hl hh
      by_cases hb : n ≤ e
      · exact .inl ⟨hl,hb⟩
      have hy := ht.start
      obtain ⟨M0,hM0⟩ := ht.last
      exact .inr ⟨y,by simp [hM0],by omega,by omega⟩
    rcases hn with ⟨hl,hh⟩ | ⟨q,hq,hl,hh⟩
    · exact ⟨hl,by dsimp only; omega⟩
    have hg := h.low q hq
    have hf := ht.below q hq
    exact ⟨by dsimp only; omega,by dsimp only; omega⟩
  · intro q hq
    have hf := ht.below q (mem_cons_of_mem _ hq)
    dsimp only
    omega
  · intro c hc
    obtain ⟨hi,hk⟩ := ht.above c hc
    dsimp only
    omega

theorem add_run_extend (xmalloc : Bool) (h : Split l s e (A0 ++ [x]) M C) (hs : s ≤ e) (he : e < 2^w)
  (hl : Canonical (2^w) l)
  (hM : M ≠ []) (ht : Tail w e M C y) (hg : s ≤ x.e+1) : (rangesetAddRange w l s e 0 xmalloc).1 = 0 ∧
    Swallows w l s e (rangesetAddRange w l s e 0 xmalloc).2 A0 (x :: M) ⟨x.s,max y.e e⟩ C := by
  have ha : l = A0 ++ x :: (M ++ C) := by simpa using h.eq
  have hw := h.left x (by simp)
  obtain ⟨-,hf,hA⟩ := canonical_append.mp (ha ▸ hl)
  obtain ⟨hi,-,hx⟩ := canonical_cons.mp hf
  have hb : (A0 ++ [x]).length = A0.length+1 := by simp
  have hd : ¬detached w l (A0 ++ [x]).length s = true := by
    rw [hb,ha,detached_iff (by omega)]
    omega
  have hp : (if (A0 ++ [x]).length = 0 then (1,s)
      else if detached w l (A0 ++ [x]).length s = true then ((A0 ++ [x]).length+1,s)
      else ((A0 ++ [x]).length,(rangeAt l (A0 ++ [x]).length).s)) = (A0.length+1,x.s) := by
    rw [if_neg (by simp),if_neg hd,hb,ha,rangeAt_cursor]
  have hr := add_run_eq xmalloc h hs hM ht hp
  obtain ⟨M0,hM0⟩ := ht.last
  have hk := hx y (by simp [hM0])
  rw [Before] at hk
  have hy := ht.start
  rw [ha,setAt_cursor,absorb_cursor,← ha] at hr
  · rw [hr]
    refine ⟨rfl,by simpa using ha,rfl,⟨?_,Nat.max_lt.mpr ⟨ht.bounded,he⟩⟩,
      fun p hp => hA p hp x (by simp),fun c hc => (ht.above c hc).1,fun n => ?_⟩
    · have hz := hi.nonempty
      dsimp only
      omega
    rw [member_cons]
    refine ⟨fun hn => ?_,fun hn => ?_⟩
    · obtain ⟨ho,hh⟩ := hn
      dsimp only at ho hh
      by_cases hm : n ≤ x.e
      · exact .inr (.inl ⟨ho,hm⟩)
      by_cases hu : n ≤ e
      · exact .inl ⟨by omega,hu⟩
      · exact .inr (.inr ⟨y,by simp [hM0],by omega,by omega⟩)
    rcases hn with ⟨ho,hh⟩ | ⟨ho,hh⟩ | ⟨q,hq,ho,hh⟩
    · exact ⟨by dsimp only; omega,by dsimp only; omega⟩
    · exact ⟨ho,by dsimp only; omega⟩
    · have hqs := h.low q hq
      have hv := ht.below q hq
      exact ⟨by dsimp only; omega,by dsimp only; omega⟩
  · intro q hq
    have hv := ht.below q hq
    dsimp only
    omega
  · intro c hc
    obtain ⟨hlt,hle⟩ := ht.above c hc
    dsimp only
    omega

theorem add_spec (hl : Canonical (2^w) l) (hs : s ≤ e) (he : e < 2^w) (xmalloc : Bool) :
  (rangesetAddRange w l s e 0 xmalloc = (-enomem,l)) ∨ (rangesetAddRange w l s e 0 xmalloc).1 = 0 ∧
      ∃ P K r C, Swallows w l s e (rangesetAddRange w l s e 0 xmalloc).2 P K r C := by
  obtain ⟨A,M,C,h⟩ := exists_split_pair hl s e
  have ho : (∀ a ∈ A, a.e+1 < s) → (A.length = 0 ∨ detached w l A.length s = true) →
      (rangesetAddRange w l s e 0 xmalloc = (-enomem,l)) ∨ (rangesetAddRange w l s e 0 xmalloc).1 = 0 ∧
          ∃ P K r C, Swallows w l s e (rangesetAddRange w l s e 0 xmalloc).2 P K r C := by
    intro hA hn
    by_cases hM : M = []
    · subst hM
      rw [add_disjoint_eq xmalloc h hs hn]
      cases xmalloc with
      | false => exact .inl rfl
      | true => exact .inr ⟨rfl,_,_,_,_,add_disjoint h hs he hA⟩
    obtain ⟨y,ht⟩ := h.tail hl hM
    obtain ⟨hr,hw⟩ := add_run_open xmalloc h hs he hM ht hA hn
    exact .inr ⟨hr,_,_,_,_,hw⟩
  rcases eq_nil_or_concat A with rfl | ⟨A0,x,hA⟩
  · exact ho (by simp) (.inl rfl)
  rw [concat_eq_append] at hA
  subst hA
  have hq : l = A0 ++ x :: (M ++ C) := by simpa using h.eq
  by_cases hg : s ≤ x.e+1
  · by_cases hM : M = []
    · subst hM
      obtain ⟨hr,hw⟩ := add_extend xmalloc h hs he hl hg
      exact .inr ⟨hr,_,_,_,_,hw⟩
    obtain ⟨y,ht⟩ := h.tail hl hM
    obtain ⟨hr,hw⟩ := add_run_extend xmalloc h hs he hl hM ht hg
    exact .inr ⟨hr,_,_,_,_,hw⟩
  refine ho (fun a ha => ?_) (.inr ?_)
  · have hb := (canonical_append.mp (h.eq ▸ hl)).1.le_last ha
    omega
  · rw [length_append,length_singleton,hq,detached_iff (by omega)]
    omega

end

section
variable {bound s e : Nat} {l : List Interval}

theorem mem_last_of_contains {A B : List Interval} {x r : Interval} {n : Nat}
  (hl : Canonical bound (A ++ x :: B)) (hx : x.s ≤ n) (hB : ∀ b ∈ B, n < b.s) (hr : r ∈ A ++ x :: B)
  (hn : r.Contains n) : r = x := by
  obtain ⟨-,ha,hA⟩ := canonical_append.mp hl
  obtain ⟨ho,hh⟩ := hn
  rcases mem_append.mp hr with hr | hr
  · have hb := hA r hr x (by simp)
    rw [Before] at hb
    omega
  rcases mem_cons.mp hr with rfl | hr
  · rfl
  · have ht := hB r hr
    omega

theorem findRange_cases (hl : Canonical bound l) (n : Nat) : (findRange n l = 0 ∧ ∀ r ∈ l, n < r.s) ∨
    ∃ A x B, l = A ++ x :: B ∧ findRange n l = A.length+1 ∧ x.s ≤ n ∧ ∀ b ∈ B, n < b.s := by
  obtain ⟨A,B,rfl,hA,hB⟩ := exists_split hl n
  have hf := findRange_append hA hB
  rcases eq_nil_or_concat A with rfl | ⟨A0,x,hx⟩
  · exact .inl ⟨hf,hB⟩
  rw [concat_eq_append] at hx
  subst hx
  exact .inr ⟨A0,x,B,by simp,by simpa using hf,hA x (by simp),hB⟩

theorem contains_iff (hl : Canonical bound l) (hs : s ≤ e) :
  rangesetContainsRange l s e = true ↔ ∀ n, s ≤ n → n ≤ e → Member l n := by
  rcases findRange_cases hl s with ⟨hf,ha⟩ | ⟨A,x,B,rfl,hf,hx,hB⟩
  · simp only [rangesetContainsRange,hf,ne_eq,not_true_eq_false,decide_false,Bool.false_and,
      Bool.false_eq_true,false_iff]
    intro hc
    obtain ⟨r,hr,ho,-⟩ := hc s le_rfl hs
    have ht := ha r hr
    omega
  simp only [rangesetContainsRange,hf,rangeAt_cursor,ne_eq,succ_ne_zero,
    not_false_eq_true,decide_true,Bool.true_and,decide_eq_true_eq]
  refine ⟨fun he n hi hk => ⟨x,by simp,by omega,by omega⟩,fun hc => ?_⟩
  by_contra ht
  obtain ⟨r,hr,hn⟩ := hc s le_rfl hs
  have hd := mem_last_of_contains hl hx hB hr hn
  subst hd
  obtain ⟨-,hs'⟩ := hn
  obtain ⟨q,hq,ho,hh⟩ := hc (r.e+1) (by omega) (by omega)
  obtain ⟨-,hg,hA⟩ := canonical_append.mp hl
  rcases mem_append.mp hq with hq | hq
  · have hb := hA q hq r (by simp)
    rw [Before] at hb
    omega
  rcases mem_cons.mp hq with rfl | hq
  · omega
  have hb := (canonical_cons.mp hg).2.2 q hq
  rw [Before] at hb
  omega

theorem overlaps_iff (hl : Canonical bound l) (hs : s ≤ e) :
  rangesetOverlapsRange l s e = true ↔ ∃ n, s ≤ n ∧ n ≤ e ∧ Member l n := by
  rcases findRange_cases hl e with ⟨hf,ha⟩ | ⟨A,x,B,rfl,hf,hx,hB⟩
  · simp only [rangesetOverlapsRange,hf,ne_eq,not_true_eq_false,decide_false,Bool.false_and,
      Bool.false_eq_true,false_iff]
    rintro ⟨n,-,hn,r,hr,ho,-⟩
    have ht := ha r hr
    omega
  have hp := (hl.proper x (by simp)).nonempty
  simp only [rangesetOverlapsRange,hf,rangeAt_cursor,ne_eq,succ_ne_zero,
    not_false_eq_true,decide_true,Bool.true_and,decide_eq_true_eq]
  refine ⟨fun he => ⟨max s x.s,by omega,by omega,x,by simp,by omega,by omega⟩,?_⟩
  rintro ⟨n,hc,hn,r,hr,ho,hh⟩
  obtain ⟨-,-,hA⟩ := canonical_append.mp hl
  rcases mem_append.mp hr with hr | hr
  · have hb := hA r hr x (by simp)
    rw [Before] at hb
    omega
  rcases mem_cons.mp hr with rfl | hr
  · omega
  · have ht := hB r hr
    omega

end

theorem add_range_is_union (w : Nat) {l : List Interval} (hl : Canonical (2^w) l) {s e : Nat}
  (hse : s ≤ e) (he : e < 2^w) (xsm : Int) (xmalloc : Bool) : (((rangesetAddRange w l s e xsm xmalloc).1 = 0 ∧
        Canonical (2^w) (rangesetAddRange w l s e xsm xmalloc).2 ∧
        ∀ n, Member (rangesetAddRange w l s e xsm xmalloc).2 n ↔ Member l n ∨ (s ≤ n ∧ n ≤ e)) ∨
      ((rangesetAddRange w l s e xsm xmalloc).1 ≠ 0 ∧ (rangesetAddRange w l s e xsm xmalloc).2 = l)) ∧
    (rangesetContainsRange l s e = true ↔ ∀ n, s ≤ n → n ≤ e → Member l n) ∧
    (rangesetOverlapsRange l s e = true ↔ ∃ n, s ≤ n ∧ n ≤ e ∧ Member l n) := by
  refine ⟨?_,contains_iff hl hse,overlaps_iff hl hse⟩
  by_cases hx : xsm = 0
  · subst hx
    rcases add_spec hl hse he xmalloc with hf | ⟨hr,P,K,r,C,hs⟩
    · rw [hf]
      exact .inr ⟨show -enomem ≠ 0 by decide,rfl⟩
    · exact .inl ⟨hr,hs.spec hl⟩
  have hf : rangesetAddRange w l s e xsm xmalloc = (xsm,l) := if_pos hx
  rw [hf]
  exact .inr ⟨hx,rfl⟩

theorem top_range_merges : (rangesetAddRange 64 [⟨0,3⟩,⟨10,2^64-1⟩] 4 9 0 true).1 = 0 ∧
    Canonical (2^64) (rangesetAddRange 64 [⟨0,3⟩,⟨10,2^64-1⟩] 4 9 0 true).2 := by
  have hl : Canonical (2^64) [⟨0,3⟩,⟨10,2^64-1⟩] :=
    canonical_cons.mpr ⟨⟨by decide,by decide⟩,
      canonical_cons.mpr ⟨⟨by decide,by decide⟩,canonical_nil,by simp⟩,by simp [Before]⟩
  have hr : (rangesetAddRange 64 [⟨0,3⟩,⟨10,2^64-1⟩] 4 9 0 true).1 = 0 := by decide
  rcases (add_range_is_union 64 hl (by decide : 4 ≤ 9) (by decide) 0 true).1 with h | h
  · exact ⟨hr,h.2.1⟩
  · exact absurd hr h.1

end Rangeset
