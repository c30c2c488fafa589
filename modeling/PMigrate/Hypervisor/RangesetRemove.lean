import PMigrate.Hypervisor.Rangeset

namespace Rangeset

open IntervalList List Nat

def destroyUntil (l : List Interval) (x y : Nat) : List Interval := l.take (x-1) ++ l.drop (y-1)

def rangesetRemoveRange (w : Nat) (l : List Interval) (s e : Nat) (xsm : Int) (xmalloc : Bool) : Int × List Interval :=
  if xsm ≠ 0 then (xsm,l)
  else
    let x := findRange s l
    let y := findRange e l
    if x = y then
      let r := rangeAt l x
      if x = 0 ∨ r.e < s then (0,l)
      else if r.s < s ∧ r.e > e then
        if xmalloc then (0,insertRange (setAt l x ⟨r.s,pred w s⟩) x ⟨succ w e,r.e⟩)
        else (-enomem,l)
      else if r.s = s ∧ r.e ≤ e then (0,destroyRange l x)
      else if r.s = s then (0,setAt l x ⟨succ w e,r.e⟩)
      else if r.e ≤ e then (0,setAt l x ⟨r.s,pred w s⟩)
      else (0,l)
    else
      let x := if x = 0 then 1 else x
      let p : Nat × List Interval :=
        if (rangeAt l x).s < s then (x+1,setAt l x ⟨(rangeAt l x).s,pred w s⟩) else (x,l)
      let l := destroyUntil p.2 p.1 y
      let r : Interval := ⟨succ w e,(rangeAt l p.1).e⟩
      if r.s > r.e then (0,destroyRange l p.1) else (0,setAt l p.1 r)

def removeSafe (w : Nat) (l : List Interval) (s e : Nat) : Bool :=
  decide (findRange s l = findRange e l) || (decide (succ w e ≠ 0) &&
      (decide (findRange s l = 0) || decide (s ≤ (rangeAt l (findRange s l)).e+1)))

section
variable {w s e : Nat} {l A M C : List Interval}

structure Below (A : List Interval) (w s : Nat) (Q : List Interval) : Prop where
  canonical : Canonical (2^w) Q
  lt : ∀ q ∈ Q, q.e < s
  member : ∀ n, Member Q n ↔ Member A n ∧ n < s

structure Above (K C : List Interval) (w e : Nat) (T : List Interval) : Prop where
  canonical : Canonical (2^w) T
  lt : ∀ t ∈ T, e < t.s
  before : ∀ t ∈ T, ∀ c ∈ C, Before t c
  member : ∀ n, Member T n ↔ Member K n ∧ e < n

theorem cut_spec {Q T : List Interval} (h : Split l s e A M C) (hs : s ≤ e)
  (hl : Canonical (2^w) l) (hQ : Below A w s Q) (hT : Above (A ++ M) C w e T) : Canonical (2^w) (Q ++ (T ++ C)) ∧
    ∀ n, Member (Q ++ (T ++ C)) n ↔ Member l n ∧ ¬(s ≤ n ∧ n ≤ e) := by
  obtain ⟨-,hb,-⟩ := canonical_append.mp (h.eq ▸ hl)
  obtain ⟨-,hC,-⟩ := canonical_append.mp hb
  refine ⟨canonical_append.mpr ⟨hQ.canonical,canonical_append.mpr ⟨hT.canonical,hC,hT.before⟩,?_⟩,fun n => ?_⟩
  · intro q hq r hr
    have hd := hQ.lt q hq
    rw [Before]
    rcases mem_append.mp hr with hr | hr
    · have ha := hT.lt r hr
      omega
    · have ha := h.right r hr
      omega
  have hw : Member M n → s ≤ n := by
    rintro ⟨r,hr,hc,-⟩
    have hf := h.low r hr
    omega
  have hh : Member C n → e < n := by
    rintro ⟨r,hr,hc,-⟩
    have ha := h.right r hr
    omega
  rw [h.eq]
  simp only [member_append,hQ.member,hT.member]
  constructor
  · rintro (⟨hA,ht⟩ | ⟨hg,ht⟩ | hn)
    · exact ⟨.inl hA,by omega⟩
    · exact ⟨by tauto,by omega⟩
    · have he := hh hn
      exact ⟨.inr (.inr hn),by omega⟩
  rintro ⟨hA | hM | hn,ho⟩
  · by_cases ht : n < s
    · exact .inl ⟨hA,ht⟩
    · exact .inr (.inl ⟨.inl hA,by omega⟩)
  · have hi := hw hM
    exact .inr (.inl ⟨.inr hM,by omega⟩)
  · exact .inr (.inr hn)

theorem pred_eq (hs : 0 < s) (hl : s < 2^w) : pred w s = s-1 := by
  rw [pred,show s+2^w-1 = s-1+2^w by omega,add_mod_right]
  exact mod_eq_of_lt (by omega)

theorem succ_eq (hl : e+1 < 2^w) : succ w e = e+1 := mod_eq_of_lt hl

theorem below_nil : Below [] w s [] := ⟨canonical_nil,by simp,by simp⟩

theorem below_of_lt (hA : Canonical (2^w) A) (hl : ∀ a ∈ A, a.e < s) : Below A w s A := by
  refine ⟨hA,hl,fun n => ⟨fun hn => ⟨hn,?_⟩,fun hn => hn.1⟩⟩
  obtain ⟨r,hr,-,hh⟩ := hn
  have hs := hl r hr
  omega

section
variable {A0 : List Interval} {x : Interval}

variable (hA : Canonical (2^w) (A0 ++ [x]))
include hA

theorem init_lt (hx : x.s ≤ s) : ∀ a ∈ A0, a.e < s := by
  intro a ha
  have hb := (canonical_append.mp hA).2.2 a ha x (by simp)
  rw [Before] at hb
  omega

theorem below_trim (hs : x.s < s) (he : s ≤ x.e+1) : Below (A0 ++ [x]) w s (A0 ++ [⟨x.s,s-1⟩]) := by
  obtain ⟨hA0,hx,hb⟩ := canonical_append.mp hA
  have hp := hx.proper x (by simp)
  have hc := hp.bounded
  have hl := init_lt hA hs.le
  refine ⟨canonical_link hA0 (canonical_cons.mpr ⟨⟨?_,?_⟩,canonical_nil,by simp⟩)
    fun a ha => hb a ha x (by simp),?_,fun n => ?_⟩
  · dsimp only
    omega
  · dsimp only
    omega
  · intro q hq
    rcases mem_append.mp hq with hq | hq
    · exact hl q hq
    rw [mem_singleton.mp hq]
    dsimp only
    omega
  · have hA₀n : Member A0 n → n < s := by
      rintro ⟨a,ha,-,hh⟩
      have hd := hl a ha
      omega
    have hn' : Interval.Contains ⟨x.s,s-1⟩ n ↔ x.Contains n ∧ n < s := by
      simp only [Interval.Contains]
      omega
    simp only [member_append,member_cons,not_member_nil,or_false,hn']
    rw [or_and_right,and_iff_left_of_imp hA₀n]

theorem below_drop (hx : x.s = s) : Below (A0 ++ [x]) w s A0 := by
  have hA0 := (canonical_append.mp hA).1
  have hl := init_lt hA hx.le
  have hk := below_of_lt hA0 hl
  refine ⟨hA0,hl,fun n => ?_⟩
  have ha : ¬(x.Contains n ∧ n < s) := fun ⟨hn,ht⟩ => by
    have ho := hn.1
    omega
  rw [hk.member,member_append,member_cons]
  simp only [not_member_nil,or_false]
  rw [or_and_right,or_iff_left ha]

omit hA

theorem above_split (hd : Canonical (2^w) (A0 ++ x :: C)) (hs : x.s ≤ e) (hg : e < x.e) :
  Above (A0 ++ [x]) C w e [⟨e+1,x.e⟩] := by
  obtain ⟨-,hx,hb⟩ := canonical_append.mp hd
  obtain ⟨hp,-,hx⟩ := canonical_cons.mp hx
  refine ⟨canonical_cons.mpr ⟨⟨by dsimp only; omega,hp.bounded⟩,canonical_nil,by simp⟩,?_,?_,fun n => ?_⟩
  · intro q hq
    rw [mem_singleton.mp hq]
    dsimp only
    omega
  · intro q hq c hc
    rw [mem_singleton.mp hq]
    exact hx c hc
  · have hA₀n : ¬(Member A0 n ∧ e < n) := by
      rintro ⟨⟨a,ha,-,hh⟩,he⟩
      have hf := hb a ha x (by simp)
      rw [Before] at hf
      omega
    have hn : Interval.Contains ⟨e+1,x.e⟩ n ↔ x.Contains n ∧ e < n := by
      simp only [Interval.Contains]
      omega
    simp only [member_append,member_cons,not_member_nil,or_false,hn]
    rw [or_and_right,or_iff_right hA₀n]

theorem above_none (hA : ∀ a ∈ A, a.e ≤ e) : Above A C w e [] := by
  refine ⟨canonical_nil,by simp,by simp,fun n => ?_⟩
  simp only [not_member_nil,false_iff,not_and]
  rintro ⟨a,ha,-,hh⟩
  have he := hA a ha
  omega

end

structure Removes (w : Nat) (l : List Interval) (s e : Nat) (res : Int × List Interval) : Prop where
  rc : res.1 = 0
  canonical : Canonical (2^w) res.2
  member : ∀ n, Member res.2 n ↔ Member l n ∧ ¬(s ≤ n ∧ n ≤ e)

theorem removes_of_cut {Q T : List Interval} {res : Int × List Interval} (h : Split l s e A M C)
  (hs : s ≤ e) (hl : Canonical (2^w) l) (hQ : Below A w s Q) (hT : Above (A ++ M) C w e T)
  (hr : res = (0,Q ++ (T ++ C))) : Removes w l s e res := by
  obtain ⟨hc,hm⟩ := cut_spec h hs hl hQ hT
  subst hr
  exact ⟨rfl,hc,hm⟩

theorem remove_outside (xmalloc : Bool) (h : Split l s e A [] C) (hs : s ≤ e) (hl : Canonical (2^w) l)
  (hA : ∀ a ∈ A, a.e < s)
  (hb : A.length = 0 ∨ (rangeAt l A.length).e < s) : Removes w l s e (rangesetRemoveRange w l s e 0 xmalloc) := by
  have hx := h.findRange_s hs
  have hy : findRange e l = A.length := by simpa using h.findRange_e hs
  have hc := (canonical_append.mp (h.eq ▸ hl)).1
  refine removes_of_cut h hs hl (below_of_lt hc hA) (above_none fun a ha => ?_) ?_
  · have hd := hA a (by simpa using ha)
    omega
  have he : A ++ ([] ++ C) = l := h.eq.symm
  rw [he]
  simp only [rangesetRemoveRange,hx,hy,ne_eq,not_true_eq_false,if_false,if_true,if_pos hb]

theorem remove_inside {A0 : List Interval} {x : Interval} (xmalloc : Bool)
  (h : Split l s e (A0 ++ [x]) [] C) (hd : s ≤ e) (he : e < 2^w) (hl : Canonical (2^w) l)
  (hm : s ≤ x.e) : rangesetRemoveRange w l s e 0 xmalloc = (-enomem,l) ∨
    Removes w l s e (rangesetRemoveRange w l s e 0 xmalloc) := by
  have hx : findRange s l = A0.length+1 := by simpa using h.findRange_s hd
  have hy : findRange e l = A0.length+1 := by simpa using h.findRange_e hd
  have hq : l = A0 ++ x :: C := by simpa using h.eq
  have hk : Canonical (2^w) (A0 ++ x :: C) := hq ▸ hl
  have hA := (canonical_append.mp (h.eq ▸ hl)).1
  have hu := h.left x (by simp)
  have hv := (hk.proper x (by simp)).bounded
  have hp : x.s < s → pred w s = s-1 := fun ht => pred_eq (by omega) (by omega)
  have hs : e < x.e → succ w e = e+1 := fun ht => succ_eq (by omega)
  have ho : ¬(A0.length+1 = 0 ∨ x.e < s) := by omega
  have hr : rangesetRemoveRange w l s e 0 xmalloc = if x.s < s ∧ x.e > e then
        if xmalloc then (0,A0 ++ ([⟨x.s,pred w s⟩,⟨succ w e,x.e⟩] ++ C)) else (-enomem,l)
      else if x.s = s ∧ x.e ≤ e then (0,A0 ++ C)
      else if x.s = s then (0,A0 ++ ([⟨succ w e,x.e⟩] ++ C))
      else if x.e ≤ e then (0,A0 ++ ([⟨x.s,pred w s⟩] ++ C))
      else (0,l) := by
    simp only [rangesetRemoveRange,hx,hy,ne_eq,not_true_eq_false,if_false,if_true]
    rw [hq,rangeAt_cursor,if_neg ho,setAt_cursor,setAt_cursor,destroyRange_cursor]
    have hi : insertRange (A0 ++ ⟨x.s,pred w s⟩ :: C) (A0.length+1) ⟨succ w e,x.e⟩ =
        A0 ++ ([⟨x.s,pred w s⟩,⟨succ w e,x.e⟩] ++ C) := by
      have hc := @insertRange_cursor (A0 ++ [⟨x.s,pred w s⟩]) C ⟨succ w e,x.e⟩
      simpa using hc
    rw [hi]
    rfl
  have hb : e < x.e → Above (A0 ++ [x] ++ []) C w e [⟨e+1,x.e⟩] := fun ht => by
    simpa using above_split hk (by omega) ht
  have hn : x.e ≤ e → Above (A0 ++ [x] ++ []) C w e [] := fun hw => by
    refine above_none fun a ha => ?_
    have hz := hA.le_last (by simpa using ha)
    omega
  rw [hr]
  by_cases hf : x.s < s
  · by_cases hh : e < x.e
    · rw [if_pos ⟨hf,hh⟩]
      cases xmalloc with
      | false => exact .inl rfl
      | true =>
        refine .inr (removes_of_cut h hd hl (below_trim hA hf (by omega)) (hb hh) ?_)
        simp [hp hf,hs hh]
    rw [if_neg (by omega),if_neg (by omega),if_neg (by omega),if_pos (by omega)]
    refine .inr (removes_of_cut h hd hl (below_trim hA hf (by omega)) (hn (by omega)) ?_)
    simp [hp hf]
  have hg : x.s = s := by omega
  by_cases hh : e < x.e
  · rw [if_neg (by omega),if_neg (by omega),if_pos hg]
    refine .inr (removes_of_cut h hd hl (below_drop hA hg) (hb hh) ?_)
    rw [hs hh]
  · rw [if_neg (by omega),if_pos ⟨hg,by omega⟩]
    exact .inr (removes_of_cut h hd hl (below_drop hA hg) (hn (by omega)) rfl)

def top (w e : Nat) (y : Interval) : List Interval := if y.e < succ w e then [] else [⟨succ w e,y.e⟩]

theorem finish_run {Q K : List Interval} {y : Interval} :
  (let l := destroyUntil (Q ++ (K ++ y :: C)) (Q.length+1) (Q.length+K.length+1)
   let r : Interval := ⟨succ w e,(rangeAt l (Q.length+1)).e⟩
   if r.s > r.e then ((0 : Int),destroyRange l (Q.length+1)) else (0,setAt l (Q.length+1) r)) =
    (0,Q ++ (top w e y ++ C)) := by
  have ha : destroyUntil (Q ++ (K ++ y :: C)) (Q.length+1) (Q.length+K.length+1) = Q ++ y :: C := by
    have ht : (Q ++ (K ++ y :: C)).take Q.length = Q := by simp
    have hd : (Q ++ (K ++ y :: C)).drop (Q.length+K.length) = y :: C := by
      rw [← append_assoc,← length_append,drop_left]
    rw [destroyUntil,Nat.add_sub_cancel,Nat.add_sub_cancel,ht,hd]
  simp only [ha,rangeAt_cursor,setAt_cursor,destroyRange_cursor,top,gt_iff_lt]
  split_ifs <;> rfl

theorem remove_run_eq {y : Interval} (xmalloc : Bool) (h : Split l s e A M C) (ha : s ≤ e)
  (ht : Tail w e M C y) {x : Nat} {Q K : List Interval} (hx : (if A.length = 0 then 1 else A.length) = x)
  (hp : (if (rangeAt l x).s < s then (x+1,setAt l x ⟨(rangeAt l x).s,pred w s⟩) else (x,l)) =
    (Q.length+1,Q ++ (K ++ y :: C)))
  (hl : (A ++ M).length = Q.length+K.length+1) : rangesetRemoveRange w l s e 0 xmalloc = (0,Q ++ (top w e y ++ C)) := by
  have hs := h.findRange_s ha
  have hy := h.findRange_e ha
  have hn : A.length ≠ Q.length+K.length+1 := by
    obtain ⟨M0,hM0⟩ := ht.last
    rw [← hl,hM0]
    simp
  rw [hl] at hy
  have hf := @finish_run w e C Q K y
  simp only [rangesetRemoveRange,hs,hy,ne_eq,not_true_eq_false,if_false,if_neg hn,hx,hp]
  exact hf

-- What the branch for x ≠ y leaves of the ranges that start at or below s.
inductive Kept (s : Nat) : List Interval → List Interval → Prop
  | none : Kept s [] []
  | trimmed {A0 x} (hd : x.s < s) : Kept s (A0 ++ [x]) (A0 ++ [⟨x.s,s-1⟩])
  | dropped {A0 x} (hd : x.s = s) : Kept s (A0 ++ [x]) A0

theorem remove_run_shape {y : Interval} (xmalloc : Bool) (h : Split l s e A M C) (hs : s ≤ e) (he : e < 2^w)
  (ht : Tail w e M C y) : ∃ Q, Kept s A Q ∧ rangesetRemoveRange w l s e 0 xmalloc = (0,Q ++ (top w e y ++ C)) := by
  obtain ⟨M0,hM0⟩ := ht.last
  rcases eq_nil_or_concat A with rfl | ⟨A0,x,hx⟩
  · refine ⟨[],.none,remove_run_eq xmalloc h hs ht (x := 1) (K := M0) rfl ?_ (by simp [hM0])⟩
    have hq : l = [] ++ (M0 ++ y :: C) := by rw [h.eq,hM0]; simp
    have hn : ¬(rangeAt l 1).s < s := by
      obtain ⟨m,M',hm⟩ := exists_cons_of_ne_nil (show M ≠ [] by rw [hM0]; simp)
      have hr := h.low m (by simp [hm])
      have hb : rangeAt l 1 = m := by
        rw [h.eq,hm]
        rfl
      rw [hb]
      omega
    rw [if_neg hn,← hq]
    rfl
  rw [concat_eq_append] at hx
  subst hx
  have hq : l = A0 ++ x :: (M0 ++ y :: C) := by rw [h.eq,hM0]; simp
  have hb : rangeAt l (A0.length+1) = x := by rw [hq,rangeAt_cursor]
  have hu := h.left x (by simp)
  have ho : (if (A0 ++ [x]).length = 0 then 1 else (A0 ++ [x]).length) = A0.length+1 := by simp
  by_cases hd : x.s < s
  · refine ⟨_,.trimmed hd,remove_run_eq xmalloc h hs ht (K := M0) ho ?_ (by simp [hM0]; omega)⟩
    rw [hb,if_pos hd,pred_eq (by omega) (by omega),hq,setAt_cursor]
    simp
  refine ⟨_,.dropped (by omega),remove_run_eq xmalloc h hs ht (K := x :: M0) ho ?_ (by simp [hM0]; omega)⟩
  rw [hb,if_neg hd,hq]
  simp

theorem remove_run {y : Interval} (xmalloc : Bool) (h : Split l s e A M C) (hs : s ≤ e) (he : e+1 < 2^w)
  (hl : Canonical (2^w) l) (ht : Tail w e M C y) (hg : ∀ A0 x, A = A0 ++ [x] → s ≤ x.e+1) :
  Removes w l s e (rangesetRemoveRange w l s e 0 xmalloc) := by
  obtain ⟨M0,hM0⟩ := ht.last
  have hf : Canonical (2^w) (A ++ M) :=
    (canonical_append.mp (show Canonical (2^w) ((A ++ M) ++ C) by rw [append_assoc,← h.eq]; exact hl)).1
  have hA := (canonical_append.mp (h.eq ▸ hl)).1
  have hT : Above (A ++ M) C w e (top w e y) := by
    have hq : A ++ M = (A ++ M0) ++ [y] := by rw [hM0,append_assoc]
    rw [top,succ_eq he]
    split_ifs with hi
    · refine above_none fun a ha => ?_
      rw [hq] at hf ha
      have hy := hf.le_last ha
      omega
    · rw [hq]
      refine above_split ?_ ht.start (by omega)
      have hc : (A ++ M0) ++ y :: C = A ++ (M ++ C) := by simp [hM0]
      rw [hc,← h.eq]
      exact hl
  obtain ⟨Q,hk,hr⟩ := remove_run_shape xmalloc h hs (by omega) ht
  refine removes_of_cut h hs hl ?_ hT hr
  cases hk with
  | none => exact below_nil
  | trimmed hd => exact below_trim hA hd (hg _ _ rfl)
  | dropped hd => exact below_drop hA hd

-- e + 1 wraps to 0: the last range met is kept from 0 on, so its start is still a member
theorem remove_wrapped {y : Interval} (xmalloc : Bool) (h : Split l s e A M C) (hs : s ≤ e) (he : e+1 = 2^w)
  (hl : Canonical (2^w) l) (ht : Tail w e M C y) : ¬Removes w l s e (rangesetRemoveRange w l s e 0 xmalloc) := by
  intro hc
  obtain ⟨M0,hM0⟩ := ht.last
  have hy : y ∈ M := by simp [hM0]
  have hp := (hl.proper y (by rw [h.eq]; simp [hy])).nonempty
  have hw : succ w e = 0 := by rw [succ,he,mod_self]
  obtain ⟨Q,-,hr⟩ := remove_run_shape xmalloc h hs (by omega) ht
  have hm : Member (rangesetRemoveRange w l s e 0 xmalloc).2 y.s := by
    rw [hr,top,hw,if_neg (Nat.not_lt_zero _)]
    exact ⟨⟨0,y.e⟩,by simp,Nat.zero_le _,hp⟩
  exact ((hc.member _).mp hm).2 ⟨(h.low y hy).le,ht.start⟩

-- a range that ends before s-1 is stretched up to s-1
theorem remove_stretched {A0 : List Interval} {x y : Interval} (xmalloc : Bool) (h : Split l s e (A0 ++ [x]) M C)
  (hs : s ≤ e) (he : e < 2^w) (hl : Canonical (2^w) l) (ht : Tail w e M C y) (hx : x.e+1 < s) :
  ¬Removes w l s e (rangesetRemoveRange w l s e 0 xmalloc) := by
  intro hc
  obtain ⟨hA,hMC,hb⟩ := canonical_append.mp (h.eq ▸ hl)
  have hp := (hA.proper x (by simp)).nonempty
  obtain ⟨Q,hk,hr⟩ := remove_run_shape xmalloc h hs he ht
  have hm : Member (rangesetRemoveRange w l s e 0 xmalloc).2 (x.e+1) := by
    rw [hr]
    generalize hB : A0 ++ [x] = B at hk
    cases hk with
    | none => simp at hB
    | trimmed hd =>
      obtain rfl := (cons.inj (append_inj' hB rfl).2).1
      exact ⟨⟨x.s,s-1⟩,by simp,by simp only; omega,by simp only; omega⟩
    | dropped hd =>
      obtain rfl := (cons.inj (append_inj' hB rfl).2).1
      omega
  obtain ⟨q,hq,hi,hj⟩ := ((hc.member _).mp hm).1
  rw [h.eq] at hq
  rcases mem_append.mp hq with hq | hq
  · have hz := hA.le_last hq
    omega
  · have hz := hb x (by simp) q hq
    rw [Before] at hz
    omega

theorem remove_same (h : Split l s e A [] C) (hb : s ≤ e) (he : e < 2^w) (hl : Canonical (2^w) l) (xmalloc : Bool) :
  rangesetRemoveRange w l s e 0 xmalloc = (-enomem,l) ∨ Removes w l s e (rangesetRemoveRange w l s e 0 xmalloc) := by
  rcases eq_nil_or_concat A with rfl | ⟨A0,x,hA⟩
  · exact .inr (remove_outside xmalloc h hb hl (by simp) (.inl rfl))
  rw [concat_eq_append] at hA
  subst hA
  by_cases hx : s ≤ x.e
  · exact remove_inside xmalloc h hb he hl hx
  have hq : l = A0 ++ x :: C := by simpa using h.eq
  refine .inr (remove_outside xmalloc h hb hl (fun a ha => ?_) (.inr ?_))
  · have hf := (canonical_append.mp (h.eq ▸ hl)).1.le_last ha
    omega
  · rw [length_append,length_singleton,hq,rangeAt_cursor]
    omega

theorem remove_across_iff {y : Interval} (h : Split l s e A M C) (hb : s ≤ e) (he : e < 2^w)
  (hl : Canonical (2^w) l) (ht : Tail w e M C y) (xmalloc : Bool) :
  Removes w l s e (rangesetRemoveRange w l s e 0 xmalloc) ↔
    succ w e ≠ 0 ∧ (A.length = 0 ∨ s ≤ (rangeAt l A.length).e+1) := by
  by_cases hw : e+1 = 2^w
  · exact iff_of_false (remove_wrapped xmalloc h hb hw hl ht) fun hc => hc.1 (by rw [succ,hw,mod_self])
  have hn : succ w e ≠ 0 := by
    rw [succ_eq (by omega)]
    omega
  rcases eq_nil_or_concat A with rfl | ⟨A0,x,hA⟩
  · exact iff_of_true (remove_run xmalloc h hb (by omega) hl ht (by simp)) ⟨hn,.inl rfl⟩
  rw [concat_eq_append] at hA
  subst hA
  have hx : rangeAt l (A0 ++ [x]).length = x := by simp [h.eq]
  rw [hx]
  by_cases hg : s ≤ x.e+1
  · refine iff_of_true (remove_run xmalloc h hb (by omega) hl ht fun B z hB => ?_) ⟨hn,.inr hg⟩
    obtain ⟨-,hz⟩ := append_inj' hB rfl
    cases hz
    exact hg
  · exact iff_of_false (remove_stretched xmalloc h hb he hl ht (by omega)) (by simp [hg])

theorem remove_spec (hl : Canonical (2^w) l) (hb : s ≤ e) (he : e < 2^w) (xmalloc : Bool) :
  rangesetRemoveRange w l s e 0 xmalloc = (-enomem,l) ∧ removeSafe w l s e = true ∨
    (rangesetRemoveRange w l s e 0 xmalloc).1 = 0 ∧
      (Removes w l s e (rangesetRemoveRange w l s e 0 xmalloc) ↔ removeSafe w l s e = true) := by
  obtain ⟨A,M,C,h⟩ := exists_split_pair hl s e
  have hs := h.findRange_s hb
  have hy := h.findRange_e hb
  by_cases hM : M = []
  · subst hM
    have hsafe : removeSafe w l s e = true := by simp [removeSafe,hs,hy]
    exact (remove_same h hb he hl xmalloc).imp (⟨·,hsafe⟩) fun hr => ⟨hr.rc,iff_of_true hr hsafe⟩
  have hd : findRange s l ≠ findRange e l := by
    rw [hs,hy,length_append]
    have hp := length_pos_iff.mpr hM
    omega
  obtain ⟨y,ht⟩ := h.tail hl hM
  obtain ⟨Q,-,hr⟩ := remove_run_shape xmalloc h hb he ht
  refine .inr ⟨by rw [hr],?_⟩
  simp only [removeSafe,Bool.or_eq_true,Bool.and_eq_true,decide_eq_true_eq,hd,false_or]
  rw [hs]
  exact remove_across_iff h hb he hl ht xmalloc

end

theorem remove_range_is_difference (w : Nat) {l : List Interval} (hl : Canonical (2^w) l)
  {s e : Nat} (hse : s ≤ e) (he : e < 2^w) (xsm : Int)
  (xmalloc : Bool) : (((rangesetRemoveRange w l s e xsm xmalloc).1 = 0 ∧
      Canonical (2^w) (rangesetRemoveRange w l s e xsm xmalloc).2 ∧
      ∀ n, Member (rangesetRemoveRange w l s e xsm xmalloc).2 n ↔ Member l n ∧ ¬(s ≤ n ∧ n ≤ e)) ∨
    ((rangesetRemoveRange w l s e xsm xmalloc).1 ≠ 0 ∧ (rangesetRemoveRange w l s e xsm xmalloc).2 = l)) ↔
    (xsm = 0 → removeSafe w l s e = true) := by
  by_cases hx : xsm = 0
  · subst hx
    simp only [true_imp_iff]
    rcases remove_spec hl hse he xmalloc with ⟨hf,hs⟩ | ⟨hz,hr⟩
    · rw [hf]
      exact iff_of_true (.inr ⟨show -enomem ≠ 0 by decide,rfl⟩) hs
    · rw [← hr]
      constructor
      · rintro (⟨h,hc,hm⟩ | ⟨h,-⟩)
        · exact ⟨h,hc,hm⟩
        · exact absurd hz h
      · exact fun h => .inl ⟨h.rc,h.canonical,h.member⟩
  have hf : rangesetRemoveRange w l s e xsm xmalloc = (xsm,l) := if_pos hx
  rw [hf]
  exact iff_of_true (.inr ⟨hx,rfl⟩) fun h => absurd h hx

def twoRanges : List Interval := [⟨0,1⟩,⟨10,20⟩]

theorem canonical_twoRanges : Canonical (2^64) twoRanges :=
  canonical_cons.mpr ⟨⟨by decide,by decide⟩,
    canonical_cons.mpr ⟨⟨by decide,by decide⟩,canonical_nil,by simp⟩,by simp [Before]⟩

theorem remove_across_ranges :
  removeSafe 64 twoRanges 1 12 = true ∧ (rangesetRemoveRange 64 twoRanges 1 12 0 true).1 = 0 ∧
    Canonical (2^64) (rangesetRemoveRange 64 twoRanges 1 12 0 true).2 := by
  have hr : (rangesetRemoveRange 64 twoRanges 1 12 0 true).1 = 0 := by decide
  rcases (remove_range_is_difference 64 canonical_twoRanges (by decide : 1 ≤ 12) (by decide) 0 true).mpr
    (fun _ => by decide) with h | h
  · exact ⟨by decide,hr,h.2.1⟩
  · exact absurd hr h.1

theorem remove_adds_elements : Canonical (2^64) twoRanges ∧ ((rangesetRemoveRange 64 twoRanges 5 12 0 true).1 = 0 ∧
      Member (rangesetRemoveRange 64 twoRanges 5 12 0 true).2 3 ∧ ¬Member twoRanges 3) ∧
    ((rangesetRemoveRange 64 twoRanges 1 (2^64-1) 0 true).1 = 0 ∧
      Member (rangesetRemoveRange 64 twoRanges 1 (2^64-1) 0 true).2 5 ∧ ¬Member twoRanges 5) := by
  have hg : (rangesetRemoveRange 64 twoRanges 5 12 0 true) = (0,[⟨0,4⟩,⟨13,20⟩]) := by decide
  have hw : (rangesetRemoveRange 64 twoRanges 1 (2^64-1) 0 true) = (0,[⟨0,0⟩,⟨0,20⟩]) := by decide
  rw [hg,hw]
  refine ⟨canonical_twoRanges,⟨rfl,?_,?_⟩,rfl,?_,?_⟩ <;> simp [twoRanges,Member,Interval.Contains]

end Rangeset
