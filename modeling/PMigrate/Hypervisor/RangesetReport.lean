import PMigrate.Hypervisor.Rangeset

namespace Rangeset

open IntervalList List

abbrev Callback := List Interval → Interval → Int

def reportFrom (s e : Nat) (cb : Callback) : List Interval → List Interval → Int × List Interval
  | [],calls => (0,calls)
  | x :: rest,calls =>
    if x.s ≤ e then
      if s ≤ x.e then
        let call : Interval := ⟨max x.s s,min x.e e⟩
        if cb calls call = 0 then reportFrom s e cb rest (calls ++ [call])
        else (cb calls call,calls ++ [call])
      else reportFrom s e cb rest calls
    else (0,calls)

def rangesetReportRanges (l : List Interval) (s e : Nat) (cb : Callback) : Int × List Interval :=
  let x := findRange s l
  if x = 0 then (0,[]) else reportFrom s e cb (l.drop (x-1)) []

def Quiet (cb : Callback) (calls : List Interval) : Prop :=
  ∀ pre x post, calls = pre ++ x :: post → cb pre x = 0

def Stops (cb : Callback) (r : Int × List Interval) : Prop :=
  ∀ pre x post, r.2 = pre ++ x :: post → cb pre x ≠ 0 → post = [] ∧ r.1 = cb pre x

structure Covers (s e : Nat) (l R : List Interval) : Prop where
  ascending : R.Pairwise fun a b => a.e < b.s
  nonempty : ∀ c ∈ R, c.s ≤ c.e
  member : ∀ n, Member R n ↔ Member l n ∧ s ≤ n ∧ n ≤ e

variable {s e bound : Nat} {cb : Callback} {l calls : List Interval}

theorem Quiet.stops (h : Quiet cb calls) (rc : Int) : Stops cb (rc,calls) :=
  fun pre x post he hn => absurd (h pre x post he) hn

theorem Quiet.concat_cases (h : Quiet cb calls) {call x : Interval} {pre post : List Interval}
  (he : calls ++ [call] = pre ++ x :: post) : cb pre x = 0 ∨ post = [] ∧ pre = calls ∧ x = call := by
  rcases eq_nil_or_concat post with rfl | ⟨post,z,rfl⟩
  · obtain ⟨hp,hx⟩ := append_inj' he rfl
    cases hx
    exact .inr ⟨rfl,hp.symm,rfl⟩
  · rw [concat_eq_append,← cons_append,← append_assoc] at he
    exact .inl (h pre x post (append_inj' he rfl).1)

theorem reportFrom_stops (h : Quiet cb calls) : Stops cb (reportFrom s e cb l calls) := by
  induction l generalizing calls with
  | nil => exact h.stops 0
  | cons x rest ih =>
    dsimp only [reportFrom]
    split_ifs with hl hh hz
    · refine ih fun pre y post he => ?_
      exact (h.concat_cases he).elim id fun ⟨_,hr,hy⟩ => hr ▸ hy ▸ hz
    · intro pre y post he hn
      obtain ⟨hp,rfl,rfl⟩ := (h.concat_cases he).resolve_left hn
      exact ⟨hp,rfl⟩
    · exact ih h
    · exact h.stops 0

theorem reportFrom_covers (hs : s ≤ e) (hd : ∀ calls x, cb calls x = 0) (hl : Canonical bound l) :
  ∃ R, reportFrom s e cb l calls = (0,calls ++ R) ∧ (∀ c ∈ R, ∃ q ∈ l, q.s ≤ c.s) ∧ Covers s e l R := by
  induction l generalizing calls with
  | nil => exact ⟨[],by rw [reportFrom,append_nil],by simp,.nil,by simp,by simp⟩
  | cons x rest ih =>
    obtain ⟨hx,hr,hb⟩ := canonical_cons.mp hl
    have he := hx.nonempty
    dsimp only [reportFrom]
    rw [if_pos (hd _ _)]
    split_ifs with hw hh
    · obtain ⟨R,hR,hf,hc⟩ := @ih (calls ++ [⟨max x.s s,min x.e e⟩]) hr
      refine ⟨⟨max x.s s,min x.e e⟩ :: R,by rw [hR,append_assoc]; rfl,?_,pairwise_cons.mpr ⟨?_,hc.ascending⟩,?_,?_⟩
      · exact forall_mem_cons.mpr ⟨⟨x,by simp,le_max_left _ _⟩,
          fun c ha => (hf c ha).imp fun q hq => ⟨mem_cons_of_mem _ hq.1,hq.2⟩⟩
      · intro c ha
        obtain ⟨q,hq,hi⟩ := hf c ha
        have hg := hb q hq
        rw [Before] at hg
        dsimp only
        omega
      · exact forall_mem_cons.mpr ⟨by dsimp only; omega,hc.nonempty⟩
      · intro n
        rw [member_cons,member_cons,hc.member,or_and_right,Interval.Contains,Interval.Contains]
        dsimp only
        exact or_congr_left (by omega)
    · obtain ⟨R,hR,hf,hc⟩ := @ih calls hr
      refine ⟨R,hR,fun c ha => (hf c ha).imp fun q hq => ⟨mem_cons_of_mem _ hq.1,hq.2⟩,hc.ascending,hc.nonempty,?_⟩
      intro n
      rw [hc.member,member_cons,or_and_right,Interval.Contains]
      exact (or_iff_right (by omega)).symm
    · refine ⟨[],by rw [append_nil],by simp,.nil,by simp,fun n => ?_⟩
      refine iff_of_false not_member_nil ?_
      rintro ⟨⟨q,hq,ho,-⟩,-,hn⟩
      have hk := hl.head_le hq
      omega

def ReportsIntersection (l : List Interval) (s e : Nat) : Prop :=
  ∀ cb : Callback, ((∀ calls x, cb calls x = 0) → (rangesetReportRanges l s e cb).1 = 0 ∧
    Covers s e l (rangesetReportRanges l s e cb).2) ∧ Stops cb (rangesetReportRanges l s e cb)

theorem reports_of_findRange_zero (hf : findRange s l = 0) : rangesetReportRanges l s e cb = (0,[]) := by
  rw [rangesetReportRanges,hf,if_pos rfl]

theorem report_ranges_exact {l : List Interval} {w s e : Nat} (hl : Canonical (2^w) l) (hse : s ≤ e) :
  ReportsIntersection l s e ↔ (∃ r ∈ l, r.s ≤ s) ∨ ∀ r ∈ l, e < r.s := by
  have hu (cb : Callback) : Quiet cb [] := by simp [Quiet]
  rcases findRange_cases hl s with ⟨hf,ha⟩ | ⟨A,x,B,rfl,hf,he,hB⟩
  · -- find_range returned NULL: nothing is reported, which is right only if nothing meets [s,e]
    constructor
    · intro h
      refine .inr fun r hr => ?_
      by_contra hle
      have hc := ((h fun _ _ => 0).1 fun _ _ => rfl).2.member r.s
      rw [reports_of_findRange_zero hf] at hc
      have hs := ha r hr
      exact not_member_nil (hc.mpr ⟨⟨r,hr,le_refl _,(hl.proper r hr).nonempty⟩,by omega,by omega⟩)
    · intro hreach cb
      rw [reports_of_findRange_zero hf]
      refine ⟨fun _ => ⟨rfl,.nil,by simp,fun n => iff_of_false not_member_nil ?_⟩,(hu cb).stops 0⟩
      rintro ⟨⟨q,hq,ho,-⟩,-,hg⟩
      rcases hreach with ⟨r,hr,hi⟩ | hreach
      · have hk := ha r hr
        omega
      · have hm := hreach q hq
        omega
  refine iff_of_true (fun cb => ?_) (.inl ⟨x,by simp,he⟩)
  have hs : rangesetReportRanges (A ++ x :: B) s e cb = reportFrom s e cb (x :: B) [] := by
    simp [rangesetReportRanges,hf]
  obtain ⟨-,hx,hA⟩ := canonical_append.mp hl
  rw [hs]
  refine ⟨fun hd => ?_,reportFrom_stops (hu cb)⟩
  obtain ⟨R,hR,-,hc⟩ := @reportFrom_covers s e _ cb _ [] hse hd hx
  rw [hR]
  refine ⟨rfl,hc.ascending,hc.nonempty,fun n => ?_⟩
  rw [nil_append,hc.member,member_append,or_and_right]
  refine (or_iff_right ?_).symm
  rintro ⟨⟨q,hq,-,hh⟩,hp,-⟩
  have hb := hA q hq x (by simp)
  rw [Before] at hb
  omega

theorem clipped_at_both_ends : (rangesetReportRanges [⟨2,6⟩,⟨9,12⟩] 4 10 fun _ _ => 0) = (0,[⟨4,6⟩,⟨9,10⟩]) ∧
  Covers 4 10 [⟨2,6⟩,⟨9,12⟩] [⟨4,6⟩,⟨9,10⟩] := by
  have hl : Canonical (2^64) [⟨2,6⟩,⟨9,12⟩] := canonical_cons.mpr ⟨⟨by decide,by decide⟩,
    canonical_cons.mpr ⟨⟨by decide,by decide⟩,canonical_nil,by simp⟩,by simp [Before]⟩
  have hr : (rangesetReportRanges [⟨2,6⟩,⟨9,12⟩] 4 10 fun _ _ => 0) = (0,[⟨4,6⟩,⟨9,10⟩]) := by decide
  have h := (((report_ranges_exact hl (by decide : 4 ≤ 10)).mpr (.inl ⟨⟨2,6⟩,by simp,by decide⟩) fun _ _ => 0).1
    fun _ _ => rfl).2
  rw [hr] at h
  exact ⟨hr,h⟩

theorem set_above_start_unreported : Canonical (2^64) [⟨5,6⟩] ∧ Member [⟨5,6⟩] 5 ∧
  (rangesetReportRanges [⟨5,6⟩] 0 10 fun _ _ => 0) = (0,[]) :=
  ⟨canonical_cons.mpr ⟨⟨by decide,by decide⟩,canonical_nil,by simp⟩,by simp [Interval.Contains],by decide⟩

end Rangeset
