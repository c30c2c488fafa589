import PMigrate.Hypervisor.CreditScheduler

namespace CreditScheduler

open SafeIteration List

def total (s : State) : Int := (s.activeSdom.map fun d => (s.dom d).load).sum

structure Lawful (A : Arith) : Prop where
  absorb : ∀ x y, A.u32 (A.u32 x+y) = A.u32 (x+y)

theorem machine_lawful : Lawful machine := ⟨fun x y => Int.emod_add_emod x (2^32) y⟩

theorem exact_lawful : Lawful exact := ⟨fun _ _ => rfl⟩

def Fits (A : Arith) (n : Int) : Prop := ∀ x, 0 ≤ x → x ≤ n → A.u32 x = x

theorem Fits.mono {A : Arith} {m n : Int} (h : Fits A n) (hm : m ≤ n) : Fits A m :=
  fun x h0 hx => h x h0 (hx.trans hm)

theorem machine_fits {n : Int} (h : n < 2^32) : Fits machine n :=
  fun _ h0 hx => Int.emod_eq_of_lt h0 (lt_of_le_of_lt hx h)

theorem exact_fits (n : Int) : Fits exact n := fun _ _ _ => rfl

structure Books (A : Arith) (s : State) : Prop where
  count : ∀ d, (s.dom d).activeVcpuCount = (s.dom d).activeVcpu.length
  nodup : ∀ d, (s.dom d).activeVcpu.Nodup
  short : ∀ d, (s.dom d).activeVcpu.length < 2^16
  sdoms : s.activeSdom.Nodup
  active : ∀ d, d ∈ s.activeSdom ↔ (s.dom d).activeVcpu ≠ []
  weights : ∀ d, 0 < (s.dom d).weight
  total : s.weight = A.u32 (total s)

theorem load_nonneg (x : Dom) : 0 ≤ x.load := by
  rw [Dom.load]
  positivity

variable {d : Nat}

section
variable {l : List Nat} {f : Nat → Int}

theorem sum_erase (h : d ∉ l → f d = 0) : (l.map f).sum = f d+((l.erase d).map f).sum := by
  by_cases hd : d ∈ l
  · exact (sum_map_erase f hd).symm
  · rw [h hd,erase_of_not_mem hd,zero_add]

theorem sum_nonneg (h : ∀ e, 0 ≤ f e) : 0 ≤ (l.map f).sum := by
  refine List.sum_nonneg fun x hx => ?_
  obtain ⟨e,-,rfl⟩ := mem_map.mp hx
  exact h e

end

variable {A : Arith} {s s' : State} {v : Nat}

theorem Books.load_idle (h : Books A s) (hd : d ∉ s.activeSdom) : (s.dom d).load = 0 := by
  have hn : (s.dom d).activeVcpu = [] := by
    by_contra he
    exact hd ((h.active d).mpr he)
  rw [Dom.load,h.count,hn]
  exact mul_zero _

theorem Books.total_split (h : Books A s) (d : Nat) : CreditScheduler.total s =
    (s.dom d).load+((s.activeSdom.erase d).map fun e => (s.dom e).load).sum :=
  sum_erase (f := fun e => (s.dom e).load) h.load_idle

theorem Books.load_le (h : Books A s) (d : Nat) : (s.dom d).load ≤ CreditScheduler.total s := by
  have hr : 0 ≤ ((s.activeSdom.erase d).map fun e => (s.dom e).load).sum :=
    sum_nonneg fun e => load_nonneg (s.dom e)
  rw [h.total_split d]
  omega

theorem Books.weight_le (h : Books A s) (hv : v ∈ (s.dom d).activeVcpu) :
  ((s.dom d).weight : Int) ≤ CreditScheduler.total s := by
  refine le_trans ?_ (h.load_le d)
  have hp : 0 < (s.dom d).activeVcpu.length := length_pos_of_mem hv
  rw [Dom.load,h.count]
  nlinarith

theorem setDom_self (x : Dom) : (s.setDom d x).dom d = x := if_pos rfl

variable {e : Nat} {x : Dom} {l : List Nat}

theorem setDom_of_ne (x : Dom) (he : e ≠ d) : (s.setDom d x).dom e = s.dom e := if_neg he

def rewrite (A : Arith) (s : State) (d : Nat) (x : Dom) (l : List Nat) : State :=
  {s.setDom d x with weight := A.u32 (s.weight+(x.load-(s.dom d).load)),activeSdom := l}

structure Sound (x : Dom) : Prop where
  count : x.activeVcpuCount = x.activeVcpu.length
  nodup : x.activeVcpu.Nodup
  short : x.activeVcpu.length < 2^16
  weight : 0 < x.weight

theorem Books.sound (h : Books A s) (d : Nat) : Sound (s.dom d) := ⟨h.count d,h.nodup d,h.short d,h.weights d⟩

theorem total_rewrite (h : Books A s) (hl : l.Nodup) (hm : ∀ e, e ≠ d → (e ∈ l ↔ e ∈ s.activeSdom))
  (hi : d ∉ l → x.load = 0) :
  total (rewrite A s d x l) = total s+(x.load-(s.dom d).load) := by
  have hp : (l.erase d).Perm (s.activeSdom.erase d) := by
    refine (perm_ext_iff_of_nodup (hl.erase d) (h.sdoms.erase d)).mpr fun e => ?_
    rw [hl.mem_erase_iff,h.sdoms.mem_erase_iff]
    exact and_congr_right fun he => hm e he
  have hn : total (rewrite A s d x l) = x.load+((l.erase d).map fun e => ((s.setDom d x).dom e).load).sum := by
    have hs : ((s.setDom d x).dom d).load = x.load := congrArg Dom.load (setDom_self x)
    rw [← hs]
    exact sum_erase (f := fun e => ((s.setDom d x).dom e).load) fun hd => hs.trans (hi hd)
  have ha : (l.erase d).map (fun e => ((s.setDom d x).dom e).load) = (l.erase d).map fun e => (s.dom e).load := by
    refine map_congr_left fun e he => congrArg Dom.load (setDom_of_ne x ?_)
    exact (hl.mem_erase_iff.mp he).1
  rw [hn,ha,(hp.map _).sum_eq,h.total_split d]
  ring

theorem Books.rewrite (hA : Lawful A) (h : Books A s) (hx : Sound x) (hl : l.Nodup)
  (hm : ∀ e, e ≠ d → (e ∈ l ↔ e ∈ s.activeSdom))
  (hd : d ∈ l ↔ x.activeVcpu ≠ []) : Books A (rewrite A s d x l) := by
  have ho : ∀ e, Sound ((s.setDom d x).dom e) := by
    intro e
    by_cases he : e = d
    · rw [he,setDom_self]
      exact hx
    · rw [setDom_of_ne x he]
      exact h.sound e
  refine ⟨fun e => (ho e).count,fun e => (ho e).nodup,fun e => (ho e).short,hl,fun e => ?_,
    fun e => (ho e).weight,?_⟩
  · change e ∈ l ↔ ((s.setDom d x).dom e).activeVcpu ≠ []
    by_cases he : e = d
    · rw [he,setDom_self]
      exact hd
    · rw [setDom_of_ne x he,hm e he]
      exact h.active e
  have hi : d ∉ l → x.load = 0 := by
    intro hn
    have ha : x.activeVcpu = [] := by
      by_contra hb
      exact hn (hd.mpr hb)
    rw [Dom.load,hx.count,ha]
    exact mul_zero _
  rw [total_rewrite h hl hm hi]
  change A.u32 (s.weight+_) = _
  rw [h.total,hA.absorb]

theorem start_eq (hv : v ∉ (s.dom d).activeVcpu) (h : Books A s) (hr : (s.dom d).activeVcpu.length+1 < 2^16) :
  s.acctStart A d v = rewrite A s d {s.dom d with
      activeVcpuCount := (s.dom d).activeVcpuCount+1
      activeVcpu := v :: (s.dom d).activeVcpu}
    (if d ∈ s.activeSdom then s.activeSdom else d :: s.activeSdom) := by
  have hc : ((s.dom d).activeVcpuCount+1)%2^16 = (s.dom d).activeVcpuCount+1 := by
    rw [h.count]
    exact Nat.mod_eq_of_lt hr
  have hl : (s.weight : Int)+(((s.dom d).weight : Int)*(((s.dom d).activeVcpuCount+1 : Nat) : Int) -
      (s.dom d).load) = s.weight+(s.dom d).weight := by
    rw [Dom.load]
    push_cast
    ring
  rw [State.acctStart,if_neg hv,hc,rewrite]
  rw [Dom.load,hl]

theorem start_books (hA : Lawful A) (h : Books A s)
  (hr : v ∉ (s.dom d).activeVcpu → (s.dom d).activeVcpu.length+1 < 2^16) : Books A (s.acctStart A d v) := by
  by_cases hv : v ∈ (s.dom d).activeVcpu
  · rw [State.acctStart,if_pos hv]
    exact h
  rw [start_eq hv h (hr hv)]
  refine h.rewrite hA ⟨?_,nodup_cons.mpr ⟨hv,h.nodup d⟩,hr hv,h.weights d⟩ ?_ (fun e he => ?_) ?_
  · change (s.dom d).activeVcpuCount+1 = (s.dom d).activeVcpu.length+1
    rw [h.count]
  · split
    · exact h.sdoms
    · rename_i hd
      exact nodup_cons.mpr ⟨hd,h.sdoms⟩
  · split
    · rfl
    · simp [he]
  · refine iff_of_true ?_ (cons_ne_nil _ _)
    split
    · assumption
    · exact mem_cons_self

def stopped (x : Dom) (v : Nat) : Dom :=
  {x with activeVcpuCount := x.activeVcpuCount-1,activeVcpu := x.activeVcpu.erase v}

def sdomsAfter (s : State) (d v : Nat) : List Nat :=
  if (s.dom d).activeVcpu.erase v = [] then s.activeSdom.erase d else s.activeSdom

variable (h : Books A s)
include h

section
variable (hv : v ∈ (s.dom d).activeVcpu)
include hv

theorem load_stopped : (stopped (s.dom d) v).load = (s.dom d).load-(s.dom d).weight := by
  have hp : 0 < (s.dom d).activeVcpu.length := length_pos_of_mem hv
  rw [← h.count] at hp
  have hc : (((s.dom d).activeVcpuCount-1 : Nat) : Int) = (s.dom d).activeVcpuCount-1 := by omega
  change ((s.dom d).weight : Int)*(((s.dom d).activeVcpuCount-1 : Nat) : Int) = _
  rw [hc,Dom.load]
  ring

theorem stop_eq (hw : ¬s.weight < (s.dom d).weight) :
  s.acctStopLocked A d v = some (rewrite A s d (stopped (s.dom d) v) (sdomsAfter s d v)) := by
  have hp : 0 < (s.dom d).activeVcpu.length := length_pos_of_mem hv
  have hs := h.short d
  have hc : ((s.dom d).activeVcpuCount+(2^16-1))%2^16 = (s.dom d).activeVcpuCount-1 := by
    rw [h.count]
    omega
  have hl : s.weight+((stopped (s.dom d) v).load-(s.dom d).load) = s.weight-(s.dom d).weight := by
    rw [load_stopped h hv]
    ring
  rw [State.acctStopLocked,if_neg (not_not.mpr hv),if_neg hw,hc,rewrite,hl]
  rfl

theorem stopped_sound : Sound (stopped (s.dom d) v) where
  count := by
    change (s.dom d).activeVcpuCount-1 = ((s.dom d).activeVcpu.erase v).length
    rw [length_erase_of_mem hv,h.count]
  nodup := (h.nodup d).erase v
  short := (length_erase_le ..).trans_lt (h.short d)
  weight := h.weights d

end

theorem sdomsAfter_nodup : (sdomsAfter s d v).Nodup := by
  rw [sdomsAfter]
  split
  · exact h.sdoms.erase d
  · exact h.sdoms

omit h in
theorem mem_sdomsAfter (he : e ≠ d) : e ∈ sdomsAfter s d v ↔ e ∈ s.activeSdom := by
  rw [sdomsAfter]
  split
  · exact mem_erase_of_ne he
  · rfl

theorem self_mem_sdomsAfter (hv : v ∈ (s.dom d).activeVcpu) :
  d ∈ sdomsAfter s d v ↔ (s.dom d).activeVcpu.erase v ≠ [] := by
  rw [sdomsAfter]
  split
  · rename_i hn
    exact iff_of_false h.sdoms.not_mem_erase (not_not.mpr hn)
  · rename_i he
    exact iff_of_true ((h.active d).mpr (ne_nil_of_mem hv)) he

omit h in
theorem stop_books (hA : Lawful A) (h : Books A s) (hv : v ∈ (s.dom d).activeVcpu) :
  Books A (rewrite A s d (stopped (s.dom d) v) (sdomsAfter s d v)) :=
  h.rewrite hA (stopped_sound h hv) (sdomsAfter_nodup h) (fun _ => mem_sdomsAfter) (self_mem_sdomsAfter h hv)

theorem stop_total (hv : v ∈ (s.dom d).activeVcpu) :
  total (rewrite A s d (stopped (s.dom d) v) (sdomsAfter s d v)) = total s-(s.dom d).weight := by
  have hi : d ∉ sdomsAfter s d v → (stopped (s.dom d) v).load = 0 := by
    intro hn
    have ha : (s.dom d).activeVcpu.erase v = [] := by
      by_contra he
      exact hn ((self_mem_sdomsAfter h hv).mpr he)
    rw [Dom.load,(stopped_sound h hv).count]
    change ((s.dom d).weight : Int)*(((s.dom d).activeVcpu.erase v).length : Int) = 0
    rw [ha]
    exact mul_zero _
  rw [total_rewrite h (sdomsAfter_nodup h) (fun _ => mem_sdomsAfter) hi,load_stopped h hv]
  ring

theorem stop_spec (hv : v ∈ (s.dom d).activeVcpu) :
  s.acctStopLocked A d v = some (rewrite A s d (stopped (s.dom d) v) (sdomsAfter s d v)) ∨
    (¬Fits A (total s) ∧ s.acctStopLocked A d v = none) := by
  by_cases hw : s.weight < (s.dom d).weight
  · refine .inr ⟨fun hf => ?_,?_⟩
    · have hl := h.weight_le hv
      have hp : (0 : Int) ≤ (s.dom d).weight := Int.natCast_nonneg _
      have ha := hf (total s) (hp.trans hl) le_rfl
      rw [h.total,ha] at hw
      omega
    · rw [State.acctStopLocked,if_neg (not_not.mpr hv),if_pos hw]
  · exact .inl (stop_eq h hv hw)

omit h in
theorem cntl_books (hA : Lawful A) (h : Books A s) (weight cap : Nat) : Books A (s.domCntl A d weight cap) := by
  have hw : Books A (s.changeWeight A d weight) := by
    rw [State.changeWeight]
    split
    · exact h
    rename_i he
    have hn : Books A (rewrite A s d {s.dom d with weight := weight} s.activeSdom) :=
      h.rewrite hA ⟨h.count d,h.nodup d,h.short d,Nat.pos_of_ne_zero he⟩ h.sdoms (fun _ _ => Iff.rfl) (h.active d)
    have hv : (if d ∈ s.activeSdom then
          A.u32 (A.u32 (s.weight-(s.dom d).weight*(s.dom d).activeVcpuCount)+weight*(s.dom d).activeVcpuCount)
        else s.weight) = (rewrite A s d {s.dom d with weight := weight} s.activeSdom).weight := by
      change _ = A.u32 (s.weight+((weight : Int)*(s.dom d).activeVcpuCount-(s.dom d).load))
      split
      · rw [hA.absorb,Dom.load]
        exact congrArg A.u32 (by ring)
      rename_i hd
      have hz := h.load_idle hd
      have hc : (s.dom d).activeVcpuCount = 0 := by
        rw [h.count,length_eq_zero_iff]
        by_contra hi
        exact hd ((h.active d).mpr hi)
      rw [hz,hc,h.total,hA.absorb]
      exact congrArg A.u32 (by simp)
    rw [hv]
    exact hn
  rw [State.domCntl,State.changeCap]
  generalize s.changeWeight A d weight = u at hw
  split
  · exact hw
  have hs : A.u32 (u.weight+((u.dom d).load-(u.dom d).load)) = u.weight := by
    rw [sub_self,hw.total,hA.absorb,add_zero]
  have ha : u.setDom d {u.dom d with cap := cap} = rewrite A u d {u.dom d with cap := cap} u.activeSdom := by
    change _ = State.mk (A.u32 (u.weight+((u.dom d).load-(u.dom d).load))) _ _ _ _ _
    rw [hs]
    rfl
  rw [ha]
  exact hw.rewrite hA ⟨hw.count d,hw.nodup d,hw.short d,hw.weights d⟩ hw.sdoms (fun _ _ => Iff.rfl) (hw.active d)

theorem Books.setVcpu (x : Vcpu) : Books A (s.setVcpu d v x) :=
  ⟨h.count,h.nodup,h.short,h.sdoms,h.active,h.weights,h.total⟩

omit h

theorem moveToFront_perm (hd : d ∈ s.activeSdom) : (moveToFront s d).activeSdom.Perm s.activeSdom :=
  (perm_cons_erase hd).symm

theorem moveToFront_total (hd : d ∈ s.activeSdom) : total (moveToFront s d) = total s :=
  ((moveToFront_perm hd).map fun e => (s.dom e).load).sum_eq

theorem Books.moveToFront (h : Books A s) (hd : d ∈ s.activeSdom) : Books A (moveToFront s d) where
  count := h.count
  nodup := h.nodup
  short := h.short
  sdoms := (moveToFront_perm hd).nodup_iff.mpr h.sdoms
  active e := (moveToFront_perm hd).mem_iff.trans (h.active e)
  weights := h.weights
  total := h.total.trans (congrArg A.u32 (moveToFront_total hd).symm)

variable {p q : Acct}

section
variable {r : Acct} {fair : Int}

structure Within (d : Nat) (p q : Acct) : Prop where
  dom : ∀ e, e ≠ d → q.prv.dom e = p.prv.dom e
  vcpu : ∀ e, e ≠ d → q.prv.vcpu e = p.prv.vcpu e
  active : (q.prv.dom d).activeVcpu ⊆ (p.prv.dom d).activeVcpu
  sdoms : ∀ rest, d ∉ rest → rest <:+ p.prv.activeSdom → rest <:+ q.prv.activeSdom
  total : total q.prv ≤ total p.prv
  weightLeft : q.weightLeft = p.weightLeft
  creditTotal : q.creditTotal = p.creditTotal

theorem Within.refl : Within d p p := ⟨fun _ _ => rfl,fun _ _ => rfl,List.Subset.refl _,fun _ _ => id,le_refl _,rfl,rfl⟩

theorem Within.trans (h : Within d p q) (h' : Within d q r) : Within d p r where
  dom e he := (h'.dom e he).trans (h.dom e he)
  vcpu e he := (h'.vcpu e he).trans (h.vcpu e he)
  active := List.Subset.trans h'.active h.active
  sdoms rest hd hs := h'.sdoms rest hd (h.sdoms rest hd hs)
  total := h'.total.trans h.total
  weightLeft := h'.weightLeft.trans h.weightLeft
  creditTotal := h'.creditTotal.trans h.creditTotal

-- the bounds csched_acct puts on the credit of a vcpu once its share is added
def bounded (credit : Int) : Int :=
  if credit < -creditsPerTslice then -creditsPerTslice
  else if credit > creditsPerTslice then credit/2
  else credit

structure Visited (A : Arith) (d v : Nat) (fair : Int) (p q : Acct) : Prop where
  books : Books A q.prv
  within : Within d p q
  list : (q.prv.dom d).activeVcpu = (p.prv.dom d).activeVcpu ∨
    (q.prv.dom d).activeVcpu = (p.prv.dom d).activeVcpu.erase v
  earned : (q.prv.vcpu d v).credit = bounded (A.i32 ((p.prv.vcpu d v).credit+fair))
  others : ∀ w, w ≠ v → q.prv.vcpu d w = p.prv.vcpu d w

theorem earn_credit (A : Arith) (fair : Int) (svc : Vcpu) (capped : Bool) (creditCap : Int) :
  (svc.earn A capped creditCap fair).1.credit = bounded (A.i32 (svc.credit+fair)) := by
  rw [Vcpu.earn,bounded,creditsPerTslice]
  dsimp only
  split_ifs <;> first | rfl | omega

variable {x : Vcpu}

theorem setVcpu_self : (s.setVcpu d v x).vcpu d v = x := if_pos ⟨rfl,rfl⟩

theorem setVcpu_others {w : Nat} (hw : w ≠ v) : (s.setVcpu d v x).vcpu d w = s.vcpu d w := if_neg fun h => hw h.2

theorem setVcpu_of_ne {e : Nat} (he : e ≠ d) :
  (s.setVcpu d v x).vcpu e = s.vcpu e := funext fun _ => if_neg fun h => he h.1

theorem record_visited (hb : Books A s) (hi : Within d p {p with prv := s})
  (hl : (s.dom d).activeVcpu = (p.prv.dom d).activeVcpu ∨ (s.dom d).activeVcpu = (p.prv.dom d).activeVcpu.erase v)
  (hv : s.vcpu d = p.prv.vcpu d) (hx : x.credit = bounded (A.i32 ((p.prv.vcpu d v).credit+fair))) :
  Visited A d v fair p (p.record A s d v x) where
  books := hb.setVcpu x
  within := ⟨hi.dom,fun e he => (setVcpu_of_ne he).trans (hi.vcpu e he),hi.active,hi.sdoms,hi.total,rfl,rfl⟩
  list := hl
  earned := (congrArg Vcpu.credit setVcpu_self).trans hx
  others w hw := (setVcpu_others hw).trans (congrFun hv w)

theorem stop_within (h : Books A p.prv) (hv : v ∈ (p.prv.dom d).activeVcpu) : Within d p {p with
    prv := rewrite A p.prv d (stopped (p.prv.dom d) v) (sdomsAfter p.prv d v)} where
  dom _ he := setDom_of_ne _ he
  vcpu _ _ := rfl
  active := by
    change ((p.prv.setDom d _).dom d).activeVcpu ⊆ _
    rw [setDom_self]
    exact erase_subset
  sdoms rest hd hs := by
    rw [sdomsAfter]
    split
    · exact suffix_erase hs hd
    · exact hs
  total := by
    rw [stop_total h hv]
    omega
  weightLeft := rfl
  creditTotal := rfl

theorem visitVcpu_spec (hA : Lawful A) (h : Books A p.prv) (hv : v ∈ (p.prv.dom d).activeVcpu) :
  (∃ q, visitVcpu A d fair v p = some q ∧ Visited A d v fair p q) ∨
    (¬Fits A (total p.prv) ∧ visitVcpu A d fair v p = none) := by
  have hi := earn_credit A fair (p.prv.vcpu d v) (decide ((p.prv.dom d).cap ≠ 0)) p.creditCap
  rw [visitVcpu]
  generalize (p.prv.vcpu d v).earn A (decide ((p.prv.dom d).cap ≠ 0)) p.creditCap fair = r at hi
  split
  · rcases stop_spec h hv with hs | ⟨hb,hs⟩
    · rw [hs]
      refine .inl ⟨_,rfl,record_visited (stop_books hA h hv) (stop_within h hv) (.inr ?_) rfl hi⟩
      exact congrArg Dom.activeVcpu (setDom_self _)
    · rw [hs]
      exact .inr ⟨hb,rfl⟩
  · exact .inl ⟨_,rfl,record_visited h .refl (.inl rfl) rfl hi⟩

structure Walked (A : Arith) (d : Nat) (fair : Int) (p : Acct) (rest : List Nat) (q : Acct) : Prop where
  books : Books A q.prv
  within : Within d p q
  suffix : rest <:+ (q.prv.dom d).activeVcpu
  earned : ∀ v ∈ (p.prv.dom d).activeVcpu, v ∉ rest →
    (q.prv.vcpu d v).credit = bounded (A.i32 ((p.prv.vcpu d v).credit+fair))
  kept : ∀ v, v ∈ rest ∨ v ∉ (p.prv.dom d).activeVcpu → q.prv.vcpu d v = p.prv.vcpu d v

theorem Walked.visit {rest : List Nat} (h : Walked A d fair p (v :: rest) q) (hr : Visited A d v fair q r) :
  Walked A d fair p rest r := by
  have hn : v ∉ rest := (nodup_cons.mp ((h.books.nodup d).sublist h.suffix.sublist)).1
  refine ⟨hr.books,h.within.trans hr.within,?_,fun w hw hm => ?_,fun w hw => ?_⟩
  · have hs : rest <:+ (q.prv.dom d).activeVcpu := (suffix_cons v rest).trans h.suffix
    rcases hr.list with hl | hl
    · rw [hl]
      exact hs
    · rw [hl]
      exact suffix_erase hs hn
  · by_cases hv : w = v
    · subst hv
      rw [hr.earned,h.kept w (.inl mem_cons_self)]
    · rw [hr.others w hv]
      exact h.earned w hw fun hc => hm ((mem_cons.mp hc).resolve_left hv)
  · have hv : w ≠ v := by
      rintro rfl
      exact hw.elim hn fun hm => hm (h.within.active (h.suffix.subset mem_cons_self))
    rw [hr.others w hv]
    exact h.kept w (hw.imp_left (mem_cons_of_mem v))

theorem walk_spec (d : Nat) (fair : Int) (hA : Lawful A) (h : Books A p.prv) :
  (∃ q, forEachSafe (fun q => (q.prv.dom d).activeVcpu) (visitVcpu A d fair)
      (p.prv.dom d).activeVcpu.length (p.prv.dom d).activeVcpu.head? p = some q ∧ Walked A d fair p [] q) ∨
    (¬Fits A (total p.prv) ∧ forEachSafe (fun q => (q.prv.dom d).activeVcpu) (visitVcpu A d fair)
      (p.prv.dom d).activeVcpu.length (p.prv.dom d).activeVcpu.head? p = none) := by
  refine forEachSafe_rule (P := Walked A d fair p) (fun rest q hq => ⟨hq.books.nodup d,hq.suffix⟩)
    (fun v rest q hq => ?_) le_rfl
    ⟨h,.refl,suffix_refl _,fun _ hv hn => absurd hv hn,fun _ _ => rfl⟩
  have hv : v ∈ (q.prv.dom d).activeVcpu := hq.suffix.subset mem_cons_self
  rcases visitVcpu_spec hA hq.books hv with ⟨r,hr,hi⟩ | ⟨hb,hr⟩
  · exact .inl ⟨r,hr,hq.visit hi⟩
  · exact .inr ⟨fun hf => hb (hf.mono hq.within.total),hr⟩

end

section
variable {rest : List Nat} {W balance : Int}

def loads (s : State) (l : List Nat) : Int := (l.map fun d => (s.dom d).load).sum

structure OnTrack (A : Arith) (s : State) (rest : List Nat) (p : Acct) : Prop where
  books : Books A p.prv
  suffix : rest <:+ p.prv.activeSdom
  active : ∀ d, (p.prv.dom d).activeVcpu ⊆ (s.dom d).activeVcpu
  total : total p.prv ≤ total s
  left : Fits A (CreditScheduler.total s) → p.weightLeft = loads p.prv rest

theorem settle_prv (sdom : Dom) (fair peak : Int) : (p.settle A W sdom d fair peak).prv = p.prv ∨
    (p.settle A W sdom d fair peak).prv = moveToFront p.prv d := by
  rw [Acct.settle]
  split
  · exact .inl rfl
  dsimp only
  split
  · exact .inr rfl
  · exact .inl rfl

theorem settle_weightLeft (sdom : Dom) (fair peak : Int) :
  (p.settle A W sdom d fair peak).weightLeft = A.u32 (p.weightLeft-sdom.load) := by
  rw [Acct.settle]
  split <;> rfl

theorem loads_nonneg (u : State) (l : List Nat) : 0 ≤ loads u l := sum_nonneg fun e => load_nonneg (u.dom e)

theorem loads_congr {u v : State} (h : ∀ e ∈ rest, u.dom e = v.dom e) : loads u rest = loads v rest :=
  congrArg List.sum (map_congr_left fun e he => congrArg Dom.load (h e he))

theorem loads_le (hs : rest <:+ p.prv.activeSdom) : loads p.prv rest ≤ total p.prv := by
  obtain ⟨pre,hp⟩ := hs
  have ho : 0 ≤ (pre.map fun e => (p.prv.dom e).load).sum := loads_nonneg p.prv pre
  rw [total,← hp,map_append,sum_append,loads]
  omega

structure Turn (A : Arith) (s : State) (W balance : Int) (d : Nat) (rest : List Nat) (p q : Acct) : Prop where
  track : OnTrack A s rest q
  within : Within d (p.settle A W (p.prv.dom d) d (creditFair A W (p.prv.dom d) p.creditTotal)
    (creditPeak A balance W (p.prv.dom d))) q
  dom : ∀ e, e ≠ d → q.prv.dom e = p.prv.dom e
  vcpu : ∀ e, e ≠ d → q.prv.vcpu e = p.prv.vcpu e
  earned : ∀ v ∈ (p.prv.dom d).activeVcpu, (q.prv.vcpu d v).credit = bounded (A.i32 ((p.prv.vcpu d v).credit +
    perVcpu A (p.prv.dom d) (if creditFair A W (p.prv.dom d) p.creditTotal <
      creditPeak A balance W (p.prv.dom d) then creditFair A W (p.prv.dom d) p.creditTotal
      else creditPeak A balance W (p.prv.dom d))))
  kept : ∀ v, v ∉ (p.prv.dom d).activeVcpu → q.prv.vcpu d v = p.prv.vcpu d v

-- what is unchanged when the share of a domain is settled, before its vcpus are visited
structure Settled (A : Arith) (d : Nat) (rest : List Nat) (p q : Acct) : Prop where
  books : Books A q.prv
  dom : q.prv.dom = p.prv.dom
  vcpu : q.prv.vcpu = p.prv.vcpu
  total : total q.prv = total p.prv
  suffix : rest <:+ q.prv.activeSdom
  weightLeft : q.weightLeft = A.u32 (p.weightLeft-(p.prv.dom d).load)

section
variable {r : Acct} {fair : Int}

theorem OnTrack.not_mem (h : OnTrack A s (d :: rest) p) : d ∉ rest :=
  (nodup_cons.mp (h.books.sdoms.sublist h.suffix.sublist)).1

theorem OnTrack.loads_cons_le (h : OnTrack A s (d :: rest) p) :
  loads p.prv (d :: rest) = (p.prv.dom d).load+loads p.prv rest ∧ loads p.prv (d :: rest) ≤ CreditScheduler.total s :=
  ⟨sum_cons,(loads_le h.suffix).trans h.total⟩

theorem OnTrack.settled (h : OnTrack A s (d :: rest) p) (fair peak : Int) :
  Settled A d rest p (p.settle A W (p.prv.dom d) d fair peak) := by
  have hd : d ∈ p.prv.activeSdom := h.suffix.subset mem_cons_self
  have hr : rest <:+ p.prv.activeSdom := (suffix_cons d rest).trans h.suffix
  have hw := settle_weightLeft (p := p) (A := A) (W := W) (d := d) (p.prv.dom d) fair peak
  have hs := settle_prv (p := p) (A := A) (W := W) (d := d) (p.prv.dom d) fair peak
  generalize p.settle A W (p.prv.dom d) d fair peak = q at hs hw
  obtain ⟨t,_⟩ := q
  rcases hs with rfl | rfl
  · exact ⟨h.books,rfl,rfl,rfl,hr,hw⟩
  · have hm : rest <:+ d :: p.prv.activeSdom.erase d := (suffix_erase hr h.not_mem).trans (suffix_cons ..)
    exact ⟨h.books.moveToFront hd,rfl,rfl,moveToFront_total hd,hm,hw⟩

theorem OnTrack.walked (h : OnTrack A s (d :: rest) p) (hr : Settled A d rest p r) (hw : Walked A d fair r [] q) :
  OnTrack A s rest q where
  books := hw.books
  suffix := hw.within.sdoms rest h.not_mem hr.suffix
  active e := by
    by_cases he : e = d
    · subst he
      exact List.Subset.trans (hr.dom ▸ hw.within.active) (h.active e)
    · rw [hw.within.dom e he,hr.dom]
      exact h.active e
  total := (hw.within.total.trans hr.total.le).trans h.total
  left hf := by
    have hs : loads q.prv rest = loads p.prv rest := by
      refine loads_congr fun e he => ?_
      rw [hw.within.dom e (fun hd => h.not_mem (hd ▸ he)),hr.dom]
    obtain ⟨hm,hle⟩ := h.loads_cons_le
    have hn := loads_nonneg p.prv rest
    have hl := load_nonneg (p.prv.dom d)
    rw [hw.within.weightLeft,hr.weightLeft,h.left hf,hs,hf _ (by omega) (by omega)]
    omega

end

theorem visitSdom_spec (hA : Lawful A) (h : OnTrack A s (d :: rest) p) :
  (∃ q, visitSdom A W balance d p = some q ∧ Turn A s W balance d rest p q) ∨
    (¬Fits A (total s) ∧ visitSdom A W balance d p = none) := by
  have hy : (p.prv.dom d).activeVcpuCount ≠ 0 := by
    rw [h.books.count]
    exact fun h0 => (h.books.active d).mp (h.suffix.subset mem_cons_self) (length_eq_zero_iff.mp h0)
  rw [visitSdom]
  dsimp only
  rw [if_neg hy,if_neg (h.books.weights d).ne']
  split
  · rename_i hu
    refine .inr ⟨fun hf => ?_,rfl⟩
    obtain ⟨hm,hle⟩ := h.loads_cons_le
    have hn := loads_nonneg p.prv rest
    rw [hf _ (load_nonneg _) (by omega),h.left hf] at hu
    omega
  generalize hi : creditFair A W (p.prv.dom d) p.creditTotal = fair
  generalize hp : creditPeak A balance W (p.prv.dom d) = peak
  have hs : Settled A d rest p (p.settle A W (p.prv.dom d) d fair peak) := h.settled fair peak
  generalize hp1 : p.settle A W (p.prv.dom d) d fair peak = p1 at hs
  have hx := walk_spec d (perVcpu A (p.prv.dom d) (if fair < peak then fair else peak)) hA hs.books
  rw [hs.dom] at hx
  rcases hx with ⟨q,hq,hw⟩ | ⟨hb,hq⟩
  · refine .inl ⟨q,hq,h.walked hs hw,?_,fun e he => ?_,fun e he => ?_,fun v hv => ?_,fun v hv => ?_⟩
    · rw [hi,hp,hp1]
      exact hw.within
    · rw [hw.within.dom e he,hs.dom]
    · rw [hw.within.vcpu e he,hs.vcpu]
    · rw [hi,hp,← hs.vcpu]
      exact hw.earned v (hs.dom ▸ hv) not_mem_nil
    · rw [hw.kept v (.inr (hs.dom ▸ hv)),hs.vcpu]
  · exact .inr ⟨fun hf => hb (hf.mono (hs.total.le.trans h.total)),hq⟩

theorem acct_start_track (h : Books A s) : OnTrack A s s.activeSdom ⟨s,s.weight,startTotal A s,0,false,0⟩ where
  books := h
  suffix := suffix_refl _
  active _ := List.Subset.refl _
  total := le_refl _
  left hf := by
    have hp : 0 ≤ CreditScheduler.total s := sum_nonneg fun e => load_nonneg (s.dom e)
    exact h.total.trans (hf _ hp le_rfl)

theorem acct_spec (hA : Lawful A) (h : Books A s) :
  (∃ s', acct A s = some s' ∧ Books A s' ∧ ∀ d, (s'.dom d).activeVcpu ⊆ (s.dom d).activeVcpu) ∨
    (¬Fits A (total s) ∧ acct A s = none) := by
  rw [acct]
  split
  · exact .inl ⟨_,rfl,⟨h.count,h.nodup,h.short,h.sdoms,h.active,h.weights,h.total⟩,fun _ => List.Subset.refl _⟩
  have ht : ∀ d rest p, OnTrack A s (d :: rest) p →
      (∃ q, visitSdom A s.weight s.creditBalance d p = some q ∧ OnTrack A s rest q) ∨
        (¬Fits A (total s) ∧ visitSdom A s.weight s.creditBalance d p = none) := by
    intro d rest p hp
    rcases visitSdom_spec hA hp with ⟨q,hq,ht⟩ | ha
    · exact .inl ⟨q,hq,ht.track⟩
    · exact .inr ha
  rcases forEachSafe_rule (fun _ _ hq => ⟨hq.books.sdoms,hq.suffix⟩) ht le_rfl
    (acct_start_track h) with ⟨p,hp,he⟩ | ⟨ha,hp⟩
  · rw [hp]
    have hb := he.books
    exact .inl ⟨_,rfl,⟨hb.count,hb.nodup,hb.short,hb.sdoms,hb.active,hb.weights,hb.total⟩,he.active⟩
  · rw [hp]
    exact .inr ⟨ha,rfl⟩

end

section
open Transition
variable {a : Action}

structure Bookkeeping (s : State) : Prop where
  books : Books machine s
  below : ∀ d, ∀ v ∈ (s.dom d).activeVcpu, v < maxVirtCpus

theorem length_le_of_below {l : List Nat} (hl : l.Nodup) (h : ∀ v ∈ l, v < maxVirtCpus) : l.length ≤ maxVirtCpus := by
  have hs : l ⊆ List.range maxVirtCpus := fun v hv => mem_range.mpr (h v hv)
  have he := (hl.subperm hs).length_le
  rwa [length_range] at he

theorem start_bookkeeping (h : Bookkeeping s) {d v : Nat} (hv : v < maxVirtCpus) :
  Bookkeeping (s.acctStart machine d v) := by
  refine ⟨start_books machine_lawful h.books fun _ => ?_,fun e w hw => ?_⟩
  · have hl := length_le_of_below (h.books.nodup d) (h.below d)
    rw [maxVirtCpus] at hl
    omega
  rw [State.acctStart] at hw
  split at hw
  · exact h.below e w hw
  change w ∈ ((s.setDom d _).dom e).activeVcpu at hw
  by_cases he : e = d
  · rw [he,setDom_self] at hw
    rcases mem_cons.mp hw with rfl | hw
    · exact hv
    · exact h.below d w hw
  · rw [setDom_of_ne _ he] at hw
    exact h.below e w hw

theorem stop_bookkeeping (h : Bookkeeping s) {d v : Nat} (hv : v ∈ (s.dom d).activeVcpu) :
  (∃ s', s.acctStopLocked machine d v = some s' ∧ Bookkeeping s') ∨
    (¬Fits machine (total s) ∧ s.acctStopLocked machine d v = none) := by
  rcases stop_spec h.books hv with hs | hb
  · refine .inl ⟨_,hs,stop_books machine_lawful h.books hv,fun e w hw => ?_⟩
    change w ∈ ((s.setDom d _).dom e).activeVcpu at hw
    by_cases he : e = d
    · rw [he,setDom_self] at hw
      exact h.below d w (erase_subset hw)
    · rw [setDom_of_ne _ he] at hw
      exact h.below e w hw
  · exact .inr hb

theorem cntl_active (A : Arith) (d weight cap e : Nat) :
  ((s.domCntl A d weight cap).dom e).activeVcpu = (s.dom e).activeVcpu := by
  have hs : ∀ (u : State) (x : Dom), x.activeVcpu = (u.dom d).activeVcpu →
      ((u.setDom d x).dom e).activeVcpu = (u.dom e).activeVcpu := by
    intro u x hx
    by_cases he : e = d
    · rw [he,setDom_self,hx]
    · rw [setDom_of_ne x he]
  have hw : ((s.changeWeight A d weight).dom e).activeVcpu = (s.dom e).activeVcpu := by
    rw [State.changeWeight]
    split
    · rfl
    · exact hs s _ rfl
  rw [State.domCntl,State.changeCap]
  generalize s.changeWeight A d weight = u at hw
  split
  · exact hw
  · have hc := hs u {u.dom d with cap := cap} rfl
    exact hc.trans hw

theorem step_bookkeeping (h : Bookkeeping s) (ha : Permitted s a) :
  (∃ s', step machine s a = some s' ∧ Bookkeeping s') ∨ (¬Fits machine (total s) ∧ step machine s a = none) := by
  cases a with
  | start d v => exact .inl ⟨_,rfl,start_bookkeeping h ha⟩
  | stop d v => exact stop_bookkeeping h ha
  | remove d v =>
    rw [step,State.vcpuRemove]
    split_ifs with hv
    · exact stop_bookkeeping h hv
    · exact .inl ⟨_,rfl,h⟩
  | cntl d weight cap =>
    refine .inl ⟨_,rfl,cntl_books machine_lawful h.books weight cap,fun e v hv => ?_⟩
    exact h.below e v ((cntl_active machine d weight cap e) ▸ hv)
  | acct =>
    rcases acct_spec machine_lawful h.books with ⟨s',hs,ho,hu⟩ | hc
    · exact .inl ⟨s',hs,ho,fun d v hv => h.below d v (hu d hv)⟩
    · exact .inr hc
  | burn d v svc => exact .inl ⟨_,rfl,h.books.setVcpu svc,h.below⟩
  | setCredit credit =>
    have hb := h.books
    exact .inl ⟨_,rfl,⟨hb.count,hb.nodup,hb.short,hb.sdoms,hb.active,hb.weights,hb.total⟩,h.below⟩

theorem initial_bookkeeping : Bookkeeping initial := by
  refine ⟨⟨fun _ => rfl,fun _ => nodup_nil,fun _ => ?_,nodup_nil,fun _ => ?_,fun _ => ?_,rfl⟩,
    fun _ _ hv => absurd hv not_mem_nil⟩
  · exact Nat.two_pow_pos 16
  · exact iff_of_false not_mem_nil fun h => h rfl
  · exact Nat.zero_lt_succ 255

theorem reach_bookkeeping (hr : Reach (step machine) Permitted initial s) : Bookkeeping s := by
  refine reach_invariant initial_bookkeeping (fun u a v _ hu ha ht => ?_) hr
  rcases step_bookkeeping hu ha with ⟨s',hs,hb⟩ | ⟨-,hs⟩
  · exact Option.some.inj (hs.symm.trans ht) ▸ hb
  · exact nomatch hs.symm.trans ht

theorem credit_bookkeeping (s : State) (hr : Reach (step machine) Permitted initial s) :
  (∀ d, (s.dom d).activeVcpuCount = (s.dom d).activeVcpu.length) ∧ (∀ d, d ∈ s.activeSdom ↔ (s.dom d).activeVcpu ≠ []) ∧
    (total s < 2^32 → s.weight = total s ∧ ∀ a, Permitted s a → step machine s a ≠ none) := by
  have h := reach_bookkeeping hr
  refine ⟨h.books.count,h.books.active,fun hl => ⟨?_,fun a ha hn => ?_⟩⟩
  · have hp : 0 ≤ total s := sum_nonneg fun e => load_nonneg (s.dom e)
    exact h.books.total.trans (machine_fits hl _ hp le_rfl)
  rcases step_bookkeeping h ha with ⟨s',hs,-⟩ | ⟨hb,-⟩
  · exact nomatch hn.symm.trans hs
  · exact hb (machine_fits hl)

def sampleRun : List Action := [.setCredit 600,.start 1 0,.start 1 3,.start 2 0,.cntl 2 100 40,.acct,.remove 1 0]

instance (s : State) (a : Action) : Decidable (Permitted s a) :=
  match a with
  | .start _ v => inferInstanceAs (Decidable (v < maxVirtCpus))
  | .stop d v => inferInstanceAs (Decidable (v ∈ (s.dom d).activeVcpu))
  | .cntl _ weight cap => inferInstanceAs (Decidable (weight < 2^16 ∧ cap < 2^16))
  | .remove .. | .acct | .burn .. | .setCredit _ => inferInstanceAs (Decidable True)

def permits (s : State) (a : Action) : Bool := decide (Permitted s a)

def sampleState : State := (runIf (step machine) permits initial sampleRun).get (by decide +kernel)

theorem sample_books_balance :
  sampleState.activeSdom = [2,1] ∧ sampleState.weight = total sampleState ∧ total sampleState = 356 ∧
    step machine sampleState .acct ≠ none := by
  have hr : Reach (step machine) Permitted initial sampleState :=
    reach_get (fun _ _ h => of_decide_eq_true h) _
  have ht : total sampleState = 356 := by decide +kernel
  obtain ⟨-,-,hf⟩ := credit_bookkeeping sampleState hr
  obtain ⟨hw,hs⟩ := hf (by rw [ht]; decide)
  exact ⟨by decide +kernel,hw,ht,hs .acct trivial⟩

section
variable {d : Nat}

theorem start_total (h : Bookkeeping s) {v : Nat} (hv : v ∉ (s.dom d).activeVcpu) :
  total (s.acctStart machine d v) = total s+(s.dom d).weight := by
  have ha := length_le_of_below (h.books.nodup d) (h.below d)
  rw [maxVirtCpus] at ha
  have hl : (if d ∈ s.activeSdom then s.activeSdom else d :: s.activeSdom).Nodup := by
    split
    · exact h.books.sdoms
    · rename_i hd
      exact nodup_cons.mpr ⟨hd,h.books.sdoms⟩
  rw [start_eq hv h.books (by omega),total_rewrite h.books hl (fun e he => ?_) fun hd => ?_]
  · change total s+(((s.dom d).weight : Int)*(((s.dom d).activeVcpuCount+1 : Nat) : Int)-(s.dom d).load) = _
    rw [Dom.load]
    push_cast
    ring
  · split
    · rfl
    · simp [he]
  · split_ifs at hd with hm
    · exact absurd hm hd
    · exact absurd mem_cons_self hd

theorem start_many (hr : Reach (step machine) Permitted initial s) (hi : (s.dom d).activeVcpu = [])
  (k : Nat) (hk : k ≤ maxVirtCpus) :
  ∃ s', Reach (step machine) Permitted initial s' ∧ (s'.dom d).weight = (s.dom d).weight ∧
    (s'.dom d).activeVcpu.length = k ∧ (∀ v ∈ (s'.dom d).activeVcpu, v < k) ∧
    (∀ e, e ≠ d → s'.dom e = s.dom e) ∧ total s' = total s+k*(s.dom d).weight := by
  induction k with
  | zero =>
    refine ⟨s,hr,rfl,by rw [hi]; rfl,fun v hv => ?_,fun _ _ => rfl,by simp⟩
    rw [hi] at hv
    exact absurd hv not_mem_nil
  | succ k ih =>
    obtain ⟨u,hu,hw,hl,hb,ho,ht⟩ := ih (Nat.le_of_succ_le hk)
    have hv : k ∉ (u.dom d).activeVcpu := fun h => absurd (hb k h) (Nat.lt_irrefl k)
    have hd : (u.acctStart machine d k).dom = (u.setDom d {u.dom d with
          activeVcpuCount := ((u.dom d).activeVcpuCount+1)%2^16
          activeVcpu := k :: (u.dom d).activeVcpu}).dom := by
      rw [State.acctStart,if_neg hv]
    refine ⟨u.acctStart machine d k,.tail hu ⟨.start d k,hk,rfl⟩,?_,?_,?_,?_,?_⟩
    · rw [hd,setDom_self]
      exact hw
    · rw [hd,setDom_self,← hl]
      rfl
    · rw [hd,setDom_self]
      intro v hv
      rcases mem_cons.mp hv with rfl | hv
      · exact Nat.lt_succ_self v
      · exact Nat.lt_succ_of_lt (hb v hv)
    · intro e he
      rw [hd,setDom_of_ne _ he]
      exact ho e he
    · rw [start_total (reach_bookkeeping hu) hv,ht,hw]
      push_cast
      ring

theorem load_many (n : Nat) : ∃ s, Reach (step machine) Permitted initial s ∧
    (∀ d, d < n → (s.dom d).weight = 65535 ∧ (s.dom d).activeVcpu.length = 8192) ∧
    (∀ d, n ≤ d → (s.dom d).activeVcpu = []) ∧ total s = n*536862720 := by
  induction n with
  | zero => exact ⟨initial,.refl,fun d hd => absurd hd (Nat.not_lt_zero d),fun _ _ => rfl,rfl⟩
  | succ n ih =>
    obtain ⟨u,hu,hg,hi,ht⟩ := ih
    have hc : Reach (step machine) Permitted initial (u.domCntl machine n 65535 65535) :=
      .tail hu ⟨.cntl n 65535 65535,⟨by decide,by decide⟩,rfl⟩
    have hm : (u.domCntl machine n 65535 65535).dom = (u.setDom n {u.dom n with weight := 65535}).dom := rfl
    have hk : (u.domCntl machine n 65535 65535).activeSdom = u.activeSdom := rfl
    have hn : (u.dom n).activeVcpu = [] := hi n le_rfl
    have ha : total (u.domCntl machine n 65535 65535) = total u := by
      rw [total,total,hk,hm]
      refine congrArg List.sum (map_congr_left fun e he => congrArg Dom.load (setDom_of_ne _ ?_))
      rintro rfl
      exact ((reach_bookkeeping hu).books.active e).mp he hn
    have hid' : ((u.domCntl machine n 65535 65535).dom n).activeVcpu = [] := by
      rw [hm,setDom_self]
      exact hn
    have hb : ((u.domCntl machine n 65535 65535).dom n).weight = 65535 := by rw [hm,setDom_self]
    obtain ⟨s,hs,hw,hl,-,ho,hp⟩ := start_many hc hid' 8192 le_rfl
    have hold : ∀ e, e ≠ n → s.dom e = u.dom e := by
      intro e he
      rw [ho e he,hm,setDom_of_ne _ he]
    refine ⟨s,hs,fun d hd => ?_,fun d hd => ?_,?_⟩
    · by_cases hf : d = n
      · rw [hf]
        exact ⟨hw.trans hb,hl⟩
      · rw [hold d hf]
        exact hg d (by omega)
    · rw [hold d (by omega)]
      exact hi d (by omega)
    · rw [hp,ha,ht,hb]
      push_cast
      ring

theorem total_weight_overflows :
  ∃ s, Reach (step machine) Permitted initial s ∧ s.weight ≠ total s ∧ step machine s .acct = none := by
  obtain ⟨s,hs,hb,hi,ht⟩ := load_many 9
  have h := reach_bookkeeping hs
  have hw : s.weight = 536797184 := by
    rw [h.books.total,ht]
    rfl
  refine ⟨s,hs,?_,?_⟩
  · rw [hw,ht]
    decide
  obtain ⟨d,rest,hl⟩ : ∃ d rest, s.activeSdom = d :: rest := by
    refine exists_cons_of_ne_nil fun hn => ?_
    have hm : 0 ∈ s.activeSdom := by
      refine (h.books.active 0).mpr fun h0 => ?_
      have he := (hb 0 (by decide)).2
      rw [h0] at he
      cases he
    rw [hn] at hm
    exact absurd hm not_mem_nil
  have hd : d < 9 := by
    by_contra hg
    have hm : d ∈ s.activeSdom := hl ▸ mem_cons_self
    exact (h.books.active d).mp hm (hi d (by omega))
  have ho : (s.dom d).load = 536862720 := by
    rw [Dom.load,h.books.count,(hb d hd).1,(hb d hd).2]
    rfl
  have hc : (s.dom d).activeVcpuCount ≠ 0 := by
    rw [h.books.count,(hb d hd).2]
    decide
  have hp : (s.dom d).weight ≠ 0 := by
    rw [(hb d hd).1]
    decide
  have hv : visitSdom machine s.weight s.creditBalance d ⟨s,s.weight,startTotal machine s,0,false,0⟩ = none := by
    rw [visitSdom]
    rw [if_neg hc,if_neg hp,ho,hw]
    rfl
  rw [step,acct,if_neg (by rw [hw]; decide),hl,List.head?_cons,length_cons,forEachSafe,hv]
  rfl

end

end

end CreditScheduler
