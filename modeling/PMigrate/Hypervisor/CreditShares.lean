import PMigrate.Hypervisor.CreditBookkeeping

namespace CreditScheduler

open SafeIteration List

section
variable {a b : Int}

theorem le_mul_ceil (hb : 0 < b) : a ≤ b*((a+(b-1))/b) := by
  have hd := Int.mul_ediv_add_emod (a+(b-1)) b
  have hm := Int.emod_lt_of_pos (a+(b-1)) hb
  omega

theorem mul_ceil_le (hb : 0 < b) : b*((a+(b-1))/b) ≤ a+(b-1) := by
  have hd := Int.mul_ediv_add_emod (a+(b-1)) b
  have hm := Int.emod_nonneg (a+(b-1)) hb.ne'
  omega

end

-- from s to s' every active vcpu of a domain d of pre is given gain d credits, before its credit is bounded
def Credited (s : State) (pre : List Nat) (gain : Nat → Int) (s' : State) : Prop :=
  ∀ d v, (s'.vcpu d v).credit =
    if d ∈ pre ∧ v ∈ (s.dom d).activeVcpu then bounded ((s.vcpu d v).credit+gain d) else (s.vcpu d v).credit

def received (s : State) (gain : Nat → Int) (d : Nat) : Int := (s.dom d).activeVcpuCount*gain d

def handedOut (s : State) (gain : Nat → Int) : Int := (s.activeSdom.map (received s gain)).sum

def activeVcpus (s : State) : Int := (s.activeSdom.map fun d => ((s.dom d).activeVcpuCount : Int)).sum

variable {p q : Acct} {s : State} {d : Nat}

section
variable {W balance : Int}

def grant (W balance total : Int) (x : Dom) : Int :=
  if creditFair exact W x total < creditPeak exact balance W x then creditFair exact W x total
  else creditPeak exact balance W x

theorem fair_eq (x : Dom) (total : Int) : creditFair exact W x total = (total*x.load+(W-1))/W := by
  rw [creditFair,Dom.load,← mul_assoc]
  rfl

theorem settle_creditTotal (A : Arith) (x : Dom) (fair peak : Int) : (p.settle A W x d fair peak).creditTotal =
    if fair < peak then p.creditTotal else redistribute A W p.creditTotal (A.u32 (p.weightLeft-x.load)) fair peak := by
  rw [Acct.settle]
  split <;> rfl

variable {left fair peak total : Int}

theorem redistribute_le (total : Int) (hl : 0 ≤ left) (hg : 0 ≤ (fair-peak)*W) :
  left*redistribute exact W total left fair peak ≤ left*total+((fair-peak)*W+left) := by
  rw [redistribute]
  split
  · have hc : left*(((fair-peak)*W+(left-1))/left) ≤ (fair-peak)*W+(left-1) :=
      mul_ceil_le (by omega)
    change left*(total+((fair-peak)*W+(left-1))/left) ≤ _
    rw [mul_add]
    omega
  · omega

theorem le_redistribute (hl : 0 ≤ left) (hg : 0 ≤ (fair-peak)*W) :
  total ≤ redistribute exact W total left fair peak := by
  rw [redistribute]
  split
  · have hd : 0 ≤ ((fair-peak)*W+(left-1))/left := Int.ediv_nonneg (by omega) hl
    change total ≤ total+((fair-peak)*W+(left-1))/left
    omega
  · exact le_rfl

def nextTotal (W balance total left : Int) (x : Dom) : Int :=
  if creditFair exact W x total < creditPeak exact balance W x then total
  else redistribute exact W total left (creditFair exact W x total) (creditPeak exact balance W x)

theorem excess_nonneg (hW : 0 < W) (h : ¬fair < peak) : 0 ≤ (fair-peak)*W := mul_nonneg (by omega) hW.le

theorem le_nextTotal {x : Dom} (hW : 0 < W) (hl : 0 ≤ left) : total ≤ nextTotal W balance total left x := by
  rw [nextTotal]
  split
  · exact le_rfl
  · rename_i h
    exact le_redistribute hl (excess_nonneg hW h)

theorem turn_spends (balance total : Int) (x : Dom) (hW : 0 < W) (hl : 0 ≤ left) (he : left ≤ W) :
  W*grant W balance total x+left*nextTotal W balance total left x ≤ total*(x.load+left)+2*W := by
  have hf : W*creditFair exact W x total ≤ total*x.load+(W-1) := by
    rw [fair_eq]
    exact mul_ceil_le hW
  rw [grant,nextTotal]
  split
  · linarith
  rename_i h
  have hn := redistribute_le total hl (excess_nonneg hW h)
  linarith

theorem grant_fair (balance : Int) (x : Dom) {T : Int} (hW : 0 < W) (hT : T ≤ total) :
  creditPeak exact balance W x ≤ grant W balance total x ∨ T*x.load ≤ grant W balance total x*W := by
  have hf : total*x.load ≤ W*creditFair exact W x total := by
    rw [fair_eq]
    exact le_mul_ceil hW
  have hm : T*x.load ≤ total*x.load := mul_le_mul_of_nonneg_right hT (load_nonneg x)
  rw [grant]
  split
  · exact .inr (by linarith)
  · exact .inl le_rfl

end

section
variable {pre rest : List Nat} {gain : Nat → Int}

structure Spread (s : State) (pre rest : List Nat) (gain : Nat → Int) (p : Acct) : Prop where
  track : OnTrack exact s rest p
  split : s.activeSdom = pre ++ rest
  fresh : ∀ d ∈ rest, p.prv.dom d = s.dom d
  credited : Credited s pre gain p.prv
  grown : startTotal exact s ≤ p.creditTotal
  fair : ∀ d ∈ pre, creditPeak exact s.creditBalance s.weight (s.dom d) ≤ received s gain d ∨
    startTotal exact s*(s.dom d).load ≤ received s gain d*s.weight
  spent : s.weight*(pre.map (received s gain)).sum+p.creditTotal*p.weightLeft ≤
    s.weight*(startTotal exact s+(pre.map fun d => ((s.dom d).activeVcpuCount : Int)+1).sum)

theorem left_eq (h : OnTrack exact s rest p) : p.weightLeft = loads p.prv rest := h.left (exact_fits _)

theorem weight_eq (h : Books exact s) : s.weight = total s := h.total

theorem Credited.turn (h : Credited s pre gain p.prv) (hz : d ∉ pre) (hp : p.prv.dom d = s.dom d)
  (ht : Turn exact s s.weight s.creditBalance d rest p q) {g : Int}
  (hg : perVcpu exact (s.dom d) (grant s.weight s.creditBalance p.creditTotal (s.dom d)) = g) :
  Credited s (pre ++ [d]) (Function.update gain d g) q.prv := by
  intro e v
  by_cases he : e = d
  · subst he
    have hc : (p.prv.vcpu e v).credit = (s.vcpu e v).credit := (h e v).trans (if_neg fun hm => hz hm.1)
    rw [Function.update_self,← hc,← hg]
    split
    · rename_i hm
      have hi := ht.earned v (hp ▸ hm.2)
      rwa [hp] at hi
    · rename_i hm
      rw [ht.kept v fun hv => hm ⟨mem_append_right _ mem_cons_self,hp ▸ hv⟩]
  · rw [ht.vcpu e he,h e v,Function.update_of_ne he]
    simp only [mem_append,mem_singleton,he,or_false]

theorem received_update_of_ne {e : Nat} {g : Int} (h : e ≠ d) :
  received s (Function.update gain d g) e = received s gain e := by
  rw [received,received,Function.update_of_ne h]

-- each vcpu gets its part rounded up, so a domain receives what it is granted and less than one credit a vcpu more
theorem received_update_self {g : Int} (hn : 0 < (s.dom d).activeVcpuCount) :
  g ≤ received s (Function.update gain d (perVcpu exact (s.dom d) g)) d ∧
    received s (Function.update gain d (perVcpu exact (s.dom d) g)) d ≤ g+((s.dom d).activeVcpuCount-1) := by
  rw [received,Function.update_self]
  exact ⟨le_mul_ceil (by omega),mul_ceil_le (by omega)⟩

theorem weightLeft_bounds (hb : Books exact s) (h : OnTrack exact s rest p) :
  0 ≤ p.weightLeft ∧ p.weightLeft ≤ s.weight := by
  rw [left_eq h,weight_eq hb]
  exact ⟨loads_nonneg _ _,(loads_le h.suffix).trans h.total⟩

theorem Spread.apart (hb : Books exact s) (h : Spread s pre (d :: rest) gain p) : d ∉ pre ∧ d ∉ rest := by
  have hv : (pre ++ d :: rest).Nodup := h.split ▸ hb.sdoms
  obtain ⟨-,hr,hd⟩ := nodup_append.mp hv
  exact ⟨fun hm => hd d hm d mem_cons_self rfl,(nodup_cons.mp hr).1⟩

theorem Spread.count_pos (hb : Books exact s) (h : Spread s pre (d :: rest) gain p) :
  0 < (s.dom d).activeVcpuCount := by
  have hm : d ∈ s.activeSdom := h.split ▸ mem_append_right _ mem_cons_self
  rw [hb.count]
  exact length_pos_of_ne_nil ((hb.active d).mp hm)

theorem Spread.weightLeft_eq (hb : Books exact s) (h : Spread s pre (d :: rest) gain p)
  (ht : Turn exact s s.weight s.creditBalance d rest p q) : p.weightLeft = (s.dom d).load+q.weightLeft := by
  have ha : loads p.prv rest = loads q.prv rest :=
    loads_congr fun e he => (ht.dom e fun hc => (h.apart hb).2 (hc ▸ he)).symm
  rw [left_eq h.track,left_eq ht.track,← ha,← h.fresh d mem_cons_self]
  exact sum_cons

theorem Spread.creditTotal_eq (hb : Books exact s) (h : Spread s pre (d :: rest) gain p)
  (ht : Turn exact s s.weight s.creditBalance d rest p q) :
  q.creditTotal = nextTotal s.weight s.creditBalance p.creditTotal q.weightLeft (s.dom d) := by
  have he : exact.u32 (p.weightLeft-(s.dom d).load) = q.weightLeft := sub_eq_of_eq_add' (h.weightLeft_eq hb ht)
  rw [ht.within.creditTotal,settle_creditTotal,h.fresh d mem_cons_self,nextTotal,he]

theorem Spread.turn (hW : 0 < s.weight) (hb : Books exact s) (h : Spread s pre (d :: rest) gain p)
  (ht : Turn exact s s.weight s.creditBalance d rest p q) : ∃ gain', Spread s (pre ++ [d]) rest gain' q := by
  obtain ⟨hz,hr⟩ := h.apart hb
  obtain ⟨hl,hle⟩ := weightLeft_bounds hb ht.track
  have hw := h.creditTotal_eq hb ht
  have hc := h.credited.turn hz (h.fresh d mem_cons_self) ht rfl
  have hy := grant_fair s.creditBalance (s.dom d) hW h.grown
  have hsp := turn_spends s.creditBalance p.creditTotal (s.dom d) hW hl hle
  rw [← hw] at hsp
  generalize grant s.weight s.creditBalance p.creditTotal (s.dom d) = g at hc hy hsp
  obtain ⟨hx,hh⟩ := @received_update_self s d gain g (h.count_pos hb)
  have ho : ∀ e ∈ pre, received s (Function.update gain d (perVcpu exact (s.dom d) g)) e = received s gain e :=
    fun e he => received_update_of_ne fun hd => hz (hd ▸ he)
  generalize Function.update gain d (perVcpu exact (s.dom d) g) = gain' at hc hx hh ho
  refine ⟨gain',ht.track,?_,fun e he => ?_,hc,?_,fun e he => ?_,?_⟩
  · rw [h.split,append_assoc]
    rfl
  · rw [ht.dom e fun hd => hr (hd ▸ he)]
    exact h.fresh e (mem_cons_of_mem _ he)
  · rw [hw]
    exact h.grown.trans (le_nextTotal hW hl)
  · rcases mem_append.mp he with he | he
    · rw [ho e he]
      exact h.fair e he
    rw [mem_singleton.mp he]
    exact hy.imp hx.trans' fun hs => hs.trans (mul_le_mul_of_nonneg_right hx hW.le)
  · have hu : pre.map (received s gain') = pre.map (received s gain) := map_congr_left ho
    have hold := h.spent
    rw [h.weightLeft_eq hb ht] at hold
    have hi : s.weight*received s gain' d ≤ s.weight*(g+((s.dom d).activeVcpuCount-1)) :=
      mul_le_mul_of_nonneg_left hh hW.le
    simp only [map_append,map_cons,map_nil,sum_append,sum_cons,sum_nil,add_zero,hu]
    linarith

theorem start_spread (h : Books exact s) :
  Spread s [] s.activeSdom (fun _ => 0) ⟨s,s.weight,startTotal exact s,0,false,0⟩ where
  track := acct_start_track h
  split := rfl
  fresh _ _ := rfl
  credited d v := (if_neg fun hm => not_mem_nil hm.1).symm
  grown := le_refl _
  fair _ hd := absurd hd not_mem_nil
  spent := by
    simp only [map_nil,sum_nil,mul_zero,zero_add,add_zero]
    exact (mul_comm _ _).le

theorem pass_spread (hW : 0 < s.weight) (hb : Books exact s) :
  ∃ p gain, forEachSafe (fun p => p.prv.activeSdom) (visitSdom exact s.weight s.creditBalance)
      s.activeSdom.length s.activeSdom.head? ⟨s,s.weight,startTotal exact s,0,false,0⟩ = some p ∧
    Spread s s.activeSdom [] gain p := by
  have hu : ∀ d rest p, (∃ pre gain, Spread s pre (d :: rest) gain p) →
      (∃ q, visitSdom exact s.weight s.creditBalance d p = some q ∧ ∃ pre gain, Spread s pre rest gain q) ∨
        (False ∧ visitSdom exact s.weight s.creditBalance d p = none) := by
    rintro d rest p ⟨pre,gain,hp⟩
    rcases visitSdom_spec exact_lawful hp.track with ⟨q,hq,ht⟩ | ⟨ha,-⟩
    · exact .inl ⟨q,hq,_,hp.turn hW hb ht⟩
    · exact absurd (exact_fits _) ha
  rcases forEachSafe_rule (P := fun rest p => ∃ pre gain, Spread s pre rest gain p)
    (fun _ _ ⟨_,_,hq⟩ => ⟨hq.track.books.sdoms,hq.track.suffix⟩) hu le_rfl
    ⟨[],_,start_spread hb⟩ with ⟨p,hp,pre,gain,he⟩ | ⟨ha,-⟩
  · have hr : s.activeSdom = pre := he.split.trans (append_nil pre)
    exact ⟨p,gain,hp,hr ▸ he⟩
  · exact ha.elim

theorem idle_of_weight_zero (hb : Books exact s) (hW : s.weight = 0) : s.activeSdom = [] := by
  refine eq_nil_iff_forall_not_mem.mpr fun d hd => ?_
  obtain ⟨v,hv⟩ := exists_mem_of_ne_nil _ ((hb.active d).mp hd)
  have hl := hb.weight_le hv
  have hp := hb.weights d
  rw [← weight_eq hb,hW] at hl
  omega

theorem weight_nonneg (hb : Books exact s) : 0 ≤ s.weight := by
  rw [weight_eq hb]
  exact loads_nonneg s s.activeSdom

theorem sum_count_succ (l : List Nat) : (l.map fun d => ((s.dom d).activeVcpuCount : Int)+1).sum =
    (l.map fun d => ((s.dom d).activeVcpuCount : Int)).sum+l.length := by
  induction l with
  | nil => rfl
  | cons d l ih =>
    rw [map_cons,map_cons,sum_cons,sum_cons,ih,length_cons]
    push_cast
    ring

theorem credit_distribution (s : State) (hb : Books exact s) (hT : 0 ≤ startTotal exact s) :
  ∃ s' gain, acct exact s = some s' ∧ Credited s s.activeSdom gain s' ∧
  handedOut s gain ≤ startTotal exact s+2*s.activeSdom.length+activeVcpus s ∧
    ∀ d ∈ s.activeSdom, min (creditPeak exact s.creditBalance s.weight (s.dom d) : ℚ)
        (startTotal exact s*(s.dom d).weight*(s.dom d).activeVcpuCount/s.weight) ≤ received s gain d := by
  by_cases hW : s.weight = 0
  · have hn := idle_of_weight_zero hb hW
    refine ⟨{s with creditBalance := 0},fun _ => 0,by rw [acct,if_pos hW],fun d v => (if_neg ?_).symm,?_,fun d hd => ?_⟩
    · rw [hn]
      exact fun hm => not_mem_nil hm.1
    · rw [handedOut,activeVcpus,hn]
      simpa using hT
    · rw [hn] at hd
      exact absurd hd not_mem_nil
  have ho : 0 < s.weight := lt_of_le_of_ne (weight_nonneg hb) (Ne.symm hW)
  obtain ⟨p,gain,hp,he⟩ := pass_spread ho hb
  refine ⟨{p.prv with creditBalance := p.creditBalance},gain,by rw [acct,if_neg hW,hp]; rfl,he.credited,?_,
    fun d hd => ?_⟩
  · have hl : p.weightLeft = 0 := left_eq he.track
    have hs := he.spent
    rw [hl,mul_zero,add_zero] at hs
    have hu := le_of_mul_le_mul_left hs ho
    rw [sum_count_succ] at hu
    rw [handedOut,activeVcpus]
    omega
  rcases he.fair d hd with ha | hh
  · exact (min_le_left _ _).trans (Int.cast_le.mpr ha)
  refine (min_le_right _ _).trans ?_
  rw [div_le_iff₀ (Int.cast_pos.mpr ho),mul_assoc]
  exact_mod_cast hh

def twoDomains : State where
  weight := 1280
  credit := 600
  creditBalance := -40
  activeSdom := [1,2]
  dom := fun d => if d = 1 then ⟨512,50,2,[4,5]⟩ else if d = 2 then ⟨256,0,1,[0]⟩ else ⟨256,0,0,[]⟩
  vcpu := fun _ _ => ⟨-20,.over,false,0,0⟩

theorem twoDomains_books : Books exact twoDomains := by
  have ho : ∀ d, Sound (twoDomains.dom d) ∧ (d ∈ twoDomains.activeSdom ↔ (twoDomains.dom d).activeVcpu ≠ []) := by
    intro d
    by_cases h1 : d = 1
    · subst h1
      exact ⟨⟨by decide,by decide,by decide,by decide⟩,by decide⟩
    by_cases h2 : d = 2
    · subst h2
      exact ⟨⟨by decide,by decide,by decide,by decide⟩,by decide⟩
    have hd : twoDomains.dom d = ⟨256,0,0,[]⟩ := by simp only [twoDomains,h1,h2,if_false]
    rw [hd]
    refine ⟨⟨rfl,nodup_nil,by decide,by decide⟩,iff_of_false ?_ fun h => h rfl⟩
    simp [twoDomains,h1,h2]
  exact ⟨fun d => (ho d).1.count,fun d => (ho d).1.nodup,fun d => (ho d).1.short,by decide,
    fun d => (ho d).2,fun d => (ho d).1.weight,rfl⟩

theorem twoDomains_distribution : ∃ s' gain, acct exact twoDomains = some s' ∧
    Credited twoDomains twoDomains.activeSdom gain s' ∧ handedOut twoDomains gain ≤ 647 ∧
    128 ≤ received twoDomains gain 2 := by
  obtain ⟨s',gain,hs,hc,hu,hf⟩ := credit_distribution twoDomains twoDomains_books (by decide)
  have hp : creditPeak exact twoDomains.creditBalance twoDomains.weight (twoDomains.dom 2) = 308 := rfl
  have ht : startTotal exact twoDomains = 640 := rfl
  have hh := hf 2 (by decide)
  rw [hp,ht] at hh
  have hm : (128 : ℚ) ≤ min ((308 : Int) : ℚ) (((640 : Int) : ℚ)*(twoDomains.dom 2).weight *
      (twoDomains.dom 2).activeVcpuCount/twoDomains.weight) := by
    change (128 : ℚ) ≤ min ((308 : Int) : ℚ) (((640 : Int) : ℚ)*((256 : Nat) : ℚ)*((1 : Nat) : ℚ) /
      ((1280 : Int) : ℚ))
    norm_num
  exact ⟨s',gain,hs,hc,hu,by exact_mod_cast hm.trans hh⟩

end

end CreditScheduler
