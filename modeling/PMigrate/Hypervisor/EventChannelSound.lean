import PMigrate.Hypervisor.EventChannel

namespace EventChannel
open BackLinked Function

def nextOf (d : Domain) (p : Nat) : Nat := (d.evtchn p).nextPort

def prevOf (d : Domain) (p : Nat) : Nat := (d.evtchn p).prevPort

section
variable (C : Config) (i : Nat) (d : Domain)

def VirqBound (v n p : Nat) : Prop :=
  portIsValid C i d p ∧ (d.evtchn p).state = .virq ∧ (d.evtchn p).word = n ∧
    v = if virqIsGlobal n then 0 else (d.evtchn p).notifyVcpuId

def PirqBound (n p : Nat) : Prop := portIsValid C i d p ∧ (d.evtchn p).state = .pirq ∧ (d.evtchn p).word = n

def PirqOn (v p : Nat) : Prop :=
  portIsValid C i d p ∧ (d.evtchn p).state = .pirq ∧ (d.evtchn p).notifyVcpuId = v

def Chains (x : Nat) : Prop :=
  ∀ v, ∃ L, Chain (nextOf d) (prevOf d) (d.pirqEvtchnHead v) L ∧ ∀ p, p ∈ L ↔ PirqOn C i d v p ∧ p ≠ x

structure Sound (x : Nat) : Prop where
  virq : ∀ v n p, (d.virqToEvtchn v n = p ∧ p ≠ 0) ↔ VirqBound C i d v n p
  pirq : ∀ n p, (d.pirqToEvtchn n = p ∧ p ≠ 0) ↔ PirqBound C i d n p
  chains : Chains C i d x
  free : ∀ p, portIsValid C i d p → (d.evtchn p).state = .free → (d.evtchn p).notifyVcpuId = 0
  zero : portIsValid C i d 0 → (d.evtchn 0).state = .reserved
  alive : d.created = true → d.isDying = false → 0 < d.nrBuckets
  absent : d.created = false → d.isDying = false ∧ d.nrBuckets = 0
  room : evtchnsPerBucket*d.nrBuckets ≤ maxEvtchns C i

end

structure SameBindings (d d' : Domain) : Prop where
  created : d'.created = d.created
  isDying : d'.isDying = d.isDying
  nrBuckets : d'.nrBuckets = d.nrBuckets
  virqToEvtchn : d'.virqToEvtchn = d.virqToEvtchn
  pirqToEvtchn : d'.pirqToEvtchn = d.pirqToEvtchn
  state : ∀ p, (d'.evtchn p).state = (d.evtchn p).state
  notify : ∀ p, (d'.evtchn p).notifyVcpuId = (d.evtchn p).notifyVcpuId
  word : ∀ p, (d'.evtchn p).word = (d.evtchn p).word
  remoteDom : ∀ p, (d'.evtchn p).remoteDom = (d.evtchn p).remoteDom
  consumer : ∀ p, (d.evtchn p).consumerIsXen = false → (d'.evtchn p).consumerIsXen = false

variable {C : Config} {i x v p : Nat} {d d' : Domain}

theorem SameBindings.refl : SameBindings d d := ⟨rfl,rfl,rfl,rfl,rfl,fun _ => rfl,fun _ => rfl,
  fun _ => rfl,fun _ => rfl,fun _ => id⟩

theorem SameBindings.trans {d'' : Domain} (h : SameBindings d d') (h' : SameBindings d' d'') : SameBindings d d'' where
  created := h'.created.trans h.created
  isDying := h'.isDying.trans h.isDying
  nrBuckets := h'.nrBuckets.trans h.nrBuckets
  virqToEvtchn := h'.virqToEvtchn.trans h.virqToEvtchn
  pirqToEvtchn := h'.pirqToEvtchn.trans h.pirqToEvtchn
  state p := (h'.state p).trans (h.state p)
  notify p := (h'.notify p).trans (h.notify p)
  word p := (h'.word p).trans (h.word p)
  remoteDom p := (h'.remoteDom p).trans (h.remoteDom p)
  consumer p := h'.consumer p ∘ h.consumer p

theorem SameBindings.write {c : Evtchn} (hs : c.state = (d.evtchn p).state)
  (hn : c.notifyVcpuId = (d.evtchn p).notifyVcpuId) (hw : c.word = (d.evtchn p).word)
  (hd : c.remoteDom = (d.evtchn p).remoteDom)
  (hc : (d.evtchn p).consumerIsXen = false → c.consumerIsXen = false) : SameBindings d (d.write p c) := by
  have ha : ∀ q, (q = p ∧ (d.write p c).evtchn q = c) ∨ (d.write p c).evtchn q = d.evtchn q := by
    intro q
    by_cases hq : q = p
    · exact Or.inl ⟨hq,hq ▸ update_self ..⟩
    · exact Or.inr (update_of_ne hq ..)
  refine ⟨rfl,rfl,rfl,rfl,rfl,fun q => ?_,fun q => ?_,fun q => ?_,fun q => ?_,fun q => ?_⟩ <;>
    rcases ha q with ⟨rfl,hq⟩ | hq <;> rw [hq]
  · exact hs
  · exact hn
  · exact hw
  · exact hd
  · exact hc
  · exact id

theorem SameBindings.setHead (f : Nat → Nat) : SameBindings d {d with pirqEvtchnHead := f} :=
  ⟨rfl,rfl,rfl,rfl,rfl,fun _ => rfl,fun _ => rfl,fun _ => rfl,fun _ => rfl,fun _ => id⟩

theorem pointBack_same {h : Nat} : SameBindings d (pointBack d h x) := by
  rw [pointBack]
  split
  · exact .write rfl rfl rfl rfl id
  · exact .refl

theorem linkPirqPort_same : SameBindings d (linkPirqPort d x v) := by
  have hf : SameBindings d (pointAtHead d x v) := .write rfl rfl rfl rfl id
  exact (hf.trans pointBack_same).trans (.setHead _)

theorem unlinkPirqPort_same : SameBindings d (unlinkPirqPort d x v) := by
  have hf : SameBindings d (pointPast d x v) := by
    rw [pointPast]
    split
    · exact .write rfl rfl rfl rfl id
    · exact .setHead _
  exact hf.trans pointBack_same

theorem nextOf_write (c : Evtchn) : nextOf (d.write p c) = update (nextOf d) p c.nextPort := by
  funext q
  simp only [nextOf,Domain.write]
  by_cases hq : q = p
  · rw [hq,update_self,update_self]
  · rw [update_of_ne hq,update_of_ne hq]
    rfl

theorem prevOf_write (c : Evtchn) : prevOf (d.write p c) = update (prevOf d) p c.prevPort := by
  funext q
  simp only [prevOf,Domain.write]
  by_cases hq : q = p
  · rw [hq,update_self,update_self]
  · rw [update_of_ne hq,update_of_ne hq]
    rfl

theorem nextOf_pointBack {h : Nat} : nextOf (pointBack d h x) = nextOf d := by
  rw [pointBack]
  split
  · exact (nextOf_write _).trans (update_eq_self h (nextOf d))
  · rfl

theorem prevOf_pointBack {h : Nat} : prevOf (pointBack d h x) = if h ≠ 0 then update (prevOf d) h x else prevOf d := by
  rw [pointBack]
  split
  · exact prevOf_write _
  · rfl

theorem head_pointBack {h : Nat} : (pointBack d h x).pirqEvtchnHead = d.pirqEvtchnHead := by
  rw [pointBack]
  split <;> rfl

theorem nextOf_link : nextOf (linkPirqPort d x v) = linkNext (nextOf d) (d.pirqEvtchnHead v) x :=
  nextOf_pointBack.trans (nextOf_write _)

theorem prevOf_link : prevOf (linkPirqPort d x v) = linkPrev (prevOf d) (d.pirqEvtchnHead v) x := by
  have hf : prevOf (pointAtHead d x v) = update (prevOf d) x 0 := prevOf_write _
  rw [linkPrev,← hf]
  exact prevOf_pointBack

theorem head_link : (linkPirqPort d x v).pirqEvtchnHead = update d.pirqEvtchnHead v x := by
  simp only [linkPirqPort,head_pointBack]
  rfl

theorem nextOf_unlink : nextOf (unlinkPirqPort d x v) = unlinkNext (nextOf d) (prevOf d) x := by
  refine nextOf_pointBack.trans ?_
  rw [pointPast,unlinkNext]
  by_cases hp : (d.evtchn x).prevPort ≠ 0
  · rw [if_pos hp,if_pos (show prevOf d x ≠ 0 from hp)]
    exact nextOf_write _
  · rw [if_neg hp,if_neg (show ¬prevOf d x ≠ 0 from hp)]
    rfl

theorem prevOf_pointPast : prevOf (pointPast d x v) = prevOf d := by
  rw [pointPast]
  split
  · exact (prevOf_write _).trans (update_eq_self _ (prevOf d))
  · rfl

theorem prevOf_unlink : prevOf (unlinkPirqPort d x v) = unlinkPrev (nextOf d) (prevOf d) x := by
  rw [unlinkPirqPort,prevOf_pointBack,prevOf_pointPast]
  rfl

theorem head_unlink : (unlinkPirqPort d x v).pirqEvtchnHead =
  update d.pirqEvtchnHead v (unlinkHead (nextOf d) (prevOf d) (d.pirqEvtchnHead v) x) := by
  refine head_pointBack.trans ?_
  rw [pointPast,unlinkHead]
  by_cases hp : (d.evtchn x).prevPort ≠ 0
  · rw [if_pos hp,if_pos (show prevOf d x ≠ 0 from hp),update_eq_self]
    rfl
  · rw [if_neg hp,if_neg (show ¬prevOf d x ≠ 0 from hp)]
    rfl

theorem SameBindings.valid (h : SameBindings d d') : portIsValid C i d' p ↔ portIsValid C i d p := by
  rw [portIsValid,portIsValid,h.nrBuckets]

theorem SameBindings.pirqOn (h : SameBindings d d') : PirqOn C i d' v p ↔ PirqOn C i d v p := by
  rw [PirqOn,PirqOn,h.valid,h.state,h.notify]

theorem Chains.float {y : Nat} (hc : Chains C i d x) (hx : ∀ v, ¬PirqOn C i d v x)
  (hy : ∀ v, ¬PirqOn C i d v y) : Chains C i d y := by
  intro v
  obtain ⟨L,hL,hm⟩ := hc v
  refine ⟨L,hL,fun p => (hm p).trans ?_⟩
  exact ⟨fun h => ⟨h.1,fun he => hy v (he ▸ h.1)⟩,fun h => ⟨h.1,fun he => hx v (he ▸ h.1)⟩⟩

theorem Chains.write (hc : Chains C i d x) (c : Evtchn) : Chains C i (d.write x c) x := by
  intro v
  obtain ⟨L,hL,hm⟩ := hc v
  have hx : ∀ y ∈ L, y ≠ x := fun y hy => ((hm y).mp hy).2
  refine ⟨L,?_,fun p => (hm p).trans ?_⟩
  · refine hL.congr (fun y hy => ?_) fun y hy => ?_
    · rw [nextOf_write,update_of_ne (hx y hy)]
    · rw [prevOf_write,update_of_ne (hx y hy)]
  by_cases hp : p = x
  · exact ⟨fun h => absurd hp h.2,fun h => absurd hp h.2⟩
  · simp only [PirqOn,Domain.write,update_of_ne hp,portIsValid]

theorem PirqOn.unique {w : Nat} (h : PirqOn C i d v p) (h' : PirqOn C i d w p) : v = w :=
  h.2.2.symm.trans h'.2.2

theorem Chains.unlink (hc : Chains C i d 0) (hz : ∀ v, ¬PirqOn C i d v 0)
  (hx : PirqOn C i d v x) : Chains C i (unlinkPirqPort d x v) x := by
  have hx0 : x ≠ 0 := fun he => hz v (he ▸ hx)
  obtain ⟨L,hL,ha⟩ := hc v
  have hb : x ∈ L := (ha x).mpr ⟨hx,hx0⟩
  intro w
  by_cases hw : w = v
  · subst hw
    refine ⟨L.erase x,?_,fun p => ?_⟩
    · rw [nextOf_unlink,prevOf_unlink,head_unlink,update_self]
      exact hL.unlink hb
    · rw [hL.nodup.mem_erase_iff,ha,unlinkPirqPort_same.pirqOn]
      exact ⟨fun h => ⟨h.2.1,h.1⟩,fun h => ⟨h.2,h.1,fun he => hz w (he ▸ h.1)⟩⟩
  obtain ⟨M,hM,hm⟩ := hc w
  have hd : ∀ y ∈ M, y ≠ 0 ∧ y ∉ L := fun y hy =>
    ⟨((hm y).mp hy).2,fun hf => hw (((hm y).mp hy).1.unique ((ha y).mp hf).1)⟩
  refine ⟨M,?_,fun p => ?_⟩
  · rw [nextOf_unlink,prevOf_unlink,head_unlink,update_of_ne hw]
    refine hM.congr (fun y hy => unlinkNext_of_ne ?_) fun y hy => unlinkPrev_of_ne ?_
    · rintro rfl
      exact (hL.linked.prev_mem hb).elim (hd _ hy).1 (hd _ hy).2
    · rintro rfl
      exact (hd _ hy).2 (hL.linked.next_mem hb (hd _ hy).1)
  · rw [hm,unlinkPirqPort_same.pirqOn]
    exact ⟨fun h => ⟨h.1,fun he => hw (h.1.unique (he ▸ hx))⟩,fun h => ⟨h.1,fun he => hz w (he ▸ h.1)⟩⟩

theorem Chains.link (hc : Chains C i d x) (hz : ∀ v, ¬PirqOn C i d v 0)
  (hx : PirqOn C i d v x) : Chains C i (linkPirqPort d x v) 0 := by
  have hx0 : x ≠ 0 := fun he => hz v (he ▸ hx)
  obtain ⟨L,hL,ha⟩ := hc v
  intro w
  by_cases hw : w = v
  · subst hw
    refine ⟨x :: L,?_,fun p => ?_⟩
    · rw [nextOf_link,prevOf_link,head_link,update_self]
      exact hL.link (fun hb => ((ha x).mp hb).2 rfl) hx0
    rw [List.mem_cons,ha,linkPirqPort_same.pirqOn]
    constructor
    · rintro (rfl | h)
      · exact ⟨hx,hx0⟩
      · exact ⟨h.1,fun he => hz w (he ▸ h.1)⟩
    intro h
    by_cases hp : p = x
    · exact Or.inl hp
    · exact Or.inr ⟨h.1,hp⟩
  obtain ⟨M,hM,hm⟩ := hc w
  have hd : ∀ y ∈ M, y ≠ x ∧ y ∉ L := fun y hy =>
    ⟨((hm y).mp hy).2,fun hf => hw (((hm y).mp hy).1.unique ((ha y).mp hf).1)⟩
  refine ⟨M,?_,fun p => ?_⟩
  · rw [nextOf_link,prevOf_link,head_link,update_of_ne hw]
    refine hM.congr (fun y hy => update_of_ne (hd y hy).1 ..) fun y hy => ?_
    rw [linkPrev]
    split_ifs with hn
    · have hh : y ≠ d.pirqEvtchnHead v := by
        rintro rfl
        exact (hd _ hy).2 (hL.linked.head_mem hn)
      rw [update_of_ne hh,update_of_ne (hd y hy).1]
    · exact update_of_ne (hd y hy).1 ..
  · rw [hm,linkPirqPort_same.pirqOn]
    exact ⟨fun h => ⟨h.1,fun he => hz w (he ▸ h.1)⟩,fun h => ⟨h.1,fun he => hw (h.1.unique (he ▸ hx))⟩⟩

variable {n : Nat} {c : Evtchn}

section
variable {q y : Nat}

theorem SameBindings.virqBound (h : SameBindings d d') : VirqBound C i d' v n p ↔ VirqBound C i d v n p := by
  rw [VirqBound,VirqBound,h.valid,h.state,h.word,h.notify]

theorem SameBindings.pirqBound (h : SameBindings d d') : PirqBound C i d' n p ↔ PirqBound C i d n p := by
  rw [PirqBound,PirqBound,h.valid,h.state,h.word]

theorem SameBindings.sound (hs : SameBindings d d') (h : Sound C i d x) (hh : Chains C i d' y) : Sound C i d' y where
  virq v n p := by rw [hs.virqToEvtchn,h.virq,hs.virqBound]
  pirq n p := by rw [hs.pirqToEvtchn,h.pirq,hs.pirqBound]
  chains := hh
  free p hv hf := (hs.notify p).trans (h.free p (hs.valid.mp hv) ((hs.state p).symm.trans hf))
  zero hv := (hs.state 0).trans (h.zero (hs.valid.mp hv))
  alive hc hd := hs.nrBuckets ▸ h.alive (hs.created ▸ hc) (hs.isDying ▸ hd)
  absent hc := by
    rw [hs.isDying,hs.nrBuckets]
    exact h.absent (hs.created ▸ hc)
  room := hs.nrBuckets ▸ h.room

@[simp] theorem write_self : (d.write p c).evtchn p = c := update_self ..

theorem write_of_ne (hq : q ≠ p) : (d.write p c).evtchn q = d.evtchn q := update_of_ne hq ..

theorem virqBound_write_of_ne (hq : q ≠ p) : VirqBound C i (d.write p c) v n q ↔ VirqBound C i d v n q := by
  rw [VirqBound,VirqBound,write_of_ne hq]
  rfl

theorem pirqBound_write_of_ne (hq : q ≠ p) : PirqBound C i (d.write p c) n q ↔ PirqBound C i d n q := by
  rw [PirqBound,PirqBound,write_of_ne hq]
  rfl

variable (h : Sound C i d x)
include h

theorem Sound.ne_zero (hp : portIsValid C i d p) (hs : (d.evtchn p).state ≠ .reserved) : p ≠ 0 := by
  rintro rfl
  exact hs (h.zero hp)

theorem Sound.zero_not_pirq (v : Nat) : ¬PirqOn C i d v 0 := fun hp => by
  have hz := h.zero hp.1
  rw [hp.2.1] at hz
  exact nomatch hz

theorem Sound.setChains (hc : Chains C i d y) : Sound C i d y :=
  ⟨h.virq,h.pirq,hc,h.free,h.zero,h.alive,h.absent,h.room⟩

omit h in
theorem Sound.lift (h : Sound C i d 0) (hx : (d.evtchn x).state ≠ .pirq) : Sound C i d x :=
  h.setChains (h.chains.float h.zero_not_pirq fun _ hv => hx hv.2.1)

theorem Sound.settle (hx : (d.evtchn x).state ≠ .pirq) : Sound C i d 0 :=
  h.setChains (h.chains.float (fun _ hv => hx hv.2.1) h.zero_not_pirq)

omit h in
theorem Sound.unlink (h : Sound C i d 0) (hx : PirqOn C i d v x) : Sound C i (unlinkPirqPort d x v) x :=
  unlinkPirqPort_same.sound h (h.chains.unlink h.zero_not_pirq hx)

theorem Sound.link (hx : PirqOn C i d v x) : Sound C i (linkPirqPort d x v) 0 :=
  linkPirqPort_same.sound h (h.chains.link h.zero_not_pirq hx)

omit h in
theorem Sound.rewrite {f : Nat → Nat → Nat} {g : Nat → Nat} (h : Sound C i d p) (ht : (d.evtchn p).state ≠ .reserved)
  (hi : ∀ v n, (f v n = p ∧ p ≠ 0) ↔ VirqBound C i (d.write p c) v n p)
  (hp : ∀ n, (g n = p ∧ p ≠ 0) ↔ PirqBound C i (d.write p c) n p)
  (hf : ∀ v n q, q ≠ p → q ≠ 0 → (f v n = q ↔ d.virqToEvtchn v n = q))
  (hg : ∀ n q, q ≠ p → q ≠ 0 → (g n = q ↔ d.pirqToEvtchn n = q)) (hr : c.state = .free → c.notifyVcpuId = 0) :
  Sound C i {d.write p c with virqToEvtchn := f,pirqToEvtchn := g} p where
  virq v n q := by
    by_cases hq : q = p
    · subst hq
      exact hi v n
    · refine Iff.trans (and_congr_left (hf v n q hq)) ((h.virq v n q).trans ?_)
      exact (virqBound_write_of_ne hq).symm
  pirq n q := by
    by_cases hq : q = p
    · subst hq
      exact hp n
    · refine Iff.trans (and_congr_left (hg n q hq)) ((h.pirq n q).trans ?_)
      exact (pirqBound_write_of_ne hq).symm
  chains := h.chains.write c
  free q hv hs := by
    by_cases hq : q = p
    · subst hq
      simp only [write_self] at hs ⊢
      exact hr hs
    · simp only [write_of_ne hq] at hs ⊢
      exact h.free q hv hs
  zero hv := by
    have hn : 0 ≠ p := by
      rintro rfl
      exact ht (h.zero hv)
    simp only [write_of_ne hn]
    exact h.zero hv
  alive := h.alive
  absent := h.absent
  room := h.room

theorem Sound.not_recorded_virq (hp : (d.evtchn p).state ≠ .virq) :
  ¬(d.virqToEvtchn v n = p ∧ p ≠ 0) := fun hm => hp ((h.virq v n p).mp hm).2.1

theorem Sound.not_recorded_pirq (hp : (d.evtchn p).state ≠ .pirq) :
  ¬(d.pirqToEvtchn n = p ∧ p ≠ 0) := fun hm => hp ((h.pirq n p).mp hm).2.1

omit h

theorem not_virqBound_write (hc : c.state ≠ .virq) : ¬VirqBound C i (d.write p c) v n p := by
  rintro ⟨-,hs,-⟩
  rw [write_self] at hs
  exact hc hs

theorem not_pirqBound_write (hc : c.state ≠ .pirq) : ¬PirqBound C i (d.write p c) n p := by
  rintro ⟨-,hs,-⟩
  rw [write_self] at hs
  exact hc hs

end

def Plain (e : Ecs) : Prop := e ≠ .reserved ∧ e ≠ .virq ∧ e ≠ .pirq

instance (e : Ecs) : Decidable (Plain e) := inferInstanceAs (Decidable (_ ∧ _ ∧ _))

variable (h : Sound C i d 0)
include h

theorem Sound.write_plain (hold : Plain (d.evtchn p).state) (hn : Plain c.state)
  (hf : c.state = .free → c.notifyVcpuId = 0) : Sound C i (d.write p c) 0 := by
  have hl : Sound C i d p := h.lift hold.2.2
  have hn' := hl.rewrite hold.1 (c := c)
    (fun v n => iff_of_false (h.not_recorded_virq hold.2.1) (not_virqBound_write hn.2.1))
    (fun n => iff_of_false (h.not_recorded_pirq hold.2.2) (not_pirqBound_write hn.2.2))
    (fun _ _ _ _ _ => Iff.rfl) (fun _ _ _ _ => Iff.rfl) hf
  exact Sound.settle hn' (by rw [write_self]; exact hn.2.2)

theorem Sound.write_global (hold : (d.evtchn p).state = .virq) (hg : virqIsGlobal (d.evtchn p).word = true) (w : Nat) :
  Sound C i (d.write p {d.evtchn p with notifyVcpuId := w}) 0 := by
  have hp : (d.evtchn p).state ≠ .pirq := by rw [hold]; decide
  have he := (h.lift hp).rewrite (c := {d.evtchn p with notifyVcpuId := w}) (by rw [hold]; decide) (fun v n => ?_)
    (fun n => iff_of_false (h.not_recorded_pirq hp) (not_pirqBound_write hp))
    (fun _ _ _ _ _ => Iff.rfl) (fun _ _ _ _ => Iff.rfl) (fun hf => by simp [hold] at hf)
  · exact Sound.settle he (by rw [write_self]; exact hp)
  refine (h.virq v n p).trans ?_
  simp only [VirqBound,write_self]
  refine and_congr Iff.rfl (and_congr Iff.rfl (and_congr_right fun hn => ?_))
  rw [← hn,if_pos hg,if_pos hg]

omit h in
theorem write_consumer_same : SameBindings d (d.write p {d.evtchn p with consumerIsXen := false}) :=
  .write rfl rfl rfl rfl fun _ => rfl

theorem Sound.write_consumer : Sound C i (d.write p {d.evtchn p with consumerIsXen := false}) 0 := by
  refine write_consumer_same.sound h fun v => ?_
  obtain ⟨L,hL,hm⟩ := h.chains v
  refine ⟨L,?_,fun q => by rw [hm,write_consumer_same.pirqOn]⟩
  have hn : nextOf (d.write p {d.evtchn p with consumerIsXen := false}) = nextOf d :=
    (nextOf_write _).trans (update_eq_self p (nextOf d))
  have hp : prevOf (d.write p {d.evtchn p with consumerIsXen := false}) = prevOf d :=
    (prevOf_write _).trans (update_eq_self p (prevOf d))
  rw [hn,hp]
  exact hL

omit h in
theorem recordVirq_apply (v' n' : Nat) : (recordVirq d v n p).virqToEvtchn v' n' =
  if v' = v ∧ n' = n then p else d.virqToEvtchn v' n' := by
  by_cases hv : v' = v
  · subst hv
    by_cases hn : n' = n <;> simp [recordVirq,hn]
  · simp [recordVirq,hv]

theorem Sound.bindVirq (hp : portIsValid C i d p) (hf : (d.evtchn p).state = .free) (hm : d.virqToEvtchn v n = 0)
  (hg : virqIsGlobal n = true → v = 0) :
  Sound C i (recordVirq (d.write p {d.evtchn p with state := .virq,notifyVcpuId := v,word := n}) v n p) 0 := by
  have hb : ∀ e, e ≠ Ecs.free → (d.evtchn p).state ≠ e := fun e he hc => he (hc.symm.trans hf)
  have hp0 : p ≠ 0 := h.ne_zero hp (hb _ (by decide))
  have ho : v = if virqIsGlobal n then 0 else v := by
    split
    · exact hg (by assumption)
    · rfl
  have hn := (h.lift (hb .pirq (by decide))).rewrite
    (c := {d.evtchn p with state := .virq,notifyVcpuId := v,word := n})
    (f := (recordVirq d v n p).virqToEvtchn) (hb _ (by decide)) (fun v' n' => ?_)
    (fun n => iff_of_false (h.not_recorded_pirq (hb _ (by decide))) (not_pirqBound_write nofun))
    (fun v' n' q hq hq0 => ?_) (fun _ _ _ _ => Iff.rfl) nofun
  · exact Sound.settle hn (by simp [recordVirq])
  · rw [recordVirq_apply]
    simp only [VirqBound,write_self]
    constructor
    · rintro ⟨hc,-⟩
      split_ifs at hc with ha
      · exact ⟨hp,trivial,ha.2.symm,by rw [ha.1,ha.2]; exact ho⟩
      · exact absurd ⟨hc,hp0⟩ (h.not_recorded_virq (hb _ (by decide)))
    · rintro ⟨-,-,rfl,hv⟩
      exact ⟨if_pos ⟨hv.trans ho.symm,rfl⟩,hp0⟩
  · rw [recordVirq_apply]
    split_ifs with ha
    · rw [ha.1,ha.2,hm]
      exact iff_of_false hq.symm hq0.symm
    · exact Iff.rfl

theorem Sound.closeVirq (hs : (d.evtchn p).state = .virq) :
  Sound C i ((clearVirq d p).write p {d.evtchn p with state := .free,notifyVcpuId := 0}) 0 := by
  have hb : ∀ e, e ≠ Ecs.virq → (d.evtchn p).state ≠ e := fun e he ha => he (ha.symm.trans hs)
  have hn := (h.lift (hb .pirq (by decide))).rewrite
    (c := {d.evtchn p with state := .free,notifyVcpuId := 0})
    (f := (clearVirq d p).virqToEvtchn) (hb _ (by decide))
    (fun v n => iff_of_false ?_ (not_virqBound_write nofun))
    (fun n => iff_of_false (h.not_recorded_pirq (hb _ (by decide))) (not_pirqBound_write nofun))
    (fun v n q hq hq0 => ?_) (fun _ _ _ _ => Iff.rfl) fun _ => rfl
  · exact Sound.settle hn (by rw [write_self]; exact nofun)
  · rintro ⟨ha,hp⟩
    simp only [clearVirq] at ha
    split at ha
    · exact hp ha.symm
    · rename_i hc
      exact hc ⟨((h.virq v n p).mp ⟨ha,hp⟩).2.2.1.symm,ha⟩
  · simp only [clearVirq]
    split_ifs with hc
    · rw [hc.2]
      exact iff_of_false hq0.symm hq.symm
    · exact Iff.rfl

theorem Sound.bindPirq (hp : portIsValid C i d p) (hf : (d.evtchn p).state = .free) (hm : d.pirqToEvtchn n = 0) :
  Sound C i (linkPirqPort ((recordPirq d n p).write p {d.evtchn p with state := .pirq,word := n}) p 0) 0 := by
  have ha : ∀ e, e ≠ Ecs.free → (d.evtchn p).state ≠ e := fun e he hc => he (hc.symm.trans hf)
  have hp0 : p ≠ 0 := h.ne_zero hp (ha _ (by decide))
  have hw := (h.lift (ha .pirq (by decide))).rewrite
    (c := {d.evtchn p with state := .pirq,word := n})
    (g := (recordPirq d n p).pirqToEvtchn) (ha _ (by decide))
    (fun v n => iff_of_false (h.not_recorded_virq (ha _ (by decide))) (not_virqBound_write nofun))
    (fun n' => ?_) (fun _ _ _ _ _ => Iff.rfl) (fun n' q hq hq0 => ?_) nofun
  · refine Sound.link hw ⟨hp,?_,?_⟩
    · rw [write_self]
    · rw [write_self]
      exact h.free p hp hf
  · simp only [PirqBound,write_self,recordPirq]
    by_cases hn : n' = n
    · subst hn
      simp only [update_self]
      exact ⟨fun _ => ⟨hp,trivial,trivial⟩,fun _ => ⟨trivial,hp0⟩⟩
    · rw [update_of_ne hn]
      exact iff_of_false (h.not_recorded_pirq (ha _ (by decide))) fun hb => hn hb.2.2.symm
  · simp only [recordPirq]
    by_cases hn : n' = n
    · subst hn
      rw [update_self,hm]
      exact iff_of_false hq.symm hq0.symm
    · rw [update_of_ne hn]

omit h in
theorem unlink_recordPirq : unlinkPirqPort (recordPirq d n 0) p v = recordPirq (unlinkPirqPort d p v) n 0 := by
  have hp : pointPast (recordPirq d n 0) p v = recordPirq (pointPast d p v) n 0 := by
    rw [pointPast,pointPast,apply_ite (fun e => recordPirq e n 0)]
    rfl
  rw [unlinkPirqPort,unlinkPirqPort,hp,pointBack,pointBack,apply_ite (fun e => recordPirq e n 0)]
  rfl

theorem Sound.closePirq (hp : portIsValid C i d p) (hs : (d.evtchn p).state = .pirq) :
  Sound C i ((unlinkPirqPort (recordPirq d (d.evtchn p).word 0) p (d.evtchn p).notifyVcpuId).write p
    {(unlinkPirqPort (recordPirq d (d.evtchn p).word 0) p (d.evtchn p).notifyVcpuId).evtchn p with
      state := .free,notifyVcpuId := 0}) 0 := by
  have hu := h.unlink (x := p) ⟨hp,hs,rfl⟩
  rw [unlink_recordPirq]
  generalize hd : unlinkPirqPort d p (d.evtchn p).notifyVcpuId = d1 at hu
  have ha : SameBindings d d1 := hd ▸ unlinkPirqPort_same
  have hs1 : (d1.evtchn p).state = .pirq := (ha.state p).trans hs
  have hw : (d1.evtchn p).word = (d.evtchn p).word := ha.word p
  rw [← hw]
  have hc : ∀ e, e ≠ Ecs.pirq → (d1.evtchn p).state ≠ e := fun e he hb => he (hb.symm.trans hs1)
  have hf := hu.rewrite (c := {d1.evtchn p with state := .free,notifyVcpuId := 0})
    (g := (recordPirq d1 (d1.evtchn p).word 0).pirqToEvtchn) (hc _ (by decide))
    (fun v n => iff_of_false (hu.not_recorded_virq (hc _ (by decide))) (not_virqBound_write nofun))
    (fun n => iff_of_false ?_ (not_pirqBound_write nofun)) (fun _ _ _ _ _ => Iff.rfl)
    (fun n q hq hq0 => ?_) fun _ => rfl
  · exact Sound.settle hf (by rw [write_self]; exact nofun)
  · rintro ⟨hb,hp0⟩
    simp only [recordPirq] at hb
    by_cases hn : n = (d1.evtchn p).word
    · rw [hn,update_self] at hb
      exact hp0 hb.symm
    · rw [update_of_ne hn] at hb
      exact hn ((hu.pirq n p).mp ⟨hb,hp0⟩).2.2.symm
  · simp only [recordPirq]
    by_cases hn : n = (d1.evtchn p).word
    · rw [hn,update_self]
      have hr := (hu.pirq (d1.evtchn p).word p).mpr ⟨ha.valid.mpr hp,hs1,rfl⟩
      rw [hr.1]
      exact iff_of_false hq0.symm hq.symm
    · rw [update_of_ne hn]

theorem Sound.rebindPirq (hp : portIsValid C i d p) (hs : (d.evtchn p).state = .pirq) (w : Nat) :
  Sound C i (linkPirqPort ((unlinkPirqPort d p (d.evtchn p).notifyVcpuId).write p
    {(unlinkPirqPort d p (d.evtchn p).notifyVcpuId).evtchn p with notifyVcpuId := w}) p w) 0 := by
  have hu := h.unlink (x := p) ⟨hp,hs,rfl⟩
  generalize hd : unlinkPirqPort d p (d.evtchn p).notifyVcpuId = d1 at hu
  have ha : SameBindings d d1 := hd ▸ unlinkPirqPort_same
  have hs1 : (d1.evtchn p).state = .pirq := (ha.state p).trans hs
  have hb : ∀ e, e ≠ Ecs.pirq → (d1.evtchn p).state ≠ e := fun e he hq => he (hq.symm.trans hs1)
  have hn := hu.rewrite (c := {d1.evtchn p with notifyVcpuId := w}) (hb _ (by decide))
    (fun v n => iff_of_false (hu.not_recorded_virq (hb _ (by decide))) (not_virqBound_write (hb _ (by decide))))
    (fun n => (hu.pirq n p).trans (by simp only [PirqBound,write_self]; rfl))
    (fun _ _ _ _ _ => Iff.rfl) (fun _ _ _ _ => Iff.rfl) fun hf => absurd hf (hb _ (by decide))
  refine Sound.link hn ⟨ha.valid.mpr hp,?_,?_⟩
  · rw [write_self]
    exact hs1
  · rw [write_self]

omit h in
theorem not_valid_of_empty (hd : d.nrBuckets = 0) (p : Nat) : ¬portIsValid C i d p := fun hp =>
  Nat.not_lt_zero _ (hd ▸ hp.2)

omit h in
theorem Sound.of_unbound (hv : ∀ v n, d.virqToEvtchn v n = 0) (hp : ∀ n, d.pirqToEvtchn n = 0)
  (hh : ∀ v, d.pirqEvtchnHead v = 0)
  (hs : ∀ p, portIsValid C i d p → (d.evtchn p).state ≠ .virq ∧ (d.evtchn p).state ≠ .pirq)
  (hf : ∀ p, portIsValid C i d p → (d.evtchn p).state = .free → (d.evtchn p).notifyVcpuId = 0)
  (hz : portIsValid C i d 0 → (d.evtchn 0).state = .reserved)
  (hl : d.created = true → d.isDying = false → 0 < d.nrBuckets)
  (ha : d.created = false → d.isDying = false ∧ d.nrBuckets = 0)
  (hr : evtchnsPerBucket*d.nrBuckets ≤ maxEvtchns C i) : Sound C i d 0 where
  virq v n p := by
    rw [hv]
    exact iff_of_false (fun h => h.2 h.1.symm) fun h => (hs p h.1).1 h.2.1
  pirq n p := by
    rw [hp]
    exact iff_of_false (fun h => h.2 h.1.symm) fun h => (hs p h.1).2 h.2.1
  chains v := ⟨[],⟨hh v,List.nodup_nil⟩,fun p =>
    iff_of_false List.not_mem_nil fun h => (hs p h.1.1).2 h.1.2.1⟩
  free := hf
  zero := hz
  alive := hl
  absent := ha
  room := hr

omit h in
theorem sound_zero : Sound C i .zero 0 :=
  .of_unbound (fun _ _ => rfl) (fun _ => rfl) (fun _ => rfl)
    (fun p hp => absurd hp (not_valid_of_empty rfl p)) (fun _ _ _ => rfl)
    (fun hp => absurd hp (not_valid_of_empty rfl 0)) nofun (fun _ => ⟨rfl,rfl⟩) (Nat.zero_le _)

theorem Sound.freeBuckets (hc : d.created = true) (hd : d.isDying = true)
  (hi : ∀ p, portIsValid C i d p → (d.evtchn p).state ≠ .virq ∧ (d.evtchn p).state ≠ .pirq) :
  Sound C i {d with nrBuckets := 0} 0 := by
  refine .of_unbound (fun v n => ?_) (fun n => ?_) (fun v => ?_)
    (fun p hp => absurd hp (not_valid_of_empty rfl p)) (fun p hp => absurd hp (not_valid_of_empty rfl p))
    (fun hp => absurd hp (not_valid_of_empty rfl 0)) (fun _ ha => absurd (hd.symm.trans ha) (by decide))
    (fun ha => absurd (hc.symm.trans ha) (by decide)) (Nat.zero_le _)
  · by_contra hn
    have hb := (h.virq v n _).mp ⟨rfl,hn⟩
    exact (hi _ hb.1).1 hb.2.1
  · by_contra hn
    have hb := (h.pirq n _).mp ⟨rfl,hn⟩
    exact (hi _ hb.1).2 hb.2.1
  · by_contra hn
    obtain ⟨L,hL,hm⟩ := h.chains v
    have hb := ((hm _).mp (hL.linked.head_mem hn)).1
    exact (hi _ hb.1).2 hb.2.1

theorem Sound.kill (hc : d.created = true) : Sound C i {d with isDying := true} 0 :=
  ⟨h.virq,h.pirq,h.chains,h.free,h.zero,nofun,fun ha => absurd (hc.symm.trans ha) (by decide),h.room⟩

end EventChannel
