import PMigrate.Hypervisor.EventChannelBind

namespace EventChannel
open Transition Function Option

variable {C : Config} {s : State} {i p : Nat}

section
variable {e q : Nat} {c : Evtchn} {j r : Nat}

theorem writeChn_domain_of_ne (hj : j ≠ i) : (writeChn s i p c).domain j = s.domain j := setDomain_of_ne hj

theorem writeChn_domain : (writeChn s i p c).domain i = (s.domain i).write p c := setDomain_self

@[simp] theorem chn_writeChn_self : chn (writeChn s i p c) i p = c := by rw [chn,writeChn_domain,write_self]

theorem chn_writeChn_of_ne (h : ¬(j = i ∧ r = p)) : chn (writeChn s i p c) j r = chn s j r := by
  by_cases hj : j = i
  · subst hj
    rw [chn,writeChn_domain,write_of_ne fun hr => h ⟨rfl,hr⟩]
    rfl
  · rw [chn,writeChn_domain_of_ne hj]
    rfl

theorem valid_writeChn : portIsValid C j ((writeChn s i p c).domain j) r ↔ portIsValid C j (s.domain j) r := by
  by_cases hj : j = i
  · subst hj
    rw [writeChn_domain]
    rfl
  · rw [writeChn_domain_of_ne hj]

theorem peer_writeChn_self : Peer C (writeChn s i p c) i p e q ↔
  portIsValid C i (s.domain i) p ∧ c.state = .interdomain ∧ c.remoteDom = e ∧ c.word = q := by
  change portIsValid C i ((writeChn s i p c).domain i) p ∧ (chn (writeChn s i p c) i p).state = _ ∧
    (chn (writeChn s i p c) i p).remoteDom = e ∧ (chn (writeChn s i p c) i p).word = q ↔ _
  rw [valid_writeChn,chn_writeChn_self]

theorem peer_writeChn_of_ne (h : ¬(j = i ∧ r = p)) : Peer C (writeChn s i p c) j r e q ↔ Peer C s j r e q := by
  change portIsValid C j ((writeChn s i p c).domain j) r ∧ (chn (writeChn s i p c) j r).state = _ ∧
    (chn (writeChn s i p c) j r).remoteDom = e ∧ (chn (writeChn s i p c) j r).word = q ↔ _
  rw [valid_writeChn,chn_writeChn_of_ne h]
  rfl

theorem sound_writeChn (h : ∀ j, Sound C j (s.domain j) 0) (hold : Plain (chn s i p).state)
  (hn : Plain c.state) (hf : c.state = .free → c.notifyVcpuId = 0) (j : Nat) :
  Sound C j ((writeChn s i p c).domain j) 0 := by
  by_cases hj : j = i
  · subst hj
    rw [writeChn_domain]
    exact (h j).write_plain hold hn hf
  · rw [writeChn_domain_of_ne hj]
    exact h j

theorem keeps_writeChn (hk : (s.domain i).isDying = true → KeepsPort (chn s i p) c) (j : Nat)
  (hd : (s.domain j).isDying = true) : KeepsDomain (s.domain j) ((writeChn s i p c).domain j) := by
  by_cases hj : j = i
  · subst hj
    rw [writeChn_domain]
    exact .write hd (hk hd)
  · rw [writeChn_domain_of_ne hj]
    exact .refl hd

theorem Edit.trans {s' s'' : State} (h : Edit C s s') (h' : Edit C s' s'') : Edit C s s'' where
  sound := h'.sound
  peers := h'.peers
  keeps i hd := (h.keeps i hd).trans (h'.keeps i (h.keeps i hd).isDying)
  task := h'.task.trans h.task

end

section
variable {ld lport rd rport : Nat}

theorem KeepsPort.connect {c : Evtchn} (hs : c.state = .unbound) (hw : c.word = ld) (q : Nat) :
  KeepsPort c {c with remoteDom := ld,word := q,state := .interdomain} := by
  have hi : ¬Idle c := by simp [Idle,hs]
  refine ⟨id,fun h => absurd h hi,fun e h => ?_⟩
  rcases h with h | h | h
  · exact absurd h hi
  · exact Or.inr (Or.inr ⟨rfl,hw.symm.trans h.2⟩)
  · exact absurd (hs.symm.trans h.1) (by decide)

theorem KeepsPort.disconnect {c : Evtchn} (hs : c.state = .interdomain) (hd : c.remoteDom = ld) :
  KeepsPort c {c with state := .unbound,word := ld} := by
  have hi : ¬Idle c := by simp [Idle,hs]
  refine ⟨id,fun h => absurd h hi,fun e h => ?_⟩
  rcases h with h | h | h
  · exact absurd h hi
  · exact absurd (hs.symm.trans h.1) (by decide)
  · exact Or.inr (Or.inl ⟨rfl,hd.symm.trans h.2⟩)

theorem connect_edit (h : Inv C s) (hv : portIsValid C ld (s.domain ld) lport)
  (hg : (chn s ld lport).state = .free) (ha : (s.domain ld).isDying = false)
  (hi : portIsValid C rd (s.domain rd) rport) (hb : (chn s rd rport).state = .unbound)
  (hw : (chn s rd rport).word = ld) : Edit C s (connect (connect s ld lport rd rport) rd rport ld lport) := by
  have hn : ¬(rd = ld ∧ rport = lport) := by
    rintro ⟨rfl,rfl⟩
    exact absurd (hg.symm.trans hb) (by decide)
  have hc : chn (connect s ld lport rd rport) rd rport = chn s rd rport := chn_writeChn_of_ne hn
  have hm : lport%65536 = lport := Nat.mod_eq_of_lt (lt_of_valid hv)
  have hk : rport%65536 = rport := Nat.mod_eq_of_lt (lt_of_valid hi)
  have hs := sound_writeChn h.sound (hg ▸ plain_free) plain_interdomain nofun
    (c := {chn s ld lport with remoteDom := rd,word := rport%65536,state := .interdomain})
  refine ⟨sound_writeChn hs ?_ plain_interdomain nofun,?_,fun j hd => ?_,rfl⟩
  · rw [hc,hb]
    decide
  · have hl : ∀ e q, Peer C (connect (connect s ld lport rd rport) rd rport ld lport) ld lport e q ↔
        e = rd ∧ q = rport := by
      intro e q
      refine (peer_writeChn_of_ne fun hx => hn ⟨hx.1.symm,hx.2.symm⟩).trans (peer_writeChn_self.trans ?_)
      exact ⟨fun hx => ⟨hx.2.2.1.symm,hx.2.2.2.symm.trans hk⟩,fun hx => ⟨hv,rfl,hx.1.symm,hk.trans hx.2.symm⟩⟩
    have hr : ∀ e q, Peer C (connect (connect s ld lport rd rport) rd rport ld lport) rd rport e q ↔
        e = ld ∧ q = lport := by
      intro e q
      refine peer_writeChn_self.trans ?_
      exact ⟨fun hx => ⟨hx.2.2.1.symm,hx.2.2.2.symm.trans hm⟩,
        fun hx => ⟨valid_writeChn.mpr hi,rfl,hx.1.symm,hm.trans hx.2.symm⟩⟩
    have ho : ∀ d p e q, ¬(d = ld ∧ p = lport) → ¬(d = rd ∧ p = rport) →
        (Peer C (connect (connect s ld lport rd rport) rd rport ld lport) d p e q ↔ Peer C s d p e q) :=
      fun d p e q hu hz => (peer_writeChn_of_ne hz).trans (peer_writeChn_of_ne hu)
    intro d p e q hp
    by_cases hq : d = ld ∧ p = lport
    · obtain ⟨rfl,rfl⟩ := hq
      obtain ⟨rfl,rfl⟩ := (hl e q).mp hp
      exact (hr d p).mpr ⟨rfl,rfl⟩
    by_cases ht : d = rd ∧ p = rport
    · obtain ⟨rfl,rfl⟩ := ht
      obtain ⟨rfl,rfl⟩ := (hr e q).mp hp
      exact (hl d p).mpr ⟨rfl,rfl⟩
    have hold := h.peers _ _ _ _ ((ho d p e q hq ht).mp hp)
    have he : ¬(e = ld ∧ q = lport) := by
      rintro ⟨rfl,rfl⟩
      exact absurd (hg.symm.trans hold.2.1) (by decide)
    have her : ¬(e = rd ∧ q = rport) := by
      rintro ⟨rfl,rfl⟩
      exact absurd (hb.symm.trans hold.2.1) (by decide)
    exact (ho e q d p he her).mpr hold
  · have hf := keeps_writeChn (s := s) (i := ld) (p := lport)
      (c := {chn s ld lport with remoteDom := rd,word := rport%65536,state := .interdomain})
      (fun hy => absurd (ha.symm.trans hy) (by decide)) j hd
    refine hf.trans (keeps_writeChn (fun _ => ?_) j hf.isDying)
    exact .connect (hc ▸ hb) (hc ▸ hw) _

theorem bindInterdomain_good {env : Env} (h : Inv C s) (hc : (s.domain ld).created = true) :
  Good C s (bindInterdomain C s ld rd rport env) := by
  rw [bindInterdomain]
  split
  · exact .error h _
  rename_i l lport hg
  have hf := getFreePort_fresh (h.sound ld) hc hg
  have he := hf.edit h
  have hi := h.edit he
  dsimp only
  split
  · exact ⟨he,nofun⟩
  rename_i hv
  split
  · exact ⟨he,nofun⟩
  rename_i hu
  rw [not_or,not_not,not_not] at hu
  split
  · exact ⟨he,nofun⟩
  refine hf.good (he.trans (connect_edit hi ?_ ?_ ?_ (not_not.mp hv) hu.1 hu.2))
  · rw [setDomain_self]
    exact hf.valid
  · rw [chn,setDomain_self]
    exact hf.free
  · rw [setDomain_self]
    exact hf.isDying.trans hf.alive

end

variable {s' : State}

section
variable {d1 port1 d2 : Nat}

structure Closed (C : Config) (s s' : State) (i p : Nat) : Prop where
  edit : Edit C s s'
  free : (chn s' i p).state = .free

theorem releasePort_closed (h : Inv C s) (hs : Plain (chn s d1 port1).state)
  (hp : (chn s d1 port1).state ≠ .interdomain) : Closed C s (releasePort s d1 port1) d1 port1 := by
  refine ⟨.setDomain h ((h.sound d1).write_plain hs plain_free fun _ => rfl) (fun r e q => ?_)
    fun hd => .write hd (.of_idle (Or.inl rfl) rfl),?_⟩
  · exact peerOf_write hp nofun
  · exact congrArg Evtchn.state chn_writeChn_self

theorem releasePort_setDomain (d : Domain) (i p : Nat) : releasePort (setDomain s i d) i p =
  setDomain s i (d.write p {d.evtchn p with state := .free,notifyVcpuId := 0}) := by
  simp only [releasePort,writeChn,chn,setDomain,update_self,update_idem]

theorem release_closed (h : Inv C s) {d : Domain} (hs : (chn s d1 port1).state ≠ .interdomain)
  (ho : Sound C d1 (d.write port1 {d.evtchn port1 with state := .free,notifyVcpuId := 0}) 0)
  (ha : ∀ p, p ≠ port1 → ∀ e q, PeerOf C d1 d p e q ↔ PeerOf C d1 (s.domain d1) p e q)
  (hk : (s.domain d1).isDying = true → KeepsDomain (s.domain d1) d) :
  Closed C s (releasePort (setDomain s d1 d) d1 port1) d1 port1 := by
  rw [releasePort_setDomain]
  refine ⟨.setDomain h ho (fun r e q => ?_) fun hd => ?_,?_⟩
  · by_cases hr : r = port1
    · subst hr
      refine iff_of_false (fun hp => ?_) fun hp => hs hp.2.1
      have ht := hp.2.1
      rw [write_self] at ht
      exact nomatch ht
    · exact (peerOf_write_of_ne hr).trans (ha r hr e q)
  · exact (hk hd).trans (.write (hk hd).isDying (.of_idle (Or.inl rfl) rfl))
  · rw [chn,setDomain_self,write_self]

theorem closeVirq_closed (h : Inv C s) (hs : (chn s d1 port1).state = .virq) :
  Closed C s (releasePort (closeVirq s d1 port1) d1 port1) d1 port1 := by
  refine release_closed h (by rw [hs]; decide) ((h.sound d1).closeVirq hs) (fun _ _ _ _ => Iff.rfl)
    fun hd => ?_
  exact ⟨rfl,hd,rfl,fun _ => .refl⟩

theorem closePirq_closed (h : Inv C s) (hv : portIsValid C d1 (s.domain d1) port1)
  (hs : (chn s d1 port1).state = .pirq) : Closed C s (releasePort (closePirq s d1 port1) d1 port1) d1 port1 := by
  refine release_closed h (by rw [hs]; decide) ((h.sound d1).closePirq hv hs) (fun p _ e q => ?_)
    fun hd => ?_
  · exact unlinkPirqPort_same.peerOf
  have hr : KeepsDomain (s.domain d1) (recordPirq (s.domain d1) (chn s d1 port1).word 0) :=
    ⟨rfl,hd,rfl,fun _ => .refl⟩
  exact hr.trans (unlinkPirqPort_same.keeps hd)

theorem peer_unique {p e q e' q' : Nat} (h : Peer C s d1 p e q) (h' : Peer C s d1 p e' q') : e = e' ∧ q = q' :=
  ⟨h.2.2.1.symm.trans h'.2.2.1,h.2.2.2.symm.trans h'.2.2.2⟩

theorem unbind_closed {port2 : Nat} (h : Inv C s) (hp : Peer C s d1 port1 d2 port2) :
  Closed C s (releasePort (writeChn s d2 port2 {chn s d2 port2 with state := .unbound,word := d1})
    d1 port1) d1 port1 := by
  have hb := h.peers _ _ _ _ hp
  have hs : ∀ j, Sound C j ((writeChn s d2 port2 {chn s d2 port2 with state := .unbound,word := d1}).domain j) 0 :=
    sound_writeChn h.sound (show Plain (chn s d2 port2).state from hb.2.1 ▸ plain_interdomain) plain_unbound nofun
  have hk := keeps_writeChn (s := s) (i := d2) (p := port2)
    (c := {chn s d2 port2 with state := .unbound,word := d1}) fun _ =>
    .disconnect hb.2.1 hb.2.2.1
  have he : ∀ e q, ¬Peer C (writeChn s d2 port2
      {chn s d2 port2 with state := .unbound,word := d1}) d2 port2 e q := fun e q hx =>
    nomatch (peer_writeChn_self.mp hx).2.1
  have ho : ∀ d p e q, ¬(d = d2 ∧ p = port2) → (Peer C (writeChn s d2 port2
      {chn s d2 port2 with state := .unbound,word := d1}) d p e q ↔ Peer C s d p e q) :=
    fun d p e q hn => peer_writeChn_of_ne hn
  have hold : Plain (chn (writeChn s d2 port2 {chn s d2 port2 with state := .unbound,word := d1}) d1 port1).state := by
    by_cases hx : d1 = d2 ∧ port1 = port2
    · obtain ⟨rfl,rfl⟩ := hx
      rw [chn_writeChn_self]
      exact plain_unbound
    · rw [chn_writeChn_of_ne hx]
      exact hp.2.1 ▸ plain_interdomain
  have ht : (writeChn s d2 port2 {chn s d2 port2 with state := .unbound,word := d1}).task = s.task := rfl
  generalize writeChn s d2 port2 {chn s d2 port2 with state := .unbound,word := d1} = s1 at *
  refine ⟨⟨sound_writeChn hs hold plain_free fun _ => rfl,fun d p e q hx => ?_,fun j hd => ?_,
    ht⟩,congrArg Evtchn.state chn_writeChn_self⟩
  · have hn1 : ¬(d = d1 ∧ p = port1) := by
      rintro ⟨rfl,rfl⟩
      exact nomatch (peer_writeChn_self.mp hx).2.1
    have hx1 := (peer_writeChn_of_ne hn1).mp hx
    have hn2 : ¬(d = d2 ∧ p = port2) := by
      rintro ⟨rfl,rfl⟩
      exact he e q hx1
    have ha := h.peers _ _ _ _ ((ho d p e q hn2).mp hx1)
    have hn3 : ¬(e = d1 ∧ q = port1) := by
      rintro ⟨rfl,rfl⟩
      exact hn2 (peer_unique ha hp)
    have hn4 : ¬(e = d2 ∧ q = port2) := by
      rintro ⟨rfl,rfl⟩
      exact hn1 (peer_unique ha hb)
    exact (peer_writeChn_of_ne hn3).mpr ((ho e q d p hn4).mpr ha)
  · refine (hk j hd).trans (keeps_writeChn (fun _ => ?_) j (hk j hd).isDying)
    exact .of_idle (Or.inl rfl) rfl

theorem disconnect_eq {port2 : Nat} (h : Inv C s) (hp : Peer C s d1 port1 d2 port2) :
  disconnect C s d1 port1 d2 = .closed (releasePort
    (writeChn s d2 port2 {chn s d2 port2 with state := .unbound,word := d1}) d1 port1) := by
  have hb := h.peers _ _ _ _ hp
  have hw : (chn s d1 port1).word = port2 := hp.2.2.2
  have hs : (chn s d2 port2).state = .interdomain := hb.2.1
  have hd : (chn s d2 port2).remoteDom = d1 := hb.2.2.1
  simp only [disconnect,hw]
  rw [if_neg (not_not.mpr hb.1),if_neg (not_not.mpr hs),if_neg (not_not.mpr hd)]

theorem closeSection_cases (h : Inv C s) (e : Option Nat) (lower : Bool) :
  (∃ s', closeSection C s d1 port1 e lower = .closed s' ∧ Closed C s s' d1 port1) ∨
  (closeSection C s d1 port1 e lower = .refused .einval ∧
    (portIsValid C d1 (s.domain d1) port1 → (chn s d1 port1).consumerIsXen = true ∨
      Idle (chn s d1 port1) ∨ ∃ f, e = some f ∧ ¬Towards f (chn s d1 port1))) ∨
  ∃ f, closeSection C s d1 port1 e lower = .retry f ∧ Towards f (chn s d1 port1) := by
  unfold closeSection
  by_cases ha : portIsValid C d1 (s.domain d1) port1
  swap
  · rw [if_pos ha]
    exact Or.inr (Or.inl ⟨rfl,fun hv => absurd hv ha⟩)
  rw [if_neg (not_not.mpr ha)]
  by_cases hb : (chn s d1 port1).consumerIsXen = true
  · rw [if_pos hb]
    exact Or.inr (Or.inl ⟨rfl,fun _ => Or.inl hb⟩)
  rw [if_neg hb]
  cases hs : (chn s d1 port1).state with
  | free => exact Or.inr (Or.inl ⟨rfl,fun _ => Or.inr (Or.inl (Or.inl hs))⟩)
  | reserved => exact Or.inr (Or.inl ⟨rfl,fun _ => Or.inr (Or.inl (Or.inr hs))⟩)
  | unbound => exact Or.inl ⟨_,rfl,releasePort_closed h (hs ▸ plain_unbound) (by rw [hs]; decide)⟩
  | ipi => exact Or.inl ⟨_,rfl,releasePort_closed h (hs ▸ plain_ipi) (by rw [hs]; decide)⟩
  | virq => exact Or.inl ⟨_,rfl,closeVirq_closed h hs⟩
  | pirq => exact Or.inl ⟨_,rfl,closePirq_closed h ha hs⟩
  | interdomain =>
    have hp : Peer C s d1 port1 (chn s d1 port1).remoteDom (chn s d1 port1).word := ⟨ha,hs,rfl,rfl⟩
    have hc := unbind_closed h hp
    cases e with
    | none =>
      dsimp only
      split
      · exact Or.inl ⟨_,disconnect_eq h hp,hc⟩
      · exact Or.inr (Or.inr ⟨_,rfl,Or.inr (Or.inr ⟨hs,rfl⟩)⟩)
    | some f =>
      dsimp only
      split
      · rename_i hn
        refine Or.inr (Or.inl ⟨rfl,fun _ => Or.inr (Or.inr ⟨f,rfl,?_⟩)⟩)
        rintro (hx | hx | hx)
        · simp [Idle,hs] at hx
        · cases hs.symm.trans hx.1
        · exact hn hx.2.symm
      rename_i he
      have hf : f = (chn s d1 port1).remoteDom := not_not.mp he
      rw [hf]
      exact Or.inl ⟨_,disconnect_eq h hp,hc⟩

end

section
variable {t d : Nat}

def Alone (s : State) (t d : Nat) : Prop := ∀ u l q g, s.task u = some l → l.teardown = some (d,q,g) → u = t

variable {r : State × Reply} {k : Task} {e : Option Nat} {f : Option (Option Nat)} {after : After} {lower : Bool}
  {k' : Option Task}

theorem Inv.alone (h : Inv C s) (ht : s.task t = some k) (hk : k.teardown = some (d,p,f)) : Alone s t d :=
  fun u l q g hu hl => h.single u t l k d q p g f hu ht hl hk

@[simp] theorem setTask_self {k : Option Task} : (setTask s t k).task t = k := update_self ..

theorem setTask_of_ne {u : Nat} {k : Option Task} (hu : u ≠ t) : (setTask s t k).task u = s.task u :=
  update_of_ne hu ..

variable (h : Inv C s)
include h

theorem Inv.setTask (hk : ∀ k d p f, k' = some k → k.teardown = some (d,p,f) → Closing C s d p f ∧ Alone s t d) :
  Inv C (setTask s t k') where
  sound := h.sound
  peers := h.peers
  closing u k d p f hu hf := by
    by_cases ht : u = t
    · subst ht
      rw [setTask_self] at hu
      have hc := (hk k d p f hu hf).1
      exact hc.keeps (.refl hc.isDying)
    rw [setTask_of_ne ht] at hu
    have hc := h.closing u k d p f hu hf
    exact hc.keeps (.refl hc.isDying)
  single u w k l d p q f g hu hw hk' hl := by
    by_cases ht : u = t
    · by_cases ha : w = t
      · rw [ht,ha]
      subst ht
      rw [setTask_self] at hu
      rw [setTask_of_ne ha] at hw
      exact ((hk k d p f hu hk').2 w l q g hw hl).symm
    rw [setTask_of_ne ht] at hu
    by_cases ha : w = t
    · subst ha
      rw [setTask_self] at hw
      exact (hk l d q g hw hl).2 u k p f hu hk'
    · rw [setTask_of_ne ha] at hw
      exact h.single u w k l d p q f g hu hw hk' hl

theorem Inv.setTask_plain (hk : ∀ k, k' = some k → k.teardown = none) : Inv C (EventChannel.setTask s t k') :=
  h.setTask fun k _ _ _ he hf => absurd ((hk k he).symm.trans hf) nofun

omit h in
theorem Closing.next (hc : Closing C s d p f)
  (hi : portIsValid C d (s.domain d) p → Idle (chn s d p)) : Closing C s d (p+1) none := by
  refine ⟨hc.created,hc.isDying,hc.nrBuckets,fun q hq hv => ?_,nofun,nofun⟩
  by_cases hp : q = p
  · subst hp
    exact hi hv
  · exact hc.idle q (by omega) hv

theorem continueAfter_inv (ht : s.task t = some (.close d p e after))
  (hi : after = .destroy → portIsValid C d (s.domain d) p → Idle (chn s d p)) :
  Inv C (setTask s t (continueAfter d p after)) := by
  cases after with
  | done => exact h.setTask_plain nofun
  | reset => exact h.setTask_plain fun k hk => by cases hk; rfl
  | destroy =>
    refine h.setTask fun k d' p' f hk hf => ?_
    cases hk
    cases hf
    exact ⟨(h.closing t _ _ _ _ ht rfl).next (hi rfl),h.alone ht rfl⟩

theorem closeTask_inv (ht : s.task t = some (.close d p e after))
  (hr : runTask C s t lower (.close d p e after) = some r) : Inv C r.1 ∧ ∀ q, r.2 ≠ .port q := by
  rw [runTask] at hr
  rcases closeSection_cases h e lower with ⟨s',he,hl⟩ | ⟨he,hw⟩ | ⟨f,he,ho⟩
  · rw [he] at hr
    cases hr
    refine ⟨continueAfter_inv (h.edit hl.edit) (hl.edit.task ▸ ht) fun _ _ => ?_,nofun⟩
    exact Or.inl hl.free
  · rw [he] at hr
    cases hr
    refine ⟨continueAfter_inv h ht fun ha hv => ?_,nofun⟩
    subst ha
    have hc := h.closing t _ _ _ _ ht rfl
    rcases hw hv with hx | hx | ⟨f,rfl,hx⟩
    · exact absurd ((hc.consumer e rfl).symm.trans hx) (by decide)
    · exact hx
    · exact absurd (hc.towards f rfl) hx
  · rw [he] at hr
    cases hr
    refine ⟨h.setTask fun k d' p' g hk hg => ?_,nofun⟩
    cases hk
    cases after with
    | done | reset => exact nomatch hg
    | destroy =>
      cases hg
      have hc := h.closing t _ _ _ _ ht rfl
      refine ⟨⟨hc.created,hc.isDying,hc.nrBuckets,hc.idle,fun _ _ => hc.consumer e rfl,fun g hg => ?_⟩,h.alone ht rfl⟩
      cases hg
      exact ho

theorem Edit.write_consumer : Edit C s (writeChn s i p {chn s i p with consumerIsXen := false}) :=
  .setDomain h (h.sound i).write_consumer (fun _ _ _ => write_consumer_same.peerOf) write_consumer_same.keeps

theorem replaceDomain_inv {x : Domain} (hs : Sound C d x 0)
  (he : ∀ p e q, PeerOf C d x p e q ↔ PeerOf C d (s.domain d) p e q)
  (hn : ∀ u l q f, s.task u = some l → l.teardown ≠ some (d,q,f)) : Inv C (setDomain s d x) where
  sound := sound_setDomain h.sound hs
  peers _ _ _ _ hp := (peer_setDomain he).mpr (h.peers _ _ _ _ ((peer_setDomain he).mp hp))
  closing u k e p f hu hf := by
    have hd : e ≠ d := by
      rintro rfl
      exact hn u k p f hu hf
    have hc := h.closing u k e p f hu hf
    refine hc.keeps ?_
    rw [setDomain_of_ne hd]
    exact .refl hc.isDying
  single := h.single

theorem freeBuckets_inv (ht : s.task t = some (.destroy d p)) (hp : ¬portIsValid C d (s.domain d) p) :
  Inv C (setTask (setDomain s d {s.domain d with nrBuckets := 0}) t none) := by
  have hc := h.closing t _ _ _ _ ht rfl
  have hb : ∀ q, portIsValid C d (s.domain d) q → Idle (chn s d q) := by
    intro q hq
    refine hc.idle q ?_ hq
    rw [portIsValid_iff] at hp hq
    omega
  have he : ∀ q e r, ¬PeerOf C d (s.domain d) q e r := fun q e r hx => by
    rcases hb q hx.1 with hi | hi <;> exact nomatch hi.symm.trans hx.2.1
  have hs : Sound C d {s.domain d with nrBuckets := 0} 0 := by
    refine (h.sound d).freeBuckets hc.created hc.isDying fun q hq => ?_
    rcases hb q hq with hi | hi
    all_goals exact ⟨fun hx => (nomatch hi.symm.trans hx),fun hx => (nomatch hi.symm.trans hx)⟩
  have hd : Inv C (setTask s t none) := h.setTask_plain nofun
  refine replaceDomain_inv hd hs (fun q e r => iff_of_false (fun hx => ?_) (he q e r)) fun u l q f hu hl => ?_
  · exact not_valid_of_empty rfl q hx.1
  by_cases ha : u = t
  · rw [ha,setTask_self] at hu
    exact nomatch hu
  · rw [setTask_of_ne ha] at hu
    exact ha (h.alone ht rfl u l q f hu hl)

theorem runTask_inv (ht : s.task t = some k) (hr : runTask C s t lower k = some r) :
  Inv C r.1 ∧ ∀ q, r.2 ≠ .port q := by
  cases k with
  | close d p e after => exact closeTask_inv h ht hr
  | reset d p =>
    rw [runTask] at hr
    split at hr
    · cases hr
      exact ⟨h.setTask_plain fun k hk => by cases hk; rfl,nofun⟩
    · cases hr
      exact ⟨h.setTask_plain nofun,nofun⟩
  | destroy d p =>
    rw [runTask] at hr
    split at hr
    · cases hr
      have he : Edit C s (writeChn s d p {chn s d p with consumerIsXen := false}) := .write_consumer h
      have hi := h.edit he
      refine ⟨hi.setTask fun k d' p' f hk hf => ?_,nofun⟩
      cases hk
      cases hf
      have hc := hi.closing t _ _ _ _ ht rfl
      refine ⟨⟨hc.created,hc.isDying,hc.nrBuckets,hc.idle,fun _ _ => ?_,nofun⟩,hi.alone ht rfl⟩
      rw [chn_writeChn_self]
    rename_i hp
    cases hr
    exact ⟨freeBuckets_inv h ht hp,nofun⟩

theorem kill_inv (hc : (s.domain i).created = true) (hd : (s.domain i).isDying = false) :
  Inv C (setTask (setDomain s i {s.domain i with isDying := true}) t (some (.destroy i 0))) := by
  have he : Edit C s (setDomain s i {s.domain i with isDying := true}) :=
    .setDomain h ((h.sound i).kill hc) (fun _ _ _ => Iff.rfl) fun hx => absurd (hd.symm.trans hx) (by decide)
  refine (h.edit he).setTask fun k d p f hk hf => ?_
  cases hk
  cases hf
  refine ⟨⟨?_,?_,?_,nofun,nofun,nofun⟩,fun u l q g hu hl => ?_⟩
  · rw [setDomain_self]
    exact hc
  · rw [setDomain_self]
  · rw [setDomain_self]
    exact (h.sound i).alive hc hd
  · exact absurd (hd.symm.trans (h.closing u l i q g hu hl).isDying) (by decide)

theorem discard_inv (hn : (s.domain i).nrBuckets = 0) : Inv C (setDomain s i .zero) := by
  refine replaceDomain_inv h sound_zero (fun p e q => iff_of_false (fun hx => ?_) fun hx => ?_) fun u l q f hu hl => ?_
  · exact not_valid_of_empty rfl p hx.1
  · exact not_valid_of_empty hn p hx.1
  · exact absurd (hn ▸ (h.closing u l i q f hu hl).nrBuckets) (Nat.lt_irrefl 0)

end

def newDomain : Domain := (addBucket {Domain.zero with created := true}).write 0 {Evtchn.zero with state := .reserved}

theorem newDomain_evtchn (p : Nat) :
  newDomain.evtchn p = if p = 0 then {Evtchn.zero with state := .reserved} else .zero := by
  by_cases hp : p = 0
  · rw [if_pos hp,hp]
    exact write_self
  · rw [if_neg hp]
    exact (write_of_ne hp).trans (ite_self _)

theorem sound_newDomain : Sound C i newDomain 0 := by
  refine .of_unbound (fun _ _ => rfl) (fun _ => rfl) (fun _ => rfl) (fun p _ => ?_) (fun p _ _ => ?_)
    (fun _ => rfl) (fun _ _ => Nat.one_pos) nofun ?_
  · rw [newDomain_evtchn]
    split <;> exact ⟨nofun,nofun⟩
  · rw [newDomain_evtchn]
    split <;> rfl
  · have hm := maxEvtchns_cases C i
    change 128*(0+1) ≤ _
    omega

theorem getFreePort_empty {mem : Bool} {d : Domain} {p : Nat}
  (hg : getFreePort C i {Domain.zero with created := true} mem = .ok (d,p)) :
  d = addBucket {Domain.zero with created := true} ∧ p = 0 := by
  have he : portEnd C i {Domain.zero with created := true} = 0 := Nat.min_zero _
  have hf : findFree C i {Domain.zero with created := true} = none := by
    rw [findFree,he]
    rfl
  have hd : ({Domain.zero with created := true} : Domain).isDying = false := rfl
  rw [getFreePort,hd,if_neg Bool.false_ne_true,hf,he] at hg
  dsimp only at hg
  split at hg
  · cases hg
  split at hg
  · cases hg
    exact ⟨rfl,rfl⟩
  · cases hg

theorem evtchnInit_good {env : Env} (h : Inv C s) (hc : (s.domain i).created = false) :
  Good C s (evtchnInit C s i env) := by
  rw [evtchnInit]
  split
  · exact .error h _
  rename_i d port hg
  obtain ⟨rfl,rfl⟩ := getFreePort_empty hg
  rw [if_neg (not_not.mpr rfl)]
  obtain ⟨hd,hn⟩ := (h.sound i).absent hc
  refine ⟨.setDomain h sound_newDomain (fun p e q => iff_of_false (fun hx => ?_) fun hx => ?_)
    fun hx => absurd (hd.symm.trans hx) (by decide),nofun⟩
  · have hs : (newDomain.evtchn p).state = .interdomain := hx.2.1
    rw [newDomain_evtchn] at hs
    split at hs <;> exact nomatch hs
  · exact not_valid_of_empty hn p hx.1

section

variable {r : State × Reply}

theorem Good.keeps (hg : Good C s r) (h : Inv C s) : Inv C r.1 ∧ ∀ p, r.2 = .port p → p ≠ 0 := ⟨h.edit hg.edit,hg.port⟩

theorem guarded_eq {b : Bool} {r' : State × Reply} (hg : guarded b r = some r') : b = true ∧ r = r' := by
  rw [guarded] at hg
  split at hg
  · exact ⟨by assumption,some.inj hg⟩
  · exact nomatch hg

theorem perform_inv {a : Action} (h : Inv C s) (hr : perform C s a = some r) :
  Inv C r.1 ∧ ∀ p, r.2 = .port p → p ≠ 0 := by
  cases a with
  | create i env =>
    obtain ⟨hc,rfl⟩ := guarded_eq hr
    exact (evtchnInit_good h (by simpa using hc)).keeps h
  | allocUnbound current i remote env =>
    obtain ⟨hc,rfl⟩ := guarded_eq hr
    exact (allocUnbound_good h hc current remote).keeps h
  | bindInterdomain ld rd rport env =>
    obtain ⟨hc,rfl⟩ := guarded_eq hr
    rw [Bool.and_eq_true] at hc
    exact (bindInterdomain_good h hc.1).keeps h
  | bindVirq i virq vcpu env =>
    obtain ⟨hc,rfl⟩ := guarded_eq hr
    exact (bindVirq_good h hc virq vcpu).keeps h
  | bindIpi i vcpu env =>
    obtain ⟨hc,rfl⟩ := guarded_eq hr
    exact (bindIpi_good h hc vcpu).keeps h
  | bindPirq i pirq env =>
    obtain ⟨hc,rfl⟩ := guarded_eq hr
    exact (bindPirq_good h hc pirq).keeps h
  | bindVcpu i port vcpu =>
    obtain ⟨-,rfl⟩ := guarded_eq hr
    exact (bindVcpu_good h port vcpu).keeps h
  | close t i port | reset t i =>
    obtain ⟨-,rfl⟩ := guarded_eq hr
    exact ⟨h.setTask_plain fun k hk => by cases hk; rfl,nofun⟩
  | allocXen i vcpu remote env =>
    obtain ⟨hc,rfl⟩ := guarded_eq hr
    exact (allocUnboundXen_good h hc vcpu remote).keeps h
  | freeXen t i port =>
    rw [perform] at hr
    split at hr
    · exact nomatch hr
    split at hr
    · cases hr
      exact ⟨h,nofun⟩
    split at hr
    · exact nomatch hr
    split at hr
    · exact nomatch hr
    · cases hr
      exact ⟨(h.edit (.write_consumer h)).setTask_plain fun k hk => by cases hk; rfl,nofun⟩
  | kill t i =>
    obtain ⟨hc,rfl⟩ := guarded_eq hr
    simp only [Bool.and_eq_true,Bool.not_eq_true'] at hc
    exact ⟨kill_inv h hc.1.2 hc.2,nofun⟩
  | resume t lower =>
    obtain ⟨k,ht,hk⟩ := bind_eq_some_iff.mp hr
    obtain ⟨hi,ho⟩ := runTask_inv h ht hk
    exact ⟨hi,fun p hp => absurd hp (ho p)⟩
  | discard i =>
    obtain ⟨hc,rfl⟩ := guarded_eq hr
    simp only [Bool.and_eq_true,beq_iff_eq] at hc
    exact ⟨discard_inv h hc.2,nofun⟩

theorem initial_inv : Inv C initial where
  sound _ := sound_zero
  peers _ p _ _ hp := absurd hp.1 (not_valid_of_empty rfl p)
  closing := nofun
  single := nofun

theorem reach_inv (hr : Reach (step C) (fun _ _ => True) initial s) : Inv C s := by
  refine reach_invariant initial_inv (fun u a v _ hu _ hs => ?_) hr
  obtain ⟨r,hr,rfl⟩ := map_eq_some_iff.mp hs
  exact (perform_inv hu hr).1

-- A critical section that is due can run: no BUG_ON of a close fires.
theorem resume_defined {t : Nat} (hr : Reach (step C) (fun _ _ => True) initial s) (ht : (s.task t).isSome = true)
  (lower : Bool) : (perform C s (.resume t lower)).isSome = true := by
  obtain ⟨k,hk⟩ := isSome_iff_exists.mp ht
  rw [perform,hk,bind_some]
  cases k with
  | close d p e after =>
    rw [runTask]
    rcases closeSection_cases (reach_inv hr) e lower with ⟨s',he,-⟩ | ⟨he,-⟩ | ⟨f,he,-⟩ <;> rw [he] <;> rfl
  | reset d p | destroy d p =>
    rw [runTask]
    split <;> rfl

theorem event_channel_bindings (C : Config) (s : State) (hr : Reach (step C) (fun _ _ => True) initial s) :
  (∀ d p e q, Peer C s d p e q ↔ Peer C s e q d p) ∧
  (∀ i v n p, ((s.domain i).virqToEvtchn v n = p ∧ p ≠ 0) ↔ VirqBound C i (s.domain i) v n p) ∧
  (∀ i n p, ((s.domain i).pirqToEvtchn n = p ∧ p ≠ 0) ↔ PirqBound C i (s.domain i) n p) ∧
  (∀ i v, ∃ L, BackLinked.Chain (nextOf (s.domain i)) (prevOf (s.domain i))
    ((s.domain i).pirqEvtchnHead v) L ∧ ∀ p, p ∈ L ↔ PirqOn C i (s.domain i) v p) ∧
  (∀ i p, portIsValid C i (s.domain i) p → (chn s i p).state = .free → (chn s i p).notifyVcpuId = 0) ∧
  ∀ a s' p, perform C s a = some (s',.port p) → p ≠ 0 := by
  have h := reach_inv hr
  refine ⟨fun d p e q => ⟨h.peers d p e q,h.peers e q d p⟩,fun i => (h.sound i).virq,
    fun i => (h.sound i).pirq,fun i v => ?_,fun i => (h.sound i).free,fun a s' p hp => (perform_inv h hp).2 p rfl⟩
  obtain ⟨L,hL,hm⟩ := (h.sound i).chains v
  refine ⟨L,hL,fun p => (hm p).trans (and_iff_left_of_imp fun hp => ?_)⟩
  rintro rfl
  exact (h.sound i).zero_not_pirq v hp

def sampleConfig : Config where
  has32bitShinfo _ := false
  hasVcpu _ v := v < 2
  isHvm _ := false
  nrPirqs _ := 16
  nrPirqs_le _ := by decide

def granted : Env := ⟨true,none,true,none⟩

def pairedRun : List Action := [.create 0 granted,.create 1 granted,.allocUnbound 0 0 (some 1) granted,
    .bindInterdomain 1 0 1 granted]

def pairedState : State := (runIf (step sampleConfig) (fun _ _ => true) initial pairedRun).get (by decide +kernel)

theorem bound_pair_is_mutual : Peer sampleConfig pairedState 1 1 0 1 ∧ Peer sampleConfig pairedState 0 1 1 1 := by
  have hr : Reach (step sampleConfig) (fun _ _ => True) initial pairedState :=
    reach_get (fun _ _ _ => trivial) _
  have hp : Peer sampleConfig pairedState 1 1 0 1 :=
    ⟨by decide +kernel,by decide +kernel,by decide +kernel,by decide +kernel⟩
  exact ⟨hp,((event_channel_bindings sampleConfig pairedState hr).1 1 1 0 1).mp hp⟩

theorem paired_close_runs : (perform sampleConfig ((runIf (step sampleConfig) (fun _ _ => true) initial
    (pairedRun ++ [.close 0 1 1])).get (by decide +kernel)) (.resume 0 true)).isSome = true :=
  resume_defined (reach_get (fun _ _ _ => trivial) _) (by decide +kernel) true

def reboundRun : List Action := [.create 0 granted,.bindVirq 0 2 0 granted,.bindVcpu 0 1 1]

def reboundState : State := (runIf (step sampleConfig) (fun _ _ => true) initial reboundRun).get (by decide +kernel)

theorem rebound_global_virq : ¬∀ s, Reach (step sampleConfig) (fun _ _ => True) initial s → ∀ i v n p,
    ((s.domain i).virqToEvtchn v n = p ∧ p ≠ 0) ↔
      portIsValid sampleConfig i (s.domain i) p ∧ (chn s i p).state = .virq ∧ (chn s i p).word = n ∧
        (chn s i p).notifyVcpuId = v := by
  intro ha
  have hr : Reach (step sampleConfig) (fun _ _ => True) initial reboundState :=
    reach_get (fun _ _ _ => trivial) _
  have hm : (reboundState.domain 0).virqToEvtchn 0 2 = 1 := by decide +kernel
  have hn : (chn reboundState 0 1).notifyVcpuId = 1 := by decide +kernel
  have hb := (ha reboundState hr 0 0 2 1).mp ⟨hm,by decide⟩
  exact absurd (hn.symm.trans hb.2.2.2) (by decide)

end

end EventChannel
