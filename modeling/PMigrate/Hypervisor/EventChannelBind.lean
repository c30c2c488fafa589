import PMigrate.Hypervisor.EventChannelSound

namespace EventChannel
open Transition Function

def PeerOf (C : Config) (i : Nat) (d : Domain) (p e q : Nat) : Prop :=
  portIsValid C i d p ∧ (d.evtchn p).state = .interdomain ∧ (d.evtchn p).remoteDom = e ∧ (d.evtchn p).word = q

def Peer (C : Config) (s : State) (d p e q : Nat) : Prop := PeerOf C d (s.domain d) p e q

def Idle (c : Evtchn) : Prop := c.state = .free ∨ c.state = .reserved

def Towards (e : Nat) (c : Evtchn) : Prop :=
  Idle c ∨ (c.state = .unbound ∧ c.word = e) ∨ (c.state = .interdomain ∧ c.remoteDom = e)

structure KeepsPort (c c' : Evtchn) : Prop where
  consumer : c.consumerIsXen = false → c'.consumerIsXen = false
  idle : Idle c → Idle c'
  towards : ∀ e, Towards e c → Towards e c'

structure KeepsDomain (d d' : Domain) : Prop where
  created : d'.created = d.created
  isDying : d'.isDying = true
  nrBuckets : d'.nrBuckets = d.nrBuckets
  port : ∀ p, KeepsPort (d.evtchn p) (d'.evtchn p)

def Task.teardown : Task → Option (Nat × Nat × Option (Option Nat))
  | .destroy d p => some (d,p,none)
  | .close d p e .destroy => some (d,p,some e)
  | _ => none

structure Closing (C : Config) (s : State) (d p : Nat) (phase : Option (Option Nat)) : Prop where
  created : (s.domain d).created = true
  isDying : (s.domain d).isDying = true
  nrBuckets : 0 < (s.domain d).nrBuckets
  idle : ∀ q, q < p → portIsValid C d (s.domain d) q → Idle (chn s d q)
  consumer : ∀ e, phase = some e → (chn s d p).consumerIsXen = false
  towards : ∀ e, phase = some (some e) → Towards e (chn s d p)

structure Inv (C : Config) (s : State) : Prop where
  sound : ∀ i, Sound C i (s.domain i) 0
  peers : ∀ d p e q, Peer C s d p e q → Peer C s e q d p
  closing : ∀ t k d p f, s.task t = some k → k.teardown = some (d,p,f) → Closing C s d p f
  single : ∀ t u k l d p q f g, s.task t = some k → s.task u = some l →
    k.teardown = some (d,p,f) → l.teardown = some (d,q,g) → t = u

structure Edit (C : Config) (s s' : State) : Prop where
  sound : ∀ i, Sound C i (s'.domain i) 0
  peers : ∀ d p e q, Peer C s' d p e q → Peer C s' e q d p
  keeps : ∀ i, (s.domain i).isDying = true → KeepsDomain (s.domain i) (s'.domain i)
  task : s'.task = s.task

variable {C : Config} {s : State} {i p : Nat} {d d' : Domain} {c : Evtchn}

section
variable {s' : State} {c' : Evtchn}

theorem KeepsPort.refl : KeepsPort c c := ⟨id,id,fun _ => id⟩

theorem KeepsPort.of_same (hs : c'.state = c.state) (hw : c'.word = c.word)
  (hd : c'.remoteDom = c.remoteDom) (hc : c.consumerIsXen = false → c'.consumerIsXen = false) : KeepsPort c c' := by
  refine ⟨hc,fun h => ?_,fun e h => ?_⟩
  · rwa [Idle,hs]
  · rwa [Towards,Idle,hs,hw,hd]

theorem KeepsPort.of_idle (hc : Idle c') (ho : c'.consumerIsXen = c.consumerIsXen) : KeepsPort c c' :=
  ⟨fun h => ho.trans h,fun _ => hc,fun _ _ => Or.inl hc⟩

theorem KeepsDomain.refl (hd : d.isDying = true) : KeepsDomain d d := ⟨rfl,hd,rfl,fun _ => .refl⟩

theorem KeepsDomain.write (hd : d.isDying = true) (hc : KeepsPort (d.evtchn p) c) : KeepsDomain d (d.write p c) := by
  refine ⟨rfl,hd,rfl,fun q => ?_⟩
  by_cases hq : q = p
  · subst hq
    rw [write_self]
    exact hc
  · rw [write_of_ne hq]
    exact .refl

theorem SameBindings.keeps (hs : SameBindings d d') (hd : d.isDying = true) : KeepsDomain d d' :=
  ⟨hs.created,hs.isDying.trans hd,hs.nrBuckets,fun p =>
    .of_same (hs.state p) (hs.word p) (hs.remoteDom p) (hs.consumer p)⟩

theorem KeepsPort.trans {c'' : Evtchn} (h : KeepsPort c c') (h' : KeepsPort c' c'') : KeepsPort c c'' :=
  ⟨h'.consumer ∘ h.consumer,h'.idle ∘ h.idle,fun e => h'.towards e ∘ h.towards e⟩

theorem KeepsDomain.trans {d'' : Domain} (h : KeepsDomain d d') (h' : KeepsDomain d' d'') : KeepsDomain d d'' :=
  ⟨h'.created.trans h.created,h'.isDying,h'.nrBuckets.trans h.nrBuckets,fun p => (h.port p).trans (h'.port p)⟩

theorem Closing.keeps {f : Option (Option Nat)} (h : Closing C s i p f)
  (hk : KeepsDomain (s.domain i) (s'.domain i)) : Closing C s' i p f where
  created := hk.created.trans h.created
  isDying := hk.isDying
  nrBuckets := hk.nrBuckets ▸ h.nrBuckets
  idle q hq hv := by
    rw [portIsValid,hk.nrBuckets] at hv
    exact (hk.port q).idle (h.idle q hq hv)
  consumer e hf := (hk.port p).consumer (h.consumer e hf)
  towards e hf := (hk.port p).towards e (h.towards e hf)

theorem Inv.edit (h : Inv C s) (he : Edit C s s') : Inv C s' where
  sound := he.sound
  peers := he.peers
  closing t k d p f ht hk := by
    have hc := h.closing t k d p f (he.task ▸ ht) hk
    exact hc.keeps (he.keeps d hc.isDying)
  single t u k l d p q f g ht hu := h.single t u k l d p q f g (he.task ▸ ht) (he.task ▸ hu)

end

section
variable {q e : Nat}

@[simp] theorem setDomain_self : (setDomain s i d).domain i = d := update_self ..

variable {j r : Nat}

theorem setDomain_of_ne (hj : j ≠ i) : (setDomain s i d).domain j = s.domain j := update_of_ne hj ..

theorem SameBindings.peerOf (h : SameBindings d d') : PeerOf C i d' p e q ↔ PeerOf C i d p e q := by
  rw [PeerOf,PeerOf,h.valid,h.state,h.remoteDom,h.word]

theorem peerOf_write_of_ne (hr : r ≠ p) : PeerOf C i (d.write p c) r e q ↔ PeerOf C i d r e q := by
  rw [PeerOf,PeerOf,write_of_ne hr]
  rfl

theorem peerOf_write (hold : (d.evtchn p).state ≠ .interdomain)
  (hn : c.state ≠ .interdomain) : PeerOf C i (d.write p c) r e q ↔ PeerOf C i d r e q := by
  by_cases hr : r = p
  · subst hr
    refine iff_of_false (fun h => hn ?_) fun h => hold h.2.1
    rw [← h.2.1,write_self]
  · exact peerOf_write_of_ne hr

theorem peerOf_write_congr (hs : c.state = (d.evtchn p).state)
  (hd : c.remoteDom = (d.evtchn p).remoteDom) (hw : c.word = (d.evtchn p).word) :
  PeerOf C i (d.write p c) r e q ↔ PeerOf C i d r e q := by
  by_cases hr : r = p
  · subst hr
    rw [PeerOf,PeerOf,write_self,hs,hd,hw]
    rfl
  · exact peerOf_write_of_ne hr

theorem sound_setDomain (h : ∀ j, Sound C j (s.domain j) 0) (hs : Sound C i d 0) (j : Nat) :
  Sound C j ((setDomain s i d).domain j) 0 := by
  by_cases hj : j = i
  · subst hj
    rwa [setDomain_self]
  · rw [setDomain_of_ne hj]
    exact h j

theorem peer_setDomain (hp : ∀ p e q, PeerOf C i d p e q ↔ PeerOf C i (s.domain i) p e q) :
  Peer C (setDomain s i d) j p e q ↔ Peer C s j p e q := by
  by_cases hj : j = i
  · subst hj
    rw [Peer,setDomain_self]
    exact hp p e q
  · rw [Peer,setDomain_of_ne hj]
    rfl

theorem Edit.setDomain (h : Inv C s) (hs : Sound C i d 0)
  (he : ∀ p e q, PeerOf C i d p e q ↔ PeerOf C i (s.domain i) p e q)
  (hk : (s.domain i).isDying = true → KeepsDomain (s.domain i) d) : Edit C s (setDomain s i d) := by
  refine ⟨sound_setDomain h.sound hs,fun j p e q hp => ?_,fun j hd => ?_,rfl⟩
  · exact (peer_setDomain he).mpr (h.peers _ _ _ _ ((peer_setDomain he).mp hp))
  by_cases hj : j = i
  · subst hj
    rw [setDomain_self]
    exact hk hd
  · rw [setDomain_of_ne hj]
    exact .refl hd

end

theorem portIsValid_iff : portIsValid C i d p ↔ p < portEnd C i d := by
  rw [portIsValid,portEnd,evtchnsPerBucket]
  omega

theorem maxEvtchns_cases (C : Config) (i : Nat) : maxEvtchns C i = 1024 ∨ maxEvtchns C i = 4096 := by
  rw [maxEvtchns]
  split
  · exact Or.inl rfl
  · exact Or.inr rfl

theorem lt_of_valid (hp : portIsValid C i d p) : p < 65536 := by
  have hm := maxEvtchns_cases C i
  have hl := hp.1
  omega

theorem valid_addBucket : portIsValid C i (addBucket d) p ↔
  portIsValid C i d p ∨ (p < maxEvtchns C i ∧ p/evtchnsPerBucket = d.nrBuckets) := by
  simp only [portIsValid,addBucket]
  omega

theorem addBucket_old (hp : portIsValid C i d p) : (addBucket d).evtchn p = d.evtchn p :=
  if_neg (Nat.ne_of_lt hp.2)

theorem addBucket_new (hp : p/evtchnsPerBucket = d.nrBuckets) : (addBucket d).evtchn p = .zero := if_pos hp

theorem addBucket_valid_iff {P : Evtchn → Prop} (hz : ¬P .zero) :
  (portIsValid C i (addBucket d) p ∧ P ((addBucket d).evtchn p)) ↔ (portIsValid C i d p ∧ P (d.evtchn p)) := by
  rw [valid_addBucket]
  constructor
  · rintro ⟨hv | hv,hp⟩
    · exact ⟨hv,addBucket_old hv ▸ hp⟩
    · exact absurd (addBucket_new hv.2 ▸ hp) hz
  · rintro ⟨hv,hp⟩
    exact ⟨Or.inl hv,(addBucket_old hv).symm ▸ hp⟩

theorem addBucket_chains (h : Sound C i d 0) : Chains C i (addBucket d) 0 := by
  intro v
  obtain ⟨L,hL,hm⟩ := h.chains v
  have hold : ∀ y ∈ L, (addBucket d).evtchn y = d.evtchn y := fun y hy =>
    addBucket_old ((hm y).mp hy).1.1
  refine ⟨L,hL.congr (fun y hy => ?_) fun y hy => ?_,fun p => (hm p).trans (and_congr_left fun _ => ?_)⟩
  · rw [nextOf,hold y hy,nextOf]
  · rw [prevOf,hold y hy,prevOf]
  · exact (addBucket_valid_iff (P := fun c => c.state = .pirq ∧ c.notifyVcpuId = v) (by simp [Evtchn.zero])).symm

theorem Sound.addBucket (h : Sound C i d 0) (hc : d.created = true) (hd : d.isDying = false)
  (hr : portEnd C i d ≠ maxEvtchns C i) : Sound C i (addBucket d) 0 where
  virq v n p := (h.virq v n p).trans (addBucket_valid_iff
    (P := fun c => c.state = .virq ∧ c.word = n ∧ v = if virqIsGlobal n then 0 else c.notifyVcpuId)
    (by simp [Evtchn.zero])).symm
  pirq n p := (h.pirq n p).trans (addBucket_valid_iff
    (P := fun c => c.state = .pirq ∧ c.word = n) (by simp [Evtchn.zero])).symm
  chains := addBucket_chains h
  free p hv hf := by
    rcases valid_addBucket.mp hv with hp | hp
    · rw [addBucket_old hp] at hf ⊢
      exact h.free p hp hf
    · rw [addBucket_new hp.2]
      rfl
  zero hv := by
    rcases valid_addBucket.mp hv with hp | hp
    · rw [addBucket_old hp]
      exact h.zero hp
    have ho := h.alive hc hd
    rw [Nat.zero_div] at hp
    exact absurd hp.2.symm (Nat.ne_of_gt ho)
  alive _ _ := Nat.succ_pos _
  absent hn := absurd (hc.symm.trans hn) (by decide)
  room := by
    have hm := maxEvtchns_cases C i
    have hold := h.room
    simp only [portEnd,evtchnsPerBucket] at hr hold
    simp only [EventChannel.addBucket,evtchnsPerBucket]
    omega

structure Fresh (C : Config) (i : Nat) (d d' : Domain) (p : Nat) : Prop where
  alive : d.isDying = false
  sound : Sound C i d' 0
  peers : ∀ r e q, PeerOf C i d' r e q ↔ PeerOf C i d r e q
  valid : portIsValid C i d' p
  free : (d'.evtchn p).state = .free
  virqToEvtchn : d'.virqToEvtchn = d.virqToEvtchn
  pirqToEvtchn : d'.pirqToEvtchn = d.pirqToEvtchn
  isDying : d'.isDying = d.isDying

theorem getFreePort_fresh {mem : Bool} (h : Sound C i d 0) (hc : d.created = true)
  (hg : getFreePort C i d mem = .ok (d',p)) : Fresh C i d d' p := by
  rw [getFreePort] at hg
  split at hg
  · exact nomatch hg
  rename_i hy
  have hd : d.isDying = false := Bool.eq_false_iff.mpr hy
  split at hg
  · rename_i q hf
    obtain ⟨rfl,rfl⟩ : d = d' ∧ q = p := by simpa using hg
    have hm := List.mem_range.mp (List.mem_of_find?_eq_some hf)
    exact ⟨hd,h,fun _ _ _ => Iff.rfl,portIsValid_iff.mpr hm,by simpa using List.find?_some hf,rfl,rfl,rfl⟩
  split at hg
  · exact nomatch hg
  rename_i hr
  split at hg
  · obtain ⟨rfl,rfl⟩ : addBucket d = d' ∧ portEnd C i d = p := by simpa using hg
    have hb : portEnd C i d/evtchnsPerBucket = d.nrBuckets := by
      have hold := h.room
      simp only [portEnd,evtchnsPerBucket] at hr hold ⊢
      omega
    have hl : portEnd C i d < maxEvtchns C i := Nat.lt_of_le_of_ne (Nat.min_le_left ..) hr
    refine ⟨hd,h.addBucket hc hd hr,fun r e q => ?_,valid_addBucket.mpr (Or.inr ⟨hl,hb⟩),?_,rfl,rfl,rfl⟩
    · exact addBucket_valid_iff
        (P := fun c => c.state = .interdomain ∧ c.remoteDom = e ∧ c.word = q) (by simp [Evtchn.zero])
    · rw [addBucket_new hb]
      rfl
  · exact nomatch hg

theorem Fresh.ne_zero (h : Fresh C i d d' p) : p ≠ 0 := h.sound.ne_zero h.valid (by rw [h.free]; decide)

theorem Fresh.edit (h : Inv C s) (hf : Fresh C i (s.domain i) d' p) : Edit C s (setDomain s i d') :=
  .setDomain h hf.sound hf.peers fun hd => absurd (hf.alive.symm.trans hd) (by decide)

theorem Fresh.bind {d'' : Domain} (h : Inv C s) (hf : Fresh C i (s.domain i) d' p)
  (hs : Sound C i d'' 0) (hp : ∀ r e q, PeerOf C i d'' r e q ↔ PeerOf C i d' r e q) : Edit C s (setDomain s i d'') :=
  .setDomain h hs (fun r e q => (hp r e q).trans (hf.peers r e q)) fun hd => absurd (hf.alive.symm.trans hd) (by decide)

theorem Fresh.write (h : Inv C s) (hf : Fresh C i (s.domain i) d' p) (hc : Plain c.state)
  (hr : c.state ≠ .free) (hp : c.state ≠ .interdomain) : Edit C s (setDomain s i (d'.write p c)) := by
  have hold : Plain (d'.evtchn p).state := by rw [hf.free]; decide
  refine hf.bind h (hf.sound.write_plain hold hc fun hs => absurd hs hr) fun r e q => ?_
  exact peerOf_write (by rw [hf.free]; decide) hp

theorem plain_unbound : Plain .unbound := by decide

theorem plain_ipi : Plain .ipi := by decide

theorem plain_interdomain : Plain .interdomain := by decide

theorem plain_free : Plain .free := by decide

section
variable {env : Env}

structure Good (C : Config) (s : State) (r : State × Reply) : Prop where
  edit : Edit C s r.1
  port : ∀ p, r.2 = .port p → p ≠ 0

variable (h : Inv C s)
include h

theorem Edit.refl : Edit C s s := ⟨h.sound,h.peers,fun _ hd => .refl hd,rfl⟩

theorem Good.error (e : Errno) : Good C s (s,.error e) := ⟨.refl h,nofun⟩

omit h in
theorem Fresh.good {d d' : Domain} {p : Nat} {s' : State} (hf : Fresh C i d d' p) (he : Edit C s s') :
  Good C s (s',.port p) :=
  ⟨he,fun _ hq => Reply.port.inj hq ▸ hf.ne_zero⟩

variable (hc : (s.domain i).created = true)
include hc

theorem allocUnbound_good (current : Nat) (remote : Option Nat) : Good C s (allocUnbound C s current i remote env) := by
  rw [allocUnbound]
  split
  · exact .error h _
  rename_i d port hg
  have hf := getFreePort_fresh (h.sound i) hc hg
  split
  · exact ⟨hf.edit h,nofun⟩
  · exact hf.good (hf.write h plain_unbound nofun nofun)

theorem allocUnboundXen_good (vcpu remote : Nat) : Good C s (allocUnboundXen C s i vcpu remote env) := by
  rw [allocUnboundXen]
  split
  · exact .error h _
  rename_i d port hg
  have hf := getFreePort_fresh (h.sound i) hc hg
  exact hf.good (hf.write h plain_unbound nofun nofun)

theorem bindIpi_good (vcpu : Nat) : Good C s (bindIpi C s i vcpu env) := by
  rw [bindIpi]
  split
  · exact .error h _
  split
  · exact .error h _
  rename_i d port hg
  have hf := getFreePort_fresh (h.sound i) hc hg
  exact hf.good (hf.write h plain_ipi nofun nofun)

theorem bindVirq_good (virq vcpu : Nat) : Good C s (bindVirq C s i virq vcpu env) := by
  rw [bindVirq]
  split
  · exact .error h _
  split
  · exact .error h _
  rename_i hl
  split
  · exact .error h _
  split
  · exact .error h _
  rename_i hm
  split
  · exact .error h _
  rename_i d port hg
  have hf := getFreePort_fresh (h.sound i) hc hg
  have hm' : d.virqToEvtchn vcpu virq = 0 := by
    rw [hf.virqToEvtchn]
    exact not_not.mp hm
  refine hf.good (hf.bind h (hf.sound.bindVirq hf.valid hf.free hm' fun hg => ?_) fun r e q => ?_)
  · exact not_not.mp fun hn => hl ⟨hg,hn⟩
  · exact peerOf_write (c := {d.evtchn port with state := .virq,notifyVcpuId := vcpu,word := virq})
      (by rw [hf.free]; decide) nofun

theorem bindPirq_good (pirq : Nat) : Good C s (bindPirq C s i pirq env) := by
  rw [bindPirq]
  split
  · exact .error h _
  rename_i hl
  split
  · exact .error h _
  split
  · exact .error h _
  rename_i hm
  split
  · exact .error h _
  rename_i d port hg
  have hf := getFreePort_fresh (h.sound i) hc hg
  have hm' : d.pirqToEvtchn pirq = 0 := by
    rw [hf.pirqToEvtchn]
    exact not_not.mp hm
  dsimp only
  split
  · refine ⟨?_,fun _ h => by cases h⟩
    have hb : recordPirq (recordPirq d pirq port) pirq 0 = d := by
      simp only [recordPirq,update_idem]
      rw [← hm',update_eq_self]
    rw [hb]
    exact hf.edit h
  have ho : pirq%65536 = pirq :=
    Nat.mod_eq_of_lt (Nat.lt_of_lt_of_le (Nat.lt_of_not_le hl) (C.nrPirqs_le i))
  rw [ho]
  refine hf.good (hf.bind h (hf.sound.bindPirq hf.valid hf.free hm') fun r e q => ?_)
  exact linkPirqPort_same.peerOf.trans (peerOf_write (by rw [recordPirq,hf.free]; decide) fun h => by cases h)

omit hc

theorem Edit.write_notify {p : Nat} (vcpu : Nat)
  (hs : Sound C i ((s.domain i).write p {chn s i p with notifyVcpuId := vcpu}) 0) :
  Edit C s (writeChn s i p {chn s i p with notifyVcpuId := vcpu}) :=
  .setDomain h hs (fun _ _ _ => peerOf_write_congr rfl rfl rfl) fun hd => .write hd (.of_same rfl rfl rfl id)

theorem Edit.write_notify_plain {p : Nat} (vcpu : Nat) (hs : Plain (chn s i p).state)
  (hr : (chn s i p).state ≠ .free) : Edit C s (writeChn s i p {chn s i p with notifyVcpuId := vcpu}) :=
  .write_notify h vcpu ((h.sound i).write_plain hs hs fun hf => absurd hf hr)

theorem Edit.rebindPirq {port : Nat} (hv : portIsValid C i (s.domain i) port)
  (hs : (chn s i port).state = .pirq) (vcpu : Nat) {d : Domain}
  (hd : unlinkPirqPort (s.domain i) port (chn s i port).notifyVcpuId = d) : Edit C s (EventChannel.setDomain s i
    (linkPirqPort (d.write port {d.evtchn port with notifyVcpuId := vcpu}) port vcpu)) := by
  have hu : SameBindings (s.domain i) d := hd ▸ unlinkPirqPort_same
  have ho : Sound C i (linkPirqPort (d.write port {d.evtchn port with notifyVcpuId := vcpu}) port vcpu) 0 := by
    subst hd
    exact (h.sound i).rebindPirq hv hs vcpu
  refine .setDomain h ho (fun r e q => ?_) fun hy => ?_
  · refine linkPirqPort_same.peerOf.trans (Iff.trans (b := PeerOf C i d r e q) ?_ hu.peerOf)
    exact peerOf_write_congr rfl rfl rfl
  have hk := hu.keeps hy
  have hw : KeepsDomain d (d.write port {d.evtchn port with notifyVcpuId := vcpu}) :=
    .write hk.isDying (.of_same rfl rfl rfl id)
  exact hk.trans (hw.trans (linkPirqPort_same.keeps hw.isDying))

theorem bindVcpu_good (port vcpu : Nat) : Good C s (bindVcpu C s i port vcpu) := by
  rw [bindVcpu]
  split
  · exact .error h _
  split
  · exact .error h _
  rename_i hv
  split
  · exact .error h _
  split
  · rename_i hs
    split_ifs with hg
    · exact ⟨.write_notify h vcpu ((h.sound i).write_global hs hg vcpu),nofun⟩
    · exact .error h _
  · rename_i hs
    exact ⟨.write_notify_plain h vcpu (hs ▸ plain_unbound) (by rw [hs]; decide),nofun⟩
  · rename_i hs
    exact ⟨.write_notify_plain h vcpu (hs ▸ plain_interdomain) (by rw [hs]; decide),nofun⟩
  · rename_i hs
    split
    · exact ⟨.refl h,nofun⟩
    · exact ⟨.rebindPirq h (not_not.mp hv) hs vcpu rfl,nofun⟩
  · exact .error h _

end

end EventChannel
