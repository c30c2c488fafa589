import PMigrate.Hypervisor.GrantPinSteps

namespace GrantTable

open Transition Function Nat

variable {C : Config} {s s' s0 : State} {ld : Nat} {m : Mapping}

section

variable {device host : Bool}

structure Dropped (C : Config) (s s' : State) (ld : Nat) (m : Mapping) (device host : Bool) : Prop where
  entries : ∀ d rd ref k, liveEntries (s.track d) rd ref k = liveEntries (s'.track d) rd ref k +
    if d = ld ∧ m.domid = rd ∧ m.ref = ref then share k device host m.flags.readonly else 0
  active : ∀ rd ref, s'.active rd ref = if rd = m.domid ∧ ref = m.ref then
    {s.active m.domid m.ref with
      pin := subHalves (s.active m.domid m.ref).pin device host m.flags.readonly}
    else s.active rd ref
  refs : RefsShift s s' m.domid m.ref (s.active m.domid m.ref).frame
    (if C.iomem (s.active m.domid m.ref).frame = false then -(sharePages device host : Int) else 0)
    (if C.iomem (s.active m.domid m.ref).frame = false then
      -(shareTypes (hostTyped C ld m.domid) device host m.flags.readonly : Int) else 0)

theorem Dropped.entryOk (hd : Dropped C s s' ld m device host) (hi : ∀ rd ref, EntryOk C s rd ref)
  (hl : ld = (s.active m.domid m.ref).domid) (rd ref : Nat) : EntryOk C s' rd ref := by
  by_cases hr : rd = m.domid ∧ ref = m.ref
  · obtain ⟨rfl,rfl⟩ := hr
    rw [EntryOk,hd.active,if_pos ⟨rfl,rfl⟩]
    refine EntryInv.sub (hi m.domid m.ref) device host m.flags.readonly (fun d k => ?_) (fun f => ?_) fun f => ?_
    · rw [hd.entries,← hl]
      simp
    · rw [hd.refs.held]
      by_cases hf : f = (s.active m.domid m.ref).frame
      · subst hf
        by_cases ho : C.iomem (s.active m.domid m.ref).frame = false <;> simp [At,ho]
      · simp [At,hf]
    · rw [hd.refs.heldType,← hl]
      by_cases hf : f = (s.active m.domid m.ref).frame
      · subst hf
        by_cases ho : C.iomem (s.active m.domid m.ref).frame = false <;> simp [At,ho]
      · simp [At,hf]
  refine (hi rd ref).congr (fun d k => ?_) (by rw [hd.active,if_neg hr]) (fun f => ?_) fun f => ?_
  · rw [hd.entries d,if_neg fun hx => hr ⟨hx.2.1.symm,hx.2.2.symm⟩,add_zero]
  · rw [hd.refs.held,if_neg fun hx => hr ⟨hx.1,hx.2.1⟩,Int.add_zero]
  · rw [hd.refs.heldType,if_neg fun hx => hr ⟨hx.1,hx.2.1⟩,Int.add_zero]

variable {f : Flags} {h : Nat}

theorem exists_share (hf : f.live = true) : ∃ k, share k f.device f.host f.readonly = 1 := by
  obtain ⟨dev,host,ro,app,pte,rest⟩ := f
  cases dev with
  | true =>
    refine ⟨.deviceKind ro,?_⟩
    cases ro <;> rfl
  | false =>
    subst hf
    refine ⟨.hostKind ro,?_⟩
    cases ro <;> rfl

theorem EntryOk.domid (hm : (s.track ld).maptrack h = m) (hi : EntryOk C s m.domid m.ref)
  (ht : h < (s.track ld).maptrackLimit) (hl : m.flags.live = true) : ld = (s.active m.domid m.ref).domid := by
  obtain ⟨k,hk⟩ := exists_share hl
  have hp : 0 < liveEntries (s.track ld) m.domid m.ref k := by
    refine Finset.card_pos.mpr ⟨h,Finset.mem_filter.mpr ⟨Finset.mem_range.mpr ht,?_⟩⟩
    rw [hm]
    exact ⟨rfl,rfl,hk⟩
  by_contra hn
  have := hi.entries ld k
  rw [if_neg hn] at this
  omega

theorem liveEntries_withFlags {t : Track} (hm : t.maptrack h = m)
  (hl : h < t.maptrackLimit) (rd ref : Nat) (k : Kind) (hf : share k m.flags.device m.flags.host m.flags.readonly =
    share k f.device f.host f.readonly+share k device host m.flags.readonly) :
  liveEntries t rd ref k = liveEntries (withFlags t h f) rd ref k +
    if m.domid = rd ∧ m.ref = ref then share k device host m.flags.readonly else 0 := by
  have hw := liveEntries_write rd ref k hl {m with flags := f}
  have ha : withFlags t h f = writeEntry t h {m with flags := f} := by
    rw [withFlags,hm]
    rfl
  rw [ha]
  rw [hm] at hw
  change liveEntries (writeEntry t h {m with flags := f}) rd ref k+_ = _ at hw
  simp only [part] at hw
  by_cases hx : m.domid = rd ∧ m.ref = ref
  · simp only [if_pos hx] at hw ⊢
    omega
  · simp only [if_neg hx] at hw ⊢
    omega

end

section

variable {op : UnmapOp}

structure UnmapCondition (m : Mapping) (op : UnmapOp) : Prop where
  device : m.flags.device = true → op.devFrame ≠ 0 ∧ op.xsmAllows = true
  iommu : op.hostAddr = true ∧ m.flags.host = true ∧ op.replaced = true → op.iommuDone = true

def hostGone (op : UnmapOp) (f : Flags) : Bool := op.hostAddr && f.host && op.replaced

theorem leftFlags_eq (hc : UnmapCondition m op) : leftFlags op m.flags =
  {m.flags with device := false,host := m.flags.host && !hostGone op m.flags} := by
  have hd : (m.flags.device && op.devFrame == 0) = false := by
    cases h : m.flags.device with
    | false => rfl
    | true => simp [(hc.device h).1]
  rw [leftFlags,hd,hostGone]
  cases op.hostAddr <;> cases m.flags.host <;> cases op.replaced <;> rfl

theorem leftPin_eq (hc : UnmapCondition m op) (pin : Nat) : leftPin op m.flags pin =
  subHalves pin m.flags.device (hostGone op m.flags) m.flags.readonly := by
  rw [leftPin,subHalves,hostGone]
  cases h : m.flags.device with
  | false => simp
  | true => simp [(hc.device h).1]

theorem completeHost_eq (C : Config) (ld : Nat) (s s1 : State) (hc : UnmapCondition m op) :
  completeHalves C s1 ld m.domid m.ref (doneCommon s op m) = completeDevice C s1 m.domid m.ref
      (doneCommon s op m) ∧ hostGone op m.flags = false ∨ completeHalves C s1 ld m.domid m.ref (doneCommon s op m) =
      releaseHandle (completeHost C (completeDevice C s1 m.domid m.ref (doneCommon s op m)) ld m.domid
        m.ref (doneCommon s op m)) ld op.handle ∧ (op.hostAddr && m.flags.host) = hostGone op m.flags := by
  rw [completeHalves]
  split_ifs with hs
  · obtain ⟨ha,hb,hn⟩ := hs
    refine .inl ⟨rfl,?_⟩
    cases hr : op.replaced with
    | false => rw [hostGone,hr,Bool.and_false]
    | true =>
      have hi := hc.iommu ⟨ha,hb,hr⟩
      refine absurd ?_ hn
      simp [doneCommon,unmapStatus,hr,hi]
  refine .inr ⟨rfl,?_⟩
  rw [hostGone]
  cases hh : op.hostAddr && m.flags.host with
  | false => rfl
  | true =>
    rw [Bool.and_eq_true] at hh
    have ho : unmapStatus op m.flags = .okay := by
      by_contra hn
      exact hs ⟨hh.1,hh.2,fun he => hn (Option.some.inj he)⟩
    rw [unmapStatus,hh.1,hh.2] at ho
    revert ho
    cases op.replaced <;> cases op.iommuDone <;> simp

variable {s1 : State} {c : Common}

theorem completeDevice_shift (rd ref : Nat) : RefsShift s1 (completeDevice C s1 rd ref c) rd ref c.frame
    (if C.iomem c.frame = false then -(c.flags.device.toNat : Int) else 0) (if C.iomem c.frame = false then
      -(shareTypes true c.flags.device false c.flags.readonly : Int) else 0) := by
  rw [completeDevice]
  cases hd : c.flags.device with
  | false =>
    refine (RefsShift.refl _ _ _ _).of_eq ?_ ?_
    · split <;> rfl
    · cases c.flags.readonly <;> split <;> rfl
  | true =>
    cases hi : C.iomem c.frame with
    | true => exact RefsShift.refl _ _ _ _
    | false =>
      refine (putPage_shift _ _ _ _ _).of_eq rfl ?_
      cases c.flags.readonly <;> rfl

theorem completeHost_shift (rd ref : Nat) : RefsShift s1 (completeHost C s1 ld rd ref c) rd ref c.frame
    (if C.iomem c.frame = false then -((c.hostAddr && c.flags.host).toNat : Int) else 0)
    (if C.iomem c.frame = false then
      -(shareTypes (hostTyped C ld rd) false (c.hostAddr && c.flags.host) c.flags.readonly : Int) else 0) := by
  rw [completeHost]
  cases hd : c.hostAddr && c.flags.host with
  | false =>
    refine (RefsShift.refl _ _ _ _).of_eq ?_ ?_
    · split <;> rfl
    · cases c.flags.readonly <;> cases hostTyped C ld rd <;> split <;> rfl
  | true =>
    cases hi : C.iomem c.frame with
    | true => exact RefsShift.refl _ _ _ _
    | false =>
      refine (putPage_shift _ _ _ _ _).of_eq rfl ?_
      rw [hostMappingGetPageType,← hostTyped]
      cases c.flags.readonly <;> cases hostTyped C ld rd <;> rfl

theorem releaseHandle_refs (s : State) (ld h : Nat) : (releaseHandle s ld h).held = s.held ∧
  (releaseHandle s ld h).heldType = s.heldType := by
  rw [releaseHandle]
  split <;> exact ⟨rfl,rfl⟩

theorem shareTypes_split (typed device host readonly : Bool) : shareTypes typed device host readonly =
  shareTypes true device false readonly+shareTypes typed false host readonly := by
  cases typed <;> cases device <;> cases host <;> cases readonly <;> rfl

theorem completeHalves_shift (C : Config) (ld : Nat) (s s1 : State) (hc : UnmapCondition m op) :
  RefsShift s1 (completeHalves C s1 ld m.domid m.ref (doneCommon s op m)) m.domid m.ref (s.active m.domid m.ref).frame
    (if C.iomem (s.active m.domid m.ref).frame =
      false then -(sharePages m.flags.device (hostGone op m.flags) : Int) else 0)
    (if C.iomem (s.active m.domid m.ref).frame = false then
      -(shareTypes (hostTyped C ld m.domid) m.flags.device (hostGone op m.flags) m.flags.readonly : Int) else 0) := by
  have hd : RefsShift s1 (completeDevice C s1 m.domid m.ref (doneCommon s op m)) m.domid m.ref
      (s.active m.domid m.ref).frame
      (if C.iomem (s.active m.domid m.ref).frame = false then -(m.flags.device.toNat : Int) else 0)
      (if C.iomem (s.active m.domid m.ref).frame = false then
        -(shareTypes true m.flags.device false m.flags.readonly : Int) else 0) :=
    completeDevice_shift m.domid m.ref
  obtain ⟨he,hg⟩ | ⟨he,hg⟩ := completeHost_eq C ld s s1 hc
  · rw [he,hg,shareTypes_split]
    refine hd.of_eq ?_ ?_
    · rfl
    have hz : shareTypes (hostTyped C ld m.domid) false false m.flags.readonly = 0 := by
      cases m.flags.readonly <;> cases hostTyped C ld m.domid <;> rfl
    rw [hz]
    rfl
  have hh : RefsShift (completeDevice C s1 m.domid m.ref (doneCommon s op m))
      (completeHost C (completeDevice C s1 m.domid m.ref (doneCommon s op m)) ld m.domid m.ref
        (doneCommon s op m)) m.domid m.ref (s.active m.domid m.ref).frame
      (if C.iomem (s.active m.domid m.ref).frame = false then
        -((op.hostAddr && m.flags.host).toNat : Int) else 0)
      (if C.iomem (s.active m.domid m.ref).frame = false then
        -(shareTypes (hostTyped C ld m.domid) false (op.hostAddr && m.flags.host)
          m.flags.readonly : Int) else 0) := completeHost_shift m.domid m.ref
  have hs := hd.trans hh
  obtain ⟨ha,ht⟩ := releaseHandle_refs (completeHost C
    (completeDevice C s1 m.domid m.ref (doneCommon s op m)) ld m.domid m.ref (doneCommon s op m))
    ld op.handle
  rw [he,← hg]
  have hf : RefsShift s1 (releaseHandle (completeHost C (completeDevice C s1 m.domid m.ref
      (doneCommon s op m)) ld m.domid m.ref (doneCommon s op m)) ld op.handle) m.domid m.ref
      (s.active m.domid m.ref).frame _ _ :=
    ⟨fun d r f => by rw [ha]; exact hs.held d r f,fun d r f => by rw [ht]; exact hs.heldType d r f⟩
  refine hf.of_eq ?_ ?_
  · rw [sharePages]
    split <;> omega
  · rw [shareTypes_split (hostTyped C ld m.domid) m.flags.device (op.hostAddr && m.flags.host)]
    split <;> omega

theorem share_left (k : Kind) (f : Flags) (gone : Bool) (hg : gone = true → f.host = true) :
  share k f.device f.host f.readonly = share k false (f.host && !gone) f.readonly+share k f.device gone f.readonly := by
  cases gone with
  | false => cases k <;> cases f.device <;> cases f.host <;> cases f.readonly <;> rfl
  | true =>
    rw [hg rfl]
    cases k <;> cases f.device <;> cases f.readonly <;> rfl

theorem hostGone_host (h : hostGone op m.flags = true) : m.flags.host = true := by
  simp only [hostGone,Bool.and_eq_true] at h
  exact h.1.2

theorem unmapOne_dropped (hm : (s.track ld).maptrack op.handle = m) {L : List Nat}
  (hb : FreeChain (s.track ld) L) (hl : op.handle < (s.track ld).maptrackLimit) (hc : UnmapCondition m op)
  (hu : Unmapped s s1 ld op.handle m (leftFlags op m.flags) (leftPin op m.flags (s.active m.domid m.ref).pin)) :
  Dropped C s (completeHalves C s1 ld m.domid m.ref (doneCommon s op m)) ld m m.flags.device (hostGone op m.flags) := by
  have hk := completeHalves_keeps C s1 ld m.domid m.ref (doneCommon s op m)
  have hh := completeHalves_shift C ld s s1 hc
  obtain ⟨-,ht⟩ := completeHalves_track (C := C) hm hu fun hx => hc.iommu (hm ▸ hx)
  generalize completeHalves C s1 ld m.domid m.ref (doneCommon s op m) = v at hk hh ht ⊢
  have hs : ∀ k, share k m.flags.device m.flags.host m.flags.readonly =
      share k (leftFlags op m.flags).device (leftFlags op m.flags).host (leftFlags op m.flags).readonly +
        share k m.flags.device (hostGone op m.flags) m.flags.readonly := by
    intro k
    rw [leftFlags_eq hc]
    exact share_left k m.flags _ hostGone_host
  refine ⟨fun d rd ref k => ?_,fun rd ref => ?_,?_⟩
  · by_cases hd : d = ld
    · subst hd
      simp only [true_and]
      rw [liveEntries_withFlags hm hl rd ref k (hs k)]
      congr 1
      obtain ⟨-,hr⟩ | ⟨hi,hr⟩ := ht
      · rw [hr,update_self]
      have hz : share k (leftFlags op m.flags).device (leftFlags op m.flags).host
          (leftFlags op m.flags).readonly = 0 := by
        rw [Flags.live,Bool.or_eq_false_iff] at hi
        rw [hi.1,hi.2,share_none]
      have he : share k m.flags.device m.flags.host m.flags.readonly =
          share k Flags.zero.device Flags.zero.host Flags.zero.readonly +
            share k m.flags.device (hostGone op m.flags) m.flags.readonly := by
        rw [hs k,hz]
        cases k <;> rfl
      have h1 := liveEntries_withFlags hm hl rd ref k (hs k)
      have h2 := liveEntries_withFlags hm hl rd ref k he
      have hp : liveEntries (putMaptrackHandle (withFlags (s.track d) op.handle .zero) op.handle)
          rd ref k = liveEntries (withFlags (s.track d) op.handle .zero) rd ref k := by
        refine liveEntries_put (by simp only [withFlags,update_self]) k fun x hx => ?_
        by_cases ha : x = op.handle
        · subst ha
          simp only [withFlags,update_self]
        · simp only [withFlags,update_of_ne ha]
          exact hb.clear x (.inr (le_succ_of_le hx))
      rw [hr,update_self,hp]
      omega
    have hr : v.track d = s.track d := by obtain ⟨-,hr⟩ | ⟨-,hr⟩ := ht <;> rw [hr,update_of_ne hd]
    rw [hr,if_neg fun hx => hd hx.1,add_zero]
  · rw [hk.active,hu.active,leftPin_eq hc]
  · exact ⟨fun d r f => by rw [hh.held,hu.held],fun d r f => by rw [hh.heldType,hu.heldType]⟩

theorem PinsInv.unmapOne (hi : PinsInv C s) (hc : UnmapCondition ((s.track ld).maptrack op.handle) op) :
  PinsInv C (unmapOne C ld s op) := by
  obtain ⟨L,hL⟩ := hi.handles ld
  refine ⟨hi.handles.unmapOne hc.iommu,fun rd ref => ?_⟩
  by_cases hs : (s.track ld).maptrackLimit ≤ op.handle ∨ ((s.track ld).maptrack op.handle).flags = .zero
  · rw [unmapOne_skipped hs]
    exact hi.entry rd ref
  rw [not_or,not_le] at hs
  obtain ⟨hl,hf⟩ := hs
  have ha := hL.live op.handle hf
  obtain ⟨hk,hv⟩ := hL.granter op.handle ha
  cases hx : op.xsmAllows with
  | false =>
    have hb : ((s.track ld).maptrack op.handle).flags.device = false := by
      cases hd : ((s.track ld).maptrack op.handle).flags.device with
      | false => rfl
      | true => exact absurd (hx.symm.trans (hc.device hd).2) Bool.false_ne_true
    rw [(unmapOne_denied (C := C) rfl hl hf hk hx ha).2 hb]
    exact hi.entry rd ref
  | true =>
    by_cases hr : op.devFrame ≠ 0 → op.devFrame =
        (s.active ((s.track ld).maptrack op.handle).domid ((s.track ld).maptrack op.handle).ref).frame
    · obtain ⟨s1,hu,he⟩ := unmapOne_done (C := C) rfl hl hf hk hv hx hr
      rw [he]
      exact (unmapOne_dropped rfl hL.chain hl hc hu).entryOk hi.entry ((hi.entry _ _).domid rfl hl ha) rd ref
    rw [Classical.not_imp] at hr
    rw [unmapOne_mismatch rfl hl hf hk hx hr.1 hr.2]
    exact hi.entry rd ref

end

section

variable {d : Nat}

structure HalfReleased (C : Config) (s s' : State) (m : Mapping) (pin : Nat) (n y : Nat) : Prop where
  track : s'.track = s.track
  gtVersion : s'.gtVersion = s.gtVersion
  active : ∀ rd ref, s'.active rd ref = if rd = m.domid ∧ ref = m.ref then
    {s.active m.domid m.ref with pin := pin} else s.active rd ref
  refs : RefsShift s s' m.domid m.ref (s.active m.domid m.ref).frame
    (if C.iomem (s.active m.domid m.ref).frame = false then -(n : Int) else 0)
    (if C.iomem (s.active m.domid m.ref).frame = false then -(y : Int) else 0)

theorem HalfReleased.none (C : Config) (s : State) (m : Mapping) :
  HalfReleased C s s m (s.active m.domid m.ref).pin 0 0 := by
  refine ⟨rfl,rfl,fun rd ref => ?_,(RefsShift.refl _ _ _ _).of_eq ?_ ?_⟩
  · split_ifs with he
    · rw [he.1,he.2]
    · rfl
  · split <;> rfl
  · split <;> rfl

theorem dropPin_refs (k : Kind) (b : Bool) : HalfReleased C s
  (if C.iomem (s.active m.domid m.ref).frame then dropPin s m.domid m.ref k
    else putPage (dropPin s m.domid m.ref k) m.domid m.ref (s.active m.domid m.ref).frame b) m
  (subPin (s.active m.domid m.ref).pin k) 1 b.toNat := by
  cases hi : C.iomem (s.active m.domid m.ref).frame with
  | true =>
    refine ⟨rfl,rfl,fun rd ref => dropPin_active rd ref,?_⟩
    rw [hi]
    have hz := RefsShift.refl s m.domid m.ref (s.active m.domid m.ref).frame
    exact ⟨hz.held,hz.heldType⟩
  | false =>
    refine ⟨rfl,rfl,fun rd ref => dropPin_active rd ref,?_⟩
    rw [hi]
    have hp := putPage_shift (dropPin s m.domid m.ref k) m.domid m.ref (s.active m.domid m.ref).frame b
    exact ⟨hp.held,hp.heldType⟩

theorem releaseDevice_spec : HalfReleased C s (releaseDevice C s m.domid m) m
  (if m.flags.device then subPin (s.active m.domid m.ref).pin (.deviceKind m.flags.readonly)
    else (s.active m.domid m.ref).pin) m.flags.device.toNat
    (shareTypes true m.flags.device false m.flags.readonly) := by
  rw [releaseDevice]
  cases hd : m.flags.device with
  | false =>
    have hz : shareTypes true false false m.flags.readonly = 0 := by cases m.flags.readonly <;> rfl
    rw [hz]
    exact HalfReleased.none C s m
  | true =>
    have hy : (!m.flags.readonly).toNat = shareTypes true true false m.flags.readonly := by
      cases m.flags.readonly <;> rfl
    rw [← hy,if_pos rfl,if_pos rfl]
    exact dropPin_refs _ _

variable {s' : State} {n pin y : Nat}

theorem HalfReleased.handOver (h : HalfReleased C s s' m pin n y) (b : Bool) (frame : Nat) (typed : Bool) :
  HalfReleased C s (if b then s' else handOver s' frame typed) m pin n y := by
  cases b with
  | true => exact h
  | false => exact ⟨h.track,h.gtVersion,h.active,h.refs.held,h.refs.heldType⟩

theorem releaseHost_spec : HalfReleased C s (releaseHost C s d m.domid m) m
  (if m.flags.host then subPin (s.active m.domid m.ref).pin (.hostKind m.flags.readonly)
    else (s.active m.domid m.ref).pin) m.flags.host.toNat
  (shareTypes (hostTyped C d m.domid) false m.flags.host m.flags.readonly) := by
  rw [releaseHost]
  cases hh : m.flags.host with
  | false =>
    have hz : shareTypes (hostTyped C d m.domid) false false m.flags.readonly = 0 := by
      cases m.flags.readonly <;> cases hostTyped C d m.domid <;> rfl
    rw [hz]
    exact HalfReleased.none C s m
  | true =>
    have hy : (hostMappingGetPageType C m.flags d m.domid).toNat =
        shareTypes (hostTyped C d m.domid) false true m.flags.readonly := by
      rw [hostMappingGetPageType,← hostTyped]
      cases m.flags.readonly <;> cases hostTyped C d m.domid <;> rfl
    rw [← hy]
    have hr := dropPin_refs (C := C) (s := s) (m := m) (.hostKind m.flags.readonly)
      (hostMappingGetPageType C m.flags d m.domid)
    dsimp only
    rw [if_pos rfl,if_pos rfl]
    split
    · rename_i hi
      rw [if_pos hi] at hr
      exact hr
    rename_i hi
    rw [if_neg hi] at hr
    exact hr.handOver _ _ _

theorem HalfReleased.frame (h : HalfReleased C s s' m pin n y) :
  s'.active m.domid m.ref = {s.active m.domid m.ref with pin := pin} := by
  rw [h.active,if_pos ⟨rfl,rfl⟩]

theorem releaseHalves_spec : HalfReleased C s (releaseHost C (releaseDevice C s m.domid m) d m.domid m) m
  (subHalves (s.active m.domid m.ref).pin m.flags.device m.flags.host m.flags.readonly)
  (sharePages m.flags.device m.flags.host)
  (shareTypes (hostTyped C d m.domid) m.flags.device m.flags.host m.flags.readonly) := by
  have h1 := releaseDevice_spec (C := C) (s := s) (m := m)
  have h2 := releaseHost_spec (C := C) (s := releaseDevice C s m.domid m) (m := m) (d := d)
  rw [h1.frame] at h2
  refine ⟨h2.track.trans h1.track,h2.gtVersion.trans h1.gtVersion,fun rd ref => ?_,?_⟩
  · rw [h2.active,h1.frame,h1.active]
    split <;> rfl
  have hr := h2.refs
  rw [h1.frame] at hr
  refine (h1.refs.trans hr).of_eq ?_ ?_
  · rw [sharePages]
    split <;> omega
  · rw [shareTypes_split (hostTyped C d m.domid) m.flags.device m.flags.host]
    split <;> omega

theorem HandlesInv.clearFlags (hi : HandlesInv C False s) {h : Nat}
  (hf : ((s.track d).maptrack h).flags ≠ .zero) (hv : s'.gtVersion = s.gtVersion)
  (ht : s'.track = Function.update s.track d (withFlags (s.track d) h .zero)) : HandlesInv C False s' := by
  obtain ⟨L,hL⟩ := hi d
  obtain ⟨ho,hl⟩ := hL.chain.not_free hf
  refine hi.update ht hv (L := L) ⟨?_,fun x hx => ?_,fun hu => hu.elim,fun x hx => ?_⟩
  · rw [ht,update_self]
    exact hL.chain.write ho hl _
  · rw [ht,update_self] at hx ⊢
    by_cases hh : x = h
    · subst hh
      simp only [withFlags,update_self] at hx
      exact absurd rfl hx
    · simp only [InUse,withFlags,update_of_ne hh] at hx ⊢
      exact hL.live x hx
  · rw [InUse,ht,update_self] at hx
    rw [ht,update_self,hv]
    by_cases hh : x = h
    · subst hh
      simp only [withFlags,update_self] at hx
      cases hx
    · simp only [withFlags,update_of_ne hh] at hx ⊢
      exact hL.granter x hx

theorem PinsInv.releaseMapping (hi : PinsInv C s) (h : Nat) : PinsInv C (releaseMapping C d s h) := by
  obtain ⟨L,hL⟩ := hi.handles d
  rw [GrantTable.releaseMapping]
  split
  · exact hi
  rename_i hl
  rw [Bool.not_eq_false] at hl
  obtain ⟨hk,-⟩ := hL.granter h hl
  obtain ⟨-,hb⟩ := hL.chain.not_free (live_ne_zero hl)
  generalize hm : (s.track d).maptrack h = m at hl hk ⊢
  rw [if_neg (by rw [hk]; exact Bool.noConfusion)]
  have hr := releaseHalves_spec (C := C) (s := s) (m := m) (d := d)
  generalize releaseHost C (releaseDevice C s m.domid m) d m.domid m = v at hr ⊢
  have ht : (setFlags v d h .zero).track = update s.track d (withFlags (s.track d) h .zero) := by
    simp only [setFlags,updateTrack,hr.track,withFlags]
  refine ⟨hi.handles.clearFlags (hm ▸ live_ne_zero hl) hr.gtVersion ht,?_⟩
  have ha : Dropped C s (setFlags v d h .zero) d m m.flags.device m.flags.host := by
    refine ⟨fun d' rd ref k => ?_,hr.active,hr.refs.held,hr.refs.heldType⟩
    by_cases hd : d' = d
    · subst hd
      rw [ht,update_self]
      simp only [true_and]
      refine liveEntries_withFlags hm (by omega) rd ref k ?_
      cases k <;> exact (zero_add _).symm
    · rw [ht,update_of_ne hd,if_neg fun hx => hd hx.1,add_zero]
  exact ha.entryOk hi.entry ((hi.entry _ _).domid hm (by omega) hl)

theorem PinsInv.releaseMappings (hi : PinsInv C s) : PinsInv C (releaseMappings C s d) := by
  have hf : ∀ (hs : List Nat) (u : State), PinsInv C u → PinsInv C (hs.foldl (GrantTable.releaseMapping C d) u) := by
    intro hs
    induction hs with
    | nil => exact fun u hu => hu
    | cons h hs ih => exact fun u hu => ih _ (hu.releaseMapping h)
  exact hf _ s hi

end

structure PinSafeGroup (ld : Nat) (s : State) (ops : List UnmapOp) : Prop where
  distinct : (ops.map UnmapOp.handle).Nodup
  each : ∀ op ∈ ops, UnmapCondition ((s.track ld).maptrack op.handle) op

def PinSafe (C : Config) (s : State) : Action → Prop
  | .map ld op e => MapCondition C ld op e
  | .unmap ld ops => EachGroup C ld (PinSafeGroup ld) s (groupsOf ops)
  | .replace ld ops =>
    EachGroup C ld (PinSafeGroup ld) s (groupsOf (ops.map fun op => {op with devFrame := 0}))
  | .release _ => True
  | .setVersion _ _ => True

theorem PinsInv.unmapGrantRef (hi : PinsInv C s) {ops : List UnmapOp}
  (ho : EachGroup C ld (PinSafeGroup ld) s (groupsOf ops)) : PinsInv C (unmapGrantRef C s ld ops) := by
  refine foldl_groups (fun u g hu hg => ?_) _ hi ho
  rw [unmapGroup_eq g hg.distinct]
  exact foldl_unmapOne UnmapCondition (fun _ _ hv hp => hv.unmapOne hp) g hu hg.distinct hg.each

theorem pinsInv_initial (hs : Initial s) : PinsInv C s := by
  refine ⟨handlesInv_initial hs,fun rd ref => ?_⟩
  have hp := hs.pin rd ref
  have hc : ∀ ld k, liveEntries (s.track ld) rd ref k = 0 := by
    intro ld k
    rw [hs.track,liveEntries_eq]
    refine Finset.sum_eq_zero fun h _ => part_of_idle ?_
    simp only [initialTrack]
    split <;> rfl
  refine ⟨?_,fun k => ?_,fun ld k => ?_,fun f => ?_,fun f => ?_⟩
  · rw [hp]
    exact Nat.two_pow_pos 32
  · rw [hp,counter_zero]
    omega
  · rw [hc,hp,counter_zero,ite_self]
  · rw [hs.held,hp]
    simp [pageRefs,counter_zero]
  · rw [hs.heldType,hp]
    simp [typeRefs,counter_zero]

theorem PinsInv.step (hi : PinsInv C s) {a : Action} (ha : PinSafe C s a) (h : step C s a = some s') :
  PinsInv C s' := by
  cases a with
  | map ld op e =>
    cases h
    exact hi.map ha
  | unmap ld ops | replace ld ops =>
    cases h
    exact hi.unmapGrantRef ha
  | release d =>
    cases h
    exact hi.releaseMappings
  | setVersion d v =>
    simp only [GrantTable.step] at h
    split at h
    · cases h
    rename_i hv
    cases h
    exact ⟨hi.handles.setVersion hv,hi.entry⟩

theorem pinsInv_of_reach (hs : Initial s0) (h : Reach (step C) (PinSafe C) s0 s) : PinsInv C s :=
  reach_invariant (pinsInv_initial hs) (fun _ _ _ _ hu ha hv => hu.step ha hv) h

structure PinsExact (C : Config) (s : State) (rd ref : Nat) : Prop where
  entries : ∀ ld k, liveEntries (s.track ld) rd ref k =
    if ld = (s.active rd ref).domid then counter k (s.active rd ref).pin else 0
  room : (s.active rd ref).pin < 2^32 ∧ ∀ k, counter k (s.active rd ref).pin ≤ 128
  pages : ∀ f, s.held rd ref f = if f = (s.active rd ref).frame ∧ C.iomem f = false then
    (pageRefs (s.active rd ref).pin : Int) else 0
  types : ∀ f, s.heldType rd ref f = if f = (s.active rd ref).frame ∧ C.iomem f = false then
    (typeRefs (hostTyped C (s.active rd ref).domid rd) (s.active rd ref).pin : Int) else 0

theorem grant_pins_exact (hs : Initial s0) (hrun : Reach (step C) (PinSafe C) s0 s) (rd ref : Nat) :
  PinsExact C s rd ref := by
  have hi := (pinsInv_of_reach hs hrun).entry rd ref
  exact ⟨hi.entries,⟨hi.bound,hi.small⟩,hi.pages,hi.types⟩

def bothHalves : Flags := ⟨true,true,false,false,false,0⟩

def mapBoth : Action := .map 1 ⟨bothHalves,2,1⟩ allGood

def unmapBoth : UnmapOp := ⟨0,true,7,true,true,true⟩

def mappedBoth : State := mapGrantRef paravirtual freshState 1 ⟨bothHalves,2,1⟩ allGood

theorem combined_mapping_holds_two : mappedBoth.held 2 1 7 = 2 ∧ counter .devw (mappedBoth.active 2 1).pin = 1 ∧
    PinsExact paravirtual mappedBoth 2 1 ∧
    PinsExact paravirtual (unmapGrantRef paravirtual mappedBoth 1 [unmapBoth]) 2 1 := by
  have hm : Rel (step paravirtual) (PinSafe paravirtual) freshState mappedBoth :=
    ⟨mapBoth,⟨fun _ h => (nomatch h),fun _ _ => ⟨rfl,fun _ => rfl⟩⟩,rfl⟩
  have hu : Rel (step paravirtual) (PinSafe paravirtual) mappedBoth
      (unmapGrantRef paravirtual mappedBoth 1 [unmapBoth]) := by
    refine ⟨.unmap 1 [unmapBoth],⟨⟨by decide,fun op ho => ?_⟩,trivial⟩,rfl⟩
    rw [List.mem_singleton.mp ho]
    exact ⟨fun _ => ⟨by decide,rfl⟩,fun _ => rfl⟩
  exact ⟨by decide +kernel,by decide +kernel,grant_pins_exact freshState_initial (.single hm) 2 1,
    grant_pins_exact freshState_initial (.tail (.single hm) hu) 2 1⟩

def hostHalfUnmapped : State :=
  (runIf (step paravirtual) (fun _ _ => true) freshState [mapBoth,.unmap 1 [unmapZero]]).get rfl

theorem device_reference_is_lost : Reach (step paravirtual) (fun _ _ => True) freshState hostHalfUnmapped ∧
    counter .devw (hostHalfUnmapped.active 2 1).pin = 1 ∧
    (hostHalfUnmapped.active 2 1).frame = 7 ∧ hostHalfUnmapped.held 2 1 7 = 0 := by
  exact ⟨reach_get (fun _ _ _ => trivial) _,by decide +kernel,by decide +kernel,by decide +kernel⟩

end GrantTable
