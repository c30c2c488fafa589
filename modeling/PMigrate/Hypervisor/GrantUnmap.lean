import PMigrate.Hypervisor.GrantTable

namespace GrantTable

open Function Bool List

variable {C : Config} {s : State} {ld : Nat} {h : Nat} {f : Flags}

section

variable {d ref x : Nat} {k : Kind}

theorem setFlags_maptrack_of_ne (hn : x ≠ h) : ((setFlags s ld h f).track ld).maptrack x = (s.track ld).maptrack x := by
  simp only [setFlags,updateTrack,update_self,update_of_ne hn]

@[simp] theorem dropPin_track : (dropPin s d ref k).track = s.track := rfl

theorem dropPin_active (d' r' : Nat) : (dropPin s d ref k).active d' r' =
    if d' = d ∧ r' = ref then {s.active d ref with pin := subPin (s.active d ref).pin k}
    else s.active d' r' := by
  simp only [dropPin,setActive]
  by_cases hd : d' = d
  · subst hd
    by_cases hr : r' = ref
    · subst hr
      simp
    · simp [hr]
  · simp [hd]

@[simp] theorem dropPin_frame (d' r' : Nat) : ((dropPin s d ref k).active d' r').frame = (s.active d' r').frame := by
  rw [dropPin_active]
  split
  · rename_i heq
    rw [heq.1,heq.2]
  · rfl

@[simp] theorem giveUp_active : (giveUp s ld h).active = s.active := rfl

theorem giveUp_maptrack_of_ne (hn : x ≠ h) : ((giveUp s ld h).track ld).maptrack x = (s.track ld).maptrack x := by
  simp only [giveUp,updateTrack,putMaptrackHandle,update_self,update_of_ne hn]

theorem releaseHandle_setFlags (hn : x ≠ h) :
  releaseHandle (setFlags s ld h f) ld x = setFlags (releaseHandle s ld x) ld h f := by
  simp only [releaseHandle,setFlags_maptrack_of_ne hn]
  split
  · rfl
  simp only [giveUp,setFlags,updateTrack,putMaptrackHandle,update_self,
    update_idem,update_of_ne hn,update_of_ne hn.symm]
  congr 3
  rw [update_comm hn]

end

structure RefsOnly (s s' : State) : Prop where
  track : s'.track = s.track
  active : s'.active = s.active
  gtVersion : s'.gtVersion = s.gtVersion

theorem RefsOnly.refl (s : State) : RefsOnly s s := ⟨rfl,rfl,rfl⟩

theorem RefsOnly.trans {s1 s2 s3 : State} (h : RefsOnly s1 s2) (h' : RefsOnly s2 s3) : RefsOnly s1 s3 :=
  ⟨h'.track.trans h.track,h'.active.trans h.active,h'.gtVersion.trans h.gtVersion⟩

theorem adjustRefs_refsOnly (d ref frame : Nat) (pages types : Int) :
  RefsOnly s (adjustRefs s d ref frame pages types) := ⟨rfl,rfl,rfl⟩

variable {c : Common}

structure CompleteKeeps (s t : State) (ld handle : Nat) : Prop where
  active : t.active = s.active
  gtVersion : t.gtVersion = s.gtVersion
  limit : (t.track ld).maptrackLimit = (s.track ld).maptrackLimit
  maptrack : ∀ x, x ≠ handle → (t.track ld).maptrack x = (s.track ld).maptrack x

theorem completeDevice_keeps (C : Config) (s : State) (rd ref : Nat) (c : Common) :
  (completeDevice C s rd ref c).track = s.track ∧ (completeDevice C s rd ref c).active = s.active ∧
    (completeDevice C s rd ref c).gtVersion = s.gtVersion := by
  rw [completeDevice]
  split <;> exact ⟨rfl,rfl,rfl⟩

theorem completeHost_keeps (C : Config) (s : State) (ld rd ref : Nat) (c : Common) :
  (completeHost C s ld rd ref c).track = s.track ∧ (completeHost C s ld rd ref c).active = s.active ∧
    (completeHost C s ld rd ref c).gtVersion = s.gtVersion := by
  rw [completeHost]
  split <;> exact ⟨rfl,rfl,rfl⟩

theorem releaseHandle_keeps (s : State) (ld h : Nat) : CompleteKeeps s (releaseHandle s ld h) ld h := by
  rw [releaseHandle]
  split
  · exact ⟨rfl,rfl,rfl,fun _ _ => rfl⟩
  refine ⟨rfl,rfl,?_,fun x hx => ?_⟩
  · simp only [giveUp,setFlags,updateTrack,putMaptrackHandle,update_self]
  · rw [giveUp_maptrack_of_ne hx,setFlags_maptrack_of_ne hx]

theorem completeHalves_keeps (C : Config) (s : State) (ld rd ref : Nat) (c : Common) :
  CompleteKeeps s (completeHalves C s ld rd ref c) ld c.handle := by
  obtain ⟨ht,ha,hv⟩ := completeDevice_keeps C s rd ref c
  rw [completeHalves]
  split
  · exact ⟨ha,hv,by rw [ht],fun x _ => by rw [ht]⟩
  obtain ⟨ht',ha',hv'⟩ := completeHost_keeps C (completeDevice C s rd ref c) ld rd ref c
  have hk := releaseHandle_keeps (completeHost C (completeDevice C s rd ref c) ld rd ref c) ld c.handle
  exact ⟨(hk.active.trans ha').trans ha,(hk.gtVersion.trans hv').trans hv,
    hk.limit.trans (by rw [ht',ht]),fun x hx => (hk.maptrack x hx).trans (by rw [ht',ht])⟩

theorem complete_keeps (C : Config) (s : State) (ld : Nat) (c : Common) :
  CompleteKeeps s (unmapCommonComplete C s ld c) ld c.handle := by
  rw [unmapCommonComplete]
  split
  · exact ⟨rfl,rfl,rfl,fun _ _ => rfl⟩
  split
  · exact ⟨rfl,rfl,rfl,fun _ _ => rfl⟩
  · exact completeHalves_keeps C s ld _ _ c

theorem completeDevice_setFlags (rd ref : Nat) :
  completeDevice C (setFlags s ld h f) rd ref c = setFlags (completeDevice C s rd ref c) ld h f := by
  simp only [completeDevice]
  split <;> rfl

theorem completeHost_setFlags (rd ref : Nat) :
  completeHost C (setFlags s ld h f) ld rd ref c = setFlags (completeHost C s ld rd ref c) ld h f := by
  simp only [completeHost]
  split <;> rfl

theorem complete_setFlags (hn : c.handle ≠ h) : unmapCommonComplete C (setFlags s ld h f) ld c =
    setFlags (unmapCommonComplete C s ld c) ld h f := by
  simp only [unmapCommonComplete,setFlags_maptrack_of_ne hn,completeHalves,completeDevice_setFlags,
    completeHost_setFlags,releaseHandle_setFlags hn]
  cases c.rd with
  | none => rfl
  | some rd =>
    simp only [apply_ite (fun s => setFlags s ld h f)]
    rfl

theorem completeDevice_dropPin (rd ref d r : Nat) (k : Kind) :
  completeDevice C (dropPin s d r k) rd ref c = dropPin (completeDevice C s rd ref c) d r k := by
  simp only [completeDevice]
  split <;> rfl

theorem completeHost_dropPin (rd ref d r : Nat) (k : Kind) :
  completeHost C (dropPin s d r k) ld rd ref c = dropPin (completeHost C s ld rd ref c) d r k := by
  simp only [completeHost]
  split <;> rfl

theorem releaseHandle_dropPin (d r : Nat) (k : Kind) :
  releaseHandle (dropPin s d r k) ld h = dropPin (releaseHandle s ld h) d r k := by
  simp only [releaseHandle,dropPin_track,apply_ite (fun s => dropPin s d r k)]
  rfl

theorem complete_dropPin (d r : Nat) (k : Kind) :
  unmapCommonComplete C (dropPin s d r k) ld c = dropPin (unmapCommonComplete C s ld c) d r k := by
  simp only [unmapCommonComplete,dropPin_frame,dropPin_track,completeHalves,completeDevice_dropPin,
    completeHost_dropPin,releaseHandle_dropPin]
  cases c.rd with
  | none => rfl
  | some rd =>
    simp only [apply_ite (fun s => dropPin s d r k)]
    rfl

variable {op : UnmapOp}

theorem complete_unmapDevice (rd : Nat) (f : Flags) (hn : c.handle ≠ op.handle) :
  unmapCommonComplete C (unmapDevice s ld rd op f) ld c = unmapDevice (unmapCommonComplete C s ld c) ld rd op f := by
  simp only [unmapDevice]
  split
  · rw [complete_dropPin,complete_setFlags hn,(complete_keeps C s ld c).maptrack _ hn.symm]
  · rfl

theorem complete_unmapHost (rd : Nat) (f : Flags) (hn : c.handle ≠ op.handle) :
  unmapCommonComplete C (unmapHost s ld rd op f) ld c = unmapHost (unmapCommonComplete C s ld c) ld rd op f := by
  simp only [unmapHost]
  rw [complete_dropPin,complete_setFlags hn,(complete_keeps C s ld c).maptrack _ hn.symm]

theorem unmapCommon_complete (hn : c.handle ≠ op.handle) : unmapCommon C (unmapCommonComplete C s ld c) ld op =
    (unmapCommonComplete C (unmapCommon C s ld op).1 ld c,(unmapCommon C s ld op).2) := by
  have hk := complete_keeps C s ld c
  simp only [unmapCommon,hk.limit,hk.maptrack _ hn.symm,hk.active,← complete_unmapDevice _ _ hn,
    ← complete_unmapHost _ _ hn]
  repeat' split <;> try rfl

theorem unmapCommon_handle : (unmapCommon C s ld op).2.handle = op.handle := by
  simp only [unmapCommon]
  repeat' split <;> try rfl

theorem unmapFirst_complete (C : Config) (ld : Nat) (s : State) (ops : List UnmapOp)
  (hn : ∀ op ∈ ops, c.handle ≠ op.handle) :
  unmapFirst C ld (unmapCommonComplete C s ld c) ops =
    (unmapCommonComplete C (unmapFirst C ld s ops).1 ld c,(unmapFirst C ld s ops).2) := by
  induction ops generalizing s with
  | nil => rfl
  | cons op ops ih =>
    have ho := hn op mem_cons_self
    have hr := ih (unmapCommon C s ld op).1 fun x hx => hn x (mem_cons_of_mem op hx)
    simp only [unmapFirst,unmapCommon_complete ho,hr]

def unmapOne (C : Config) (ld : Nat) (s : State) (op : UnmapOp) : State :=
  unmapCommonComplete C (unmapCommon C s ld op).1 ld (unmapCommon C s ld op).2

theorem unmapGroup_eq (ops : List UnmapOp) (hd : (ops.map UnmapOp.handle).Nodup) :
  unmapGroup C ld s ops = ops.foldl (unmapOne C ld) s := by
  induction ops generalizing s with
  | nil => rfl
  | cons op ops ih =>
    rw [map_cons,nodup_cons] at hd
    have hn : ∀ x ∈ ops, (unmapCommon C s ld op).2.handle ≠ x.handle := by
      intro x hx he
      rw [unmapCommon_handle] at he
      exact hd.1 (he ▸ mem_map_of_mem hx)
    have hc := unmapFirst_complete C ld (unmapCommon C s ld op).1 ops hn
    rw [foldl_cons,← ih hd.2]
    simp only [unmapGroup,unmapFirst,foldl_cons,unmapOne,hc]

section

variable {m : Mapping}

def leftFlags (op : UnmapOp) (f : Flags) : Flags := {f with
    device := f.device && op.devFrame == 0,host := f.host && !(op.hostAddr && op.replaced)}

def leftPin (op : UnmapOp) (f : Flags) (pin : Nat) : Nat :=
  let pin := if op.devFrame ≠ 0 ∧ f.device = true then subPin pin (.deviceKind f.readonly) else pin
  if op.hostAddr && f.host && op.replaced then subPin pin (.hostKind f.readonly) else pin

structure Unmapped (s s' : State) (ld h : Nat) (m : Mapping) (f : Flags) (pin : Nat) : Prop where
  track : s'.track = update s.track ld {s.track ld with
    maptrack := update (s.track ld).maptrack h {m with flags := f}}
  active : ∀ d r, s'.active d r = if d = m.domid ∧ r = m.ref then
    {s.active m.domid m.ref with pin := pin} else s.active d r
  held : s'.held = s.held
  heldType : s'.heldType = s.heldType
  gtVersion : s'.gtVersion = s.gtVersion

theorem Unmapped.start (hm : (s.track ld).maptrack h = m) :
  Unmapped s s ld h m m.flags (s.active m.domid m.ref).pin := by
  refine ⟨?_,fun d r => ?_,rfl,rfl,rfl⟩
  · subst hm
    simp
  split
  · rename_i he
    rw [he.1,he.2]
  · rfl

variable {s' : State} {pin : Nat}

theorem Unmapped.maptrack_self (hu : Unmapped s s' ld h m f pin) : (s'.track ld).maptrack h = {m with flags := f} := by
  rw [hu.track]
  simp only [update_self]

theorem Unmapped.half (hu : Unmapped s s' ld h m f pin) (f' : Flags)
  (k : Kind) : Unmapped s (dropPin (setFlags s' ld h f') m.domid m.ref k) ld h m f' (subPin pin k) := by
  refine ⟨?_,fun d r => ?_,hu.held,hu.heldType,hu.gtVersion⟩
  · simp only [dropPin_track,setFlags,updateTrack,hu.maptrack_self]
    simp only [hu.track,update_self,update_idem]
  have hs : s'.active m.domid m.ref = {s.active m.domid m.ref with pin := pin} := by
    rw [hu.active,if_pos ⟨rfl,rfl⟩]
  rw [dropPin_active]
  change (if d = m.domid ∧ r = m.ref then
    {s'.active m.domid m.ref with pin := subPin (s'.active m.domid m.ref).pin k}
    else s'.active d r) = _
  rw [hs,hu.active]
  split <;> rfl

section
variable (hm : (s.track ld).maptrack op.handle = m)
include hm

theorem unmapDevice_spec :
  Unmapped s (unmapDevice s ld m.domid op m.flags) ld op.handle m
  {m.flags with device := m.flags.device && op.devFrame == 0}
    (if op.devFrame ≠ 0 ∧ m.flags.device = true then
      subPin (s.active m.domid m.ref).pin (.deviceKind m.flags.readonly)
      else (s.active m.domid m.ref).pin) := by
  rw [unmapDevice]
  split
  · rename_i he
    have hf : (m.flags.device && op.devFrame == 0) = false := by simp [he.1]
    rw [hm,hf]
    exact (Unmapped.start hm).half _ _
  rename_i he
  have hf : (m.flags.device && op.devFrame == 0) = m.flags.device := by
    cases hd : m.flags.device with
    | false => rfl
    | true => simpa [hd] using he
  rw [hf]
  exact Unmapped.start hm

theorem unmapHalves_spec :
  Unmapped s (if op.hostAddr && m.flags.host && op.replaced then
    unmapHost (unmapDevice s ld m.domid op m.flags) ld m.domid op m.flags
    else unmapDevice s ld m.domid op m.flags) ld op.handle m (leftFlags op m.flags)
    (leftPin op m.flags (s.active m.domid m.ref).pin) := by
  have hu := unmapDevice_spec hm
  rw [leftFlags,leftPin]
  split
  · rename_i hh
    have hf : (m.flags.host && !(op.hostAddr && op.replaced)) = false := by
      simp only [and_eq_true] at hh
      simp [hh]
    rw [unmapHost,hu.maptrack_self,hf]
    exact hu.half _ _
  rename_i hh
  have hf : (m.flags.host && !(op.hostAddr && op.replaced)) = m.flags.host := by
    cases hd : m.flags.host with
    | false => rfl
    | true =>
      rw [hd] at hh
      revert hh
      cases op.hostAddr <;> cases op.replaced <;> simp
  rw [hf]
  exact hu

def unmapStatus (op : UnmapOp) (f : Flags) : Status :=
  if (op.hostAddr && f.host && !op.replaced) || !op.iommuDone then .generalError else .okay

theorem unmapCommon_eq
  (hl : op.handle < (s.track ld).maptrackLimit) (hf : m.flags ≠ .zero) (hk : C.known m.domid = true)
  (hx : op.xsmAllows = true)
  (hr : op.devFrame ≠ 0 → op.devFrame = (s.active m.domid m.ref).frame) :
  unmapCommon C s ld op = (if op.hostAddr && m.flags.host && op.replaced then
    unmapHost (unmapDevice s ld m.domid op m.flags) ld m.domid op m.flags else unmapDevice s ld m.domid op m.flags,
    ⟨op.handle,op.hostAddr,some m.domid,m.flags,(s.active m.domid m.ref).frame,some (unmapStatus op m.flags)⟩) := by
  have hr' : ¬(op.devFrame ≠ 0 ∧ op.devFrame ≠ (s.active m.domid m.ref).frame) := fun hn => hn.2 (hr hn.1)
  simp only [unmapCommon,hm,if_neg (Nat.not_le.mpr hl),if_neg hf,hk,hx,if_neg hr',unmapStatus,true_eq_false,if_false]
  cases op.hostAddr <;> cases m.flags.host <;> cases op.replaced <;> cases op.iommuDone <;> rfl

end

theorem Unmapped.frame (hu : Unmapped s s' ld h m f pin) (d r : Nat) :
  (s'.active d r).frame = (s.active d r).frame := by
  rw [hu.active]
  split
  · rename_i he
    rw [he.1,he.2]
  · rfl

theorem complete_of_unmapped {c : Common} (hu : Unmapped s s' ld c.handle m f pin) (hd : c.rd = some m.domid)
  (hv : s.gtVersion m.domid ≠ 0) (hf : c.frame = (s.active m.domid m.ref).frame) :
  unmapCommonComplete C s' ld c = completeHalves C s' ld m.domid m.ref c := by
  have hr : ((s'.track ld).maptrack c.handle).ref = m.ref := by rw [hu.maptrack_self]
  have hs : ¬(s'.gtVersion m.domid = 0 ∨ c.frame ≠ (s'.active m.domid m.ref).frame) := by
    rw [hu.gtVersion,hu.frame]
    exact fun hn => hn.elim hv fun he => he hf
  rw [unmapCommonComplete,hd]
  simp only [hr]
  exact if_neg hs

def doneCommon (s : State) (op : UnmapOp) (m : Mapping) : Common :=
  ⟨op.handle,op.hostAddr,some m.domid,m.flags,(s.active m.domid m.ref).frame,some (unmapStatus op m.flags)⟩

theorem unmapOne_done (hm : (s.track ld).maptrack op.handle = m)
  (hl : op.handle < (s.track ld).maptrackLimit) (hf : m.flags ≠ .zero)
  (hk : C.known m.domid = true) (hv : s.gtVersion m.domid ≠ 0) (hx : op.xsmAllows = true)
  (hr : op.devFrame ≠ 0 → op.devFrame = (s.active m.domid m.ref).frame) :
  ∃ s', Unmapped s s' ld op.handle m (leftFlags op m.flags) (leftPin op m.flags (s.active m.domid m.ref).pin) ∧
    unmapOne C ld s op = completeHalves C s' ld m.domid m.ref (doneCommon s op m) := by
  refine ⟨_,unmapHalves_spec hm,?_⟩
  rw [unmapOne,unmapCommon_eq hm hl hf hk hx hr]
  exact complete_of_unmapped (c := doneCommon s op m) (unmapHalves_spec hm) rfl hv rfl

theorem unmapOne_skipped (hs : (s.track ld).maptrackLimit ≤ op.handle ∨
    ((s.track ld).maptrack op.handle).flags = .zero) : unmapOne C ld s op = s := by
  have hc : (unmapCommon C s ld op).1 = s ∧ (unmapCommon C s ld op).2.rd = none := by
    simp only [unmapCommon]
    split
    · exact ⟨rfl,rfl⟩
    rename_i hl
    rw [if_pos (hs.resolve_left hl)]
    exact ⟨rfl,rfl⟩
  rw [unmapOne,hc.1,unmapCommonComplete,hc.2]

theorem unmapOne_mismatch (hm : (s.track ld).maptrack op.handle = m)
  (hl : op.handle < (s.track ld).maptrackLimit) (hf : m.flags ≠ .zero)
  (hk : C.known m.domid = true) (hx : op.xsmAllows = true) (hd : op.devFrame ≠ 0)
  (hr : op.devFrame ≠ (s.active m.domid m.ref).frame) : unmapOne C ld s op = s := by
  have hc : unmapCommon C s ld op = (s,⟨op.handle,op.hostAddr,some m.domid,m.flags,op.devFrame,
      some .generalError⟩) := by
    simp only [unmapCommon,hm,if_neg (Nat.not_le.mpr hl),if_neg hf,hk,hx,true_eq_false,if_false]
    exact if_pos ⟨hd,hr⟩
  rw [unmapOne,hc,unmapCommonComplete]
  simp only [hm]
  exact if_pos (.inr hr)

theorem unmapOne_denied (hm : (s.track ld).maptrack op.handle = m)
  (ht : op.handle < (s.track ld).maptrackLimit) (hf : m.flags ≠ .zero)
  (hk : C.known m.domid = true) (hx : op.xsmAllows = false) (hl : m.flags.live = true) :
  RefsOnly s (unmapOne C ld s op) ∧ (m.flags.device = false → unmapOne C ld s op = s) := by
  let c : Common := ⟨op.handle,op.hostAddr,some m.domid,m.flags,op.devFrame,some .permissionDenied⟩
  have hc : unmapCommon C s ld op = (s,c) := by
    simp only [unmapCommon,hm,if_neg (Nat.not_le.mpr ht),if_neg hf,hk,hx,true_eq_false,if_false,if_true,c]
  have he : RefsOnly s (completeDevice C s m.domid m.ref c) ∧
      (m.flags.device = false → completeDevice C s m.domid m.ref c = s) := by
    rw [completeDevice]
    split
    · rename_i hd
      refine ⟨adjustRefs_refsOnly _ _ _ _ _,fun hn => ?_⟩
      rw [and_eq_true] at hd
      rw [hn] at hd
      cases hd.1
    · exact ⟨.refl s,fun _ => rfl⟩
  have ha : completeHalves C s ld m.domid m.ref c = completeDevice C s m.domid m.ref c := by
    rw [completeHalves]
    split
    · rfl
    rename_i hs
    have ho : (c.hostAddr && c.flags.host && !C.iomem c.frame) = false := by
      cases hh : c.hostAddr && c.flags.host with
      | false => rfl
      | true =>
        rw [and_eq_true] at hh
        exact absurd ⟨hh.1,hh.2,fun h => by cases h⟩ hs
    rw [completeHost,ho,if_neg Bool.false_ne_true,releaseHandle,if_pos]
    rw [he.1.track,hm]
    exact hl
  have hr : ((s.track ld).maptrack c.handle).ref = m.ref := congrArg Mapping.ref hm
  rw [unmapOne,hc,unmapCommonComplete]
  simp only [hr]
  change RefsOnly s (ite _ _ _) ∧ (_ → ite _ _ _ = s)
  split
  · exact ⟨.refl s,fun _ => rfl⟩
  · rw [ha]
    exact he

end

end GrantTable
