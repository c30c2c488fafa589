import PMigrate.Hypervisor.GrantPins
import PMigrate.Hypervisor.MaptrackRuns

namespace GrantTable

open Function

variable {C : Config} {s s' : State} {ld : Nat}

def EntryOk (C : Config) (s : State) (rd ref : Nat) : Prop :=
  EntryInv C rd (fun ld k => liveEntries (s.track ld) rd ref k) (s.active rd ref) (s.held rd ref) (s.heldType rd ref)

structure PinsInv (C : Config) (s : State) : Prop where
  handles : HandlesInv C False s
  entry : ∀ rd ref, EntryOk C s rd ref

def At (d ref frame d' r' f' : Nat) : Prop := d' = d ∧ r' = ref ∧ f' = frame

instance (d ref frame d' r' f' : Nat) : Decidable (At d ref frame d' r' f') :=
  inferInstanceAs (Decidable (_ ∧ _ ∧ _))

structure RefsShift (s s' : State) (d ref frame : Nat) (n m : Int) : Prop where
  held : ∀ d' r' f', s'.held d' r' f' = s.held d' r' f'+if At d ref frame d' r' f' then n else 0
  heldType : ∀ d' r' f', s'.heldType d' r' f' = s.heldType d' r' f'+if At d ref frame d' r' f' then m else 0

variable {ref frame : Nat}

section

variable {s1 s2 s3 : State} {d : Nat} {n m n' m' : Int}

theorem RefsShift.refl (s : State) (d ref frame : Nat) : RefsShift s s d ref frame 0 0 :=
  ⟨fun _ _ _ => by rw [ite_self,Int.add_zero],fun _ _ _ => by rw [ite_self,Int.add_zero]⟩

theorem RefsShift.trans (h : RefsShift s1 s2 d ref frame n m) (h' : RefsShift s2 s3 d ref frame n' m') :
  RefsShift s1 s3 d ref frame (n+n') (m+m') := by
  constructor
  · intro d' r' f'
    rw [h'.held,h.held]
    split <;> omega
  intro d' r' f'
  rw [h'.heldType,h.heldType]
  split <;> omega

theorem adjustRefs_shift (n m : Int) : RefsShift s (adjustRefs s d ref frame n m) d ref frame n m :=
  ⟨fun _ _ _ => rfl,fun _ _ _ => rfl⟩

theorem putPage_shift (s : State) (d ref frame : Nat) (b : Bool) :
  RefsShift s (putPage s d ref frame b) d ref frame (-1) (-(b.toNat : Int)) := by
  cases b with
  | false | true => exact adjustRefs_shift _ _

theorem RefsShift.of_eq (h : RefsShift s1 s2 d ref frame n m) (hn : n = n') (hm : m = m') :
  RefsShift s1 s2 d ref frame n' m' := hn ▸ hm ▸ h

end

variable {op : MapOp} {e : MapEnv}

section

def getTypes (C : Config) (ld : Nat) (op : MapOp) (gets : Nat) : Nat :=
  (if 0 < gets then (hostMappingGetPageType C op.flags ld op.dom).toNat else 0) +
    if 1 < gets then (!op.flags.readonly).toNat else 0

structure MapCondition (C : Config) (ld : Nat) (op : MapOp) (e : MapEnv) : Prop where
  typed : op.flags.device = true → op.flags.host = false → op.flags.readonly = false → hostTyped C ld op.dom = true
  second : op.flags.device = true → op.flags.host = true → e.secondReference = true ∧
    (op.flags.readonly = false → e.secondType = true)

def firstGet (C : Config) (s : State) (ld : Nat) (op : MapOp) (frame : Nat) : State :=
  adjustRefs s op.dom op.ref frame 1 (if hostMappingGetPageType C op.flags ld op.dom then 1 else 0)

def secondGet (s : State) (op : MapOp) (e : MapEnv) (frame : Nat) : State :=
  adjustRefs s op.dom op.ref frame (if e.secondReference then 1 else 0)
    (if !op.flags.readonly && e.secondType then 1 else 0)

inductive Grabbed (C : Config) (s : State) (ld : Nat) (op : MapOp) (e : MapEnv) (frame : Nat) :
    State × Nat × Bool → Prop
  | iomem (h : C.iomem frame = true) (b : Bool) : Grabbed C s ld op e frame (s,0,b)
  | refused : Grabbed C s ld op e frame (s,0,false)
  | unmapped : Grabbed C s ld op e frame (firstGet C s ld op frame,1,false)
  | one (h : C.iomem frame = false) (hb : (op.flags.host && op.flags.device) = false) :
      Grabbed C s ld op e frame (firstGet C s ld op frame,1,true)
  | both (h : C.iomem frame = false) (hh : op.flags.host = true) (hd : op.flags.device = true) :
      Grabbed C s ld op e frame (secondGet (firstGet C s ld op frame) op e frame,2,true)

theorem grabFrame_cases : Grabbed C s ld op e frame (grabFrame C s ld op e frame) := by
  rw [grabFrame]
  split
  · rename_i hi
    exact .iomem hi _
  rename_i hi
  rw [Bool.not_eq_true] at hi
  dsimp only
  split
  · exact .refused
  split
  · exact .unmapped
  split
  · rename_i hb
    rw [Bool.and_eq_true] at hb
    exact .both hi hb.1 hb.2
  rename_i hb
  rw [Bool.not_eq_true] at hb
  exact .one hi hb

theorem firstGet_shift : RefsShift s (firstGet C s ld op frame) op.dom op.ref frame 1 (getTypes C ld op 1) := by
  refine (adjustRefs_shift _ _).of_eq rfl ?_
  cases ht : hostMappingGetPageType C op.flags ld op.dom <;> simp [getTypes,ht]

variable {g : State × Nat × Bool}

section
variable (hg : Grabbed C s ld op e frame g)
include hg

theorem Grabbed.shift (hc : MapCondition C ld op e) :
  RefsShift s g.1 op.dom op.ref frame g.2.1 (getTypes C ld op g.2.1) := by
  cases hg with
  | iomem h b | refused => exact .refl _ _ _ _
  | unmapped | one h hb => exact firstGet_shift
  | both h hh hd =>
    obtain ⟨hr,ht⟩ := hc.second hd hh
    refine (firstGet_shift.trans (adjustRefs_shift _ _)).of_eq ?_ ?_
    · rw [hr]
      rfl
    cases ho : op.flags.readonly with
    | false =>
      rw [ht ho]
      simp [getTypes,ho]
    | true => simp [getTypes,ho]

theorem Grabbed.gets
  (hl : op.flags.live = true) (hc : MapCondition C ld op e) (ho : g.2.2 = true) :
  g.2.1 = (if C.iomem frame = false then sharePages op.flags.device op.flags.host else 0) ∧
    getTypes C ld op g.2.1 = if C.iomem frame = false then
      shareTypes (hostTyped C ld op.dom) op.flags.device op.flags.host op.flags.readonly else 0 := by
  have hy : hostMappingGetPageType C op.flags ld op.dom = (!op.flags.readonly && hostTyped C ld op.dom) := rfl
  cases hg with
  | iomem h b => simp [h,getTypes]
  | refused | unmapped => cases ho
  | one h hb =>
    rw [Flags.live] at hl
    simp only [h,if_true,getTypes,hy]
    cases hd : op.flags.device with
    | false =>
      rw [hd,Bool.false_or] at hl
      cases op.flags.readonly <;> cases hostTyped C ld op.dom <;> simp [hl,sharePages,shareTypes]
    | true =>
      rw [hd,Bool.and_true] at hb
      have ht := hc.typed hd hb
      cases hr : op.flags.readonly with
      | false => simp [hb,ht hr,sharePages,shareTypes]
      | true => simp [hb,sharePages,shareTypes]
  | both h hh hd =>
    simp only [h,if_true,getTypes,hy,hh,hd]
    cases op.flags.readonly <;> cases hostTyped C ld op.dom <;> simp [sharePages,shareTypes]

theorem Grabbed.le_two : g.2.1 ≤ 2 := by cases hg <;> simp

end

theorem dropGets_shift (C : Config) (s : State) (ld : Nat) (op : MapOp) (frame : Nat) {gets : Nat} (hg : gets ≤ 2) :
  RefsShift s (dropGets C s ld op frame gets) op.dom op.ref frame (-gets) (-(getTypes C ld op gets)) := by
  have hc : gets = 0 ∨ gets = 1 ∨ gets = 2 := by omega
  rcases hc with rfl | rfl | rfl
  · exact RefsShift.refl _ _ _ _
  · refine (putPage_shift _ _ _ _ _).of_eq rfl ?_
    simp [getTypes]
  · refine ((putPage_shift _ _ _ _ _).trans (putPage_shift _ _ _ _ _)).of_eq rfl ?_
    simp [getTypes]

end

variable {t : Track} {h : Nat}

section

variable {rd : Nat}

theorem EntryInv.congr {cnt cnt' : Nat → Kind → Nat} {a : Active} {g g' y y' : Nat → Int}
  (h : EntryInv C rd cnt a g y) (hc : ∀ ld k, cnt' ld k = cnt ld k) (hg : ∀ f, g' f = g f)
  (hy : ∀ f, y' f = y f) : EntryInv C rd cnt' a g' y' where
  bound := h.bound
  small := h.small
  entries := fun ld k => (hc ld k).trans (h.entries ld k)
  pages := fun f => (hg f).trans (h.pages f)
  types := fun f => (hy f).trans (h.types f)

theorem EntryOk.congr (h : EntryOk C s rd ref)
  (hc : ∀ ld k, liveEntries (s'.track ld) rd ref k = liveEntries (s.track ld) rd ref k)
  (ha : s'.active rd ref = s.active rd ref) (hg : ∀ f, s'.held rd ref f = s.held rd ref f)
  (hy : ∀ f, s'.heldType rd ref f = s.heldType rd ref f) : EntryOk C s' rd ref := by
  rw [EntryOk,ha]
  exact EntryInv.congr h hc hg hy

theorem idle_zero {m : Mapping} (hm : m.flags = .zero) : m.flags.live = false := by
  rw [hm]
  rfl

theorem Handed.liveEntries {t' : Track} {L L' : List Nat} (hd : Handed t t' L L' h)
  (hc : FreeChain t L) (k : Kind) : liveEntries t' rd ref k = liveEntries t rd ref k := by
  have hb : ∀ x, t.maptrackLimit ≤ x → (t.maptrack x).flags = .zero :=
    fun x hx => hc.clear x (.inr (by omega))
  refine liveEntries_congr hd.limit_le (fun x => ?_) fun x hx => part_of_idle (idle_zero (hb x hx))
  by_cases hx : x < t.maptrackLimit
  · rw [hd.kept x hx]
  · have hz := hb x (by omega)
    rw [part_of_idle (idle_zero hz),part_of_idle (idle_zero ((hd.flags x).trans hz))]

theorem liveEntries_put (hz : (t.maptrack h).flags = .zero) (k : Kind)
  (hb : ∀ x, t.maptrackLimit ≤ x → (t.maptrack x).flags = .zero) :
  liveEntries (putMaptrackHandle t h) rd ref k = liveEntries t rd ref k := by
  refine liveEntries_congr le_rfl (fun x => ?_) fun x hx => part_of_idle (idle_zero (hb x hx))
  by_cases hx : x = h
  · subst hx
    rw [part_of_idle (idle_zero hz)]
    simp only [putMaptrackHandle,update_self]
    exact part_of_idle (idle_zero hz)
  · simp only [putMaptrackHandle,update_of_ne hx]

def writeEntry (t : Track) (h : Nat) (m : Mapping) : Track := {t with maptrack := update t.maptrack h m}

theorem liveEntries_record (hl : h+1 < t.maptrackLimit) (hz : (t.maptrack h).flags = .zero) (m : Mapping) (k : Kind) :
  liveEntries (writeEntry t h m) rd ref k = liveEntries t rd ref k+part m rd ref k := by
  have := liveEntries_write rd ref k (show h < t.maptrackLimit by omega) m
  rw [part_of_idle (idle_zero hz)] at this
  exact this

end

section

variable {L L' : List Nat} {a : Active}

structure Pinning (C : Config) (s : State) (ld : Nat) (op : MapOp) (a : Active) : Prop where
  entry : EntryInv C op.dom (fun ld k => liveEntries (s.track ld) op.dom op.ref k) a
    (s.held op.dom op.ref) (s.heldType op.dom op.ref)
  domid : a.domid = ld
  small : ∀ k, counter k a.pin < 128

theorem pinning_of_pinnedEntry (hi : EntryOk C s op.dom op.ref) (hp : ¬PinRefused s ld op e)
  (ha : pinnedEntry s ld op e = some a) : Pinning C s ld op a := by
  simp only [pinnedEntry] at ha
  split_ifs at ha with hz
  · obtain ⟨frame,-,rfl⟩ := Option.map_eq_some_iff.mp ha
    exact ⟨EntryInv.reuse hi hz ld frame false,rfl,fun k => by rw [counter_zero]; omega⟩
  cases ha
  simp only [PinRefused,not_or,not_and,ne_eq,Decidable.not_not] at hp
  obtain ⟨hd,hm,-⟩ := hp.2.2.1 hz
  exact ⟨hi,hd,counter_lt_of_mask hm⟩

theorem active_setActive (d r : Nat) (b : Active) (d' r' : Nat) :
  (setActive s d r b).active d' r' = if d' = d ∧ r' = r then b else s.active d' r' := by
  simp only [setActive]
  by_cases hd : d' = d
  · subst hd
    by_cases hr : r' = r
    · subst hr
      simp
    · simp [hr]
  · simp [hd]

variable {g : State × Nat × Bool}

theorem mapPinned_mapped (hp : Pinning C s ld op a) (hi : ∀ rd ref, EntryOk C s rd ref)
  (hl : op.flags.live = true) (hc : MapCondition C ld op e)
  (hn : h+1 < (s.track ld).maptrackLimit) (hz : ((s.track ld).maptrack h).flags = .zero)
  (hg : Grabbed C (setActive s op.dom op.ref {a with pin := addPins a.pin op.flags}) ld op e a.frame g)
  (hr : RefsOnly (setActive s op.dom op.ref {a with pin := addPins a.pin op.flags}) g.1)
  (ho : g.2.2 = true) (rd ref : Nat) : EntryOk C (recordMapping g.1 ld h op) rd ref := by
  have ht : ∀ d, (recordMapping g.1 ld h op).track d = if d = ld then
      writeEntry (s.track ld) h ⟨op.ref,op.flags.truncate,op.dom⟩ else s.track d := by
    intro d
    by_cases hd : d = ld
    · subst hd
      rw [if_pos rfl]
      simp only [recordMapping,updateTrack,hr.track,update_self]
      rfl
    rw [if_neg hd]
    simp only [recordMapping,updateTrack,hr.track,update_of_ne hd]
    rfl
  have hm : ∀ d k, liveEntries ((recordMapping g.1 ld h op).track d) rd ref k = liveEntries (s.track d) rd ref k +
        if d = ld ∧ op.dom = rd ∧ op.ref = ref then
          share k op.flags.device op.flags.host op.flags.readonly else 0 := by
    intro d k
    rw [ht]
    by_cases hd : d = ld
    · subst hd
      rw [if_pos rfl,liveEntries_record hn hz]
      simp only [part,true_and]
      rfl
    · rw [if_neg hd,if_neg fun hx => hd hx.1,Nat.add_zero]
  have ha : (recordMapping g.1 ld h op).active rd ref = if rd = op.dom ∧ ref = op.ref then
      {a with pin := addPins a.pin op.flags} else s.active rd ref := by
    change g.1.active rd ref = _
    rw [hr.active,active_setActive]
  have hs := hg.shift hc
  obtain ⟨he,hy⟩ := hg.gets hl hc ho
  by_cases hb : rd = op.dom ∧ ref = op.ref
  · obtain ⟨rfl,rfl⟩ := hb
    rw [EntryOk,ha,if_pos ⟨rfl,rfl⟩]
    refine hp.entry.add op.flags.device op.flags.host op.flags.readonly hp.small (fun d k => ?_)
      (fun f => ?_) fun f => ?_
    · rw [hm,hp.domid]
      simp
    · change g.1.held op.dom op.ref f = _
      rw [hs.held,he]
      congr 1
      by_cases hf : f = a.frame
      · subst hf
        by_cases hk : C.iomem a.frame = false <;> simp [At,hk]
      · simp [At,hf]
    · change g.1.heldType op.dom op.ref f = _
      rw [hs.heldType,hy,hp.domid]
      congr 1
      by_cases hf : f = a.frame
      · subst hf
        by_cases hk : C.iomem a.frame = false <;> simp [At,hk]
      · simp [At,hf]
  refine (hi rd ref).congr (fun d k => ?_) (by rw [ha,if_neg hb]) (fun f => ?_) fun f => ?_
  · rw [hm,if_neg fun hx => hb ⟨hx.2.1.symm,hx.2.2.symm⟩,Nat.add_zero]
  · change g.1.held rd ref f = _
    rw [hs.held,if_neg fun hx => hb ⟨hx.1,hx.2.1⟩,Int.add_zero]
    rfl
  · change g.1.heldType rd ref f = _
    rw [hs.heldType,if_neg fun hx => hb ⟨hx.1,hx.2.1⟩,Int.add_zero]
    rfl

theorem liveEntries_giveUp (hc : FreeChain (s.track ld) L)
  (hz : ((s.track ld).maptrack h).flags = .zero) (d rd ref : Nat) (k : Kind) :
  liveEntries ((giveUp s ld h).track d) rd ref k = liveEntries (s.track d) rd ref k := by
  by_cases hd : d = ld
  · subst hd
    simp only [giveUp,updateTrack,update_self]
    exact liveEntries_put hz k fun x hx => hc.clear x (.inr (by omega))
  · simp only [giveUp,updateTrack,update_of_ne hd]

theorem mapPinned_undone (hp : Pinning C s ld op a) (hi : ∀ rd ref, EntryOk C s rd ref)
  (hc : MapCondition C ld op e) (hk : FreeChain (s.track ld) L) (hz : ((s.track ld).maptrack h).flags = .zero)
  (hg : Grabbed C (setActive s op.dom op.ref {a with pin := addPins a.pin op.flags}) ld op e a.frame g)
  (hr : RefsOnly (setActive s op.dom op.ref {a with pin := addPins a.pin op.flags}) g.1)
  (rd ref : Nat) : EntryOk C (giveUp (setActive (dropGets C g.1 ld op a.frame g.2.1) op.dom op.ref
    {(dropGets C g.1 ld op a.frame g.2.1).active op.dom op.ref with
      pin := subPins ((dropGets C g.1 ld op a.frame g.2.1).active op.dom op.ref).pin op.flags})
    ld h) rd ref := by
  have hd := hr.trans (dropGets_refsOnly C g.1 ld op a.frame g.2.1)
  have hs := (hg.shift hc).trans (dropGets_shift C g.1 ld op a.frame hg.le_two)
  generalize dropGets C g.1 ld op a.frame g.2.1 = u at hd hs ⊢
  have hb : u.active op.dom op.ref = {a with pin := addPins a.pin op.flags} := by
    rw [hd.active,active_setActive,if_pos ⟨rfl,rfl⟩]
  have hh : ∀ f, u.held rd ref f = s.held rd ref f := by
    intro f
    rw [hs.held,Int.add_right_neg,ite_self,Int.add_zero]
    rfl
  have ht : ∀ f, u.heldType rd ref f = s.heldType rd ref f := by
    intro f
    rw [hs.heldType,Int.add_right_neg,ite_self,Int.add_zero]
    rfl
  have ho : ∀ d k, liveEntries ((giveUp (setActive u op.dom op.ref
      {u.active op.dom op.ref with pin := subPins (u.active op.dom op.ref).pin op.flags}) ld h).track d)
      rd ref k = liveEntries (s.track d) rd ref k := by
    intro d k
    have he : (setActive u op.dom op.ref
      {u.active op.dom op.ref with pin := subPins (u.active op.dom op.ref).pin op.flags}).track = s.track := hd.track
    rw [liveEntries_giveUp (L := L) (by rw [he]; exact hk) (by rw [he]; exact hz),he]
  by_cases hf : rd = op.dom ∧ ref = op.ref
  · obtain ⟨rfl,rfl⟩ := hf
    have ha := hp.entry.add op.flags.device op.flags.host op.flags.readonly hp.small (fun _ _ => rfl)
      (fun _ => rfl) fun _ => rfl
    rw [EntryOk,giveUp_active,active_setActive,if_pos ⟨rfl,rfl⟩,hb]
    refine ha.sub op.flags.device op.flags.host op.flags.readonly (fun d k => ?_) (fun f => ?_) fun f => ?_
    · rw [← hb,ho]
    · change _ = u.held op.dom op.ref f+_
      rw [hh]
    · change _ = u.heldType op.dom op.ref f+_
      rw [ht]
  · refine (hi rd ref).congr ho ?_ hh ht
    rw [giveUp_active,active_setActive,if_neg hf,hd.active,active_setActive,if_neg hf]

theorem PinsInv.map (hi : PinsInv C s) (hc : MapCondition C ld op e) : PinsInv C (mapGrantRef C s ld op e) := by
  refine ⟨hi.handles.map,fun rd ref => ?_⟩
  obtain ⟨L,hL⟩ := hi.handles ld
  rw [mapGrantRef]
  split
  · exact hi.entry rd ref
  rename_i hl
  rw [Bool.not_eq_false] at hl
  split
  · exact hi.entry rd ref
  split
  · exact hi.entry rd ref
  split
  · exact hi.entry rd ref
  split
  · exact hi.entry rd ref
  rename_i h t he
  obtain ⟨L',hd⟩ := hL.chain.get he
  have hs : (updateTrack s ld t).track ld = t := update_self ..
  have hu : ∀ rd ref, EntryOk C (updateTrack s ld t) rd ref := by
    intro rd ref
    refine (hi.entry rd ref).congr (fun d k => ?_) rfl (fun _ => rfl) fun _ => rfl
    by_cases hb : d = ld
    · subst hb
      rw [hs]
      exact hd.liveEntries hL.chain k
    · simp only [updateTrack,update_of_ne hb]
  have hh : FreeChain ((updateTrack s ld t).track ld) L' := by rw [hs]; exact hd.chain
  have hz : (((updateTrack s ld t).track ld).maptrack h).flags = .zero := by
    rw [hs]
    exact hd.clear
  have hg : EntryOk C (giveUp (updateTrack s ld t) ld h) rd ref :=
    (hu rd ref).congr (fun d k => liveEntries_giveUp hh hz d rd ref k) rfl (fun _ => rfl) fun _ => rfl
  dsimp only
  split
  · exact hg
  rename_i hf
  split
  · exact hg
  rename_i a ha
  have hp := pinning_of_pinnedEntry (hu op.dom op.ref) hf ha
  rw [mapPinned]
  have hr := grabFrame_refsOnly C (setActive (updateTrack s ld t) op.dom op.ref
    {a with pin := addPins a.pin op.flags}) ld op e a.frame
  split_ifs with ho
  · rw [Bool.and_eq_true] at ho
    exact mapPinned_mapped hp hu hl hc (by rw [hs]; exact hd.below) hz
      grabFrame_cases hr ho.1 rd ref
  · exact mapPinned_undone hp hu hc hh hz grabFrame_cases hr rd ref

end

end GrantTable
