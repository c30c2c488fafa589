import PMigrate.Core.LinkedPath
import PMigrate.Hypervisor.GrantUnmap

namespace GrantTable

open LinkedPath Transition Function List

structure FreeChain (t : Track) (L : List Nat) : Prop where
  path : Path (fun h => (t.maptrack h).ref) t.maptrackHead L (t.maptrackLimit-1)
  nodup : L.Nodup
  below : ∀ h ∈ L, h+1 < t.maptrackLimit
  pos : 0 < t.maptrackLimit
  last : (t.maptrack (t.maptrackLimit-1)).ref = t.maptrackLimit
  clear : ∀ h, h ∈ L ∨ t.maptrackLimit ≤ h+1 → (t.maptrack h).flags = .zero

def InUse (t : Track) (h : Nat) : Prop := (t.maptrack h).flags.live = true

variable {C : Config} {t : Track} {L : List Nat} {h : Nat}

section

variable {t' : Track}

section
variable (hc : FreeChain t L)
include hc

theorem FreeChain.not_free (hf : (t.maptrack h).flags ≠ .zero) : h ∉ L ∧ h+1 < t.maptrackLimit := by
  refine ⟨fun hm => hf (hc.clear h (.inl hm)),?_⟩
  by_contra hl
  exact hf (hc.clear h (.inr (by omega)))

theorem FreeChain.write (hh : h ∉ L) (hl : h+1 < t.maptrackLimit)
  (m : Mapping) : FreeChain {t with maptrack := update t.maptrack h m} L where
  path := hc.path.congr fun x hx => by simp only [update_of_ne (ne_of_mem_of_not_mem hx hh)]
  nodup := hc.nodup
  below := hc.below
  pos := hc.pos
  last := by
    have hn : t.maptrackLimit-1 ≠ h := by omega
    simp only [update_of_ne hn]
    exact hc.last
  clear := by
    intro x hx
    have hn : x ≠ h := by
      rcases hx with hx | hx
      · exact ne_of_mem_of_not_mem hx hh
      · simp only at hx
        omega
    simp only [update_of_ne hn]
    exact hc.clear x hx

theorem FreeChain.put (hh : h ∉ L) (ht : h+1 < t.maptrackLimit)
  (hf : (t.maptrack h).flags = .zero) : FreeChain (putMaptrackHandle t h) (h :: L) := by
  have hl : t.maptrackLimit-1 ≠ h := by omega
  constructor
  case path =>
    refine ⟨rfl,?_⟩
    simp only [putMaptrackHandle,update_self]
    exact hc.path.congr fun x hx => by simp only [update_of_ne (ne_of_mem_of_not_mem hx hh)]
  case nodup => exact nodup_cons.mpr ⟨hh,hc.nodup⟩
  case below => exact forall_mem_cons.mpr ⟨ht,hc.below⟩
  case pos => exact hc.pos
  case last =>
    simp only [putMaptrackHandle,update_of_ne hl]
    exact hc.last
  case clear =>
    intro x hx
    by_cases ha : x = h
    · subst ha
      simp only [putMaptrackHandle,update_self]
      exact hf
    simp only [putMaptrackHandle,update_of_ne ha]
    refine hc.clear x (hx.imp_left fun hm => ?_)
    exact (mem_cons.mp hm).resolve_left ha

structure Handed (t t' : Track) (L L' : List Nat) (h : Nat) : Prop where
  chain : FreeChain t' L'
  off : h ∉ L'
  below : h+1 < t'.maptrackLimit
  clear : (t'.maptrack h).flags = .zero
  limit_le : t.maptrackLimit ≤ t'.maptrackLimit
  flags : ∀ x, (t'.maptrack x).flags = (t.maptrack x).flags
  kept : ∀ x, x < t.maptrackLimit → t'.maptrack x = t.maptrack x
  others : ∀ x, x+1 < t'.maptrackLimit → x ∉ L' → x ≠ h → x+1 < t.maptrackLimit ∧ x ∉ L

theorem FreeChain.tryGet (hg : tryGetMaptrackHandle t = some (h,t')) : ∃ L', Handed t t' L L' h := by
  rw [tryGetMaptrackHandle] at hg
  split at hg
  · cases hg
  rename_i he
  cases hg
  obtain ⟨L',rfl,hr⟩ := hc.path.head_mem he
  have hn := nodup_cons.mp hc.nodup
  refine ⟨L',⟨hr,hn.2,fun x hx => hc.below x (mem_cons_of_mem _ hx),hc.pos,hc.last,
    fun x hx => hc.clear x (hx.imp_left (mem_cons_of_mem _))⟩,hn.1,
    hc.below _ mem_cons_self,hc.clear _ (.inl mem_cons_self),Nat.le_refl _,
    fun _ => rfl,fun _ _ => rfl,fun x hx ha hh => ⟨hx,?_⟩⟩
  exact fun hm => ha ((mem_cons.mp hm).resolve_left hh)

theorem FreeChain.nil_of_head (hh : t.maptrackHead = t.maptrackLimit-1) : L = [] := by
  cases L with
  | nil => rfl
  | cons x xs =>
    have hx := hc.below x mem_cons_self
    have := hc.path.1
    omega

theorem FreeChain.grow (hh : t.maptrackHead = t.maptrackLimit-1) : FreeChain (growMaptrack t)
    (List.range' (t.maptrackLimit-1) maptrackPerPage) := by
  have ho := hc.pos
  have hm : ∀ x, x ∈ List.range' (t.maptrackLimit-1) maptrackPerPage ↔
      t.maptrackLimit ≤ x+1 ∧ x+1 < t.maptrackLimit+maptrackPerPage := by
    intro x
    rw [mem_range'_1]
    omega
  have hn : ∀ x, t.maptrackLimit ≤ x → x < t.maptrackLimit+maptrackPerPage →
      (growMaptrack t).maptrack x = ⟨x+1,.zero,0⟩ := fun x h1 h2 => if_pos ⟨h1,h2⟩
  have hold : ∀ x, x < t.maptrackLimit → (growMaptrack t).maptrack x = t.maptrack x :=
    fun x hx => if_neg (by omega)
  have hp : 0 < maptrackPerPage := by decide
  constructor
  case path =>
    have hl : (growMaptrack t).maptrackLimit-1 = t.maptrackLimit-1+maptrackPerPage := by
      change t.maptrackLimit+maptrackPerPage-1 = _
      omega
    rw [hl]
    change Path _ t.maptrackHead _ _
    rw [hh]
    refine Path.range _ _ _ fun x ha hb => ?_
    by_cases hx : x < t.maptrackLimit
    · have he : x = t.maptrackLimit-1 := by omega
      rw [hold x hx,he,hc.last]
      omega
    · rw [hn x (by omega) (by omega)]
  case nodup => exact nodup_range'
  case below =>
    intro x hx
    exact ((hm x).mp hx).2
  case pos => exact Nat.add_pos_left ho _
  case last =>
    change ((growMaptrack t).maptrack (t.maptrackLimit+maptrackPerPage-1)).ref = t.maptrackLimit+maptrackPerPage
    rw [hn _ (by omega) (by omega)]
    change t.maptrackLimit+maptrackPerPage-1+1 = _
    omega
  case clear =>
    intro x hx
    by_cases hi : t.maptrackLimit ≤ x ∧ x < t.maptrackLimit+maptrackPerPage
    · rw [hn x hi.1 hi.2]
    have ht : (growMaptrack t).maptrack x = t.maptrack x := if_neg hi
    rw [ht]
    refine hc.clear x (.inr ?_)
    rcases hx with hx | hx
    · exact ((hm x).mp hx).1
    · change t.maptrackLimit+maptrackPerPage ≤ x+1 at hx
      omega

theorem FreeChain.get {b : Bool} (hg : getMaptrackHandle C t b = some (h,t')) :
  ∃ L', Handed t t' L L' h := by
  rw [getMaptrackHandle] at hg
  split at hg
  · rename_i hr
    cases hg
    exact hc.tryGet hr
  rename_i hr
  have hh : t.maptrackHead = t.maptrackLimit-1 := by
    rw [tryGetMaptrackHandle] at hr
    split at hr
    · assumption
    · cases hr
  split at hg
  · cases hg
  split at hg
  · obtain ⟨L',hd⟩ := (hc.grow hh).tryGet hg
    have hn := hc.nil_of_head hh
    have hl : (growMaptrack t).maptrackLimit = t.maptrackLimit+maptrackPerPage := rfl
    have he := hd.limit_le
    refine ⟨L',hd.chain,hd.off,hd.below,hd.clear,by omega,fun x => ?_,fun x hx => ?_,fun x hx ha hb => ?_⟩
    · rw [hd.flags]
      by_cases hi : t.maptrackLimit ≤ x ∧ x < t.maptrackLimit+maptrackPerPage
      · have hx : (growMaptrack t).maptrack x = ⟨x+1,.zero,0⟩ := if_pos hi
        rw [hx,hc.clear x (.inr (by omega))]
      · have hx : (growMaptrack t).maptrack x = t.maptrack x := if_neg hi
        rw [hx]
    · rw [hd.kept x (by omega)]
      exact if_neg (by omega)
    · obtain ⟨ht,ho⟩ := hd.others x hx ha hb
      rw [mem_range'_1] at ho
      rw [hn]
      exact ⟨by omega,not_mem_nil⟩
  · cases hg

end

end

variable {s s' : State} {ld : Nat}

section

variable {op : MapOp} {e : MapEnv}

theorem grabFrame_refsOnly (C : Config) (s : State) (ld : Nat) (op : MapOp) (e : MapEnv) (frame : Nat) :
  RefsOnly s (grabFrame C s ld op e frame).1 := by
  simp only [grabFrame]
  split
  · exact .refl s
  split
  · exact .refl s
  split
  · exact adjustRefs_refsOnly _ _ _ _ _
  split
  · exact (adjustRefs_refsOnly _ _ _ _ _).trans (adjustRefs_refsOnly _ _ _ _ _)
  · exact adjustRefs_refsOnly _ _ _ _ _

theorem dropGets_refsOnly (C : Config) (s : State) (ld : Nat) (op : MapOp) (frame nrGets : Nat) :
  RefsOnly s (dropGets C s ld op frame nrGets) := by
  have hp : ∀ (u : State) (n : Nat) (b : Bool),
      RefsOnly u (if n < nrGets then putPage u op.dom op.ref frame b else u) := by
    intro u n b
    split
    · exact adjustRefs_refsOnly _ _ _ _ _
    · exact .refl u
  exact (hp s 1 _).trans (hp _ 0 _)

inductive MapTrack (s s' : State) (ld : Nat) (op : MapOp) (h : Nat) (t : Track) : Prop
  | undone (htrack : s'.track = update s.track ld (putMaptrackHandle t h))
  | mapped (hversion : s.gtVersion op.dom ≠ 0) (htrack : s'.track = update s.track ld
        {t with maptrack := update t.maptrack h ⟨op.ref,op.flags.truncate,op.dom⟩})

theorem mapPinned_track (C : Config) (ld : Nat) (e : MapEnv) (h : Nat) (t : Track) (hv : s.gtVersion op.dom ≠ 0)
  (a : Active) :
  (mapPinned C (updateTrack s ld t) ld op e h a).gtVersion = s.gtVersion ∧
    MapTrack s (mapPinned C (updateTrack s ld t) ld op e h a) ld op h t := by
  have hg := grabFrame_refsOnly C
    (setActive (updateTrack s ld t) op.dom op.ref {a with pin := addPins a.pin op.flags}) ld op e a.frame
  rw [mapPinned]
  generalize grabFrame C _ ld op e a.frame = g at hg ⊢
  split
  · refine ⟨hg.gtVersion,.mapped hv ?_⟩
    simp only [recordMapping,updateTrack,hg.track,setActive,update_self,update_idem]
  have hd := hg.trans (dropGets_refsOnly C g.1 ld op a.frame g.2.1)
  refine ⟨hd.gtVersion,.undone ?_⟩
  simp only [giveUp,updateTrack,setActive,hd.track,update_self,update_idem]

theorem mapGrantRef_track (C : Config) (s : State) (ld : Nat) (op : MapOp) (e : MapEnv)
  (hs : mapGrantRef C s ld op e = s') :
  s'.gtVersion = s.gtVersion ∧ (s'.track = s.track ∨ op.flags.live = true ∧ C.known op.dom = true ∧
    ∃ h t, getMaptrackHandle C (s.track ld) e.pageAllocated = some (h,t) ∧ MapTrack s s' ld op h t) := by
  subst hs
  rw [mapGrantRef]
  split
  · exact ⟨rfl,.inl rfl⟩
  rename_i hl
  split
  · exact ⟨rfl,.inl rfl⟩
  split
  · exact ⟨rfl,.inl rfl⟩
  rename_i hk
  split
  · exact ⟨rfl,.inl rfl⟩
  rw [Bool.not_eq_false] at hl hk
  split
  · exact ⟨rfl,.inl rfl⟩
  rename_i h t he
  have hg : (giveUp (updateTrack s ld t) ld h).track = update s.track ld (putMaptrackHandle t h) := by
    simp only [giveUp,updateTrack,update_self,update_idem]
  dsimp only
  split
  · exact ⟨rfl,.inr ⟨hl,hk,h,t,he,.undone hg⟩⟩
  rename_i hp
  have hv : s.gtVersion op.dom ≠ 0 := fun hz => hp (.inl hz)
  split
  · exact ⟨rfl,.inr ⟨hl,hk,h,t,he,.undone hg⟩⟩
  rename_i a _
  have hm := mapPinned_track C ld e h t hv a
  exact ⟨hm.1,.inr ⟨hl,hk,h,t,he,hm.2⟩⟩

end

section

variable {full : Prop}

structure TrackInv (C : Config) (full : Prop) (s : State) (ld : Nat) (L : List Nat) : Prop where
  chain : FreeChain (s.track ld) L
  live : ∀ h, ((s.track ld).maptrack h).flags ≠ .zero → InUse (s.track ld) h
  taken : full → ∀ h, h+1 < (s.track ld).maptrackLimit → h ∉ L → InUse (s.track ld) h
  granter : ∀ h, InUse (s.track ld) h → C.known ((s.track ld).maptrack h).domid = true ∧
    s.gtVersion ((s.track ld).maptrack h).domid ≠ 0

def HandlesInv (C : Config) (full : Prop) (s : State) : Prop := ∀ ld, ∃ L, TrackInv C full s ld L

variable {op : UnmapOp} {f : Flags}

theorem live_ne_zero (hf : f.live = true) : f ≠ .zero := by
  rintro rfl
  cases hf

theorem handlesInv_initial (hi : Initial s) : HandlesInv C full s := by
  intro ld
  have ha : ∀ h, (initialTrack.maptrack h).flags = .zero := by
    intro h
    simp only [initialTrack]
    split <;> rfl
  have hn : ∀ x, x < maptrackPerPage → (initialTrack.maptrack x).ref = x+1 := by
    intro x hx
    simp only [initialTrack,if_pos hx]
  refine ⟨List.range' 0 (maptrackPerPage-1),?_,?_,fun _ => ?_,?_⟩
  · rw [hi.track]
    refine ⟨?_,nodup_range',fun h hh => ?_,by decide,hn _ (by decide),fun h _ => ha h⟩
    · have := Path.range (fun h => (initialTrack.maptrack h).ref) 0 (maptrackPerPage-1) fun x _ hx => hn x (by omega)
      rwa [Nat.zero_add] at this
    rw [mem_range'_1] at hh
    change h+1 < maptrackPerPage
    omega
  · intro h hf
    rw [hi.track] at hf
    exact absurd (ha h) hf
  · intro h hl ho
    rw [hi.track] at hl
    rw [mem_range'_1] at ho
    change h+1 < maptrackPerPage at hl
    omega
  · intro h hu
    rw [InUse,hi.track,ha] at hu
    cases hu

theorem HandlesInv.update (hi : HandlesInv C full s) {t : Track} {L : List Nat}
  (hr : s'.track = update s.track ld t) (hv : s'.gtVersion = s.gtVersion)
  (ht : TrackInv C full s' ld L) : HandlesInv C full s' := by
  intro d
  by_cases hd : d = ld
  · subst hd
    exact ⟨L,ht⟩
  obtain ⟨M,hM⟩ := hi d
  have he : s'.track d = s.track d := by rw [hr,update_of_ne hd]
  exact ⟨M,by rw [he]; exact hM.chain,by rw [he]; exact hM.live,by rw [he]; exact hM.taken,
    by rw [he,hv]; exact hM.granter⟩

theorem HandlesInv.same (hi : HandlesInv C full s) (ht : s'.track = s.track)
  (hv : s'.gtVersion = s.gtVersion) : HandlesInv C full s' := by
  intro d
  obtain ⟨M,hM⟩ := hi d
  exact ⟨M,by rw [ht]; exact hM.chain,by rw [ht]; exact hM.live,by rw [ht]; exact hM.taken,
    by rw [ht,hv]; exact hM.granter⟩

structure TrackOff (C : Config) (full : Prop) (v : Nat → Nat) (t : Track) (L : List Nat) (h : Nat) : Prop where
  chain : FreeChain t L
  off : h ∉ L
  below : h+1 < t.maptrackLimit
  live : ∀ x, x ≠ h → (t.maptrack x).flags ≠ .zero → InUse t x
  taken : full → ∀ x, x ≠ h → x+1 < t.maptrackLimit → x ∉ L → InUse t x
  granter : ∀ x, x ≠ h → InUse t x → C.known (t.maptrack x).domid = true ∧ v (t.maptrack x).domid ≠ 0

variable {v : Nat → Nat}

section
variable (ho : TrackOff C full v t L h)
include ho

theorem TrackOff.write (m : Mapping) :
  TrackOff C full v {t with maptrack := Function.update t.maptrack h m} L h where
  chain := ho.chain.write ho.off ho.below m
  off := ho.off
  below := ho.below
  live x hx := by simpa only [InUse,update_of_ne hx] using ho.live x hx
  taken hf x hx := by simpa only [InUse,update_of_ne hx] using ho.taken hf x hx
  granter x hx := by simpa only [InUse,update_of_ne hx] using ho.granter x hx

theorem TrackOff.keep (hl : InUse t h)
  (hg : C.known (t.maptrack h).domid = true ∧ v (t.maptrack h).domid ≠ 0) (ht : s'.track ld = t)
  (hv : s'.gtVersion = v) : TrackInv C full s' ld L := by
  subst ht hv
  refine ⟨ho.chain,fun x hx => ?_,fun hf x hx ha => ?_,fun x hx => ?_⟩ <;> by_cases hh : x = h
  · exact hh ▸ hl
  · exact ho.live x hh hx
  · exact hh ▸ hl
  · exact ho.taken hf x hh hx ha
  · exact hh ▸ hg
  · exact ho.granter x hh hx

theorem TrackOff.put (hz : (t.maptrack h).flags = .zero)
  (ht : s'.track ld = putMaptrackHandle t h) (hv : s'.gtVersion = v) : TrackInv C full s' ld (h :: L) := by
  have hi : ((s'.track ld).maptrack h).flags = .zero := by simpa only [ht,putMaptrackHandle,update_self] using hz
  have ha {x : Nat} (hx : x ≠ h) : (s'.track ld).maptrack x = t.maptrack x := by
    simp only [ht,putMaptrackHandle,update_of_ne hx]
  refine ⟨ht ▸ ho.chain.put ho.off ho.below hz,fun x hx => ?_,fun hf x hx hb => ?_,fun x hx => ?_⟩
  · have hh : x ≠ h := fun he => hx (he ▸ hi)
    rw [InUse,ha hh] at *
    exact ho.live x hh hx
  · rw [mem_cons,not_or] at hb
    rw [ht] at hx
    rw [InUse,ha hb.1]
    exact ho.taken hf x hb.1 hx hb.2
  · have hh : x ≠ h := by
      rintro rfl
      rw [InUse,hi] at hx
      cases hx
    rw [InUse,ha hh] at hx
    rw [ha hh,hv]
    exact ho.granter x hh hx

end

theorem HandlesInv.map (hi : HandlesInv C full s) {op : MapOp} {e : MapEnv} :
  HandlesInv C full (mapGrantRef C s ld op e) := by
  obtain ⟨hv,hs | ⟨hl,hk,h,t,hg,hm⟩⟩ := mapGrantRef_track C s ld op e rfl
  · exact hi.same hs hv
  obtain ⟨L,hL⟩ := hi ld
  obtain ⟨L',hd⟩ := hL.chain.get hg
  have hu (x : Nat) : InUse t x ↔ InUse (s.track ld) x := by rw [InUse,InUse,hd.flags]
  have ho : TrackOff C full s.gtVersion t L' h := by
    refine ⟨hd.chain,hd.off,hd.below,fun x _ hx => ?_,fun hf x hh hx hb => ?_,fun x _ hx => ?_⟩
    · exact (hu x).mpr (hL.live x (hd.flags x ▸ hx))
    · obtain ⟨ha,hc⟩ := hd.others x hx hb hh
      exact (hu x).mpr (hL.taken hf x ha hc)
    · have hx' := (hu x).mp hx
      have ha := (hL.chain.not_free (live_ne_zero hx')).2
      rw [hd.kept x (by omega)]
      exact hL.granter x hx'
  cases hm with
  | undone ht => exact hi.update ht hv (ho.put hd.clear (by rw [ht,update_self]) hv)
  | mapped he ht =>
    refine hi.update ht hv ((ho.write ⟨op.ref,op.flags.truncate,op.dom⟩).keep ?_ ?_
      (by rw [ht,update_self]) hv) <;> simp only [InUse,update_self]
    · exact hl
    · exact ⟨hk,he⟩

def HostRemoved (s : State) (ld : Nat) (op : UnmapOp) : Prop :=
  op.hostAddr = true ∧ ((s.track ld).maptrack op.handle).flags.host = true ∧ op.replaced = true

def withFlags (t : Track) (h : Nat) (f : Flags) : Track :=
  {t with maptrack := update t.maptrack h {t.maptrack h with flags := f}}

theorem releaseHandle_track {u : State} {h : Nat} (hu : u.track = update s.track ld (withFlags (s.track ld) h f)) :
  f.live = true ∧ (releaseHandle u ld h).track = u.track ∨ f.live = false ∧ (releaseHandle u ld h).track =
    update s.track ld
      (putMaptrackHandle (withFlags (s.track ld) h .zero) h) := by
  have hf : ((u.track ld).maptrack h).flags = f := by
    rw [hu,update_self]
    simp only [withFlags,update_self]
  rw [releaseHandle,hf]
  split_ifs with hl
  · exact .inl ⟨hl,rfl⟩
  rw [Bool.not_eq_true] at hl
  refine .inr ⟨hl,?_⟩
  simp only [giveUp,setFlags,updateTrack,hu,update_self,update_idem,withFlags]

theorem completeHalves_track {s1 : State} {m : Mapping} {pin : Nat}
  (hm : (s.track ld).maptrack op.handle = m) (hu : Unmapped s s1 ld op.handle m (leftFlags op m.flags) pin)
  (ho : HostRemoved s ld op → op.iommuDone = true) :
  (completeHalves C s1 ld m.domid m.ref (doneCommon s op m)).gtVersion = s.gtVersion ∧
  ((leftFlags op m.flags).live = true ∧ (completeHalves C s1 ld m.domid m.ref (doneCommon s op m)).track =
      update s.track ld (withFlags (s.track ld) op.handle (leftFlags op m.flags)) ∨
    (leftFlags op m.flags).live = false ∧ (completeHalves C s1 ld m.domid m.ref (doneCommon s op m)).track =
      update s.track ld (putMaptrackHandle (withFlags (s.track ld) op.handle .zero) op.handle)) := by
  have hk := completeHalves_keeps C s1 ld m.domid m.ref (doneCommon s op m)
  refine ⟨hk.gtVersion.trans hu.gtVersion,?_⟩
  have ht : s1.track = update s.track ld (withFlags (s.track ld) op.handle (leftFlags op m.flags)) := by
    rw [hu.track,withFlags,hm]
  obtain ⟨hd,-,-⟩ := completeDevice_keeps C s1 m.domid m.ref (doneCommon s op m)
  rw [completeHalves]
  split_ifs with hs
  · obtain ⟨ha,hb,hn⟩ := hs
    have he : op.replaced = false := by
      cases hr : op.replaced with
      | false => rfl
      | true =>
        have hi := ho ⟨ha,by rw [hm]; exact hb,hr⟩
        refine absurd ?_ hn
        simp [doneCommon,unmapStatus,hr,hi]
    refine .inl ⟨?_,hd.trans ht⟩
    have hhs' : m.flags.host = true := hb
    simp [leftFlags,Flags.live,he,hhs']
  obtain ⟨hh,-,-⟩ := completeHost_keeps C
    (completeDevice C s1 m.domid m.ref (doneCommon s op m)) ld m.domid m.ref (doneCommon s op m)
  have hc := hh.trans (hd.trans ht)
  exact (releaseHandle_track hc).imp_left fun hl => ⟨hl.1,hl.2.trans hc⟩

theorem HandlesInv.unmapOne (hi : HandlesInv C full s)
  (hg : HostRemoved s ld op → op.iommuDone = true) : HandlesInv C full (unmapOne C ld s op) := by
  obtain ⟨L,hL⟩ := hi ld
  by_cases hs : (s.track ld).maptrackLimit ≤ op.handle ∨ ((s.track ld).maptrack op.handle).flags = .zero
  · rw [unmapOne_skipped hs]
    exact hi
  rw [not_or,Nat.not_le] at hs
  obtain ⟨hc,hf⟩ := hs
  obtain ⟨hm,hlt'⟩ := hL.chain.not_free hf
  have hd := hL.live op.handle hf
  obtain ⟨hk,hv⟩ := hL.granter op.handle hd
  have ho : TrackOff C full s.gtVersion (s.track ld) L op.handle :=
    ⟨hL.chain,hm,hlt',fun x _ => hL.live x,fun hn x _ => hL.taken hn x,fun x _ => hL.granter x⟩
  cases hx : op.xsmAllows with
  | false =>
    have hr := (unmapOne_denied (C := C) rfl hc hf hk hx hd).1
    exact hi.same hr.track hr.gtVersion
  | true =>
    by_cases ha : op.devFrame ≠ 0 → op.devFrame =
        (s.active ((s.track ld).maptrack op.handle).domid ((s.track ld).maptrack op.handle).ref).frame
    · obtain ⟨s1,hu,he⟩ := unmapOne_done (C := C) rfl hc hf hk hv hx ha
      rw [he]
      obtain ⟨hb,⟨hl,ht⟩ | ⟨-,ht⟩⟩ := completeHalves_track (C := C) rfl hu hg
      · refine hi.update ht hb ((ho.write _).keep ?_ ?_ (by rw [ht,update_self,withFlags]) hb) <;>
          simp only [InUse,update_self]
        · exact hl
        · exact ⟨hk,hv⟩
      · refine hi.update ht hb ((ho.write _).put ?_ (by rw [ht,update_self,withFlags]) hb)
        simp only [update_self]
    rw [Classical.not_imp] at ha
    rw [unmapOne_mismatch rfl hc hf hk hx ha.1 ha.2]
    exact hi

end

def EachGroup (C : Config) (ld : Nat) (ok : State → List UnmapOp → Prop) : State → List (List UnmapOp) → Prop
  | _,[] => True
  | s,g :: gs => ok s g ∧ EachGroup C ld ok (unmapGroup C ld s g) gs

theorem foldl_groups {I : State → Prop} {ok : State → List UnmapOp → Prop}
  (hs : ∀ s g, I s → ok s g → I (unmapGroup C ld s g)) (gs : List (List UnmapOp)) (hi : I s)
  (ho : EachGroup C ld ok s gs) : I (gs.foldl (unmapGroup C ld) s) := by
  induction gs generalizing s with
  | nil => exact hi
  | cons g gs ih => exact ih (hs s g hi ho.1) ho.2

theorem unmapOne_maptrack_of_ne {op : UnmapOp} {x : Nat} (hx : x ≠ op.handle) :
  ((unmapOne C ld s op).track ld).maptrack x = (s.track ld).maptrack x := by
  have hk := complete_keeps C (unmapCommon C s ld op).1 ld (unmapCommon C s ld op).2
  rw [unmapCommon_handle] at hk
  rw [unmapOne,hk.maptrack x hx]
  have hd : ∀ (u : State) (rd : Nat) (f : Flags),
      ((unmapDevice u ld rd op f).track ld).maptrack x = (u.track ld).maptrack x := by
    intro u rd f
    rw [unmapDevice]
    split
    · exact setFlags_maptrack_of_ne hx
    · rfl
  have hh : ∀ (u : State) (rd : Nat) (f : Flags),
      ((unmapHost u ld rd op f).track ld).maptrack x = (u.track ld).maptrack x :=
    fun u rd f => setFlags_maptrack_of_ne hx
  simp only [unmapCommon]
  repeat' split
  all_goals first | rfl | exact hd _ _ _ | exact (hh _ _ _).trans (hd _ _ _)

theorem foldl_unmapOne {I : State → Prop} (ok : Mapping → UnmapOp → Prop)
  (hs : ∀ s op, I s → ok ((s.track ld).maptrack op.handle) op → I (unmapOne C ld s op))
  (ops : List UnmapOp) (hi : I s) (hd : (ops.map UnmapOp.handle).Nodup)
  (ho : ∀ op ∈ ops, ok ((s.track ld).maptrack op.handle) op) : I (ops.foldl (unmapOne C ld) s) := by
  induction ops generalizing s with
  | nil => exact hi
  | cons op ops ih =>
    rw [map_cons,nodup_cons] at hd
    refine ih (hs s op hi (ho op mem_cons_self)) hd.2 fun x hx => ?_
    have hn : x.handle ≠ op.handle := fun he => hd.1 (he ▸ mem_map_of_mem hx)
    rw [unmapOne_maptrack_of_ne hn]
    exact ho x (mem_cons_of_mem op hx)

end GrantTable
