import PMigrate.Hypervisor.Maptrack

namespace GrantTable

open LinkedPath Transition List

variable {C : Config} {full : Prop} {s s' s0 : State} {ld : Nat}

structure HandleSafeGroup (ld : Nat) (s : State) (ops : List UnmapOp) : Prop where
  distinct : (ops.map UnmapOp.handle).Nodup
  iommu : ∀ op ∈ ops, HostRemoved s ld op → op.iommuDone = true

def HandleSafe (C : Config) (s : State) : Action → Prop
  | .map _ _ _ => True
  | .unmap ld ops => EachGroup C ld (HandleSafeGroup ld) s (groupsOf ops)
  | .replace ld ops =>
    EachGroup C ld (HandleSafeGroup ld) s (groupsOf (ops.map fun op => {op with devFrame := 0}))
  | .release _ => False
  | .setVersion _ _ => True

variable (hi : HandlesInv C full s)
include hi

theorem HandlesInv.unmapGroup {ops : List UnmapOp}
  (ho : HandleSafeGroup ld s ops) : HandlesInv C full (unmapGroup C ld s ops) := by
  rw [unmapGroup_eq ops ho.distinct]
  exact foldl_unmapOne (fun m op =>
      (op.hostAddr = true ∧ m.flags.host = true ∧ op.replaced = true) → op.iommuDone = true)
    (fun _ _ hu hp => hu.unmapOne hp) ops hi ho.distinct ho.iommu

theorem HandlesInv.unmapGrantRef {ops : List UnmapOp}
  (ho : EachGroup C ld (HandleSafeGroup ld) s (groupsOf ops)) : HandlesInv C full (unmapGrantRef C s ld ops) :=
  foldl_groups (fun _ _ hu hg => hu.unmapGroup hg) _ hi ho

theorem HandlesInv.setVersion {d v : Nat} (hv : v ≠ 0) :
  HandlesInv C full {s with gtVersion := Function.update s.gtVersion d v} := by
  intro x
  obtain ⟨L,hL⟩ := hi x
  refine ⟨L,hL.chain,hL.live,hL.taken,fun h hu => ⟨(hL.granter h hu).1,?_⟩⟩
  by_cases hd : ((s.track x).maptrack h).domid = d
  · simp only [hd,Function.update_self]
    exact hv
  · simp only [Function.update_of_ne hd]
    exact (hL.granter h hu).2

theorem HandlesInv.step {a : Action} (ha : HandleSafe C s a) (h : step C s a = some s') : HandlesInv C full s' := by
  cases a with
  | map ld op e =>
    cases h
    exact hi.map
  | unmap ld ops | replace ld ops =>
    cases h
    exact hi.unmapGrantRef ha
  | release d => exact ha.elim
  | setVersion d v =>
    simp only [GrantTable.step] at h
    split at h
    · cases h
    rename_i hv
    cases h
    exact hi.setVersion hv

omit hi

structure UniqueHandles (t : Track) (F : List Nat) : Prop where
  path : Path (fun h => (t.maptrack h).ref) t.maptrackHead F t.maptrackLimit
  once : F.Nodup
  free : ∀ h, h ∈ F ↔ h < t.maptrackLimit ∧ ¬InUse t h

theorem TrackInv.uniqueHandles {L : List Nat} (ht : TrackInv C True s ld L) :
  UniqueHandles (s.track ld) (L ++ [(s.track ld).maptrackLimit-1]) where
  path := ht.chain.path.snoc ht.chain.last
  once := by
    refine List.Nodup.append ht.chain.nodup (nodup_singleton _) (disjoint_singleton.mpr fun hm => ?_)
    have := ht.chain.below _ hm
    omega
  free := by
    intro h
    have hp := ht.chain.pos
    rw [mem_append,mem_singleton]
    constructor
    · intro hm
      have hz : ((s.track ld).maptrack h).flags = .zero := ht.chain.clear h (hm.imp_right fun he => by omega)
      refine ⟨?_,?_⟩
      · rcases hm with hm | rfl
        · have := ht.chain.below h hm
          omega
        · omega
      · rw [InUse,hz]
        exact Bool.false_ne_true
    rintro ⟨hl,hn⟩
    by_cases hL : h ∈ L
    · exact .inl hL
    refine .inr ?_
    by_contra ha
    exact hn (ht.taken trivial h (by omega) hL)

theorem handlesInv_of_reach (hs : Initial s0) (h : Reach (step C) (HandleSafe C) s0 s) : HandlesInv C True s :=
  reach_invariant (handlesInv_initial hs) (fun _ _ _ _ hu ha hv => hu.step ha hv) h

theorem maptrack_handles_unique (hs : Initial s0) (hrun : Reach (step C) (HandleSafe C) s0 s)
  (ld : Nat) : (∃ F, UniqueHandles (s.track ld) F) ∧
    ∀ b h t, getMaptrackHandle C (s.track ld) b = some (h,t) → ¬InUse (s.track ld) h := by
  obtain ⟨L,hL⟩ := handlesInv_of_reach hs hrun ld
  refine ⟨⟨_,hL.uniqueHandles⟩,fun b h t hg => ?_⟩
  obtain ⟨L',hd⟩ := hL.chain.get hg
  rw [InUse,← hd.flags,hd.clear]
  exact Bool.false_ne_true

def paravirtual : Config := ⟨fun _ => true,fun _ => false,fun _ => false,256⟩

def freshState : State := ⟨fun _ => initialTrack,fun _ _ => ⟨0,0,0,false⟩,fun _ => 1,
  fun _ _ _ => 0,fun _ _ _ => 0,fun _ => 0,fun _ => 0⟩

theorem freshState_initial : Initial freshState :=
  ⟨fun _ => rfl,fun _ _ => rfl,fun _ _ _ => rfl,fun _ _ _ => rfl⟩

def allGood : MapEnv := ⟨true,true,8,true,some 7,.granter,true,true,true,true,true,true,true⟩

def readOnlyHost : Flags := ⟨false,true,true,false,false,0⟩

def unmapZero : UnmapOp := ⟨0,true,0,true,true,true⟩

def mapReadOnly : Action := .map 1 ⟨readOnlyHost,2,1⟩ allGood

def mappedAndUnmapped : State :=
  (runIf (step paravirtual) (fun _ _ => true) freshState [mapReadOnly,.unmap 1 [unmapZero]]).get rfl

theorem unmapped_handle_is_free :
  (∃ F, UniqueHandles (mappedAndUnmapped.track 1) F) ∧ ¬InUse (mappedAndUnmapped.track 1) 0 := by
  have hm : Rel (step paravirtual) (HandleSafe paravirtual) freshState
      (mapGrantRef paravirtual freshState 1 ⟨readOnlyHost,2,1⟩ allGood) := ⟨mapReadOnly,trivial,rfl⟩
  have hn : Rel (step paravirtual) (HandleSafe paravirtual)
      (mapGrantRef paravirtual freshState 1 ⟨readOnlyHost,2,1⟩ allGood) mappedAndUnmapped := by
    refine ⟨.unmap 1 [unmapZero],⟨⟨by decide,fun op ho _ => ?_⟩,trivial⟩,rfl⟩
    rw [mem_singleton.mp ho]
    rfl
  have hu := maptrack_handles_unique freshState_initial (.tail (.single hm) hn) 1
  exact ⟨hu.1,hu.2 true 0 _ rfl⟩

def releasedTwice : State := (runIf (step paravirtual) (fun _ _ => true) freshState
    [mapReadOnly,.unmap 1 [unmapZero,unmapZero],mapReadOnly]).get rfl

theorem handle_in_use_is_handed_out : Reach (step paravirtual) (fun _ _ => True) freshState releasedTwice ∧
    (getMaptrackHandle paravirtual (releasedTwice.track 1) true).map Prod.fst = some 0 ∧
    InUse (releasedTwice.track 1) 0 := by
  exact ⟨reach_get (fun _ _ _ => trivial) _,by decide +kernel,
    (by decide +kernel : ((releasedTwice.track 1).maptrack 0).flags.live = true)⟩

end GrantTable
