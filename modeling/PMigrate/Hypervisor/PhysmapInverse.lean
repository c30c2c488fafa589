import PMigrate.Hypervisor.PopulateOnDemand

namespace PhysmapInverse

open PopulateOnDemand Transition List Option

structure Config where
  (pagingModeTranslate needIommu : Bool)
  beyondLimit : Nat → Nat → Bool

-- What the layers below do during one call: the gfns that set_p2m_entry manages to write, the
-- aliases that it manages to remove, a failure of iommu_map_page.
structure Outcome where
  (written aliasWritten : Nat → Bool)
  iommuFails : Bool

def trySetP2mEntry (s : State) (gfn : Nat) (mfn : Option Nat) (order : Nat) (t : P2mType)
    (written : Nat → Bool) : State × Bool :=
  ({s with p2m := fun g => if written g then (setP2mEntry s gfn mfn order t).p2m g else s.p2m g},
    (List.range (2^order)).all fun i => written (gfn+i))

def p2mRemovePage (s : State) (gfn mfn order : Nat) (env : FrameEnv) (written : Nat → Bool) : State :=
  (trySetP2mEntry ((List.range (2^order)).foldl (forgetM2p env gfn mfn) s) gfn none order .invalid written).1

def guestPhysmapRemoveEntry (C : Config) (s : State) (gfn mfn order : Nat) (env : FrameEnv) (o : Outcome) : State :=
  if C.pagingModeTranslate then p2mRemovePage s gfn mfn order env o.written else s

def tryDropAlias (env : FrameEnv) (gfn mfn : Nat) (aliasWritten : Nat → Bool) (s : State) (i : Nat) : State :=
  if env.owned (mfn+i) then
    match s.m2p (mfn+i) with
    | none => s
    | some ogfn =>
      if ogfn ≠ gfn+i ∧ (s.p2m ogfn).type.isRam ∧ (s.p2m ogfn).mfn = some (mfn+i) then
        p2mRemovePage s ogfn (mfn+i) 0 env fun _ => aliasWritten i
      else s
  else s

def guestPhysmapAddEntry (C : Config) (s : State) (gfn mfn order : Nat) (t : P2mType)
    (env : FrameEnv) (o : Outcome) : Option (State × Rc) :=
  if !C.pagingModeTranslate then
    some (s,if C.needIommu && t == .ramRw && o.iommuFails then .einval else .ok)
  else if C.beyondLimit gfn order then some (s,.einval)
  else
    let podCount := (List.range (2^order)).countP fun i => isPod s (gfn+i)
    let r := dropOld gfn (2^order) 0 s
    if !r.2 then some (r.1,.einval)
    else
      let s1 := (List.range (2^order)).foldl (tryDropAlias env gfn mfn o.aliasWritten) r.1
      if env.valid mfn then
        -- the reverse entries are written even if the forward ones were not
        let w := trySetP2mEntry s1 gfn (some mfn) order t o.written
        some (if t.isGrant then w.1 else recordM2p w.1 mfn gfn (2^order),if w.2 then .ok else .einval)
      else
        let w := trySetP2mEntry s1 gfn none order .invalid o.written
        if w.2 then
          let s2 : State := {w.1 with entryCount := w.1.entryCount-podCount}
          if s2.entryCount < 0 then none else some (s2,.ok)
        else some (w.1,.einval)

inductive Op where
  | add (gfn mfn order : Nat) (t : P2mType) (env : FrameEnv) (o : Outcome)
  | remove (gfn mfn order : Nat) (env : FrameEnv) (o : Outcome)

def perform (C : Config) (s : State) : Op → Option (State × Rc)
  | .add gfn mfn order t env o => guestPhysmapAddEntry C s gfn mfn order t env o
  | .remove gfn mfn order env o => some (guestPhysmapRemoveEntry C s gfn mfn order env o,.ok)

def step (C : Config) (s : State) (op : Op) : Option State := (perform C s op).map Prod.fst

def InRange (gfn order g : Nat) : Prop := gfn ≤ g ∧ g < gfn+2^order

def Ram (s : State) (g m : Nat) : Prop := (s.p2m g).type.isRam = true ∧ (s.p2m g).mfn = some m

def Owned : Op → Prop
  | .add _ mfn order t env _ =>
    t.isRam = true ∧ (env.valid mfn = true → ∀ i, i < 2^order → env.owned (mfn+i) = true)
  | .remove .. => True

-- set_p2m_entry succeeds, and no frame is removed that another gfn maps.
def Regular (s : State) : Op → Prop
  | .add gfn _ order _ _ o => ∀ i, i < 2^order → o.written (gfn+i) = true ∧ o.aliasWritten i = true
  | .remove gfn mfn order env o =>
    (∀ i, i < 2^order → o.written (gfn+i) = true) ∧
      (env.valid mfn = true → ∀ g m, ¬InRange gfn order g → Ram s g m → ¬InRange mfn order m)

variable {C : Config} {s : State} {gfn mfn order : Nat} {t : P2mType} {env : FrameEnv}

section
variable {m : Option Nat} {o : Outcome} {written : Nat → Bool}

theorem trySet_eq (h : ∀ i, i < 2^order → written (gfn+i) = true) :
  trySetP2mEntry s gfn m order t written = (setP2mEntry s gfn m order t,true) := by
  have ha : ((List.range (2^order)).all fun i => written (gfn+i)) = true :=
    all_eq_true.mpr fun i hi => h i (mem_range.mp hi)
  have hp : (fun g => if written g then (setP2mEntry s gfn m order t).p2m g else s.p2m g) =
      (setP2mEntry s gfn m order t).p2m := by
    funext g
    by_cases hg : gfn ≤ g ∧ g < gfn+2^order
    · have hw := h (g-gfn) (by omega)
      rw [Nat.add_sub_cancel' hg.1] at hw
      exact if_pos hw
    · have ho : (setP2mEntry s gfn m order t).p2m g = s.p2m g := if_neg hg
      rw [ho,ite_self]
  rw [trySetP2mEntry,ha,hp]
  rfl

theorem remove_eq (h : ∀ i, i < 2^order → written (gfn+i) = true) :
  p2mRemovePage s gfn mfn order env written = removePage s gfn mfn order env := by
  rw [p2mRemovePage,trySet_eq h,removePage]

variable {aliasWritten : Nat → Bool}

theorem tryDropAlias_eq {i : Nat} (h : aliasWritten i = true) :
  tryDropAlias env gfn mfn aliasWritten s i = dropAlias env gfn mfn s i := by
  have hr : ∀ ogfn, p2mRemovePage s ogfn (mfn+i) 0 env (fun _ => aliasWritten i) =
      removePage s ogfn (mfn+i) 0 env := fun _ => remove_eq fun _ _ => h
  rw [tryDropAlias,dropAlias]
  split
  · cases s.m2p (mfn+i) with
    | none => rfl
    | some ogfn =>
      dsimp only
      rw [hr]
  · rfl

theorem dropAliases_eq (env : FrameEnv) (gfn mfn : Nat) (L : List Nat) (h : ∀ i ∈ L, aliasWritten i = true)
  (s : State) :
  L.foldl (tryDropAlias env gfn mfn aliasWritten) s = L.foldl (dropAlias env gfn mfn) s := by
  induction L generalizing s with
  | nil => rfl
  | cons i L ih =>
    rw [foldl_cons,foldl_cons,tryDropAlias_eq (h i mem_cons_self)]
    exact ih (fun j hj => h j (mem_cons_of_mem _ hj)) _

theorem add_eq (ht : C.pagingModeTranslate = true) (hl : C.beyondLimit gfn order = false)
  (h : ∀ i, i < 2^order → o.written (gfn+i) = true ∧ o.aliasWritten i = true) :
  guestPhysmapAddEntry C s gfn mfn order t env o = physmapAddEntry s gfn mfn order t env := by
  have hs : ∀ (u : State) (m : Option Nat) (t : P2mType),
      trySetP2mEntry u gfn m order t o.written = (setP2mEntry u gfn m order t,true) :=
    fun _ _ _ => trySet_eq fun i hi => (h i hi).1
  have hd := dropAliases_eq env gfn mfn (List.range (2^order)) fun i hi => (h i (mem_range.mp hi)).2
  simp only [guestPhysmapAddEntry,physmapAddEntry,ht,hl,hs,hd,Bool.not_true,Bool.false_eq_true,if_false,if_true]

end

variable {s' : State} {g m : Nat} {R : Nat → Prop}

def InverseOff (R : Nat → Prop) (s : State) : Prop := ∀ g m, ¬R g → Ram s g m → s.m2p m = some g

theorem ram_set_outside (hg : ¬InRange gfn order g) {f : Option Nat} :
  Ram (setP2mEntry s gfn f order t) g m ↔ Ram s g m := by
  have he : (setP2mEntry s gfn f order t).p2m g = s.p2m g := if_neg hg
  rw [Ram,Ram,he]

theorem not_ram_cleared (hg : InRange gfn order g) : ¬Ram (setP2mEntry s gfn none order .invalid) g m := by
  have he : (setP2mEntry s gfn none order .invalid).p2m g = ⟨.invalid,none⟩ := if_pos hg
  rw [Ram,he]
  exact fun h => nomatch h.1

theorem forget_spec (env : FrameEnv) (gfn mfn : Nat) (L : List Nat) (s : State) :
  (L.foldl (forgetM2p env gfn mfn) s).p2m = s.p2m ∧ ∀ m, (env.valid mfn = false ∨ ∀ i ∈ L, m ≠ mfn+i) →
      (L.foldl (forgetM2p env gfn mfn) s).m2p m = s.m2p m := by
  induction L generalizing s with
  | nil => exact ⟨rfl,fun _ _ => rfl⟩
  | cons i L ih =>
    obtain ⟨hp,hm⟩ := ih (forgetM2p env gfn mfn s i)
    have hn : (forgetM2p env gfn mfn s i).p2m = s.p2m := by
      rw [forgetM2p]
      split <;> rfl
    refine ⟨hp.trans hn,fun m ho => (hm m ?_).trans ?_⟩
    · exact ho.imp_right fun h j hj => h j (mem_cons_of_mem _ hj)
    rw [forgetM2p]
    split_ifs with hv
    · rw [Bool.and_eq_true] at hv
      rcases ho with ho | ho
      · exact nomatch ho.symm.trans hv.1
      · exact Function.update_of_ne (ho i mem_cons_self) _ _
    · rfl

structure Removed (s s' : State) (gfn mfn order : Nat) (env : FrameEnv) : Prop where
  inside : ∀ g m, InRange gfn order g → ¬Ram s' g m
  outside : ∀ g, ¬InRange gfn order g → s'.p2m g = s.p2m g
  m2p : ∀ m, env.valid mfn = false ∨ ¬InRange mfn order m → s'.m2p m = s.m2p m
  plain : (∀ g, (s.p2m g).type.isGrant = false) → ∀ g, (s'.p2m g).type.isGrant = false

theorem removePage_removed : Removed s (removePage s gfn mfn order env) gfn mfn order env := by
  obtain ⟨hp,hm⟩ := forget_spec env gfn mfn (List.range (2^order)) s
  rw [removePage]
  generalize (List.range (2^order)).foldl (forgetM2p env gfn mfn) s = u at *
  refine ⟨fun g m hg => not_ram_cleared hg,fun g hg => ?_,fun m ho => hm m ?_,fun hl g => ?_⟩
  · have he : (setP2mEntry u gfn none order .invalid).p2m g = u.p2m g := if_neg hg
    rw [he,hp]
  · refine ho.imp_right fun hm i hi ha => hm ?_
    have hi := mem_range.mp hi
    exact ⟨by omega,by omega⟩
  · by_cases hg : InRange gfn order g
    · have he : (setP2mEntry u gfn none order .invalid).p2m g = ⟨.invalid,none⟩ := if_pos hg
      rw [he]
      rfl
    have he : (setP2mEntry u gfn none order .invalid).p2m g = u.p2m g := if_neg hg
    rw [he,hp]
    exact hl g

theorem Removed.ram (h : Removed s s' gfn mfn order env) (hr : Ram s' g m) : ¬InRange gfn order g ∧ Ram s g m := by
  have hg : ¬InRange gfn order g := fun hg => h.inside g m hg hr
  rw [Ram,h.outside g hg] at hr
  exact ⟨hg,hr⟩

theorem Removed.inverseOff (h : Removed s s' gfn mfn order env) (ho : InverseOff R s)
  (hf : env.valid mfn = true → ∀ g m, ¬R g → ¬InRange gfn order g → Ram s g m → ¬InRange mfn order m) :
  InverseOff R s' := by
  intro g m hg hr
  obtain ⟨hu,hr⟩ := h.ram hr
  rw [h.m2p m ?_]
  · exact ho g m hg hr
  cases hv : env.valid mfn with
  | false => exact .inl rfl
  | true => exact .inr (hf hv g m hg hu hr)

theorem dropOld_spec {n i : Nat} {r : State × Bool} (ho : InverseOff R s) (hp : ∀ g, (s.p2m g).type.isGrant = false)
  (hi : ∀ j, j < i+n → R (gfn+j)) (hd : ∀ g g' m, Ram s g m → Ram s g' m → g = g')
  (he : dropOld gfn n i s = r) : r.2 = true ∧ r.1.p2m = s.p2m ∧ InverseOff R r.1 := by
  induction n generalizing i s with
  | zero =>
    cases he
    exact ⟨rfl,rfl,ho⟩
  | succ n ih =>
    have hb : ∀ j, j < i+1+n → R (gfn+j) := fun j hj => hi j (by omega)
    rw [dropOld,hp (gfn+i),if_neg Bool.false_ne_true] at he
    split_ifs at he with ha
    · split at he
      · rename_i m hm
        have ho' : InverseOff R (setM2p s m none) := by
          intro g k hg hr
          have hk : k ≠ m := by
            rintro rfl
            exact hg (hd (gfn+i) g k ⟨ha,hm⟩ hr ▸ hi i (by omega))
          exact (Function.update_of_ne hk _ _).trans (ho g k hg hr)
        have hn := ih ho' hp hb hd he
        exact hn
      · exact ih ho hp hb hd he
    · exact ih ho hp hb hd he

structure Unaliased (R : Nat → Prop) (s s' : State) : Prop where
  off : InverseOff R s'
  ram : ∀ g m, Ram s' g m → Ram s g m
  plain : (∀ g, (s.p2m g).type.isGrant = false) → ∀ g, (s'.p2m g).type.isGrant = false

theorem dropAlias_unaliased (ho : InverseOff R s) (i : Nat) : Unaliased R s (dropAlias env gfn mfn s i) := by
  have hs : Unaliased R s s := ⟨ho,fun _ _ h => h,id⟩
  rw [dropAlias]
  split
  · split
    · exact hs
    rename_i ogfn hp
    split
    · have he : Removed s (removePage s ogfn (mfn+i) 0 env) ogfn (mfn+i) 0 env :=
        removePage_removed
      refine ⟨he.inverseOff ho fun _ g m hg hn hr hi => hn ?_,fun g m hr => (he.ram hr).2,he.plain⟩
      have hm : m = mfn+i := by
        have := hi.1
        have := hi.2
        omega
      have ha : g = ogfn := some.inj ((ho g m hg hr).symm.trans (hm ▸ hp))
      exact ⟨by omega,by omega⟩
    · exact hs
  · exact hs

theorem dropAlias_cleared (hf : InverseOff R s) {i : Nat} (ho : env.owned (mfn+i) = true)
  (hi : R (gfn+i)) (hg : ¬R g) : ¬Ram (dropAlias env gfn mfn s i) g (mfn+i) := by
  intro hr
  have hold : Ram s g (mfn+i) := (dropAlias_unaliased hf i).ram g _ hr
  have hn : g ≠ gfn+i := fun h => hg (h ▸ hi)
  rw [dropAlias,if_pos ho,hf g _ hg hold] at hr
  dsimp only at hr
  rw [if_pos ⟨hn,hold.1,hold.2⟩] at hr
  have he : Removed s (removePage s g (mfn+i) 0 env) g (mfn+i) 0 env := removePage_removed
  exact (he.ram hr).1 ⟨Nat.le_refl g,by omega⟩

theorem dropAliases_unaliased (env : FrameEnv) (gfn mfn : Nat) (L : List Nat) (hf : InverseOff R s) :
  Unaliased R s (L.foldl (dropAlias env gfn mfn) s) := by
  induction L generalizing s with
  | nil => exact ⟨hf,fun _ _ h => h,id⟩
  | cons i L ih =>
    have ho : Unaliased R s (dropAlias env gfn mfn s i) := dropAlias_unaliased hf i
    have he := ih ho.off
    exact ⟨he.off,fun g m hr => ho.ram g m (he.ram g m hr),fun hp => he.plain (ho.plain hp)⟩

theorem dropAliases_cleared (L : List Nat) (hf : InverseOff R s)
  (ho : ∀ i ∈ L, env.owned (mfn+i) = true) (hn : ∀ i ∈ L, R (gfn+i)) {i : Nat} (hi : i ∈ L)
  (hg : ¬R g) : ¬Ram (L.foldl (dropAlias env gfn mfn) s) g (mfn+i) := by
  induction L generalizing s with
  | nil => cases hi
  | cons j L ih =>
    have ha : Unaliased R s (dropAlias env gfn mfn s j) := dropAlias_unaliased hf j
    rcases mem_cons.mp hi with rfl | hi
    · intro hr
      have he := dropAliases_unaliased env gfn mfn L ha.off
      exact dropAlias_cleared hf (ho i mem_cons_self) (hn i mem_cons_self) hg (he.ram g _ hr)
    · exact ih ha.off (fun k hk => ho k (mem_cons_of_mem _ hk)) (fun k hk => hn k (mem_cons_of_mem _ hk)) hi

structure Inverse (s : State) : Prop where
  ram : ∀ g m, Ram s g m → s.m2p m = some g
  plain : ∀ g, (s.p2m g).type.isGrant = false

theorem not_grant_of_ram (h : t.isRam = true) : t.isGrant = false := by
  cases t <;> first | rfl | exact nomatch h

theorem Inverse.off (h : Inverse s) (R : Nat → Prop) : InverseOff R s := fun g m _ => h.ram g m

theorem Inverse.distinct (h : Inverse s) : ∀ g g' m, Ram s g m → Ram s g' m → g = g' :=
  fun g g' m hr hr' => some.inj ((h.ram g m hr).symm.trans (h.ram g' m hr'))

theorem plain_set (hp : ∀ g, (s.p2m g).type.isGrant = false) (ht : t.isGrant = false)
  (f : Option Nat) (g : Nat) : ((setP2mEntry s gfn f order t).p2m g).type.isGrant = false := by
  by_cases hg : InRange gfn order g
  · have he : (setP2mEntry s gfn f order t).p2m g = ⟨t,f.map (· + (g-gfn))⟩ := if_pos hg
    rw [he]
    exact ht
  have he : (setP2mEntry s gfn f order t).p2m g = s.p2m g := if_neg hg
  rw [he]
  exact hp g

theorem clear_inverse (ho : InverseOff (InRange gfn order) s) (hp : ∀ g, (s.p2m g).type.isGrant = false) :
  Inverse (setP2mEntry s gfn none order .invalid) := by
  refine ⟨fun g m hr => ?_,plain_set hp rfl none⟩
  have hg : ¬InRange gfn order g := fun hg => not_ram_cleared hg hr
  exact ho g m hg ((ram_set_outside hg).mp hr)

theorem map_inverse (ho : InverseOff (InRange gfn order) s) (hp : ∀ g, (s.p2m g).type.isGrant = false)
  (ht : t.isRam = true)
  (hf : ∀ i, i < 2^order → ∀ g, ¬InRange gfn order g → ¬Ram s g (mfn+i)) :
  Inverse (recordM2p (setP2mEntry s gfn (some mfn) order t) mfn gfn (2^order)) := by
  refine ⟨fun g m hr => ?_,plain_set hp (not_grant_of_ram ht) (some mfn)⟩
  change Ram (setP2mEntry s gfn (some mfn) order t) g m at hr
  by_cases hg : InRange gfn order g
  · have he : (setP2mEntry s gfn (some mfn) order t).p2m g = ⟨t,some (mfn+(g-gfn))⟩ := if_pos hg
    rw [Ram,he] at hr
    have hm : mfn+(g-gfn) = m := some.inj hr.2
    obtain ⟨hl,hb⟩ := hg
    have ha : (recordM2p (setP2mEntry s gfn (some mfn) order t) mfn gfn (2^order)).m2p m =
        some (gfn+(m-mfn)) := if_pos ⟨by omega,by omega⟩
    rw [ha]
    exact congrArg some (by omega)
  have hold := (ram_set_outside hg).mp hr
  have hm : ¬(mfn ≤ m ∧ m < mfn+2^order) := by
    intro hm
    refine hf (m-mfn) (by omega) g hg ?_
    rwa [Nat.add_sub_cancel' hm.1]
  have ha : (recordM2p (setP2mEntry s gfn (some mfn) order t) mfn gfn (2^order)).m2p m = s.m2p m := if_neg hm
  rw [ha]
  exact ho g m hg hold

theorem physmapAddEntry_inverse {r : State × Rc} (h : Inverse s) (ht : t.isRam = true)
  (ho : env.valid mfn = true → ∀ i, i < 2^order → env.owned (mfn+i) = true)
  (he : physmapAddEntry s gfn mfn order t env = some r) : Inverse r.1 ∧ r.2 = .ok := by
  have hn : ∀ j, j < 2^order → InRange gfn order (gfn+j) := fun j hj => ⟨by omega,by omega⟩
  obtain ⟨hd,hm,ha⟩ := dropOld_spec (h.off (InRange gfn order)) h.plain
    (fun j hj => hn j (by omega)) h.distinct (rfl : dropOld gfn (2^order) 0 s = _)
  rw [physmapAddEntry] at he
  generalize dropOld gfn (2^order) 0 s = d at he hd hm ha
  rw [hd] at he
  have hp : ∀ g, (d.1.p2m g).type.isGrant = false := fun g => hm ▸ h.plain g
  have hu := dropAliases_unaliased env gfn mfn (List.range (2^order)) ha
  have hf : env.valid mfn = true → ∀ i, i < 2^order → ∀ g, ¬InRange gfn order g →
      ¬Ram ((List.range (2^order)).foldl (dropAlias env gfn mfn) d.1) g (mfn+i) := by
    intro hv i hi g hg
    exact dropAliases_cleared (List.range (2^order)) ha
      (fun j hj => ho hv j (mem_range.mp hj)) (fun j hj => hn j (mem_range.mp hj))
      (mem_range.mpr hi) hg
  generalize (List.range (2^order)).foldl (dropAlias env gfn mfn) d.1 = u at he hu hf
  simp only [Bool.not_true,Bool.false_eq_true,if_false,not_grant_of_ram ht] at he
  split at he
  · rename_i hv
    cases he
    exact ⟨map_inverse hu.off (hu.plain hp) ht (hf hv),rfl⟩
  split at he
  · exact nomatch he
  cases he
  have hc := clear_inverse hu.off (hu.plain hp)
  exact ⟨⟨hc.ram,hc.plain⟩,rfl⟩

theorem removePage_inverse (h : Inverse s)
  (hf : env.valid mfn = true → ∀ g m, ¬InRange gfn order g → Ram s g m → ¬InRange mfn order m) :
  Inverse (removePage s gfn mfn order env) := by
  have he : Removed s (removePage s gfn mfn order env) gfn mfn order env := removePage_removed
  have ho := he.inverseOff (h.off fun _ => False) fun hv g m _ hg hr => hf hv g m hg hr
  exact ⟨fun g m hr => ho g m not_false hr,he.plain h.plain⟩

section
variable {op : Op} {r : State × Rc}

def Allowed (s : State) (op : Op) : Prop := Owned op ∧ Regular s op

theorem perform_inverse (h : Inverse s) (hk : Allowed s op) (he : perform C s op = some r) :
  Inverse r.1 ∧ (r.2 ≠ .ok → r.1 = s) := by
  cases op with
  | add gfn mfn order t env o =>
    obtain ⟨⟨ht,ho⟩,hd⟩ := hk
    rw [perform] at he
    cases ha : C.pagingModeTranslate with
    | false =>
      rw [guestPhysmapAddEntry,ha] at he
      cases he
      exact ⟨h,fun _ => rfl⟩
    | true =>
      cases hl : C.beyondLimit gfn order with
      | true =>
        rw [guestPhysmapAddEntry,ha,hl] at he
        cases he
        exact ⟨h,fun _ => rfl⟩
      | false =>
        rw [add_eq ha hl hd] at he
        obtain ⟨hi,hr⟩ := physmapAddEntry_inverse h ht ho he
        exact ⟨hi,fun hn => absurd hr hn⟩
  | remove gfn mfn order env o =>
    obtain ⟨-,hd,hf⟩ := hk
    cases he
    refine ⟨?_,fun hn => absurd rfl hn⟩
    rw [guestPhysmapRemoveEntry]
    split
    · rw [remove_eq hd]
      exact removePage_inverse h hf
    · exact h

theorem initial_inverse : Inverse initial := ⟨fun _ _ hr => (nomatch hr.1),fun _ => rfl⟩

theorem reach_inverse (hr : Reach (step C) Allowed initial s) : Inverse s := by
  refine reach_invariant initial_inverse (fun u op v _ hu ho hs => ?_) hr
  obtain ⟨r,hr,rfl⟩ := map_eq_some_iff.mp hs
  exact (perform_inverse hu ho hr).1

theorem physmap_inverse (C : Config) (s : State) (hr : Reach (step C) Allowed initial s) :
  (∀ g m, Ram s g m → s.m2p m = some g) ∧ (∀ g g' m, Ram s g m → Ram s g' m → g = g') ∧
    ∀ op r, Allowed s op → perform C s op = some r → r.2 ≠ .ok → r.1.p2m = s.p2m ∧ r.1.m2p = s.m2p := by
  have h := reach_inverse hr
  refine ⟨h.ram,h.distinct,fun op r ho he hc => ?_⟩
  rw [(perform_inverse h ho he).2 hc]
  exact ⟨rfl,rfl⟩

def sampleConfig : Config := ⟨true,false,fun _ _ => false⟩

def sampleFrames : FrameEnv := ⟨fun _ => true,fun _ => true⟩

def sampleOutcome (written : Bool) : Outcome := ⟨fun _ => written,fun _ => true,false⟩

def sampleAdd (gfn mfn order : Nat) (written : Bool) : Op :=
  .add gfn mfn order .ramRw sampleFrames (sampleOutcome written)

theorem sampleAdd_allowed (gfn mfn order : Nat) : Allowed s (sampleAdd gfn mfn order true) :=
  ⟨⟨rfl,fun _ _ _ => rfl⟩,fun _ _ => ⟨rfl,rfl⟩⟩

def mappedState : State := ((step sampleConfig initial (sampleAdd 4 8 1 true))).get (by decide +kernel)

def movedState : State := ((step sampleConfig mappedState (sampleAdd 5 8 0 true))).get (by decide +kernel)

theorem moved_frame_inverse : Ram movedState 5 8 ∧ movedState.m2p 8 = some 5 ∧ ∀ g, Ram movedState g 8 → g = 5 := by
  have ha : step sampleConfig initial (sampleAdd 4 8 1 true) = some mappedState := (some_get _).symm
  have hm : step sampleConfig mappedState (sampleAdd 5 8 0 true) = some movedState :=
    (some_get _).symm
  have he : Reach (step sampleConfig) Allowed initial movedState :=
    .tail (.tail .refl ⟨_,sampleAdd_allowed 4 8 1,ha⟩) ⟨_,sampleAdd_allowed 5 8 0,hm⟩
  obtain ⟨hi,ho,-⟩ := physmap_inverse sampleConfig movedState he
  have hr : Ram movedState 5 8 := by constructor <;> decide +kernel
  exact ⟨hr,hi 5 8 hr,fun g hg => ho g 5 8 hg hr⟩

def superState : State := ((step sampleConfig initial (sampleAdd 0 512 9 true))).get (by decide +kernel)

-- a 4K add into a 2M mapping that finds no memory for the table that is to split it
def splitFailed : State × Rc := (perform sampleConfig superState (sampleAdd 4 3 0 false)).get (by decide +kernel)

theorem failed_add_breaks_inverse : Reach (step sampleConfig) (fun _ => Owned) initial superState ∧
    ∃ s, perform sampleConfig superState (sampleAdd 4 3 0 false) = some (s,.einval) ∧
      Ram s 4 516 ∧ s.m2p 516 = none ∧ s.m2p 3 = some 4 ∧ superState.m2p 3 = none := by
  have hm : step sampleConfig initial (sampleAdd 0 512 9 true) = some superState := (some_get _).symm
  have ho : ∀ g m k b, Owned (sampleAdd g m k b) := fun _ _ _ _ => ⟨rfl,fun _ _ _ => rfl⟩
  have hp : perform sampleConfig superState (sampleAdd 4 3 0 false) = some splitFailed := (some_get _).symm
  have hr : splitFailed.2 = .einval := by decide +kernel
  have hs : splitFailed = (splitFailed.1,.einval) :=
    (Prod.eta splitFailed).symm.trans (congrArg (Prod.mk splitFailed.1) hr)
  refine ⟨.tail .refl ⟨_,ho 0 512 9 true,hm⟩,splitFailed.1,hp.trans (congrArg some hs),⟨?_,?_⟩,?_,?_,
    ?_⟩ <;> decide +kernel

end

end PhysmapInverse
