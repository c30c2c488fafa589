import PMigrate.Core.Census
import PMigrate.Core.Transition
import PMigrate.Hypervisor.PageType

namespace PageType

open Census Transition Function Option Bool

def Pc.firm : Pc → Bool
  | .getDone _ | .putStart .reference _ | .putLoop .reference _ _ | .unlockStart | .unlockLoop _ => true
  | _ => false

def Pc.soft : Pc → Bool
  | .putStart .flag _ | .putLoop .flag _ _ => true
  | _ => false

def Pc.busy : Pc → Bool
  | .alloc _ _ | .allocRead _ _ | .allocWrite _ _ _ | .free _ _ | .paeRead | .paeWrite _ | .freeRead _
  | .freeWrite _ _ => true
  | _ => false

def Pc.carries (p : Pc) : Bool := p.firm || p.soft || p.busy

def Pc.unlocking : Pc → Bool
  | .unlockStart | .unlockLoop _ => true
  | _ => false

noncomputable def tally (f : Pc → Bool) (pc : Nat → Pc) : Nat := census fun i => f (pc i)

def Active (pc : Nat → Pc) : Set Nat := {i | pc i ≠ .idle}

variable {i : Nat} {p : Pc}

section
variable {f : Pc → Bool} {pc : Nat → Pc} {j : Nat}

variable (hfin : (Active pc).Finite)
include hfin

theorem marked_finite (hf : f .idle = false) : (Marked fun i => f (pc i)).Finite := by
  refine hfin.subset fun i hi hd => ?_
  have ht : f (pc i) = true := hi
  rw [hd,hf] at ht
  cases ht

theorem active_update : (Active (update pc i p)).Finite := by
  refine (hfin.insert i).subset fun j hj => ?_
  by_cases ha : j = i
  · exact .inl ha
  refine .inr fun hi => hj ?_
  rw [update_of_ne ha]
  exact hi

theorem tally_update (hf : f .idle = false) : tally f (update pc i p)+(f (pc i)).toNat = tally f pc+(f p).toNat := by
  have hc : (fun j => f (update pc i p j)) = update (fun j => f (pc j)) i (f p) := comp_update f pc i p
  rw [tally,hc]
  exact census_update (marked_finite hfin hf)

theorem tally_pos (hf : f .idle = false) (hi : f (pc i) = true) : 0 < tally f pc :=
  (Set.ncard_pos (marked_finite hfin hf)).mpr ⟨i,hi⟩

end

structure Working (x : TypeInfo) (t : PgType) : Prop where
  count : x.count = 1
  validated : x.validated = false
  pgtPartial : x.pgtPartial = false
  locked : x.locked = false
  type : x.type = t

def validEntries (t : PgType) : Entries := if t.isTable then .all t else .released

def AllocOutcome (g : Page) (w : Wanted) : Rc → Prop
  | .ok => w.type ≠ .none ∧ g.entries = validEntries w.type
  | .einval => g.entries = .released
  | .eintr => w.type.isUpper = true ∧ g.entries = .released
  | .eagain _ _ => w.type.isTable = true ∧ g.entries = .some w.type ∧ g.nr < entriesPerTable

def FreeOutcome (g : Page) (t : PgType) : Rc → Prop
  | .ok => g.entries = .released ∧ g.word.pae = false
  | .einval => False
  | .eintr => g.entries = .all t
  | .eagain _ _ => g.entries = .some t ∧ g.nr < entriesPerTable

def Local (g : Page) : Pc → Prop
  | .getStart w _ | .getLoop w _ _ => w.pae = true → w.type = .l2PageTable
  | .alloc w _ =>
      Working g.word w.type ∧ g.word.pae = w.pae ∧
        g.entries = (if w.type.isTable then .some w.type else .released) ∧ 0 ≤ g.partialPte
  | .allocRead w rc => Working g.word w.type ∧ g.word.pae = w.pae ∧ AllocOutcome g w rc
  | .allocWrite w rc v => Working g.word w.type ∧ g.word.pae = w.pae ∧ AllocOutcome g w rc ∧ v = g.word
  | .getDone w => g.word.Fits w
  | .free x _ =>
      Working g.word x.type ∧ x.type.isTable = true ∧
        (g.entries = .all x.type ∨ g.entries = .some x.type ∧ firstFreed g.nr g.partialPte ≠ entriesPerTable-1)
  | .paeRead => Working g.word .l2PageTable ∧ g.entries = .released
  | .paeWrite v => Working g.word .l2PageTable ∧ g.entries = .released ∧ v = g.word
  | .freeRead rc => ∃ t, Working g.word t ∧ t.isTable = true ∧ FreeOutcome g t rc
  | .freeWrite rc v => ∃ t, Working g.word t ∧ t.isTable = true ∧ FreeOutcome g t rc ∧ v = g.word
  | .putLoop _ _ y => y.count ≠ 0
  | .lockTry x => x.validated = true ∧ x.count ≠ 0 ∧ x.locked = false
  | .unlockLoop y => y.locked = true ∧ y.count ≠ 0
  | _ => True

structure PageSound (g : Page) : Prop where
  suspended : g.word.pgtPartial = true → g.word.count = 1 ∧ g.word.validated = false ∧ g.word.locked = false ∧
    g.word.type.isTable = true ∧ g.entries = .some g.word.type ∧ g.nr < entriesPerTable
  valid : g.word.validated = true → g.word.type ≠ .none ∧ g.entries = validEntries g.word.type
  plain : g.word.type.isTable = false → g.entries = .released
  locked : g.word.locked = true → 2 ≤ g.word.count
  zero : g.word.count = 0 → g.entries = .released ∧ g.word.pae = false
  pae : g.word.pae = true → g.word.type = .l2PageTable

theorem PageSound.unlocked {g : Page} (ha : g.word.pgtPartial = false) (hl : g.word.locked = false)
  (hv : g.word.validated = true → g.word.type ≠ .none ∧ g.entries = validEntries g.word.type)
  (ht : g.word.type.isTable = false → g.entries = .released)
  (hz : g.word.count = 0 → g.entries = .released ∧ g.word.pae = false)
  (hp : g.word.pae = true → g.word.type = .l2PageTable) : PageSound g :=
  ⟨fun h => absurd h (eq_false_iff.mp ha),hv,ht,fun h => absurd h (eq_false_iff.mp hl),hz,hp⟩

structure Sound (s : State) : Prop where
  finite : (Active s.pc).Finite
  count : s.page.word.count = s.owners+s.lockers+s.floating.toNat+tally Pc.carries s.pc
  locks : s.page.word.locked.toNat = s.lockers+tally Pc.unlocking s.pc
  firm : (0 < s.owners+s.lockers ∨ ∃ i, (s.pc i).firm = true) → s.page.word.validated = true
  soft : (s.floating = true ∨ ∃ i, (s.pc i).soft = true) → s.page.word.pgtPartial = true
  page : PageSound s.page
  threads : ∀ i, Local s.page (s.pc i)

variable {s : State} {q : Pc}

section
variable {g g' : Page}

theorem Pc.carries_of_firm (h : p.firm = true) : p.carries = true := by rw [Pc.carries,h]; rfl

theorem Pc.carries_of_soft (h : p.soft = true) : p.carries = true := by rw [Pc.carries,h,Bool.or_true]; rfl

theorem Pc.carries_of_busy (h : p.busy = true) : p.carries = true := by rw [Pc.carries,h,Bool.or_true]

theorem Local.of_not_carries (hq : q.carries = false) (h : Local g q) : Local g' q := by
  cases q with
  | putStart held b => exact trivial
  | putLoop held b y | idle | getStart w b | getLoop w b y | lockLoop | lockTry x | unlockStart | unlockLoop y =>
    exact h
  | _ => cases hq

theorem Working.not_valid {x : TypeInfo} {t : PgType} (h : Working x t) : x.validated ≠ true := by
  rw [h.validated]
  decide

theorem Local.of_valid (hv : g.word.validated = true) (hy : g'.word.type = g.word.type)
  (hp : g'.word.pae = g.word.pae) (h : Local g q) : Local g' q := by
  cases q with
  | getDone w => exact ⟨hy.trans h.1,hp.trans h.2⟩
  | alloc w b | allocRead w rc | allocWrite w rc v | free x b | paeRead | paeWrite v => exact absurd hv h.1.not_valid
  | freeRead rc | freeWrite rc v =>
    obtain ⟨t,ht,-⟩ := h
    exact absurd hv ht.not_valid
  | _ => exact h

theorem goto_self (s : State) (i : Nat) (p : Pc) : (s.goto i p).pc i = p := update_self ..

theorem goto_other (s : State) (p : Pc) {j : Nat} (hj : j ≠ i) : (s.goto i p).pc j = s.pc j :=
  update_of_ne hj ..

theorem exists_goto {f : Pc → Bool} (h : ∃ j, f ((s.goto i p).pc j) = true) : f p = true ∨ ∃ j, f (s.pc j) = true := by
  obtain ⟨j,hj⟩ := h
  by_cases hi : j = i
  · rw [hi,goto_self] at hj
    exact .inl hj
  · rw [goto_other s p hi] at hj
    exact .inr ⟨j,hj⟩

theorem threads_goto (hi : Local g p) (ho : ∀ j, j ≠ i → Local g (s.pc j)) : ∀ j, Local g ((s.goto i p).pc j) := by
  intro j
  by_cases hj : j = i
  · rw [hj,goto_self]
    exact hi
  · rw [goto_other s p hj]
    exact ho j hj

end

theorem Sound.moves (h : Sound s) (hb : s.pc i = q) (ha : p.carries = q.carries)
  (hn : p.unlocking = q.unlocking) (hd : p.firm = true → q.firm = true)
  (ho : p.soft = true → q.soft = true) (hi : Local s.page p) : Sound (s.goto i p) := by
  subst hb
  have hc := tally_update (i := i) (p := p) h.finite (f := Pc.carries) rfl
  have hu := tally_update (i := i) (p := p) h.finite (f := Pc.unlocking) rfl
  rw [ha] at hc
  rw [hn] at hu
  refine ⟨active_update h.finite,?_,?_,fun hf => h.firm ?_,fun hs => h.soft ?_,h.page,
    threads_goto hi fun j _ => h.threads j⟩
  · exact h.count.trans (congrArg _ (Nat.add_right_cancel hc).symm)
  · exact h.locks.trans (congrArg _ (Nat.add_right_cancel hu).symm)
  · exact hf.imp_right fun hf => (exists_goto hf).elim (fun hp => ⟨i,hd hp⟩) id
  · exact hs.imp_right fun hs => (exists_goto hs).elim (fun hp => ⟨i,ho hp⟩) id

theorem Sound.not_suspended (h : Sound s) (hv : s.page.word.validated = true) :
  s.page.word.pgtPartial = false ∧ s.floating = false ∧ ∀ j, (s.pc j).soft = false := by
  have hp : s.page.word.pgtPartial = false := by
    refine eq_false_iff.mpr fun hp => ?_
    rw [(h.page.suspended hp).2.1] at hv
    cases hv
  have hn : ¬(s.floating = true ∨ ∃ j, (s.pc j).soft = true) := fun hs => eq_false_iff.mp hp (h.soft hs)
  exact ⟨hp,eq_false_iff.mpr fun hf => hn (.inl hf),fun j => eq_false_iff.mpr fun hj => hn (.inr ⟨j,hj⟩)⟩

variable {f : Pc → Bool} {owners : Nat} {t : PgType}

theorem Sound.shifts (h : Sound s) (hk : s.pc i = q) (hv : s.page.word.validated = true) {x : TypeInfo}
  {lockers : Nat} (hx : x = {s.page.word with count := x.count,locked := x.locked})
  (hw : x.count+(s.owners+s.lockers+q.carries.toNat) =
    s.page.word.count+(owners+lockers+p.carries.toNat))
  (hy : x.locked.toNat+(s.lockers+q.unlocking.toNat) =
    s.page.word.locked.toNat+(lockers+p.unlocking.toNat))
  (hl : x.locked = true → 2 ≤ x.count) (hz : x.count = 0 → s.page.word.type.isTable = false)
  (ho : p.soft = false) (hi : Local s.page p) :
  Sound ({s.store x with owners := owners,lockers := lockers}.goto i p) := by
  subst hk
  obtain ⟨hd,hf,hn⟩ := h.not_suspended hv
  obtain ⟨hm,hq,hb,ha⟩ : x.validated = true ∧ x.pgtPartial = false ∧ x.type = s.page.word.type ∧
      x.pae = s.page.word.pae := by
    rw [hx]
    exact ⟨hv,hd,rfl,rfl⟩
  have hc := tally_update (i := i) (p := p) h.finite (f := Pc.carries) rfl
  have hu := tally_update (i := i) (p := p) h.finite (f := Pc.unlocking) rfl
  have hsc := h.count
  have hsl := h.locks
  refine ⟨active_update h.finite,?_,?_,fun _ => hm,fun hs => ?_,?_,
    threads_goto (hi.of_valid hv hb ha) fun j _ => (h.threads j).of_valid hv hb ha⟩
  · show x.count = owners+lockers+s.floating.toNat+tally Pc.carries (update s.pc i p)
    omega
  · show x.locked.toNat = lockers+tally Pc.unlocking (update s.pc i p)
    omega
  · rcases hs with hs | hs
    · exact absurd hs (eq_false_iff.mp hf)
    rcases exists_goto hs with hs | ⟨j,hj⟩
    · exact absurd hs (eq_false_iff.mp ho)
    · exact absurd hj (eq_false_iff.mp (hn j))
  · refine ⟨fun hd => absurd hd (eq_false_iff.mp hq),fun _ => ?_,fun ht => ?_,hl,fun hr => ?_,fun hp => ?_⟩
    · obtain ⟨hn,he⟩ := h.page.valid hv
      exact ⟨fun ht => hn (hb.symm.trans ht),he.trans (congrArg validEntries hb.symm)⟩
    · exact h.page.plain (hb ▸ ht)
    · have hg := hz hr
      refine ⟨h.page.plain hg,ha.trans (eq_false_iff.mpr fun hp => ?_)⟩
      rw [h.page.pae hp] at hg
      cases hg
    · exact hb.trans (h.page.pae (ha ▸ hp))

structure Solo (s : State) (i : Nat) : Prop where
  owners : s.owners = 0
  lockers : s.lockers = 0
  others : ∀ j, j ≠ i → (s.pc j).carries = false

theorem Sound.solo (h : Sound s) (ho : s.page.word.count = s.floating.toNat+(s.pc i).carries.toNat) : Solo s i := by
  have hc := tally_update (i := i) (p := .idle) h.finite (f := Pc.carries) rfl
  have hs := h.count
  have hi : (Pc.carries .idle).toNat = 0 := rfl
  refine ⟨by omega,by omega,fun j hj => eq_false_iff.mpr fun ha => ?_⟩
  have hp := tally_pos (i := j) (active_update (i := i) (p := .idle) h.finite) (f := Pc.carries) rfl
    (by rw [update_of_ne hj]; exact ha)
  omega

theorem Sound.solo_carrier (h : Sound s) (hc : s.page.word.count = 1) (hi : (s.pc i).carries = true) :
  Solo s i ∧ s.floating = false := by
  have hp := tally_pos h.finite (f := Pc.carries) rfl hi
  have hs := h.count
  have hl : s.floating = false := by
    cases hf : s.floating with
    | false => rfl
    | true =>
      rw [hf,toNat_true] at hs
      omega
  refine ⟨h.solo ?_,hl⟩
  rw [hc,hl,hi]
  rfl

theorem tally_none {pc : Nat → Pc} (h : ∀ j, f (pc j) = false) : tally f pc = 0 := by
  have he : Marked (fun j => f (pc j)) = ∅ := Set.eq_empty_of_forall_notMem fun j hj => eq_false_iff.mp (h j) hj
  rw [tally,census,he,Set.ncard_empty]

theorem Pc.carries_false (h : p.carries = false) : p.firm = false ∧ p.soft = false ∧ p.unlocking = false := by
  refine ⟨eq_false_iff.mpr fun hp => ?_,eq_false_iff.mpr fun hp => ?_,?_⟩
  · rw [Pc.carries_of_firm hp] at h
    cases h
  · rw [Pc.carries_of_soft hp] at h
    cases h
  · cases p with
    | unlockStart | unlockLoop y => cases h
    | _ => rfl

theorem Solo.only (hs : Solo s i) (hf : ∀ q : Pc, f q = true → q.carries = true)
  (h : ∃ j, f ((s.goto i p).pc j) = true) : f p = true := by
  obtain ⟨j,hj⟩ := h
  by_cases hi : j = i
  · rw [hi,goto_self] at hj
    exact hj
  · rw [goto_other s p hi] at hj
    exact absurd (hf _ hj) (eq_false_iff.mp (hs.others j hi))

theorem Solo.sound (ha : Solo s i) (h : Sound s) {g : Page} {floating : Bool}
  (hc : g.word.count = owners+floating.toNat+p.carries.toNat) (hb : g.word.locked = false)
  (hu : p.unlocking = false) (he : g.word.validated = true ∨ owners = 0 ∧ p.firm = false)
  (hk : g.word.pgtPartial = true ∨ floating = false ∧ p.soft = false) (hg : PageSound g) (hi : Local g p) :
  Sound {page := g,pc := update s.pc i p,owners := owners,lockers := s.lockers,floating := floating} := by
  have ho : ∀ j, j ≠ i → (s.pc j).carries = false := ha.others
  have hd : tally Pc.carries (update s.pc i .idle) = 0 := by
    refine tally_none fun j => ?_
    by_cases hj : j = i
    · rw [hj,update_self]
      rfl
    · rw [update_of_ne hj]
      exact ho j hj
  have hp := tally_update (i := i) (p := p) (active_update (i := i) (p := .idle) h.finite) (f := Pc.carries) rfl
  rw [update_idem,hd,update_self] at hp
  refine ⟨active_update h.finite,?_,?_,fun hf => he.resolve_right fun hn => ?_,
    fun hs => hk.resolve_right fun hn => ?_,hg,threads_goto (s := s) hi fun j hj => (h.threads j).of_not_carries
    (ho j hj)⟩
  · show g.word.count = owners+s.lockers+floating.toNat+tally Pc.carries (update s.pc i p)
    have hz : (Pc.carries .idle).toNat = 0 := rfl
    have hl := ha.lockers
    omega
  · show g.word.locked.toNat = s.lockers+tally Pc.unlocking (update s.pc i p)
    rw [hb,ha.lockers,tally_none fun j => ?_]
    · rfl
    by_cases hj : j = i
    · rw [hj,update_self]
      exact hu
    · rw [update_of_ne hj]
      exact (Pc.carries_false (ho j hj)).2.2
  · rcases hf with hf | hf
    · have hl := ha.lockers
      change 0 < owners+s.lockers at hf
      omega
    · exact eq_false_iff.mp hn.2 (ha.only (fun q => Pc.carries_of_firm) hf)
  · rcases hs with hs | hs
    · exact eq_false_iff.mp hn.1 hs
    · exact eq_false_iff.mp hn.2 (ha.only (fun q => Pc.carries_of_soft) hs)

theorem isTable_of_code (hc : t.code ≤ PgType.l4PageTable.code) (hn : t ≠ .none) : t.isTable = true := by
  cases t with
  | none => exact absurd rfl hn
  | segDescPage | writablePage | sharedPage => exact absurd hc (by decide)
  | _ => rfl

theorem isTable_of_isUpper (h : t.isUpper = true) : t.isTable = true := by
  cases t with
  | l3PageTable => rfl
  | l4PageTable => rfl
  | _ => cases h

theorem getPlan_swap {w : Wanted} {y nx : TypeInfo} (h : getPlan w y = .swap nx) :
  (y.count = 0 ∧ y.type = w.type ∧ w.pae = false ∧ nx = {y with count := y.count+1}) ∨
  (y.count = 0 ∧ nx = retype y w) ∨
  (y.count ≠ 0 ∧ y.Fits w ∧ y.validated = false ∧ y.pgtPartial = true ∧ nx = {y with pgtPartial := false}) ∨
  (y.count ≠ 0 ∧ y.Fits w ∧ y.validated = true ∧ nx = {y with count := y.count+1}) := by
  unfold getPlan at h
  split at h
  · cases h
  split at h
  · rename_i hz
    split_ifs at h with hs
    · exact .inl ⟨hz,hs.1,hs.2,(Plan.swap.inj h).symm⟩
    · exact .inr (.inl ⟨hz,(Plan.swap.inj h).symm⟩)
  rename_i hc
  split at h
  · cases h
  rename_i hf
  have hf := not_not.mp hf
  split at h
  · rename_i hv
    split at h
    · cases h
    · rename_i hp
      exact .inr (.inr (.inl ⟨hc,hf,hv,(not_eq_false _).mp hp,(Plan.swap.inj h).symm⟩))
  · rename_i hv
    exact .inr (.inr (.inr ⟨hc,hf,(not_eq_false _).mp hv,(Plan.swap.inj h).symm⟩))

variable {w : Wanted} {preemptible : Bool} {y : TypeInfo}

section
variable {nx : TypeInfo}

theorem Sound.not_floating (h : Sound s) (hp : s.page.word.pgtPartial = false) : s.floating = false :=
  eq_false_iff.mpr fun hf => eq_false_iff.mp hp (h.soft (.inl hf))

theorem Sound.wanted (h : Sound s) (hp : s.pc i = .getLoop w preemptible y) : w.pae = true → w.type = .l2PageTable := by
  have hl := h.threads i
  rwa [hp] at hl

theorem Sound.getFirst (h : Sound s) (hi : s.pc i = .getLoop w preemptible s.page.word) (hz : s.page.word.count = 0)
  (hx : nx.count = 1 ∧ nx.type = w.type ∧ nx.pae = w.pae ∧ nx.pgtPartial = false ∧ nx.locked = false)
  (hk : nx.validated = true → w.type ≠ .none ∧ w.type.isTable = false) :
  Sound (getSwapped s i w preemptible s.page.word nx) := by
  obtain ⟨hb,hy,hg,ha,hd⟩ := hx
  have hw := h.wanted hi
  have hold : s.page.word.pgtPartial = false := by
    refine eq_false_iff.mpr fun ha => ?_
    have ho := (h.page.suspended ha).1
    omega
  have hf := h.not_floating hold
  have hs : Solo s i := h.solo (by rw [hz,hf,hi]; rfl)
  have he := (h.page.zero hz).1
  unfold getSwapped
  split
  · rename_i hv
    obtain ⟨hn,hm⟩ := hk hv
    refine hs.sound h ?_ hd rfl (.inl hv) (.inr ⟨hf,rfl⟩) ?_ ⟨hy,hg⟩
    · show nx.count = s.owners+s.floating.toNat+1
      rw [hb,hs.owners,hf]
      rfl
    refine .unlocked ha hd (fun _ => ⟨fun ht => hn (hy.symm.trans ht),?_⟩) (fun _ => he) (fun hc => ?_) fun hp => ?_
    · show s.page.entries = validEntries nx.type
      rw [he,hy,validEntries,hm]
      rfl
    · exact absurd (hb.symm.trans hc) (by decide)
    · exact hy.trans (hw (hg.symm.trans hp))
  rename_i hv
  rw [if_neg (eq_false_iff.mp hold)]
  refine hs.sound h ?_ hd rfl (.inr ⟨hs.owners,rfl⟩) (.inr ⟨hf,rfl⟩) ?_
    ⟨⟨hb,eq_false_iff.mpr hv,ha,hd,hy⟩,hg,rfl,le_rfl⟩
  · show nx.count = s.owners+s.floating.toNat+1
    rw [hb,hs.owners,hf]
    rfl
  refine .unlocked ha hd (fun hv' => absurd hv' hv) (fun ht => ?_)
    (fun hc => absurd (hb.symm.trans hc) (by decide)) fun hp => hy.trans (hw (hg.symm.trans hp))
  have ht : w.type.isTable = false := hy ▸ ht
  rw [ht]
  rfl

theorem Sound.getSwapped (h : Sound s) (hb : s.pc i = .getLoop w preemptible s.page.word)
  (hg : getPlan w s.page.word = .swap nx)
  (hk : s.page.word.pgtPartial = true → s.floating = true ∧ 0 ≤ s.page.partialPte) :
  Sound (getSwapped s i w preemptible s.page.word nx) := by
  have hu : s.page.word.count = 0 → s.page.word.locked = false := by
    intro hz
    refine eq_false_iff.mpr fun hl => ?_
    have htw := h.page.locked hl
    omega
  have hw : s.page.word.count = 0 → s.page.word.pgtPartial = false := by
    intro hz
    refine eq_false_iff.mpr fun hp => ?_
    have ho := (h.page.suspended hp).1
    omega
  rcases getPlan_swap hg with ⟨hz,hy,hi,rfl⟩ | ⟨hz,rfl⟩ | ⟨hm,hf,hv,ha,rfl⟩ | ⟨hm,hf,hv,rfl⟩
  · have hq := (h.page.zero hz).2
    refine h.getFirst hb hz ⟨by rw [hz],hy,hq.trans hi.symm,hw hz,hu hz⟩ fun hv => ?_
    obtain ⟨hn,he⟩ := h.page.valid hv
    refine ⟨hy ▸ hn,eq_false_iff.mpr fun ht => ?_⟩
    rw [(h.page.zero hz).1,validEntries,hy,ht] at he
    cases he
  · refine h.getFirst hb hz ⟨?_,rfl,?_,hw hz,hu hz⟩ fun hv => ?_
    · show s.page.word.count+1 = 1
      rw [hz]
    · show (s.page.word.pae || w.pae) = w.pae
      rw [(h.page.zero hz).2,Bool.false_or]
    · rcases (or_eq_true _ _).mp hv with ht | ht
      all_goals
        rw [of_decide_eq_true ht]
        decide
  · obtain ⟨hx,hh⟩ := hk ha
    obtain ⟨ho,-,hd,hta,he,hr⟩ := h.page.suspended ha
    have hs : Solo s i := h.solo (by rw [ho,hx,hb]; rfl)
    unfold PageType.getSwapped
    rw [if_neg (eq_false_iff.mp hv),if_pos ha]
    refine hs.sound h ?_ hd rfl (.inr ⟨hs.owners,rfl⟩) (.inr ⟨rfl,rfl⟩) ?_
      ⟨⟨ho,hv,rfl,hd,hf.1⟩,hf.2,?_,hh⟩
    · show s.page.word.count = s.owners+0+1
      rw [ho,hs.owners]
    · exact ⟨nofun,fun hv' => absurd hv' (eq_false_iff.mp hv),h.page.plain,h.page.locked,h.page.zero,h.page.pae⟩
    · show s.page.entries = _
      rw [he,← hf.1,hta]
      rfl
  · unfold PageType.getSwapped
    rw [if_pos hv]
    refine h.shifts hb hv rfl ?_ rfl (fun hl => ?_) (fun hc => ?_) rfl hf
    · show s.page.word.count+1+(s.owners+s.lockers+0) = s.page.word.count+(s.owners+s.lockers+1)
      omega
    · exact Nat.le_succ_of_le (h.page.locked hl)
    · exact absurd hc (Nat.succ_ne_zero _)

theorem Sound.getStep (h : Sound s) (hc : s.pc i = .getLoop w preemptible y) (preempt : Bool)
  (ho : s.page.word = y → y.pgtPartial = true → s.floating = true ∧ 0 ≤ s.page.partialPte) :
  Sound (getStep s i w preemptible y preempt) := by
  have hq : Sound (s.goto i .idle) := h.moves hc rfl rfl nofun nofun trivial
  have ha : Sound (s.goto i (.getLoop w preemptible s.page.word)) :=
    h.moves hc rfl rfl nofun nofun (h.wanted hc)
  unfold PageType.getStep
  split
  · exact hq
  · split
    · split
      · exact hq
      · exact h
    · exact ha
  · rename_i nx hp
    split
    · rename_i hs
      subst hs
      exact h.getSwapped hc hp (ho rfl)
    split
    · exact hq
    · exact ha

end

variable {x : TypeInfo}

section
variable {rc : Rc} {v : TypeInfo} {t : PgType}

theorem Sound.busy (h : Sound s) (hw : Working s.page.word t) {q : Pc} (hp : s.pc i = q)
  (hq : q.busy = true) : Solo s i ∧ s.floating = false :=
  h.solo_carrier hw.count (by rw [hp]; exact Pc.carries_of_busy hq)

theorem Solo.works (hs : Solo s i) (h : Sound s) (hf : s.floating = false) {g : Page}
  (hw : Working g.word t) (hd : t.isTable = false → g.entries = .released)
  (ha : g.word.pae = true → t = .l2PageTable) {q : Pc} (hq : q.busy = true ∧ q.firm = false ∧ q.soft = false ∧
    q.unlocking = false) (hi : Local g q) : Sound ({s with page := g}.goto i q) := by
  obtain ⟨hb,he,ho,hu⟩ := hq
  refine hs.sound h ?_ hw.locked hu (.inr ⟨hs.owners,he⟩) (.inr ⟨hf,ho⟩) ?_ hi
  · show g.word.count = s.owners+s.floating.toNat+q.carries.toNat
    rw [hw.count,hs.owners,hf,Pc.carries_of_busy hb]
    rfl
  exact .unlocked hw.pgtPartial hw.locked (fun hv => absurd hv hw.not_valid) (fun ht => hd (hw.type ▸ ht))
    (fun hc => absurd (hw.count.symm.trans hc) (by decide)) fun hp => hw.type.trans (ha hp)

theorem Solo.ends (hs : Solo s i) (h : Sound s) {g : Page} {owners : Nat} {floating : Bool} {p : Pc}
  (hc : g.word.count = owners+floating.toNat+p.carries.toNat) (hl : g.word.locked = false)
  (hp : p.unlocking = false ∧ p.soft = false) (hv : g.word.validated = true ∨ owners = 0 ∧ p.firm = false)
  (ha : g.word.pgtPartial = floating) (hg : PageSound g) (hi : Local g p) :
  Sound ({s with page := g,owners := owners,floating := floating}.goto i p) := by
  refine hs.sound h hc hl hp.1 hv ?_ hg hi
  cases floating with
  | true => exact .inl ha
  | false => exact .inr ⟨rfl,hp.2⟩

theorem Solo.suspends (hs : Solo s i) (h : Sound s) (hw : Working s.page.word t)
  (ht : t.isTable = true) (he : s.page.entries = .some t) (hn : s.page.nr < entriesPerTable) :
  Sound ({s.store {s.page.word with pgtPartial := true} with floating := true}.goto i .idle) := by
  refine hs.ends h ?_ hw.locked ⟨rfl,rfl⟩ (.inr ⟨hs.owners,rfl⟩) rfl ?_ trivial
  · show s.page.word.count = s.owners+1+0
    rw [hw.count,hs.owners]
  exact ⟨fun _ => ⟨hw.count,hw.validated,hw.locked,hw.type ▸ ht,he.trans (congrArg _ hw.type.symm),hn⟩,
    fun hv => absurd hv hw.not_valid,h.page.plain,fun hl => absurd hl (eq_false_iff.mp hw.locked),h.page.zero,
    h.page.pae⟩

theorem Sound.allocScan (h : Sound s) (hc : s.pc i = .alloc w preemptible)
  (hr : allocResults w.type preemptible s.page.nr s.page.partialPte rc = true) :
  Sound ({s with page := allocScanned s w rc}.goto i (.allocRead w rc)) := by
  have hl := h.threads i
  rw [hc] at hl
  obtain ⟨hw,hd,he,hh⟩ := hl
  obtain ⟨hs,hf⟩ := h.busy hw hc rfl
  have hb : (allocScanned s w rc).word = s.page.word := by cases rc <;> rfl
  have ho : AllocOutcome (allocScanned s w rc) w rc := by
    cases rc with
    | ok =>
      refine ⟨fun hn => ?_,rfl⟩
      rw [hn] at hr
      cases hr
    | einval => exact if_neg (not_lt.mpr hh)
    | eintr =>
      simp only [allocResults,Bool.and_eq_true] at hr
      exact ⟨hr.1.2,if_neg (not_lt.mpr hh)⟩
    | eagain nr partialPte =>
      simp only [allocResults,Bool.and_eq_true,or_eq_true,decide_eq_true_eq] at hr
      obtain ⟨⟨⟨-,-⟩,hg⟩,hk⟩ := hr
      have ha : w.type.isTable = true := by
        rcases hk with hl2 | hu
        · rw [hl2.1.1]
          rfl
        · exact isTable_of_isUpper hu.1
      refine ⟨ha,he.trans ?_,hg⟩
      rw [ha]
      rfl
  refine hs.works h hf (hb ▸ hw) (fun ht => ?_) (fun hp => ?_) ⟨rfl,rfl,rfl,rfl⟩ ⟨hb ▸ hw,?_,ho⟩
  · rw [ht] at he
    cases rc with
    | ok => exact if_neg (eq_false_iff.mp ht)
    | einval | eintr => exact if_neg (not_lt.mpr hh)
    | eagain nr partialPte => exact he
  · rw [hb] at hp
    exact hw.type.symm.trans (h.page.pae hp)
  · rw [hb]
    exact hd

theorem Sound.allocStore (h : Sound s) (hc : s.pc i = .allocWrite w rc v) : Sound (allocStore s i w v rc) := by
  have hb := h.threads i
  rw [hc] at hb
  obtain ⟨hw,he,ho,rfl⟩ := hb
  obtain ⟨hs,hf⟩ := h.busy hw hc rfl
  cases rc with
  | ok =>
    refine hs.ends h ?_ hw.locked ⟨rfl,rfl⟩ (.inl rfl) (hw.pgtPartial.trans hf.symm) ?_ ⟨hw.type,he⟩
    · show s.page.word.count = s.owners+s.floating.toNat+1
      rw [hw.count,hs.owners,hf]
      rfl
    · exact .unlocked hw.pgtPartial hw.locked (fun _ => ⟨fun ht => ho.1 (hw.type.symm.trans ht),
        ho.2.trans (congrArg validEntries hw.type.symm)⟩) h.page.plain h.page.zero h.page.pae
  | einval =>
    refine hs.ends h ?_ rfl ⟨rfl,rfl⟩ (.inr ⟨hs.owners,rfl⟩) hf.symm ?_ trivial
    · show 0 = s.owners+s.floating.toNat+0
      rw [hs.owners,hf]
      rfl
    · exact ⟨nofun,nofun,fun _ => ho,nofun,fun _ => ⟨ho,rfl⟩,nofun⟩
  | eintr =>
    refine hs.ends h ?_ hw.locked ⟨rfl,rfl⟩ (.inr ⟨hs.owners,rfl⟩) (hw.pgtPartial.trans hf.symm) ?_ trivial
    · show 0 = s.owners+s.floating.toNat+0
      rw [hs.owners,hf]
      rfl
    refine .unlocked hw.pgtPartial hw.locked (fun hv => absurd hv hw.not_valid) h.page.plain
      (fun _ => ⟨ho.2,eq_false_iff.mpr fun hp => ?_⟩) h.page.pae
    have hu := ho.1
    rw [← hw.type,h.page.pae hp] at hu
    cases hu
  | eagain nr partialPte => exact hs.suspends h hw ho.1 ho.2.1 ho.2.2

theorem Sound.freeScan (h : Sound s) (hc : s.pc i = .free x preemptible)
  (hr : freeResults x.type preemptible s.page.nr s.page.partialPte rc = true) :
  Sound ({s with page := freeScanned s x rc}.goto i
    (if x.type = PgType.l2PageTable ∧ rc = Rc.ok then .paeRead else .freeRead rc)) := by
  have hl := h.threads i
  rw [hc] at hl
  obtain ⟨hw,hb,he⟩ := hl
  obtain ⟨hs,hf⟩ := h.busy hw hc rfl
  have hd : (freeScanned s x rc).word = s.page.word := by cases rc <;> rfl
  have hw' : Working (freeScanned s x rc).word x.type := hd ▸ hw
  have ha : (freeScanned s x rc).word.pae = true → x.type = .l2PageTable := by
    intro hp
    rw [hd] at hp
    exact hw.type.symm.trans (h.page.pae hp)
  have hg : x.type.isTable = false → (freeScanned s x rc).entries = .released :=
    fun ht => absurd (hb.symm.trans ht) (by decide)
  split
  · rename_i ho
    obtain ⟨hl2,rfl⟩ := ho
    exact hs.works h hf hw' hg ha ⟨rfl,rfl,rfl,rfl⟩ ⟨hl2 ▸ hw',rfl⟩
  rename_i hn
  refine hs.works h hf hw' hg ha ⟨rfl,rfl,rfl,rfl⟩ ⟨x.type,hw',hb,?_⟩
  cases rc with
  | ok => exact ⟨rfl,eq_false_iff.mpr fun hp => hn ⟨ha hp,rfl⟩⟩
  | einval => cases hr
  | eintr =>
    simp only [freeResults,Bool.and_eq_true,decide_eq_true_eq] at hr
    exact he.resolve_right fun hi => hi.2 hr.2
  | eagain nr partialPte =>
    simp only [freeResults,Bool.and_eq_true,decide_eq_true_eq] at hr
    exact ⟨rfl,hr.1.2⟩

theorem Sound.paeStore (h : Sound s) (hc : s.pc i = .paeWrite v) :
  Sound ((s.store {v with pae := false}).goto i (.freeRead .ok)) := by
  have hl := h.threads i
  rw [hc] at hl
  obtain ⟨hw,he,rfl⟩ := hl
  obtain ⟨hs,hf⟩ := h.busy hw hc rfl
  have hw' : Working {s.page.word with pae := false} .l2PageTable :=
    ⟨hw.count,hw.validated,hw.pgtPartial,hw.locked,hw.type⟩
  exact hs.works h hf hw' (fun ht => absurd ht (by decide)) (fun hp => absurd hp Bool.false_ne_true)
    ⟨rfl,rfl,rfl,rfl⟩ ⟨_,hw',rfl,he,rfl⟩

theorem Sound.freeStore (h : Sound s) (hc : s.pc i = .freeWrite rc v) {s' : State}
  (hs' : freeStore s i v rc = some s') :
  Sound s' := by
  have hb := h.threads i
  rw [hc] at hb
  obtain ⟨t,hw,ha,ho,rfl⟩ := hb
  obtain ⟨hs,hf⟩ := h.busy hw hc rfl
  cases rc with
  | ok =>
    cases hs'
    refine hs.ends h ?_ hw.locked ⟨rfl,rfl⟩ (.inr ⟨hs.owners,rfl⟩) (hw.pgtPartial.trans hf.symm) ?_ trivial
    · show s.page.word.count-1 = s.owners+s.floating.toNat+0
      rw [hw.count,hs.owners,hf]
      rfl
    · exact .unlocked hw.pgtPartial hw.locked (fun hv => absurd hv hw.not_valid) h.page.plain (fun _ => ho) h.page.pae
  | einval => cases hs'
  | eintr =>
    cases hs'
    refine hs.ends h ?_ hw.locked ⟨rfl,rfl⟩ (.inl rfl) (hw.pgtPartial.trans hf.symm) ?_ trivial
    · show s.page.word.count = s.owners+1+s.floating.toNat+0
      rw [hw.count,hs.owners,hf]
      rfl
    refine .unlocked hw.pgtPartial hw.locked (fun _ => ⟨fun ht => ?_,?_⟩) h.page.plain h.page.zero h.page.pae
    · rw [← hw.type,show s.page.word.type = .none from ht] at ha
      cases ha
    show s.page.entries = validEntries s.page.word.type
    rw [hw.type,validEntries,ha]
    exact ho
  | eagain nr partialPte =>
    cases hs'
    exact hs.suspends h hw ha ho.1 ho.2

end

section
variable {held : Held}

theorem Sound.counted (h : Sound s) (ha : s.pc i = q) (hq : q.carries = true) : s.page.word.count ≠ 0 := by
  have hp := tally_pos h.finite (f := Pc.carries) rfl (ha ▸ hq)
  have hc := h.count
  omega

theorem Sound.firm_valid (h : Sound s) (hp : s.pc i = q) (hq : q.firm = true) : s.page.word.validated = true :=
  h.firm (.inr ⟨i,by rw [hp]; exact hq⟩)

theorem Pc.putLoop_carries (held : Held) (preemptible : Bool) (y : TypeInfo) :
  (Pc.putLoop held preemptible y).carries = true := by
  cases held <;> rfl

theorem Sound.putSwapped (h : Sound s) (hd : s.pc i = .putLoop held preemptible s.page.word)
  (hi : isFinal s.page.word = true)
  (hg : s.page.word.pgtPartial = true → ¬(s.page.nr = entriesPerTable-1 ∧ s.page.partialPte ≠ 0)) :
  Sound (putSwapped s i preemptible s.page.word) := by
  simp only [isFinal,Bool.and_eq_true,or_eq_true,decide_eq_true_eq] at hi
  obtain ⟨⟨ho,hc⟩,hk⟩ := hi
  obtain ⟨hs,hm⟩ := h.solo_carrier ho (by rw [hd]; exact Pc.putLoop_carries ..)
  have hq : s.page.word.locked = false := by
    refine eq_false_iff.mpr fun hl => ?_
    have hv := h.page.locked hl
    omega
  have hw : Working {s.page.word with validated := false,pgtPartial := false} s.page.word.type :=
    ⟨ho,rfl,rfl,hq,rfl⟩
  have hr : ∀ nr partialPte, Local
      {s.page with word := {s.page.word with validated := false,pgtPartial := false},nr := nr,partialPte := partialPte}
      (.free s.page.word preemptible) → Sound ({s with
        page := {s.page with
          word := {s.page.word with validated := false,pgtPartial := false}
          nr := nr
          partialPte := partialPte}}.goto i (.free s.page.word preemptible)) := by
    intro nr partialPte hb
    refine hs.works h hm hw ?_ ?_ ⟨rfl,rfl,rfl,rfl⟩ hb
    · exact fun ht => absurd (hb.2.1.symm.trans ht) (by decide)
    · exact h.page.pae
  unfold PageType.putSwapped
  split_ifs with hp
  · obtain ⟨-,-,-,ha,he,hu⟩ := h.page.suspended hp
    refine hr s.page.nr s.page.partialPte ⟨hw,ha,.inr ⟨he,fun hf => hg hp ?_⟩⟩
    change firstFreed s.page.nr s.page.partialPte = _ at hf
    rw [firstFreed] at hf
    rw [entriesPerTable] at hu hf
    split at hf
    · omega
    · rename_i hh
      exact ⟨hf,hh⟩
  obtain ⟨hn,he⟩ := h.page.valid (hk.resolve_right hp)
  have ha := isTable_of_code hc hn
  rw [validEntries,ha] at he
  exact hr entriesPerTable 0 ⟨hw,ha,.inl he⟩

theorem Sound.putOne (h : Sound s) (hb : s.pc i = .putLoop held preemptible s.page.word)
  (hd : s.page.word.count ≠ 0) (hf : isFinal s.page.word = false)
  (hk : ¬(s.page.word.locked = true ∧ s.page.word.count = 2)) :
  Sound ((s.store {s.page.word with count := s.page.word.count-1}).goto i .idle) := by
  have hf : ¬((s.page.word.count = 1 ∧ s.page.word.type.code ≤ PgType.l4PageTable.code) ∧
      (s.page.word.validated = true ∨ s.page.word.pgtPartial = true)) := by
    intro ha
    refine eq_false_iff.mp hf ?_
    simpa only [isFinal,Bool.and_eq_true,or_eq_true,decide_eq_true_eq] using ha
  cases held with
  | flag =>
    have hp := h.soft (.inr ⟨i,by rw [hb]; rfl⟩)
    obtain ⟨ho,-,-,ht,-⟩ := h.page.suspended hp
    have hc := (Bool.and_eq_true _ _).mp ht
    exact absurd ⟨⟨ho,of_decide_eq_true hc.2⟩,.inr hp⟩ hf
  | reference =>
    have hv := h.firm_valid hb rfl
    refine h.shifts hb hv rfl ?_ rfl (fun hl => ?_) (fun hz => ?_) rfl trivial
    · show s.page.word.count-1+(s.owners+s.lockers+1) = s.page.word.count+(s.owners+s.lockers+0)
      omega
    · have hw := h.page.locked hl
      have hn : s.page.word.count ≠ 2 := fun hw => hk ⟨hl,hw⟩
      show 2 ≤ s.page.word.count-1
      omega
    · refine eq_false_iff.mpr fun ht => hf ⟨⟨?_,?_⟩,.inl hv⟩
      · change s.page.word.count-1 = 0 at hz
        omega
      · exact of_decide_eq_true ((Bool.and_eq_true _ _).mp ht).2

theorem Sound.putAborted (h : Sound s) (ha : s.pc i = .putLoop held preemptible y) :
  Sound ((s.keep held).goto i .idle) := by
  cases held with
  | reference =>
    have hv := h.firm_valid ha rfl
    have hc := h.counted ha rfl
    refine h.shifts ha hv rfl ?_ rfl h.page.locked (fun hz => absurd hz hc) rfl
      trivial
    show s.page.word.count+(s.owners+s.lockers+1) = s.page.word.count+(s.owners+1+s.lockers+0)
    omega
  | flag =>
    have hp := h.soft (.inr ⟨i,by rw [ha]; rfl⟩)
    obtain ⟨ho,-,hl,-⟩ := h.page.suspended hp
    obtain ⟨hs,-⟩ := h.solo_carrier ho (by rw [ha]; rfl)
    refine hs.ends h ?_ hl ⟨rfl,rfl⟩ (.inr ⟨hs.owners,rfl⟩) hp h.page trivial
    show s.page.word.count = s.owners+1+0
    rw [ho,hs.owners]

theorem Sound.putStep (h : Sound s) (hp : s.pc i = .putLoop held preemptible y) {preempt : Bool} {s' : State}
  (ho : s.page.word = y → ¬(y.locked = true ∧ y.count = 2) ∧
    (y.pgtPartial = true → ¬(s.page.nr = entriesPerTable-1 ∧ s.page.partialPte ≠ 0)))
  (hs' : putStep s i held preemptible y preempt = some s') : Sound s' := by
  have ha : Sound (s.goto i (.putLoop held preemptible s.page.word)) := by
    have hc := h.counted hp (Pc.putLoop_carries ..)
    cases held with
    | reference | flag => exact h.moves hp rfl rfl id id hc
  unfold PageType.putStep at hs'
  split at hs'
  · cases hs'
  rename_i hc
  split at hs'
  · rename_i hf
    cases hs'
    split_ifs with hs
    · subst hs
      exact h.putSwapped hp hf (ho rfl).2
    · exact ha
  rename_i hf
  split at hs'
  · rename_i hs
    subst hs
    cases hs'
    exact h.putOne hp hc (eq_false_iff.mpr hf) (ho rfl).1
  split at hs'
  · cases hs'
    exact h.putAborted hp
  · cases hs'
    exact ha

end

theorem Sound.lockStep (h : Sound s) (hp : s.pc i = .lockLoop) : Sound (lockStep s i) := by
  unfold PageType.lockStep
  split
  · exact h
  rename_i hl
  split
  · exact h.moves hp rfl rfl nofun nofun trivial
  rename_i ho
  obtain ⟨hv,hc,-⟩ := not_or.mp ho |>.imp_right not_or.mp
  exact h.moves hp rfl rfl nofun nofun ⟨(not_eq_false _).mp hv,hc,eq_false_iff.mpr hl⟩

theorem Sound.locks_page (h : Sound s) (hp : s.pc i = .lockTry s.page.word) :
  Sound ({s.store {s.page.word with count := s.page.word.count+1,locked := true} with
    lockers := s.lockers+1}.goto i .idle) := by
  have hl := h.threads i
  rw [hp] at hl
  obtain ⟨hv,hc,ho⟩ := hl
  refine h.shifts hp hv rfl ?_ ?_ (fun _ => ?_) (fun hz => ?_) rfl trivial
  · show s.page.word.count+1+(s.owners+s.lockers+0) = s.page.word.count+(s.owners+(s.lockers+1)+0)
    omega
  · show 1+(s.lockers+0) = s.page.word.locked.toNat+(s.lockers+1+0)
    rw [ho,toNat_false]
    omega
  · show 2 ≤ s.page.word.count+1
    omega
  · exact absurd hz (Nat.succ_ne_zero _)

theorem Sound.locked_of_unlocking (h : Sound s) (hi : (s.pc i).unlocking = true) : s.page.word.locked = true := by
  have hp := tally_pos h.finite (f := Pc.unlocking) rfl hi
  have ho := h.locks
  cases hl : s.page.word.locked with
  | true => rfl
  | false =>
    rw [hl,toNat_false] at ho
    omega

theorem Sound.unlockStart (h : Sound s) (hp : s.pc i = .unlockStart) : Sound (s.goto i (.unlockLoop s.page.word)) := by
  have hl := h.locked_of_unlocking (i := i) (by rw [hp]; rfl)
  exact h.moves hp rfl rfl id nofun ⟨hl,h.counted hp rfl⟩

theorem Sound.unlockStep (h : Sound s) (hp : s.pc i = .unlockLoop y) {s' : State}
  (hs' : unlockStep s i y = some s') : Sound s' := by
  have hl := h.locked_of_unlocking (i := i) (by rw [hp]; rfl)
  have ht := h.page.locked hl
  have hv := h.firm_valid hp rfl
  unfold PageType.unlockStep at hs'
  split at hs'
  · cases hs'
  split_ifs at hs' with hs
  · subst hs
    cases hs'
    refine h.shifts hp hv rfl ?_ ?_ nofun (fun hz => ?_) rfl trivial
    · show s.page.word.count-1+(s.owners+s.lockers+1) = s.page.word.count+(s.owners+s.lockers+0)
      omega
    · show 0+(s.lockers+1) = s.page.word.locked.toNat+(s.lockers+0)
      rw [hl,toNat_true]
      omega
    · change s.page.word.count-1 = 0 at hz
      omega
  · cases hs'
    exact h.moves hp rfl rfl id nofun ⟨hl,by omega⟩

section
variable {s' : State} {a : Action} {preempt : Bool}

theorem Sound.run (h : Sound s) (hk : careful s (.run i preempt) = true)
  (hs' : run s i preempt (s.pc i) = some s') : Sound s' := by
  have hb := h.threads i
  generalize hc : s.pc i = q at hs' hb
  cases q with
  | idle | alloc w preemptible | free x preemptible => cases hs'
  | getStart w preemptible =>
    cases hs'
    exact h.moves hc rfl rfl nofun nofun hb
  | getLoop w preemptible y =>
    cases hs'
    refine h.getStep hc preempt fun hs ha => ?_
    simpa only [careful,hc,hs,ha,ne_eq,not_true_eq_false,decide_false,Bool.not_true,Bool.false_or,
      Bool.and_eq_true,decide_eq_true_eq] using hk
  | allocRead w rc =>
    cases hs'
    exact h.moves hc rfl rfl nofun nofun ⟨hb.1,hb.2.1,hb.2.2,rfl⟩
  | allocWrite w rc v =>
    cases hs'
    exact h.allocStore hc
  | getDone w =>
    cases hs'
    have hv := h.firm_valid hc rfl
    refine h.shifts hc hv rfl ?_ rfl h.page.locked
      (fun hz => absurd hz (h.counted hc rfl)) rfl trivial
    show s.page.word.count+(s.owners+s.lockers+1) = s.page.word.count+(s.owners+1+s.lockers+0)
    omega
  | putStart held preemptible =>
    cases hs'
    cases held with
    | reference | flag => exact h.moves hc rfl rfl id id (h.counted hc rfl)
  | putLoop held preemptible y =>
    refine h.putStep hc (fun hs => ?_) hs'
    simp only [careful,hc,hs,ne_eq,not_true_eq_false,decide_false,Bool.false_or,Bool.and_eq_true,Bool.not_eq_true',
      Bool.and_eq_false_imp,decide_eq_true_eq,decide_eq_false_iff_not] at hk
    exact ⟨fun hl => hk.1 hl.1 hl.2,fun hp hl => hk.2 ⟨hp,hl.1⟩ hl.2⟩
  | paeRead =>
    cases hs'
    exact h.moves hc rfl rfl nofun nofun ⟨hb.1,hb.2,rfl⟩
  | paeWrite v =>
    cases hs'
    exact h.paeStore hc
  | freeRead rc =>
    cases hs'
    obtain ⟨t,hw,ht,ho⟩ := hb
    exact h.moves hc rfl rfl nofun nofun ⟨t,hw,ht,ho,rfl⟩
  | freeWrite rc v => exact h.freeStore hc hs'
  | lockLoop =>
    cases hs'
    exact h.lockStep hc
  | lockTry x =>
    cases hs'
    split_ifs with hs
    · subst hs
      exact h.locks_page hc
    · exact h.moves hc rfl rfl nofun nofun trivial
  | unlockStart =>
    cases hs'
    exact h.unlockStart hc
  | unlockLoop y => exact h.unlockStep hc hs'

theorem Sound.scan (h : Sound s) {rc : Rc} (hs' : scan s i rc (s.pc i) = some s') : Sound s' := by
  generalize hp : s.pc i = q at hs'
  cases q with
  | alloc w preemptible =>
    obtain ⟨hr,⟨⟩⟩ := ite_none_right_eq_some.mp hs'
    exact h.allocScan hp hr
  | free x preemptible =>
    obtain ⟨hr,⟨⟩⟩ := ite_none_right_eq_some.mp hs'
    exact h.freeScan hp hr
  | _ => cases hs'

theorem Sound.step (h : Sound s) (hk : careful s a = true) (hs' : step s a = some s') : Sound s' := by
  cases a with
  | get i w preemptible =>
    obtain ⟨⟨hi,hw⟩,⟨⟩⟩ := ite_none_right_eq_some.mp hs'
    exact h.moves hi rfl rfl nofun nofun hw
  | put i preemptible =>
    obtain ⟨⟨hi,ho⟩,⟨⟩⟩ := ite_none_right_eq_some.mp hs'
    have hv := h.firm (.inl (by omega))
    have hc := h.count
    refine h.shifts hi hv rfl ?_ rfl h.page.locked (fun hz => ?_) rfl trivial
    · show s.page.word.count+(s.owners+s.lockers+0) = s.page.word.count+(s.owners-1+s.lockers+1)
      omega
    · change s.page.word.count = 0 at hz
      omega
  | resumePut i preemptible =>
    obtain ⟨⟨hi,hf⟩,⟨⟩⟩ := ite_none_right_eq_some.mp hs'
    have hp := h.soft (.inl hf)
    obtain ⟨hn,-,hl,-⟩ := h.page.suspended hp
    have hs : Solo s i := h.solo (by rw [hn,hf,hi]; rfl)
    refine hs.sound h ?_ hl rfl (.inr ⟨hs.owners,rfl⟩) (.inl hp) h.page trivial
    show s.page.word.count = s.owners+0+1
    rw [hn,hs.owners]
  | lock i =>
    obtain ⟨hi,⟨⟩⟩ := ite_none_right_eq_some.mp hs'
    exact h.moves hi rfl rfl nofun nofun trivial
  | unlock i =>
    obtain ⟨⟨hi,ha⟩,⟨⟩⟩ := ite_none_right_eq_some.mp hs'
    have hv := h.firm (.inl (by omega))
    have hc := h.count
    refine h.shifts hi hv rfl ?_ ?_ h.page.locked (fun hz => ?_) rfl trivial
    · show s.page.word.count+(s.owners+s.lockers+0) = s.page.word.count+(s.owners+(s.lockers-1)+1)
      omega
    · show s.page.word.locked.toNat+(s.lockers+0) = s.page.word.locked.toNat+(s.lockers-1+1)
      omega
    · change s.page.word.count = 0 at hz
      omega
  | run i preempt => exact h.run hk hs'
  | scan i rc => exact h.scan hs'

theorem getStep_type (hz : s.page.word.count = 0 → s.page.entries = .released) (i : Nat) (w : Wanted)
  (preemptible : Bool) (y : TypeInfo) (preempt : Bool) :
  (getStep s i w preemptible y preempt).page.word.type = s.page.word.type ∨ s.page.entries = .released := by
  unfold getStep
  split
  · exact .inl rfl
  · split
    · split <;> exact .inl rfl
    · exact .inl rfl
  · rename_i nx hp
    split
    · rename_i hs
      subst hs
      have hw : (PageType.getSwapped s i w preemptible s.page.word nx).page.word = nx := by
        unfold PageType.getSwapped
        split
        · rfl
        · split <;> rfl
      rcases getPlan_swap hp with ⟨he,-⟩ | ⟨he,-⟩ | ⟨-,-,-,-,rfl⟩ | ⟨-,-,-,rfl⟩
      · exact .inr (hz he)
      · exact .inr (hz he)
      · exact .inl (by rw [hw])
      · exact .inl (by rw [hw])
    · split <;> exact .inl rfl

theorem putStep_type {held : Held} {preemptible : Bool} {y : TypeInfo}
  (hs' : putStep s i held preemptible y preempt = some s') : s'.page.word.type = s.page.word.type := by
  unfold putStep at hs'
  split at hs'
  · cases hs'
  split at hs'
  · cases hs'
    split_ifs with hs
    · subst hs
      unfold putSwapped
      split <;> rfl
    · rfl
  split at hs'
  · rename_i hs
    subst hs
    cases hs'
    rfl
  split at hs'
  · cases hs'
    cases held <;> rfl
  · cases hs'
    rfl

theorem Sound.run_type (h : Sound s) (hs' : PageType.run s i preempt (s.pc i) = some s') :
  s'.page.word.type = s.page.word.type ∨ s.page.entries = .released := by
  have hl := h.threads i
  generalize s.pc i = q at hs' hl
  cases q with
  | getLoop w preemptible y =>
    cases hs'
    exact getStep_type (fun hz => (h.page.zero hz).1) ..
  | allocWrite w rc v =>
    cases hs'
    obtain ⟨-,-,ho,rfl⟩ := hl
    cases rc with
    | einval => exact .inr ho
    | _ => exact .inl rfl
  | putLoop held preemptible y => exact .inl (putStep_type hs')
  | paeWrite v =>
    cases hs'
    obtain ⟨-,-,rfl⟩ := hl
    exact .inl rfl
  | freeWrite rc v =>
    obtain ⟨-,-,-,-,rfl⟩ := hl
    cases rc with
    | einval => cases hs'
    | _ =>
      cases hs'
      exact .inl rfl
  | lockLoop =>
    cases hs'
    unfold PageType.lockStep
    split
    · exact .inl rfl
    · split <;> exact .inl rfl
  | lockTry x =>
    cases hs'
    split_ifs with hs
    · subst hs
      exact .inl rfl
    · exact .inl rfl
  | unlockLoop y =>
    unfold PageType.run PageType.unlockStep at hs'
    dsimp only at hs'
    split at hs'
    · cases hs'
    split_ifs at hs' with hs
    · subst hs
      cases hs'
      exact .inl rfl
    · cases hs'
      exact .inl rfl
  | idle | alloc w preemptible | free x preemptible => cases hs'
  | _ =>
    cases hs'
    exact .inl rfl

theorem Sound.step_type (h : Sound s) (hs' : PageType.step s a = some s') :
  s'.page.word.type = s.page.word.type ∨ s.page.entries = .released := by
  cases a with
  | run i preempt => exact h.run_type hs'
  | scan i rc =>
    cases hp : s.pc i with
    | alloc w preemptible | free x preemptible =>
      rw [PageType.step,hp] at hs'
      obtain ⟨-,hs'⟩ := ite_none_right_eq_some.mp hs'
      cases hs'
      cases rc <;> exact .inl rfl
    | _ =>
      rw [PageType.step,hp] at hs'
      cases hs'
  | _ =>
    obtain ⟨-,⟨⟩⟩ := ite_none_right_eq_some.mp hs'
    exact .inl rfl

end

structure Unused (s : State) : Prop where
  idle : ∀ i, s.pc i = .idle
  counts : s.page.word.count = 0 ∧ s.owners = 0 ∧ s.lockers = 0 ∧ s.floating = false
  flags : s.page.word.pae = false ∧ s.page.word.pgtPartial = false ∧ s.page.word.locked = false
  entries : s.page.entries = .released
  type : s.page.word.validated = true → s.page.word.type ≠ .none ∧ s.page.word.type.isTable = false

theorem Unused.sound {s : State} (h : Unused s) : Sound s := by
  obtain ⟨hc,ho,hb,hd⟩ := h.counts
  obtain ⟨hg,ha,hk⟩ := h.flags
  have hn : ∀ f : Pc → Bool, f .idle = false → ∀ i, f (s.pc i) = false := fun f hf i => by rw [h.idle i]; exact hf
  refine ⟨?_,?_,?_,fun hf => ?_,fun hs => ?_,?_,fun i => by rw [h.idle i]; exact trivial⟩
  · have he : Active s.pc = ∅ := Set.eq_empty_of_forall_notMem fun i hi => hi (h.idle i)
    rw [he]
    exact Set.finite_empty
  · rw [hc,ho,hb,hd,tally_none (hn _ rfl)]
    rfl
  · rw [hk,hb,tally_none (hn _ rfl)]
    rfl
  · rcases hf with hf | ⟨i,hi⟩
    · omega
    · exact absurd hi (eq_false_iff.mp (hn _ rfl i))
  · rcases hs with hs | ⟨i,hi⟩
    · exact absurd hs (eq_false_iff.mp hd)
    · exact absurd hi (eq_false_iff.mp (hn _ rfl i))
  · refine .unlocked ha hk (fun hv => ?_) (fun _ => h.entries) (fun _ => ⟨h.entries,hg⟩)
      fun hp => absurd hp (eq_false_iff.mp hg)
    obtain ⟨ht,hm⟩ := h.type hv
    refine ⟨ht,h.entries.trans ?_⟩
    rw [validEntries,hm]
    rfl

def fresh : State :=
  {page := {word := .zero,nr := 0,partialPte := 0,entries := .released},pc := fun _ => .idle,owners := 0,lockers := 0,
    floating := false}

theorem fresh_unused : Unused fresh := ⟨fun _ => rfl,⟨rfl,rfl,rfl,rfl⟩,⟨rfl,rfl,rfl⟩,rfl,nofun⟩

def getCalls (i : Nat) (w : Wanted) : List Action :=
  [.get i w false,.run i false,.run i false,.scan i .ok,.run i false,.run i false,.run i false]

def lockedPut : List Action :=
  getCalls 0 {type := .l1PageTable,pae := false} ++
    [.lock 1,.run 1 false,.run 1 false,.put 0 false,.run 0 false,.run 0 false,.unlock 1,.run 1 false,.run 1 false]

def dropped : State := (runIf step (fun _ _ => true) fresh lockedPut).get (by decide +kernel)

def retyped : State := (runIf step (fun _ _ => true) dropped
    [.get 0 {type := .writablePage,pae := false} false,.run 0 false,.run 0 false]).get (by decide +kernel)

theorem unlock_skips_clean_up : Reach step (fun _ _ => True) fresh dropped ∧
  dropped.page.word.count = 0 ∧ dropped.page.word.validated = true ∧ dropped.page.entries = .all .l1PageTable ∧
  Reach step (fun _ _ => True) dropped retyped ∧
  retyped.pc 0 = .getDone {type := .writablePage,pae := false} ∧ retyped.page.word.type = .writablePage ∧
  retyped.page.entries = .all .l1PageTable := by
  exact ⟨reach_get (fun _ _ _ => trivial) _,by decide +kernel,by decide +kernel,by decide +kernel,
    reach_get (fun _ _ _ => trivial) _,by decide +kernel,by decide +kernel,by decide +kernel⟩

theorem last_reference_cleans_up {s0 s : State} (hstart : Unused s0)
  (hreach : Reach step (fun s a => careful s a = true) s0 s) : (s.page.word.count = 0 → s.page.entries = .released) ∧
  (∀ a s', step s a = some s' → s'.page.word.type ≠ s.page.word.type → s.page.entries = .released) ∧
  (∀ i w, s.pc i = .getDone w → s.page.word.validated = true ∧ s.page.word.Fits w ∧
    s.page.entries = validEntries w.type) := by
  have h : Sound s := reach_invariant hstart.sound (fun _ _ _ _ h ho hs => h.step ho hs) hreach
  refine ⟨fun hz => (h.page.zero hz).1,fun a s' hs' ht => (h.step_type hs').resolve_left ht,
    fun i w hp => ?_⟩
  have hv := h.firm_valid hp rfl
  have hl := h.threads i
  rw [hp] at hl
  exact ⟨hv,hl,(h.page.valid hv).2.trans (congrArg validEntries hl.1)⟩

def orderlyCalls : List Action :=
  [.get 0 {type := .l3PageTable,pae := false} true,.run 0 false,.run 0 false,.scan 0 (.eagain 3 1),.run 0 false,
    .run 0 false,.get 0 {type := .l3PageTable,pae := false} true,.run 0 false,.run 0 false,.scan 0 .ok,.run 0 false,
    .run 0 false,.run 0 false,.lock 1,.run 1 false,.run 1 false,.put 0 true,.run 0 false,.unlock 1,.run 1 false,
    .run 1 false,.run 0 false,.run 0 false,.scan 0 (.eagain 7 (-1)),.run 0 false,.run 0 false,.resumePut 1 true,
    .run 1 false,.run 1 false,.scan 1 .ok,.run 1 false,.run 1 false]

def emptied : State := (runIf step careful fresh orderlyCalls).get (by decide +kernel)

theorem orderly_calls_clean_up :
  emptied.page.word.count = 0 ∧ emptied.page.word.type = .l3PageTable ∧ emptied.page.entries = .released := by
  have hc : emptied.page.word.count = 0 := by decide +kernel
  exact ⟨hc,by decide +kernel,(last_reference_cleans_up fresh_unused (reach_get (fun _ _ h => h) _)).1 hc⟩

end PageType
