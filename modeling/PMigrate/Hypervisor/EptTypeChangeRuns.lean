import PMigrate.Hypervisor.EptTypeChange

namespace Ept

open Finset Transition Nat Option

def SyncEntry.leaves (E : Tree) (w : SyncEntry) : Multiset Path :=
  leavesIn E 1 w.page w.start (w.start+w.len)

structure SyncEntry.Ok (w : SyncEntry) : Prop where
  page : w.page.length+1 = walkLength
  range : w.start+w.len ≤ pagetableEntries

def Slave.owes (E : Tree) (list : Nat → SyncEntry) : Slave → Multiset Path
  | .fetch k => (list k).leaves E
  | .entry w i _ => leavesIn E 1 w.page i (w.start+w.len)
  | .child w i j _ => leavesIn E 0 (i :: w.page) j pagetableEntries+leavesIn E 1 w.page (i+1) (w.start+w.len)
  | _ => 0

def Slave.inside : Slave → Nat
  | .off | .readConsume | .readCurrent _ | .enter _ _ | .mark => 0
  | _ => 1

def Slave.Last (consume current : Nat) : Slave → Prop
  | .enter _ n | .loop _ n => n = current
  | .off | .leave | .mark => consume = current
  | _ => True

def above (E : Tree) : Path → Multiset Path
  | [] => 0
  | j :: page => leavesIn E (walkLength-page.length) page (j+1) pagetableEntries+above E page

def pageTodo (E : Tree) (page : Path) (i : Nat) : Multiset Path :=
  leavesIn E (walkLength-page.length) page i pagetableEntries+above E page

def Master.todo (E : Tree) : Master → Multiset Path
  | .visit page i _ | .readSize page i | .write page i _ | .publish page i => pageTodo E page i
  | .returned page i | .triggerConsume page i | .triggerCurrent page i _ | .triggerTarget page i
  | .triggerClear page i _ | .triggerSend page i _ => pageTodo E page (i+1)
  | .acting | .waiting | .stopped => 0

def Master.final : Master → Bool
  | .acting | .waiting | .stopped => true
  | _ => false

structure Setup where
  change : Change
  tree : Tree
  cpus : Finset Nat
  self : Nat

namespace Setup

variable (P : Setup)

def threads : Finset (Option Nat) := insertNone P.cpus

def SlaveOk (consume current : Nat) : Slave → Prop
  | .readCurrent c | .rereadCurrent c => c ≤ consume
  | .enter c n | .loop c n => c ≤ consume ∧ n ≤ current
  | .claim c => c < current
  | .fetch k => k < current
  | .entry w i v => w.Ok ∧ i < w.start+w.len ∧ v.Knows P.change P.tree false (i :: w.page)
  | .child w i j v => w.Ok ∧ i < w.start+w.len ∧ j < pagetableEntries ∧
      v.Knows P.change P.tree true (j :: i :: w.page)
  | _ => True

def queued (list : Nat → SyncEntry) (consume current : Nat) : Multiset Path :=
  ∑ k ∈ Ico consume current, (list k).leaves P.tree

def owed (list : Nat → SyncEntry) (slave : Option Nat → Slave) (ts : Finset (Option Nat)) :
    Multiset Path := ∑ t ∈ ts, (slave t).owes P.tree list

structure Core (D R : Multiset Path) (s : Walk) : Prop where
  changed : P.change.Changed P.tree D s.ept
  whole : D+(P.owed s.entryList s.slave P.threads +
      (P.queued s.entryList s.consumeSize s.currentSize+R)) = treeLeaves P.tree
  sizes : s.consumeSize ≤ s.currentSize
  items : ∀ k < s.currentSize, (s.entryList k).Ok
  slaves : ∀ t, P.SlaveOk s.consumeSize s.currentSize (s.slave t)
  count : s.slaveCnt = ∑ t ∈ P.threads, (s.slave t).inside
  sent : s.sent ⊆ P.cpus
  away : ∀ t, t ∉ P.threads → s.slave t = .off

structure Idle (s : Walk) : Prop where
  masked : s.slaveCpumask ⊆ P.cpus
  asleep : s.slave none = .off

def Phase (s : Walk) : Master → Prop
  | .visit page i v => i < pagetableEntries ∧ page.length < walkLength ∧
      (page.length+1 < walkLength → v.Knows P.change P.tree false (i :: page))
  | .readSize page i => i < pagetableEntries ∧ page.length+1 = walkLength
  | .write page i index => i < pagetableEntries ∧ page.length+1 = walkLength ∧ index = s.currentSize
  | .publish page i => i < pagetableEntries ∧ page.length+1 = walkLength ∧
      s.entryList s.currentSize = ⟨page,i,batchLength i⟩
  | .returned page _ | .triggerConsume page _ | .triggerCurrent page _ _ | .triggerTarget page _ =>
    page.length+1 < walkLength
  | .triggerClear page _ target | .triggerSend page _ target => page.length+1 < walkLength ∧ target ⊆ P.cpus
  | .acting => (s.slave none).Last s.consumeSize s.currentSize
  | .waiting => s.slave none = .off ∧ s.consumeSize = s.currentSize
  | .stopped => s.consumeSize = s.currentSize ∧ s.slaveCnt = 0

structure Inv (D : Multiset Path) (s : Walk) : Prop where
  core : P.Core D (s.master.todo P.tree) s
  idle : s.master.final = false → P.Idle s
  phase : P.Phase s s.master

variable {P} {D R : Multiset Path} {s : Walk}

variable {x : Slave} {c n i : Nat} {t : Option Nat} {list : Nat → SyncEntry} {E : Tree}
  {D' L R' : Multiset Path} {S : Finset Nat} {w : SyncEntry} {s' : Walk} {v : Visit} {page : Path}
  {m : Master}

theorem SlaveOk.mono {c' n' : Nat} (h : P.SlaveOk c n x) (hc : c ≤ c') (hn : n ≤ n') : P.SlaveOk c' n' x := by
  cases x with
  | readCurrent _ | rereadCurrent _ => exact le_trans h hc
  | enter _ _ | loop _ _ => exact ⟨le_trans h.1 hc,le_trans h.2 hn⟩
  | claim _ | fetch _ => exact lt_of_lt_of_le h hn
  | _ => exact h

theorem Last.mono {c' : Nat} (h : x.Last c n) (hc : c ≤ c') (hn : c' ≤ n) : x.Last c' n := by
  cases x with
  | off | leave | mark =>
    have : c = n := h
    exact le_antisymm hn (this ▸ hc)
  | _ => exact h

theorem Core.setMaster (h : P.Core D R s) (m : Master) : P.Core D R {s with master := m} :=
  ⟨h.changed,h.whole,h.sizes,h.items,h.slaves,h.count,h.sent,h.away⟩

theorem Core.setMask (h : P.Core D R s) (M : Finset Nat) : P.Core D R {s with slaveCpumask := M} :=
  ⟨h.changed,h.whole,h.sizes,h.items,h.slaves,h.count,h.sent,h.away⟩

variable {M target : Finset Nat} {slave : Option Nat → Slave}

theorem owed_split (ht : t ∈ P.threads) : P.owed list slave P.threads =
    (slave t).owes P.tree list+P.owed list slave (P.threads.erase t) :=
  (add_sum_erase P.threads (fun u => (slave u).owes P.tree list) ht).symm

theorem owed_erase_set (t : Option Nat) (x : Slave) :
  P.owed list (fun u => if u = t then x else slave u) (P.threads.erase t) = P.owed list slave (P.threads.erase t) :=
  sum_congr rfl fun u hu => by simp only [if_neg (ne_of_mem_erase hu)]

theorem count_set (slave : Option Nat → Slave) (ht : t ∈ P.threads) (x : Slave) :
  (∑ u ∈ P.threads, (if u = t then x else slave u).inside)+(slave t).inside =
    (∑ u ∈ P.threads, (slave u).inside)+x.inside := by
  rw [← add_sum_erase P.threads _ ht,← add_sum_erase P.threads (fun u => (slave u).inside) ht,if_pos rfl]
  have hr : ∑ u ∈ P.threads.erase t, (if u = t then x else slave u).inside =
      ∑ u ∈ P.threads.erase t, (slave u).inside :=
    sum_congr rfl fun u hu => by rw [if_neg (ne_of_mem_erase hu)]
  rw [hr]
  omega

theorem Core.moveSlave (h : P.Core D R s) (ht : t ∈ P.threads) (hh : P.change.Changed P.tree D' E)
  (hw : D'+(x.owes P.tree s.entryList+P.queued s.entryList c s.currentSize) =
    D+((s.slave t).owes P.tree s.entryList+P.queued s.entryList s.consumeSize s.currentSize))
  (hc : s.consumeSize ≤ c) (hc' : c ≤ s.currentSize) (ho : P.SlaveOk c s.currentSize x)
  (ha : n+(s.slave t).inside = s.slaveCnt+x.inside) (hs : S ⊆ s.sent) : P.Core D' R
    ({s with ept := E,consumeSize := c,slaveCnt := n,sent := S}.setSlave t x) where
  changed := hh
  whole := by
    have hold := h.whole
    rw [owed_split ht] at hold
    simp only [Walk.setSlave]
    rw [owed_split ht,owed_erase_set,if_pos rfl,← hold]
    calc D'+((x.owes P.tree s.entryList+P.owed s.entryList s.slave (P.threads.erase t)) +
          (P.queued s.entryList c s.currentSize+R))
        = D'+(x.owes P.tree s.entryList+P.queued s.entryList c s.currentSize) +
            (P.owed s.entryList s.slave (P.threads.erase t)+R) := by ac_rfl
      _ = D+((s.slave t).owes P.tree s.entryList+P.queued s.entryList s.consumeSize s.currentSize) +
            (P.owed s.entryList s.slave (P.threads.erase t)+R) := by rw [hw]
      _ = D+(((s.slave t).owes P.tree s.entryList+P.owed s.entryList s.slave (P.threads.erase t)) +
            (P.queued s.entryList s.consumeSize s.currentSize+R)) := by ac_rfl
  sizes := hc'
  items := h.items
  slaves u := by
    simp only [Walk.setSlave]
    split
    · exact ho
    · exact (h.slaves u).mono hc le_rfl
  count := by
    have := count_set s.slave ht x
    rw [← h.count] at this
    exact add_right_cancel (ha.trans this.symm)
  sent := hs.trans h.sent
  away u hu := by
    simp only [Walk.setSlave]
    have hn : u ≠ t := fun he => hu (he ▸ ht)
    rw [if_neg hn]
    exact h.away u hu

theorem Core.share (h : P.Core D R s) (ht : t ∈ P.threads) :
  ∃ R', D+((s.slave t).owes P.tree s.entryList+R') = treeLeaves P.tree := by
  have hold := h.whole
  rw [owed_split ht,add_assoc] at hold
  exact ⟨_,hold⟩

theorem Phase.moveSlave (hs : s.master ≠ .stopped) (hn : t = none → s.master = .acting)
  (h : P.Phase s s.master) (hc : s.consumeSize ≤ c) (hc' : c ≤ s.currentSize) (hl : t = none → x.Last c s.currentSize) :
  P.Phase ({s with ept := E,consumeSize := c,slaveCnt := n,slaveCpumask := M,sent := S}.setSlave t x)
    s.master := by
  cases hm : s.master with
  | stopped => exact absurd hm hs
  | waiting =>
    rw [hm] at h hn
    have ha : none ≠ t := fun he => nomatch hn he.symm
    simp only [Phase,Walk.setSlave,if_neg ha]
    exact ⟨h.1,by have := h.2; omega⟩
  | acting =>
    rw [hm] at h
    simp only [Phase,Walk.setSlave]
    split_ifs with he
    · exact hl he.symm
    · exact Last.mono h hc hc'
  | _ =>
    rw [hm] at h
    exact h

theorem Inv.moveSlave (h : P.Inv D s) (ht : t ∈ P.threads) (hs : s.master ≠ .stopped)
  (hn : t = none → s.master = .acting)
  (hh : P.change.Changed P.tree D' E) (hw : D'+(x.owes P.tree s.entryList+P.queued s.entryList c s.currentSize) =
    D+((s.slave t).owes P.tree s.entryList+P.queued s.entryList s.consumeSize s.currentSize))
  (hc : s.consumeSize ≤ c) (hc' : c ≤ s.currentSize) (ho : P.SlaveOk c s.currentSize x)
  (ha : n+(s.slave t).inside = s.slaveCnt+x.inside) (hb : S ⊆ s.sent)
  (hm : t ≠ none → s.slaveCpumask ⊆ P.cpus → M ⊆ P.cpus) (hl : t = none → x.Last c s.currentSize) : P.Inv D'
    ({s with ept := E,consumeSize := c,slaveCnt := n,slaveCpumask := M,sent := S}.setSlave t x) where
  core := (h.core.moveSlave ht hh hw hc hc' ho ha hb).setMask M
  idle hf := by
    have he : none ≠ t := by
      rintro rfl
      rw [Walk.setSlave,hn rfl] at hf
      cases hf
    have hi := h.idle hf
    refine ⟨hm he.symm hi.masked,?_⟩
    simp only [Walk.setSlave,if_neg he]
    exact hi.asleep
  phase := h.phase.moveSlave hs hn hc hc' hl

theorem Inv.running (h : P.Inv D s) (hs : s.master ≠ .stopped)
  (hn : s.slave t ≠ .off) : t ∈ P.threads ∧ (t = none → s.master = .acting) := by
  refine ⟨by_contra fun ho => hn (h.core.away t ho),?_⟩
  rintro rfl
  have hp := h.phase
  cases hm : s.master with
  | acting => rfl
  | stopped => exact absurd hm hs
  | waiting =>
    rw [hm] at hp
    exact absurd hp.1 hn
  | _ => exact absurd (h.idle (by rw [hm]; rfl)).asleep hn

theorem Inv.goto (h : P.Inv D s) (hs : s.master ≠ .stopped) (ha : s.slave t ≠ .off)
  (ho : x.owes P.tree s.entryList = (s.slave t).owes P.tree s.entryList)
  (hi : x.inside = (s.slave t).inside) (hk : P.SlaveOk s.consumeSize s.currentSize x)
  (hl : t = none → x.Last s.consumeSize s.currentSize) : P.Inv D (s.setSlave t x) := by
  obtain ⟨ht,hn⟩ := h.running hs ha
  exact h.moveSlave ht hs hn h.core.changed (by rw [ho]) le_rfl h.core.sizes hk
    (by rw [hi]) subset_rfl (fun _ hm => hm) hl

theorem entryAt_owes (E : Tree) (list : Nat → SyncEntry) (w : SyncEntry) (i : Nat) :
  (Slave.entryAt w i).owes E list = leavesIn E 1 w.page i (w.start+w.len) := by
  rw [Slave.entryAt]
  split
  · rfl
  · rename_i hi
    exact (leavesIn_empty E 1 w.page (Nat.le_of_not_lt hi)).symm

theorem childAt_owes (E : Tree) (list : Nat → SyncEntry) (w : SyncEntry) (i j : Nat) :
  (Slave.childAt w i j).owes E list = leavesIn E 0 (i :: w.page) j pagetableEntries +
    leavesIn E 1 w.page (i+1) (w.start+w.len) := by
  rw [Slave.childAt]
  split
  · rfl
  · rename_i hj
    rw [entryAt_owes,leavesIn_empty E 0 (i :: w.page) (Nat.le_of_not_lt hj),zero_add]

structure Between (P : Setup) (x : Slave) (c n : Nat) : Prop where
  inside : x.inside = 1
  ok : P.SlaveOk c n x
  last : x.Last c n

theorem entryAt_between (hw : w.Ok) (i c n : Nat) : Between P (Slave.entryAt w i) c n := by
  rw [Slave.entryAt]
  split_ifs with hi
  · exact ⟨rfl,⟨hw,hi,trivial⟩,trivial⟩
  · exact ⟨rfl,trivial,trivial⟩

theorem childAt_between (hw : w.Ok) (hi : i < w.start+w.len) (j c n : Nat) : Between P (Slave.childAt w i j) c n := by
  rw [Slave.childAt]
  split_ifs with hj
  · exact ⟨rfl,⟨hw,hi,hj,trivial⟩,trivial⟩
  · exact entryAt_between hw _ c n

theorem Inv.finishEntry (h : P.Inv D s) (hs : s.master ≠ .stopped) (ha : s.slave t ≠ .off)
  (hc : P.change.Changed P.tree (D+L) E) (ho : (s.slave t).owes P.tree s.entryList = L+x.owes P.tree s.entryList)
  (hi : (s.slave t).inside = 1) (hx : Between P x s.consumeSize s.currentSize) :
  P.Inv (D+L) ({s with ept := E}.setSlave t x) := by
  obtain ⟨ht,hn⟩ := h.running hs ha
  exact h.moveSlave ht hs hn hc (by rw [ho]; ac_rfl) le_rfl h.core.sizes hx.ok
    (by rw [hi,hx.inside]) subset_rfl (fun _ hm => hm) fun _ => hx.last

theorem Core.share_step (h : P.Core D R s) (ht : t ∈ P.threads)
  {rest : Multiset Path} (ho : (s.slave t).owes P.tree s.entryList = L+rest) : ∃ R', D+(L+R') ≤ treeLeaves P.tree := by
  obtain ⟨R',hR⟩ := h.share ht
  rw [ho,add_assoc] at hR
  exact ⟨rest+R',hR.le⟩

theorem Inv.slaveEntry (h : P.Inv D s) (ha : s.master ≠ .stopped) (ht : s.slave t = .entry w i v)
  (hs : s.slaveStep P.change P.self t = some s') : ∃ D', P.Inv D' s' := by
  have hn : s.slave t ≠ .off := by simp [ht]
  obtain ⟨hw,hi,hv⟩ : P.SlaveOk s.consumeSize s.currentSize (.entry w i v) := ht ▸ h.core.slaves t
  have ho : (s.slave t).owes P.tree s.entryList = entryLeaves P.tree 1 (i :: w.page) +
      leavesIn P.tree 1 w.page (i+1) (w.start+w.len) := by
    rw [ht]
    exact leavesIn_step P.tree 1 w.page hi
  have hl : 1+w.page.length = walkLength := by rw [add_comm]; exact hw.page
  obtain ⟨R',hR⟩ := h.core.share_step (h.running ha hn).1 ho
  have hc := Visit.step_sound h.core.changed hl hR (fun hb : false = true => nomatch hb) hv
  simp only [Walk.slaveStep,ht] at hs
  split at hs <;> rename_i he <;> rw [he] at hc <;> cases hs
  · exact ⟨D,h.goto ha hn (by rw [ht]; rfl) (by rw [ht]; rfl) ⟨hw,hi,hc⟩ fun _ => trivial⟩
  · obtain ⟨-,hp,hd⟩ := hc
    have hx := childAt_between (P := P) hw hi 0 s.consumeSize s.currentSize
    refine ⟨D,h.goto ha hn ?_ (by rw [ht]; exact hx.inside) hx.ok fun _ => hx.last⟩
    rw [ho,childAt_owes,entryLeaves_table 0 hp hd]
  · exact ⟨_,h.finishEntry ha hn hc (by rw [ho,entryAt_owes]) (by rw [ht]; rfl) (entryAt_between hw _ _ _)⟩

theorem Inv.slaveChild (h : P.Inv D s) (ha : s.master ≠ .stopped) {j : Nat} (ht : s.slave t = .child w i j v)
  (hs : s.slaveStep P.change P.self t = some s') : ∃ D', P.Inv D' s' := by
  have hn : s.slave t ≠ .off := by simp [ht]
  obtain ⟨hw,hi,hj,hv⟩ : P.SlaveOk s.consumeSize s.currentSize (.child w i j v) := ht ▸ h.core.slaves t
  have ho : (s.slave t).owes P.tree s.entryList = entryLeaves P.tree 0 (j :: i :: w.page) +
      (leavesIn P.tree 0 (i :: w.page) (j+1) pagetableEntries +
        leavesIn P.tree 1 w.page (i+1) (w.start+w.len)) := by
    rw [ht,← add_assoc,← leavesIn_step P.tree 0 (i :: w.page) hj]
    rfl
  have hl : 0+(i :: w.page).length = walkLength := by
    rw [zero_add,List.length_cons]
    exact hw.page
  obtain ⟨R',hR⟩ := h.core.share_step (h.running ha hn).1 ho
  have hb := Visit.step_sound h.core.changed hl hR (fun _ => rfl) hv
  simp only [Walk.slaveStep,ht] at hs
  split at hs <;> rename_i he <;> rw [he] at hb <;> cases hs
  · exact ⟨D,h.goto ha hn (by rw [ht]; rfl) (by rw [ht]; rfl) ⟨hw,hi,hj,hb⟩ fun _ => trivial⟩
  · exact ⟨_,h.finishEntry ha hn hb (by rw [ho,childAt_owes]) (by rw [ht]; rfl)
      (childAt_between hw hi _ _ _)⟩

theorem queued_step (h : c < n) : P.queued list c n = (list c).leaves P.tree+P.queued list (c+1) n :=
  sum_eq_sum_Ico_succ_bot h _

theorem Inv.slaveClaim (h : P.Inv D s) (hs : s.master ≠ .stopped) (ht : s.slave t = .claim c) (hc : s.consumeSize = c) :
  P.Inv D ({s with consumeSize := c+1}.setSlave t (.fetch c)) := by
  have ho : s.slave t ≠ .off := by simp [ht]
  have hl : c < s.currentSize := by
    have : P.SlaveOk s.consumeSize s.currentSize (.claim c) := ht ▸ h.core.slaves t
    exact this
  obtain ⟨hh,hn⟩ := h.running hs ho
  refine h.moveSlave hh hs hn h.core.changed ?_ (by omega) hl hl (by rw [ht]; rfl)
    subset_rfl (fun _ hm => hm) fun _ => trivial
  rw [ht,hc,queued_step hl]
  simp only [Slave.owes,zero_add]

theorem Inv.slaveStep (h : P.Inv D s) (ha : s.master ≠ .stopped)
  (hs : s.slaveStep P.change P.self t = some s') : ∃ D', P.Inv D' s' := by
  have hi := h.core.sizes
  have hk := h.core.slaves t
  have hb : s.slave t ≠ .off := by
    intro ho
    simp [Walk.slaveStep,ho] at hs
  obtain ⟨hh,hd⟩ := h.running ha hb
  have hl : t = none → (s.slave t).Last s.consumeSize s.currentSize := by
    intro he
    have := h.phase
    rw [hd he] at this
    exact he ▸ this
  cases ht : s.slave t with
  | off => exact absurd ht hb
  | entry w i v => exact h.slaveEntry ha ht hs
  | child w i j v => exact h.slaveChild ha ht hs
  | readConsume | rereadConsume =>
    simp only [Walk.slaveStep,ht,some.injEq] at hs
    subst hs
    exact ⟨D,h.goto ha hb (by rw [ht]; rfl) (by rw [ht]; rfl) le_rfl fun _ => trivial⟩
  | readCurrent c | rereadCurrent c =>
    simp only [Walk.slaveStep,ht,some.injEq] at hs
    subst hs
    rw [ht] at hk
    exact ⟨D,h.goto ha hb (by rw [ht]; rfl) (by rw [ht]; rfl) ⟨hk,le_rfl⟩ fun _ => rfl⟩
  | enter c n =>
    simp only [Walk.slaveStep,ht,some.injEq] at hs
    subst hs
    rw [ht] at hk hl
    exact ⟨D,h.moveSlave hh ha hd h.core.changed (by rw [ht]; rfl) le_rfl hi hk
      (by rw [ht]; rfl) subset_rfl (fun _ hm => hm) hl⟩
  | loop c n =>
    simp only [Walk.slaveStep,ht,some.injEq] at hs
    rw [ht] at hk hl
    split at hs <;> rename_i hf <;> subst hs
    · exact ⟨D,h.goto ha hb (by rw [ht]; rfl) (by rw [ht]; rfl) (lt_of_lt_of_le hf hk.2)
        fun _ => trivial⟩
    refine ⟨D,h.goto ha hb (by rw [ht]; rfl) (by rw [ht]; rfl) trivial fun he => ?_⟩
    have hn : n = s.currentSize := hl he
    have hc : c ≤ s.consumeSize := hk.1
    exact le_antisymm hi (by omega)
  | claim c =>
    simp only [Walk.slaveStep,ht] at hs
    split at hs <;> rename_i hc <;> cases hs
    · exact ⟨D,h.slaveClaim ha ht hc⟩
    · exact ⟨D,h.goto ha hb (by rw [ht]; rfl) (by rw [ht]; rfl) trivial fun _ => trivial⟩
  | fetch k =>
    simp only [Walk.slaveStep,ht,some.injEq] at hs
    subst hs
    rw [ht] at hk
    have hx := entryAt_between (P := P) (h.core.items k hk) (s.entryList k).start s.consumeSize
      s.currentSize
    refine ⟨D,h.goto ha hb ?_ (by rw [ht]; exact hx.inside) hx.ok fun _ => hx.last⟩
    rw [ht,entryAt_owes]
    rfl
  | leave =>
    simp only [Walk.slaveStep,ht,some.injEq] at hs
    subst hs
    rw [ht] at hl
    refine ⟨D,h.moveSlave hh ha hd h.core.changed (by rw [ht]; rfl) le_rfl hi trivial
      ?_ subset_rfl (fun _ hm => hm) hl⟩
    have hp : (s.slave t).inside ≤ s.slaveCnt := by
      rw [h.core.count]
      exact single_le_sum (fun u _ => zero_le (s.slave u).inside) hh
    rw [ht] at hp ⊢
    exact Nat.sub_add_cancel hp
  | mark =>
    simp only [Walk.slaveStep,ht,some.injEq] at hs
    subst hs
    rw [ht] at hl
    refine ⟨D,h.moveSlave hh ha hd h.core.changed (by rw [ht]; rfl) le_rfl hi trivial
      (by rw [ht]; rfl) subset_rfl (fun hg hm => ?_) hl⟩
    cases t with
    | none => exact absurd rfl hg
    | some cpu => exact insert_subset (some_mem_insertNone.mp hh) hm

theorem owes_congr {list' : Nat → SyncEntry} (ho : P.SlaveOk c n x)
  (hl : ∀ k < n, list' k = list k) : x.owes P.tree list' = x.owes P.tree list := by
  cases x with
  | fetch k => rw [Slave.owes,Slave.owes,hl k ho]
  | _ => rfl

theorem Core.moveMaster (h : P.Core D R s) (hc : P.change.Changed P.tree D' E)
  (hw : D'+(P.queued list s.consumeSize n+R') = D+(P.queued s.entryList s.consumeSize s.currentSize+R))
  (hn : s.currentSize ≤ n) (hl : ∀ k < s.currentSize, list k = s.entryList k) (hi : ∀ k < n, (list k).Ok)
  (hs : S ⊆ P.cpus) :
  P.Core D' R' {s with ept := E,entryList := list,currentSize := n,sent := S} where
  changed := hc
  whole := by
    have ho : P.owed list s.slave P.threads = P.owed s.entryList s.slave P.threads :=
      sum_congr rfl fun t _ => owes_congr (h.slaves t) hl
    rw [ho,← h.whole,add_left_comm,hw,add_left_comm]
  sizes := le_trans h.sizes hn
  items := hi
  slaves t := (h.slaves t).mono le_rfl hn
  count := h.count
  sent := hs
  away := h.away

theorem Core.moveEpt (h : P.Core D R s) (hc : P.change.Changed P.tree (D+L) E) (hR : R = L+R') :
  P.Core (D+L) R' {s with ept := E} :=
  h.moveMaster hc (by rw [hR]; ac_rfl) le_rfl (fun _ _ => rfl) h.items h.sent

theorem Core.advance (h : P.Core D (pageTodo P.tree page i) s)
  (hd : P.Idle s) (hl : page.length < walkLength) : P.Inv D (s.advance page i) := by
  unfold Walk.advance
  split_ifs with hi
  · exact ⟨h.setMaster _,fun _ => ⟨hd.masked,hd.asleep⟩,hi,hl,fun _ => trivial⟩
  have ht : pageTodo P.tree page i = above P.tree page := by
    rw [pageTodo,leavesIn_empty _ _ _ (Nat.le_of_not_lt hi),zero_add]
  rw [ht] at h
  cases page with
  | nil =>
    have hc := (h.setMaster .acting).moveSlave (none_mem_insertNone (s := P.cpus)) h.changed
      (x := .readConsume) (by simp only [hd.asleep]; rfl) le_rfl h.sizes trivial
      (by simp only [hd.asleep]; rfl) subset_rfl
    exact ⟨hc,fun hf => (nomatch hf),trivial⟩
  | cons j parent => exact ⟨h.setMaster _,fun _ => ⟨hd.masked,hd.asleep⟩,hl⟩

theorem pageTodo_step (E : Tree) (page : Path) (hi : i < pagetableEntries) : pageTodo E page i =
    entryLeaves E (walkLength-page.length) (i :: page)+pageTodo E page (i+1) := by
  rw [pageTodo,leavesIn_step E _ page hi,add_assoc]
  rfl

theorem pageTodo_down (hi : i < pagetableEntries) (hl : page.length < walkLength) (hp : (E (i :: page)).present = true)
  (hs : (E (i :: page)).sp = false) : pageTodo E page i = pageTodo E (i :: page) 0 := by
  obtain ⟨k,hk⟩ : ∃ k, walkLength-page.length = k+1 := ⟨walkLength-page.length-1,by omega⟩
  have hk' : walkLength-(i :: page).length = k := by
    rw [List.length_cons]
    omega
  have hb : pageTodo E (i :: page) 0 = leavesIn E k (i :: page) 0 pagetableEntries+pageTodo E page (i+1) := by
    rw [pageTodo,hk']
    rfl
  rw [pageTodo_step E page hi,hk,entryLeaves_table k hp hs,hb]

theorem pageTodo_batch (hi : i < pagetableEntries) (he : page.length+1 = walkLength) :
  (SyncEntry.mk page i (batchLength i)).Ok ∧ pageTodo E page i =
    (SyncEntry.mk page i (batchLength i)).leaves E+pageTodo E page (i+batchLength i) := by
  have hb : i+batchLength i ≤ pagetableEntries := by
    rw [batchLength]
    split <;> omega
  have hl : walkLength-page.length = 1 := by omega
  refine ⟨⟨he,hb⟩,?_⟩
  rw [pageTodo,hl,leavesIn_split E 1 page (le_add_right i (batchLength i)) hb,add_assoc,pageTodo,hl]
  rfl

theorem Core.rest (h : P.Core D R s) (hR : R = L+R') : ∃ rest, D+(L+rest) ≤ treeLeaves P.tree := by
  have hw := h.whole
  refine ⟨P.owed s.entryList s.slave P.threads+(P.queued s.entryList s.consumeSize s.currentSize+R'),le_of_eq ?_⟩
  rw [← hw,hR]
  ac_rfl

variable (h : P.Inv D s)
include h

theorem Inv.dispatch (hm : s.master = m) (hb : m.final = false) :
  P.Idle s ∧ P.Core D (m.todo P.tree) s ∧ P.Phase s m := by
  subst hm
  exact ⟨h.idle hb,h.core,h.phase⟩

theorem Inv.masterVisit (hm : s.master = .visit page i v) (hs : s.masterStep P.change = some s') :
  ∃ D', P.Inv D' s' := by
  obtain ⟨hd,hc,hi,hl,hv⟩ := h.dispatch hm rfl
  rw [Master.todo] at hc
  have ht := pageTodo_step P.tree page hi
  have hk : walkLength-page.length+page.length = walkLength := Nat.sub_add_cancel hl.le
  obtain ⟨rest,hr⟩ := hc.rest ht
  simp only [Walk.masterStep,hm] at hs
  split at hs
  · rename_i hu
    have ho := Visit.step_sound hc.changed hk hr (fun hb : false = true => nomatch hb) (hv hu)
    split at hs <;> rename_i ha <;> rw [ha] at ho <;> cases hs
    · exact ⟨D,hc.setMaster _,fun _ => ⟨hd.masked,hd.asleep⟩,hi,hl,fun _ => ho⟩
    · rw [pageTodo_down hi hl ho.2.1 ho.2.2] at hc
      exact ⟨D,hc.advance hd hu⟩
    · exact ⟨_,(hc.moveEpt ho ht).advance ⟨hd.masked,hd.asleep⟩ hl⟩
  rename_i he
  split at hs <;> rename_i hp <;> cases hs
  · exact ⟨D,hc.setMaster _,fun _ => ⟨hd.masked,hd.asleep⟩,hi,by omega⟩
  rw [hc.changed.read hk hr] at hp
  rw [ht,entryLeaves_absent _ (by simpa using hp),zero_add] at hc
  exact ⟨D,hc.advance hd hl⟩

theorem Inv.masterPublish (hm : s.master = .publish page i) :
  P.Inv D ({s with currentSize := s.currentSize+1}.advance page (i+batchLength i)) := by
  obtain ⟨hd,hc,hi,hl,ht⟩ := h.dispatch hm rfl
  obtain ⟨ho,hb⟩ := pageTodo_batch (E := P.tree) hi hl
  rw [Master.todo] at hc
  refine Core.advance ?_ ⟨hd.masked,hd.asleep⟩ (by omega)
  refine hc.moveMaster hc.changed ?_ (le_succ _) (fun _ _ => rfl) (fun k hk => ?_)
    hc.sent
  · rw [hb,queued,sum_Ico_succ_top hc.sizes,ht,queued,add_assoc]
  rcases Nat.lt_succ_iff_lt_or_eq.mp hk with hk | rfl
  · exact hc.items k hk
  · rw [ht]
    exact ho

theorem Inv.masterWrite {index : Nat} (hm : s.master = .write page i index) : P.Inv D {s with
    entryList := fun k => if k = index then ⟨page,i,batchLength i⟩ else s.entryList k
    master := .publish page i} := by
  obtain ⟨hd,hc,hi,he,rfl⟩ := h.dispatch hm rfl
  have hl (k : Nat) (hk : k < s.currentSize) :
      (if k = s.currentSize then ⟨page,i,batchLength i⟩ else s.entryList k) = s.entryList k :=
    if_neg (Nat.ne_of_lt hk)
  have hq : P.queued
      (fun k => if k = s.currentSize then ⟨page,i,batchLength i⟩ else s.entryList k)
      s.consumeSize s.currentSize = P.queued s.entryList s.consumeSize s.currentSize :=
    sum_congr rfl fun k hk => congrArg (SyncEntry.leaves P.tree) (hl k (mem_Ico.mp hk).2)
  have ht (k : Nat) (hk : k < s.currentSize) :
      (if k = s.currentSize then ⟨page,i,batchLength i⟩ else s.entryList k).Ok := by
    rw [hl k hk]
    exact hc.items k hk
  have ho' := hc.moveMaster hc.changed (by rw [hq]) le_rfl hl ht hc.sent
  exact ⟨ho'.setMaster _,fun _ => ⟨hd.masked,hd.asleep⟩,hi,he,if_pos rfl⟩

theorem Inv.gotoMaster {m' : Master} (hm : s.master = m) (hb : m.final = false)
  (ht : m.todo P.tree = m'.todo P.tree) (hp : P.Phase s m') : P.Inv D {s with master := m'} := by
  obtain ⟨hi,hc,-⟩ := h.dispatch hm hb
  rw [ht] at hc
  refine ⟨hc.setMaster m',fun _ => ⟨hi.masked,hi.asleep⟩,?_⟩
  cases m' <;> exact hp

theorem Inv.nextEntry (hm : s.master = m) (hb : m.final = false) (ht : m.todo P.tree = pageTodo P.tree page i)
  (hl : page.length+1 < walkLength) : P.Inv D (s.advance page i) := by
  obtain ⟨hi,hc,-⟩ := h.dispatch hm hb
  exact Core.advance (ht ▸ hc) hi (lt_of_succ_lt hl)

theorem Inv.masterClear (hm : s.master = .triggerClear page i target) :
  P.Inv D {s with slaveCpumask := ∅,master := .triggerSend page i target} := by
  obtain ⟨hi,hc,hp⟩ := h.dispatch hm rfl
  exact ⟨(hc.setMask ∅).setMaster _,fun _ => ⟨empty_subset _,hi.asleep⟩,hp⟩

theorem Inv.masterSend (hm : s.master = .triggerSend page i target) :
  P.Inv D ({s with sent := s.sent ∪ target}.advance page (i+1)) := by
  obtain ⟨hi,hc,hl,ht⟩ := h.dispatch hm rfl
  refine Core.advance ?_ ⟨hi.masked,hi.asleep⟩ (lt_of_succ_lt hl)
  exact hc.moveMaster hc.changed rfl le_rfl (fun _ _ => rfl) hc.items
    (union_subset hc.sent ht)

theorem Inv.masterReturn (hm : s.master = .acting) (ho : s.slave none = .off) :
  P.Inv D {s with master := .waiting} := by
  obtain ⟨hc,-,hp⟩ := h
  rw [hm] at hc hp
  simp only [Phase,ho] at hp
  exact ⟨hc.setMaster _,fun hf => (nomatch hf),ho,hp⟩

theorem Inv.masterStop (hm : s.master = .waiting) (hz : s.slaveCnt = 0) : P.Inv D {s with master := .stopped} := by
  obtain ⟨hc,-,hp⟩ := h
  rw [hm] at hc hp
  exact ⟨hc.setMaster _,fun hf => (nomatch hf),hp.2,hz⟩

theorem Inv.masterStep (hs : s.masterStep P.change = some s') : ∃ D', P.Inv D' s' := by
  have hp := h.phase
  unfold Walk.masterStep at hs
  split at hs <;> rename_i hm <;> rw [hm] at hp
  next page i v => exact h.masterVisit hm (by unfold Walk.masterStep; rw [hm]; exact hs)
  next page i =>
    cases hs
    exact ⟨D,h.gotoMaster hm rfl rfl ⟨hp.1,hp.2,rfl⟩⟩
  next page i index =>
    cases hs
    exact ⟨D,h.masterWrite hm⟩
  next page i =>
    cases hs
    exact ⟨D,h.masterPublish hm⟩
  next page i =>
    split at hs <;> cases hs
    · exact ⟨D,h.nextEntry hm rfl rfl hp⟩
    · exact ⟨D,h.gotoMaster hm rfl rfl hp⟩
  next page i =>
    cases hs
    exact ⟨D,h.gotoMaster hm rfl rfl hp⟩
  next page i consume =>
    split at hs <;> cases hs
    · exact ⟨D,h.gotoMaster hm rfl rfl hp⟩
    · exact ⟨D,h.nextEntry hm rfl rfl hp⟩
  next page i =>
    cases hs
    exact ⟨D,h.gotoMaster hm rfl rfl ⟨hp,(h.dispatch hm rfl).1.masked⟩⟩
  next page i target =>
    cases hs
    exact ⟨D,h.masterClear hm⟩
  next page i target =>
    cases hs
    exact ⟨D,h.masterSend hm⟩
  · split at hs <;> cases hs
    rename_i ho
    exact ⟨D,h.masterReturn hm ho⟩
  · split at hs <;> cases hs
    · rename_i hz
      exact ⟨D,h.masterStop hm hz⟩
    · exact ⟨D,h⟩
  · cases hs

theorem Inv.begin (hs : s.master ≠ .stopped) {cpu : Nat} (ho : s.slave (some cpu) = .off) (hse : cpu ∈ s.sent) :
  P.Inv D ({s with sent := s.sent.erase cpu}.setSlave (some cpu) .readConsume) :=
  h.moveSlave (some_mem_insertNone.mpr (h.core.sent hse)) hs (fun he => nomatch he)
    h.core.changed (by rw [ho]; rfl) le_rfl h.core.sizes trivial (by rw [ho]; rfl)
    (erase_subset cpu s.sent) (fun _ hm => hm) fun he => nomatch he

theorem Inv.step {a : Action} (hs : s.step P.change P.self a = some s') : ∃ D', P.Inv D' s' := by
  unfold Walk.step at hs
  split at hs
  · cases hs
  rename_i ht
  cases a with
  | master => exact h.masterStep hs
  | begin cpu =>
    simp only at hs
    split at hs
    · rename_i ho
      split at hs <;> cases hs
      rename_i he
      exact ⟨D,h.begin ht ho he⟩
    · cases hs
  | slave t => exact h.slaveStep ht hs

omit h

theorem inv_start (P : Setup) (list : Nat → SyncEntry) : P.Inv 0 (Walk.start P.cpus P.tree list) where
  core :=
    { changed := Change.changed_nil
      whole := by
        have ho : P.owed list (fun _ => Slave.off) P.threads = 0 := sum_const_zero
        have hq : P.queued list 0 0 = 0 := rfl
        simp only [Walk.start]
        rw [ho,hq,zero_add,zero_add,zero_add]
        exact add_zero _
      sizes := le_rfl
      items := fun k hk => absurd hk (not_lt_zero k)
      slaves := fun _ => trivial
      count := sum_const_zero.symm
      sent := empty_subset _
      away := fun _ _ => rfl}
  idle _ := ⟨subset_rfl,rfl⟩
  phase := ⟨by decide,by decide,fun _ => trivial⟩

theorem owes_outside (h : x.inside = 0) : x.owes E list = 0 := by cases x <;> first | rfl | cases h

theorem Inv.finished (h : P.Inv D s) (hs : s.master = .stopped) : D = treeLeaves P.tree := by
  obtain ⟨hi,hz⟩ : P.Phase s .stopped := hs ▸ h.phase
  have hc := h.core.count
  have hu : ∀ t ∈ P.threads, (s.slave t).inside = 0 := sum_eq_zero_iff.mp (hc.symm.trans hz)
  have ho : P.owed s.entryList s.slave P.threads = 0 := sum_eq_zero fun t ht => owes_outside (hu t ht)
  have hq : P.queued s.entryList s.consumeSize s.currentSize = 0 := by rw [hi,queued,Ico_self,sum_empty]
  have hw := h.core.whole
  rw [ho,hq,hs,zero_add,zero_add] at hw
  exact (add_zero D).symm.trans hw

theorem reach_inv (h : Reach (Walk.step P.change P.self) (fun _ _ => True) (Walk.start P.cpus P.tree list) s) :
  ∃ D, P.Inv D s :=
  reach_invariant (I := fun s => ∃ D, P.Inv D s) ⟨0,inv_start P list⟩
    (fun _ _ _ _ ⟨_,hi⟩ _ hs => hi.step hs) h

end Setup

namespace Walk

abbrev Runs (C : Change) (self : Nat) : Walk → Walk → Prop := Reach (Walk.step C self) (fun _ _ => True)

variable {C : Change} {self : Nat} {s : Walk}

theorem runs_of_actions {s s' : Walk} (as : List Action)
  (h : runIf (Walk.step C self) (fun _ _ => true) s as = some s') : Runs C self s s' :=
  reach_of_runIf (fun _ _ _ => trivial) h

variable {i : Nat}

variable {page : Path} {w : SyncEntry} {t : Option Nat}

theorem skip_entry (hi : i < pagetableEntries) (ha : (s.ept (i :: page)).present = false) :
  Runs C self (s.advance page i) (s.advance page (i+1)) := by
  have hs : Walk.step C self (s.advance page i) .master = some (s.advance page (i+1)) := by
    rw [advance.eq_def,if_pos hi]
    simp only [step,masterStep,Visit.step,ha]
    have hb (m : Master) : {s with master := m}.advance page (i+1) = s.advance page (i+1) := by
      unfold advance
      rfl
    simp [hb]
  exact .single ⟨.master,trivial,hs⟩

theorem skip_entries (hi : i ≤ pagetableEntries) (ha : ∀ j, i ≤ j → (s.ept (j :: page)).present = false) :
  Runs C self (s.advance page i) (s.advance page pagetableEntries) := by
  induction hi using Nat.decreasingInduction with
  | self => exact .refl
  | of_succ k hk ih => exact (skip_entry hk (ha k le_rfl)).trans (ih fun j hj => ha j (le_of_succ_le hj))

theorem setSlave_setSlave (t : Option Nat) (x y : Slave) : (s.setSlave t x).setSlave t y = s.setSlave t y := by
  simp only [setSlave,Walk.mk.injEq,true_and]
  funext u
  split <;> rfl

theorem pass_entry (hr : s.master = .acting) (hi : i < w.start+w.len) (ha : (s.ept (i :: w.page)).present = false) :
  Runs C self (s.setSlave t (.entryAt w i)) (s.setSlave t (.entryAt w (i+1))) := by
  have hs : (s.setSlave t (.entry w i .test)).slave t = .entry w i .test := if_pos rfl
  have ha' : ((s.setSlave t (.entry w i .test)).ept (i :: w.page)).present = false := ha
  have hr' : (s.setSlave t (.entry w i .test)).master = .acting := hr
  have ht : Walk.step C self (s.setSlave t (.entryAt w i)) (.slave t) =
      some (s.setSlave t (.entryAt w (i+1))) := by
    rw [Slave.entryAt,if_pos hi,step,hr']
    simp only [slaveStep,hs,Visit.step,ha']
    exact congrArg some (setSlave_setSlave (s := s) t _ _)
  exact .single ⟨.slave t,trivial,ht⟩

theorem pass_entries (hr : s.master = .acting) (hi : i ≤ w.start+w.len)
  (ha : ∀ j, i ≤ j → (s.ept (j :: w.page)).present = false) :
  Runs C self (s.setSlave t (.entryAt w i)) (s.setSlave t (.entryAt w (w.start+w.len))) := by
  induction hi using Nat.decreasingInduction with
  | self => exact .refl
  | of_succ k hk ih =>
    exact (pass_entry hr hk (ha k le_rfl)).trans
      (ih fun j hj => ha j (le_of_succ_le hj))

end Walk

def oneSuperpage : Tree := fun q =>
  if q = [0] ∨ q = [0,0] then {Entry.zero with r := true,w := true,x := true}
  else if q = [0,0,0] then
    {Entry.zero with r := true,w := true,x := true,sp := true,mfn := 512,saP2mt := .ramRw,access := .rwx}
  else Entry.zero

theorem oneSuperpage_absent {page : Path} {j : Nat} (hj : j ≠ 0) : (oneSuperpage (j :: page)).present = false := by
  simp [oneSuperpage,hj,Entry.present,Entry.zero]

def logDirtyOn : Change := ⟨fun _ => false,.ramRw,.ramLogdirty⟩

theorem oneSuperpage_dispatch (list : Nat → SyncEntry) : Walk.Runs logDirtyOn 0 (Walk.start ∅ oneSuperpage list)
    ({Walk.start ∅ oneSuperpage (fun k => if k = 0 then ⟨[0,0],0,64⟩ else list k) with
      currentSize := 1,master := .acting}.setSlave none .readConsume) := by
  let s : Walk := {Walk.start ∅ oneSuperpage (fun k => if k = 0 then ⟨[0,0],0,64⟩ else list k) with
    currentSize := 1}
  have ha (page : Path) (i : Nat) (hi : 1 ≤ i) (j : Nat) (hj : i ≤ j) :
      (s.ept (j :: page)).present = false := oneSuperpage_absent (by omega)
  have ht : Walk.Runs logDirtyOn 0 (Walk.start ∅ oneSuperpage list) (s.advance [0,0] 64) :=
    Walk.runs_of_actions (List.replicate 8 .master) rfl
  have hl : Walk.Runs logDirtyOn 0 (s.advance [0,0] pagetableEntries) (s.advance [0] 1) :=
    Walk.runs_of_actions [.master] rfl
  have hm : Walk.Runs logDirtyOn 0 (s.advance [0] pagetableEntries) (s.advance [] 1) :=
    Walk.runs_of_actions [.master] rfl
  exact ht.trans <| (Walk.skip_entries (by decide) (ha [0,0] 64 (by decide))).trans <|
    hl.trans <| (Walk.skip_entries (by decide) (ha [0] 1 le_rfl)).trans <|
    hm.trans <| Walk.skip_entries (by decide) (ha [] 1 le_rfl)

theorem parallel_change_is_sequential (C : Change) (cpus : Finset Nat) (self : Nat) (E0 : Tree)
  (list : Nat → SyncEntry) (s : Walk) (hreach : Reach (Walk.step C self) (fun _ _ => True) (Walk.start cpus E0 list) s)
  (hstop : s.master = .stopped) : s.ept = C.changeEntryTypePage walkLength [] E0 ∧
    (∀ q, PresentLeaf E0 q → (E0 q).saP2mt = C.ot → s.ept q = C.newEntry (E0 q)) ∧
    ∀ q, ¬(PresentLeaf E0 q ∧ (E0 q).saP2mt = C.ot) → s.ept q = E0 q := by
  obtain ⟨D,hi⟩ := Setup.reach_inv (P := ⟨C,E0,cpus,self⟩) hreach
  have hc : C.Changed E0 (treeLeaves E0) s.ept := hi.finished hstop ▸ hi.core.changed
  refine ⟨hc.unique Change.sequential_changed,fun q hl ht => ?_,fun q hn => ?_⟩
  · rw [(hc q).1 (mem_treeLeaves.mpr hl),Change.retype,if_neg (not_not.mpr ht)]
  by_cases hq : q ∈ treeLeaves E0
  · have he : (E0 q).saP2mt ≠ C.ot := fun ht => hn ⟨mem_treeLeaves.mp hq,ht⟩
    rw [(hc q).1 hq,Change.retype,if_pos he]
  · exact (hc q).2 hq

theorem superpage_is_retyped : ∃ s : Walk, s.master = .stopped ∧
    s.ept = logDirtyOn.changeEntryTypePage walkLength [] oneSuperpage ∧
    (s.ept [0,0,0]).saP2mt = .ramLogdirty ∧ (s.ept [0,0,0]).w = false := by
  let list : Nat → SyncEntry := fun _ => ⟨[],0,0⟩
  let s : Walk := {Walk.start ∅ (oneSuperpage.write [0,0,0] (logDirtyOn.newEntry (oneSuperpage [0,0,0])))
      (fun k => if k = 0 then ⟨[0,0],0,64⟩ else list k) with
    consumeSize := 1,currentSize := 1,slaveCnt := 1,master := .acting}
  have hc : Walk.Runs logDirtyOn 0
      ({Walk.start ∅ oneSuperpage (fun k => if k = 0 then ⟨[0,0],0,64⟩ else list k) with
        currentSize := 1,master := .acting}.setSlave none .readConsume)
      (s.setSlave none (.entryAt ⟨[0,0],0,64⟩ 1)) := by
    refine Walk.runs_of_actions (List.replicate 10 (.slave none)) ?_
    refine congrArg some (Walk.mk.injEq .. ▸ ⟨rfl,rfl,rfl,rfl,rfl,rfl,rfl,rfl,funext fun u => ?_⟩)
    cases u <;> rfl
  have hp : Walk.Runs logDirtyOn 0 (s.setSlave none (.entryAt ⟨[0,0],0,64⟩ 1))
      (s.setSlave none (.entryAt ⟨[0,0],0,64⟩ 64)) :=
    Walk.pass_entries rfl (by decide) fun j hj => by
      have hold : s.ept (j :: [0,0]) = oneSuperpage (j :: [0,0]) :=
        Tree.write_ne _ _ fun hq => absurd (List.cons.inj hq).1 (by omega)
      rw [hold]
      exact oneSuperpage_absent (by omega)
  obtain ⟨s',hn,hs⟩ : ∃ s', runIf (Walk.step logDirtyOn 0) (fun _ _ => true)
      (s.setSlave none (.entryAt ⟨[0,0],0,64⟩ 64))
      (List.replicate 5 (Action.slave none) ++ [Action.master,Action.master]) = some s' ∧ s'.master = .stopped :=
    ⟨_,rfl,rfl⟩
  have hr := (oneSuperpage_dispatch list).trans <| hc.trans <| hp.trans <|
    Walk.runs_of_actions _ hn
  obtain ⟨ht,hl,-⟩ := parallel_change_is_sequential logDirtyOn ∅ 0 oneSuperpage list s' hr
    hs
  have he : PresentLeaf oneSuperpage [0,0,0] := by
    simp [PresentLeaf,Mapped,isTable,oneSuperpage,pagetableEntries,walkLength,Entry.present,Entry.zero]
  refine ⟨s',hs,ht,?_⟩
  rw [hl [0,0,0] he rfl]
  exact ⟨rfl,rfl⟩

end Ept
