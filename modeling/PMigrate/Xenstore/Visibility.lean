import PMigrate.Xenstore.WellFormed

namespace Xenstore

open Nat Option

section
variable {db : Db} {conn : Conn} {name : Name} {fuel i : Nat} {node : Node}

structure Nearest (db : Db) (name : Name) (i : Nat) (node : Node) : Prop where
  missing : ∀ j < i, db.lookup (getParent^[j+1] name) = none
  present : db.lookup (getParent^[i+1] name) = some node

theorem Nearest.climb (h : Nearest db (getParent name) i node) (hp : db.lookup (getParent name) = none) :
  Nearest db name (i+1) node where
  missing := fun j hj => by
    cases j with
    | zero => exact hp
    | succ j => exact h.missing j (lt_of_succ_lt_succ hj)
  present := h.present

theorem askParents_nearest (hr : root ∈ db) (hv : Valid name) (hf : name.length ≤ fuel) :
  ∃ i node, i < fuel ∧ Nearest db name i node := by
  induction fuel generalizing name with
  | zero =>
    have hl := hv.rooted.length_le
    rw [List.length_singleton] at hl
    omega
  | succ fuel ih =>
    cases hp : db.lookup (getParent name) with
    | some node => exact ⟨0,node,fuel.succ_pos,fun j hj => absurd hj (not_lt_zero j),hp⟩
    | none =>
      have he : name ≠ root := by
        rintro rfl
        exact AList.lookup_eq_none.mp hp hr
      have ht := hv.parent_shorter he
      obtain ⟨i,node,hi,hn⟩ := ih hv.parent (by omega)
      exact ⟨i+1,node,succ_lt_succ hi,hn.climb hp⟩

theorem Nearest.askParents (h : Nearest db name i node) (hi : i < fuel) :
  askParents db conn fuel name = permForConn conn node.perms := by
  induction i generalizing name fuel with
  | zero =>
    obtain ⟨m,rfl⟩ : ∃ m, fuel = m+1 := ⟨fuel-1,by omega⟩
    have hp : db.lookup (getParent name) = some node := h.present
    rw [Xenstore.askParents,hp]
  | succ i ih =>
    obtain ⟨m,rfl⟩ : ∃ m, fuel = m+1 := ⟨fuel-1,by omega⟩
    have hp : db.lookup (getParent name) = none := h.missing 0 i.succ_pos
    rw [Xenstore.askParents,hp]
    exact ih ⟨fun j hj => h.missing (j+1) (succ_lt_succ hj),h.present⟩ (lt_of_succ_lt_succ hi)

end

section
variable {db : Db} {name : Name}

theorem Tree.mem_parent (h : Tree db) (hn : name ∈ db) : getParent name ∈ db := by
  by_cases hr : name = root
  · rw [hr,getParent_root]
    exact h.rooted
  obtain ⟨node,ho⟩ := isSome_iff_exists.mp (AList.lookup_isSome.mpr hn)
  obtain ⟨p,hp,-⟩ := h.parent name node ho hr
  exact AList.lookup_isSome.mp (hp ▸ rfl)

theorem Tree.mem_ancestor (h : Tree db) (hn : name ∈ db) {i : Nat} : getParent^[i] name ∈ db := by
  induction i generalizing name with
  | zero => exact hn
  | succ i ih => exact ih (h.mem_parent hn)

end

def readable (conn : Conn) (node : Node) : Bool := (permForConn conn node.perms).read

def SameView (conn : Conn) (db1 db2 : Db) : Prop :=
  ∀ n node, readable conn node → (db1.lookup n = some node ↔ db2.lookup n = some node)

section
variable {conn : Conn} {db db1 db2 : Db} {name : Name}

theorem SameView.symm (h : SameView conn db1 db2) : SameView conn db2 db1 :=
  fun n node hr => (h n node hr).symm

variable {node : Node} {i : Nat}

theorem SameView.nearest (h : SameView conn db1 db2) (h1 : Tree db1) (h2 : Tree db2) (hv : Valid name)
  (hn : db1.lookup name = none) (ha : Nearest db1 name i node) (hr : readable conn node) :
  db2.lookup name = none ∧ Nearest db2 name i node := by
  have hm : ∀ j ≤ i, getParent^[j] name ∉ db1 := by
    intro j hj
    cases j with
    | zero => exact AList.lookup_eq_none.mp hn
    | succ j => exact AList.lookup_eq_none.mp (ha.missing j hj)
  have hf : getParent (getParent^[i] name) = getParent^[i+1] name :=
    (Function.iterate_succ_apply' getParent i name).symm
  have hi : Valid (getParent^[i] name) := hv.ancestor
  have hk : getParent^[i] name ≠ root := fun he => hm i le_rfl (he ▸ h1.rooted)
  have ho := (h _ node hr).mp ha.present
  have hg : getParent^[i] name ∉ db2 := by
    intro hd
    obtain ⟨x,hx⟩ := isSome_iff_exists.mp (AList.lookup_isSome.mpr hd)
    obtain ⟨p,hp,hc⟩ := h2.parent _ x hx hk
    rw [hf,ho] at hp
    have hq : basename (getParent^[i] name) ∈ PackedStrings.unpack nul node.children := by
      rw [some.inj hp]
      exact List.one_le_count_iff.mp hc.ge
    have hl := h1.listed _ node ha.present _ hq
    rw [← hf,hi.join_parent hk] at hl
    exact hm i le_rfl hl
  have hb : ∀ j ≤ i, getParent^[j] name ∉ db2 := by
    intro j hj hd
    have hu := @Tree.mem_ancestor db2 _ h2 hd (i-j)
    rw [← Function.iterate_add_apply,Nat.sub_add_cancel hj] at hu
    exact hg hu
  exact ⟨AList.lookup_eq_none.mpr (hb 0 (zero_le i)),fun j hj => AList.lookup_eq_none.mpr (hb (j+1) hj),ho⟩

theorem covers_permRead (r : Rights) : r.covers permRead = r.read := by simp [Rights.covers,permRead]

theorem meets_permRead (r : Rights) : r.meets permRead = r.read := by simp [Rights.meets,permRead]

theorem getNode_readable (hv : Valid name) (hn : db.lookup name = some node)
  (hr : readable conn node) : getNode db conn (some name) permRead = .ok (name,node) := by
  rw [getNode,if_pos (isValidNodename_iff.mpr hv),hn]
  dsimp only
  rw [covers_permRead]
  exact if_pos hr

theorem getNode_missing_of_nearest (hv : Valid name) (hn : db.lookup name = none)
  (he : Nearest db name i node) (hi : i < name.length) :
  getNode db conn (some name) permRead = .error (if readable conn node then .ENOENT else .EACCES) := by
  rw [getNode,if_pos (isValidNodename_iff.mpr hv),hn]
  dsimp only
  rw [errnoFromParents,he.askParents hi,meets_permRead]
  rfl

theorem getNode_unreadable (hv : Valid name) (hn : db.lookup name = some node)
  (hr : ¬readable conn node) : getNode db conn (some name) permRead = .error .EACCES := by
  rw [getNode,if_pos (isValidNodename_iff.mpr hv),hn]
  dsimp only
  rw [covers_permRead,errnoFromParents_EACCES]
  exact if_neg hr

theorem getNode_hidden (ho : root ∈ db) (hv : Valid name)
  (hh : ∀ node, db.lookup name = some node → ¬readable conn node) :
  getNode db conn (some name) permRead = .error .EACCES ∨
    ∃ i node, i < name.length ∧ db.lookup name = none ∧ Nearest db name i node ∧ readable conn node ∧
      getNode db conn (some name) permRead = .error .ENOENT := by
  cases hn : db.lookup name with
  | some node => exact .inl (getNode_unreadable hv hn (hh node hn))
  | none =>
    obtain ⟨i,node,hi,he⟩ := askParents_nearest ho hv le_rfl
    have hg := @getNode_missing_of_nearest conn db name node i hv hn he hi
    by_cases hr : readable conn node
    · exact .inr ⟨i,node,hi,rfl,he,hr,by rw [hg,if_pos hr]⟩
    · exact .inl (by rw [hg,if_neg hr])

theorem SameView.missing (h : SameView conn db1 db2) (h1 : Tree db1) (h2 : Tree db2) (hv : Valid name)
  (hi : i < name.length) (hn : db1.lookup name = none) (he : Nearest db1 name i node)
  (hr : readable conn node) : getNode db2 conn (some name) permRead = .error .ENOENT := by
  obtain ⟨hn2,he2⟩ := h.nearest h1 h2 hv hn he hr
  rw [getNode_missing_of_nearest hv hn2 he2 hi,if_pos hr]

theorem SameView.getNode_eq (h : SameView conn db1 db2) (h1 : Tree db1) (h2 : Tree db2) (arg : Option Name) :
  getNode db1 conn arg permRead = getNode db2 conn arg permRead := by
  cases arg with
  | none => rfl
  | some name =>
    by_cases ha : isValidNodename name
    · have hv := isValidNodename_iff.mp ha
      by_cases hc : ∃ node, db1.lookup name = some node ∧ readable conn node
      · obtain ⟨node,hn,hr⟩ := hc
        rw [getNode_readable hv hn hr,getNode_readable hv ((h name node hr).mp hn) hr]
      have hh1 : ∀ node, db1.lookup name = some node → ¬readable conn node :=
        fun node hn hr => hc ⟨node,hn,hr⟩
      have hh2 : ∀ node, db2.lookup name = some node → ¬readable conn node :=
        fun node hn hr => hh1 node ((h name node hr).mpr hn) hr
      rcases getNode_hidden h1.rooted hv hh1 with ha1 | ⟨i,node,hi,hn,hb,hr,he⟩
      · rcases getNode_hidden h2.rooted hv hh2 with ha2 | ⟨i,node,hi,hn,hb,hr,-⟩
        · rw [ha1,ha2]
        · rw [h.symm.missing h2 h1 hv hi hn hb hr] at ha1
          cases ha1
      · rw [he,h.missing h1 h2 hv hi hn hb hr]
    · rw [getNode,getNode,if_neg ha,if_neg ha]

theorem unreadable_nodes_invisible {cfg : Config} {w1 w2 : Work} (h1 : Tree w1.db) (h2 : Tree w2.db)
  (h : SameView conn w1.db w2.db) (payload : List Char) :
  (process cfg conn (.read payload) w1).reply = (process cfg conn (.read payload) w2).reply ∧
  (process cfg conn (.directory payload) w1).reply = (process cfg conn (.directory payload) w2).reply ∧
  (process cfg conn (.getPerms payload) w1).reply = (process cfg conn (.getPerms payload) w2).reply := by
  have hg := h.getNode_eq h1 h2 ((onearg payload).map (canonicalize conn))
  simp only [process,doRead,sendDirectory,doGetPerms,hg]
  exact ⟨trivial,trivial,trivial⟩

end

theorem sameView_of_entries {conn : Conn} {db1 db2 : Db} (h1 : ∀ e ∈ db1.entries, readable conn e.2 → e ∈ db2.entries)
  (h2 : ∀ e ∈ db2.entries, readable conn e.2 → e ∈ db1.entries) : SameView conn db1 db2 := by
  intro n node hr
  constructor
  · exact fun h => AList.mem_lookup_iff.mpr (h1 ⟨n,node⟩ (AList.mem_lookup_iff.mp h) hr)
  · exact fun h => AList.mem_lookup_iff.mpr (h2 ⟨n,node⟩ (AList.mem_lookup_iff.mp h) hr)

def homeWork : Work := {db := homeState.db,nbentry := homeState.nbentry,delta := none,corrupt := false}

def secretWork : Work :=
  (process defaultConfig ((Peer.socket 0 true).conn homeState.target) (.write (text "/tool/secret" ++ "x".toList))
    homeWork).work

theorem secret_invisible : homeWork.db.entries.length < secretWork.db.entries.length ∧
  (process defaultConfig ((Peer.domain 1).conn homeState.target) (.read (text "/tool/secret")) homeWork).reply =
    .error .EACCES ∧
  (process defaultConfig ((Peer.domain 1).conn homeState.target) (.read (text "/tool/secret")) homeWork).reply =
    (process defaultConfig ((Peer.domain 1).conn homeState.target) (.read (text "/tool/secret")) secretWork).reply := by
  have hr : Transition.runIf (step defaultConfig) (fun _ _ => true) .boot homeRequests = some homeState :=
    (some_get _).symm
  have hh := (boot_tended.reach (Transition.reach_of_runIf (fun _ _ _ => trivial) hr)).store
  have hk : Keeps homeWork secretWork := process_keeps hh
  refine ⟨by decide +kernel,by decide +kernel,?_⟩
  exact (unreadable_nodes_invisible hh.tree hk.sound.tree
    (sameView_of_entries (by decide +kernel) (by decide +kernel)) _).1

end Xenstore
