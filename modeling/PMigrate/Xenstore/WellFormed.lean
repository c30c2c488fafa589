import PMigrate.Xenstore.Effects
import PMigrate.Xenstore.Daemon

namespace Xenstore

open PackedStrings Transition Function Option

structure Tree (db : Db) : Prop where
  rooted : root ∈ db
  parent : ∀ n node, db.lookup n = some node → n ≠ root →
    ∃ p, db.lookup (getParent n) = some p ∧ (unpack nul p.children).count (basename n) = 1
  listed : ∀ n node, db.lookup n = some node → ∀ b ∈ unpack nul node.children, join n b ∈ db

theorem Sound.tree {db : Db} (h : Sound (look db)) : Tree db where
  rooted := mem_iff_look.mpr h.rooted
  parent := fun n node hn hr => by
    have hpr : look db n ≠ none := fun ho => by
      rw [look,hn] at ho
      cases ho
    obtain ⟨p,hp,hb⟩ := h.parent n hpr hr
    exact ⟨p,hp,List.count_eq_one_of_mem (h.tidy _ p hp).nodup hb⟩
  listed := fun n node hn b hb => mem_iff_look.mpr (h.listed n node hn b hb)

variable {cfg : Config}

section
variable {conn : Conn} {w : Work}

structure Keeps (w w' : Work) : Prop where
  sound : Sound (look w'.db)
  corrupt : w'.corrupt = w.corrupt

theorem Keeps.refl (h : Sound (look w.db)) : Keeps w w := ⟨h,rfl⟩

variable {name : Name}

variable (h : Sound (look w.db))
include h

theorem Keeps.insert {v : Work} (hd : v.db = w.db) (hc : v.corrupt = w.corrupt)
  {x y : Node} (hx : look w.db name = some x) (hy : y.children = x.children) :
  Keeps w {v with db := v.db.insert name y} where
  sound := by
    rw [look_insert,hd]
    exact h.rewrite hx hy
  corrupt := hc

theorem createNode_keeps (hv : Valid name)
  (hn : look w.db name = none) {data : List Char} : Keeps w (createNode cfg conn name data w).2 := by
  have hs := @constructNode_spec cfg conn w h.rooted name.length name hv hn
  rw [createNode]
  generalize constructNode cfg conn name.length name w = res at hs
  obtain ⟨built,v⟩ := res
  have hd : v.db = w.db := hs.db
  have hc : v.corrupt = w.corrupt := hs.corrupt
  cases built with
  | none => exact ⟨hd ▸ h,hc⟩
  | some b =>
    obtain ⟨⟨n,x⟩,up⟩ := b
    obtain ⟨-,hh⟩ := hs.chain _ _ rfl
    have ha : (((n,{x with data := data}) :: up).map Prod.fst).Nodup := hh.nodup
    dsimp only
    rcases hr : writeNodes cfg conn ((n,{x with data := data}) :: up) v with ⟨e,v'⟩
    cases e with
    | none =>
      obtain ⟨hl,-,-,ho⟩ := writeNodes_ok ha hr
      refine ⟨?_,ho.trans hc⟩
      rw [hl,hd]
      exact hh.sound_data h data
    | some e =>
      obtain ⟨hl,ho⟩ := writeNodes_fail ha (hd ▸ hh.missing _) hr
      refine ⟨?_,ho.trans hc⟩
      rw [hl,hd]
      exact h

omit h in
theorem created_work (res : Option Errno × Work) : (created res).work = res.2 := by
  obtain ⟨e,v⟩ := res
  cases e <;> rfl

theorem doWrite_keeps {payload : List Char} : Keeps w (doWrite cfg conn payload w).work := by
  rw [doWrite]
  split
  · dsimp only
    split
    · rename_i ho
      obtain ⟨hv,hn,-⟩ := getNode_missing ho
      rw [created_work]
      exact createNode_keeps h hv hn
    · exact .refl h
    · rename_i name node ho
      obtain ⟨rfl,-,ho,-⟩ := getNode_ok ho
      split
      · exact .refl h
      · exact .insert h rfl rfl ho rfl
  · exact .refl h

theorem doMkdir_keeps {name : Option Name} : Keeps w (doMkdir cfg conn name w).work := by
  rw [doMkdir]
  split
  · exact .refl h
  split
  · rename_i ho
    obtain ⟨hv,hn,-⟩ := getNode_missing ho
    rw [created_work]
    exact createNode_keeps h hv hn
  · exact .refl h
  · exact .refl h

theorem rm_keeps {node : Node} (hv : Valid name) (hr : name ≠ root)
  (hn : look w.db name = some node) : Keeps w (rm cfg conn name node w).work := by
  obtain ⟨p,hp,hb⟩ := h.parent name (hn ▸ some_ne_none node) hr
  have ho : w.db.lookup (getParent name) = some p := hp
  have ht := h.tidy _ p hp
  rw [rm,ho]
  dsimp only
  rw [ht.cut,if_pos hb]
  dsimp only
  split
  · exact .refl h
  set q : Node := {p with children := pack nul ((kids p).erase (basename name))}
  set v : Work := {w with db := w.db.insert (getParent name) q}
  have hl : look v.db = update (look w.db) (getParent name) (some q) := look_insert
  have ha : name ≠ getParent name := fun he => not_under_parent hv hr (he ▸ .refl name)
  have hf : look v.db name = some node := by rw [hl,update_of_ne ha,hn]
  have hq : Tidy q := tidy_of_pack ht.comp_erase (ht.nodup.erase _) rfl
  have hh : Hanging (look v.db) name := by
    rw [hl]
    exact (h.hanging hr).relist hv hr hq (hp ▸ some_ne_none p)
  have hi : 0 < name.length := (Nat.zero_le _).trans_lt (hv.parent_shorter hr)
  obtain ⟨hd,hg⟩ := @deleteNode_removed conn v node name absPathMax (by omega) hr hh hf
  refine ⟨?_,hg⟩
  have hc : q.children = pack nul ((kids p).erase (basename name)) := rfl
  refine h.prune hv hr hp hc hd.lost fun m hm => ?_
  rw [hd.keep m hm,hl]

theorem doRm_keeps {name : Option Name} : Keeps w (doRm cfg conn name w).work := by
  rw [doRm]
  split
  · exact .refl h
  split
  · split <;> exact .refl h
  · exact .refl h
  · rename_i ho
    obtain ⟨rfl,hv,hn,-⟩ := getNode_ok ho
    split
    · exact .refl h
    · rename_i hr
      exact rm_keeps h hv hr hn

theorem doSetPerms_keeps {payload : List Char} : Keeps w (doSetPerms cfg conn payload w).work := by
  rw [doSetPerms]
  split
  · exact .refl h
  dsimp only
  split
  · exact .refl h
  rename_i ho
  obtain ⟨rfl,hv,hn,-⟩ := getNode_ok ho
  split
  · exact .refl h
  split
  · exact .refl h
  split
  · exact ⟨by simpa [Outcome.fail] using h,by simp [Outcome.fail]⟩
  · exact .insert h (by simp) (by simp) hn rfl

theorem process_keeps {r : Request} : Keeps w (process cfg conn r w).work := by
  cases r with
  | directory payload | read payload | getPerms payload => exact .refl h
  | write payload => exact doWrite_keeps h
  | mkdir payload => exact doMkdir_keeps h
  | rm payload => exact doRm_keeps h
  | setPerms payload => exact doSetPerms_keeps h

end

structure Tended (s : State) : Prop where
  store : Sound (look s.db)
  copies : ∀ p tx t, (s.links p).transactions.lookup tx = some t → Sound (look t.db)
  corrupt : s.corrupt = false

section
variable {s s' : State} {p : Peer}

variable (h : Tended s)
include h

theorem Tended.links {link : Link} (hl : ∀ tx t, link.transactions.lookup tx = some t → Sound (look t.db)) :
  ∀ q tx t, (update s.links p link q).transactions.lookup tx = some t → Sound (look t.db) := by
  intro q tx t ht
  by_cases hq : q = p
  · rw [hq,update_self] at ht
    exact hl tx t ht
  · rw [update_of_ne hq] at ht
    exact h.copies q tx t ht

theorem Tended.insert {id : Nat} {u : Transaction} (hu : Sound (look u.db)) :
  ∀ tx t, ((s.links p).transactions.insert id u).lookup tx = some t → Sound (look t.db) := by
  intro tx t ht
  by_cases hi : tx = id
  · rw [hi,AList.lookup_insert] at ht
    exact some.inj ht ▸ hu
  · rw [AList.lookup_insert_ne hi] at ht
    exact h.copies p tx t ht

theorem Tended.erase {id : Nat} :
  ∀ tx t, ((s.links p).transactions.erase id).lookup tx = some t → Sound (look t.db) := by
  intro tx t ht
  by_cases hi : tx = id
  · rw [hi,AList.lookup_erase] at ht
    cases ht
  · rw [AList.lookup_erase_ne hi] at ht
    exact h.copies p tx t ht

theorem Tended.fresh : ∀ q tx t, (update s.links p .fresh q).transactions.lookup tx = some t → Sound (look t.db) :=
  h.links fun _ _ ht => nomatch ht

theorem Tended.happens {a : Action} {reply : Option Reply} (ha : Happens cfg s a s' reply) : Tended s' := by
  cases ha with
  | @immediate p r =>
    have hk := @process_keeps cfg (p.conn s.target)
      {db := s.db,nbentry := s.nbentry,delta := none,corrupt := s.corrupt} h.store r
    exact ⟨hk.sound,h.copies,hk.corrupt.trans h.corrupt⟩
  | @within p tx t r hx ht =>
    have hk := @process_keeps cfg (p.conn s.target)
      {db := t.db,nbentry := s.nbentry,delta := some t.delta,corrupt := s.corrupt} (h.copies p tx t ht) r
    exact ⟨h.store,h.links (h.insert hk.sound),hk.corrupt.trans h.corrupt⟩
  | unknown | notStarted | notOpen ht | badArg hT hF => exact h
  | started hi => exact ⟨h.store,h.links (h.insert h.store),h.corrupt⟩
  | committed hr ht hg => exact ⟨h.copies _ _ _ ht,h.links h.erase,h.corrupt⟩
  | failed hr | aborted hr => exact ⟨h.store,h.links h.erase,h.corrupt⟩
  | closed | released | introduced hd => exact ⟨h.store,h.fresh,h.corrupt⟩
  | reset hd => exact ⟨h.store,h.links (fun _ _ ht => nomatch ht),h.corrupt⟩
  | targeted target reply => exact ⟨h.store,h.copies,h.corrupt⟩

theorem Tended.reach (hru : Reach (step cfg) (fun _ _ => True) s s') : Tended s' :=
  reach_invariant h (fun _ _ _ _ hu _ hs => by
    obtain ⟨reply,hr⟩ := step_happens hs
    exact hu.happens hr) hru

end

theorem sound_single {x : Node} (hx : x.children = []) : Sound (update (fun _ => none) root (some x)) := by
  have hk : kids x = [] := by
    rw [kids,hx]
    rfl
  have ho : ∀ n, update (fun _ => none) root (some x) n ≠ none → n = root := by
    intro n hn
    by_contra he
    exact hn (update_of_ne he ..)
  refine ⟨by simp,fun n hn => ho n hn ▸ valid_root,fun n y hy => ?_,fun n hn hr => ?_,fun n y hy b hb => ?_⟩
  · obtain rfl := ho n (hy ▸ some_ne_none y)
    rw [update_self] at hy
    have hs : ∀ b ∈ ([] : List Name), Component b := fun b hb => by cases hb
    exact some.inj hy ▸ tidy_of_pack hs List.nodup_nil hx
  · exact absurd (ho n hn) hr
  · obtain rfl := ho n (hy ▸ some_ne_none y)
    rw [update_self] at hy
    rw [← some.inj hy,hk] at hb
    cases hb

theorem setupStructure_sound : Sound (look setupStructure) := by
  have ht : Valid "/tool".toList := isValidNodename_iff.mp (by decide +kernel)
  have hs : Valid "/tool/xenstored".toList := isValidNodename_iff.mp (by decide +kernel)
  have h0 := @sound_single (manualNode []) rfl
  have h1 := @Sound.grow _ "/tool".toList (manualNode []) h0 (manualNode []) ht (by decide +kernel)
    (by decide +kernel) (by decide +kernel) rfl
  have h2 := @Sound.grow _ "/tool/xenstored".toList (manualNode []) h1 (manualNode []) hs
    (by decide +kernel) (by decide +kernel) (by decide +kernel) rfl
  have hp : getParent "/tool".toList = root := by decide +kernel
  have hp2 : getParent "/tool/xenstored".toList = "/tool".toList := by decide +kernel
  rw [hp2,hp,update_idem,update_idem] at h2
  have hl : look setupStructure = update (update (update (fun _ => none) root
      (some (addChild (manualNode []) (basename "/tool".toList)))) "/tool".toList
      (some (addChild (manualNode []) (basename "/tool/xenstored".toList)))) "/tool/xenstored".toList
      (some (manualNode [])) := by
    rw [setupStructure,look_insert,look_insert,look_insert]
    rfl
  rw [hl]
  exact h2

theorem boot_tended : Tended State.boot := ⟨setupStructure_sound,fun _ _ _ ht => (nomatch ht),rfl⟩

theorem store_well_formed {cfg : Config} {s s' : State} (h : Tended s)
  (hrun : Reach (step cfg) (fun _ _ => True) s s') :
  Tree s'.db ∧ (∀ p tx t, (s'.links p).transactions.lookup tx = some t → Tree t.db) ∧ s'.corrupt = false := by
  have he := h.reach hrun
  exact ⟨he.store.tree,fun p tx t ht => (he.copies p tx t ht).tree,he.corrupt⟩

def text (s : String) : List Char := s.toList ++ [nul]

def homeRequests : List Action := [.introduce 1,.request (.socket 0 true) 0 (.mkdir (text "/local/domain/1")),
    .request (.socket 0 true) 0 (.setPerms (text "/local/domain/1" ++ text "n1")),.transactionStart (.domain 1) 0,
    .request (.domain 1) 1 (.write (text "device/vif" ++ "up".toList)),
    .request (.domain 1) 0 (.write (text "data/log" ++ "x".toList)),.request (.domain 1) 1 (.rm (text "device")),
    .request (.domain 1) 0 (.rm (text "data"))]

def homeState : State := (runIf (step defaultConfig) (fun _ _ => true) .boot homeRequests).get (by decide +kernel)

theorem home_well_formed : (homeState.db.lookup "/local/domain/1".toList).map kids = some [] ∧
  ((homeState.links (.domain 1)).transactions.lookup 1).map (fun t => t.db.entries.length) = some 6 ∧
  Tree homeState.db ∧ (∀ p tx t, (homeState.links p).transactions.lookup tx = some t → Tree t.db) ∧
  homeState.corrupt = false := by
  exact ⟨by decide +kernel,by decide +kernel,store_well_formed boot_tended (reach_get (fun _ _ _ => trivial) _)⟩

end Xenstore
