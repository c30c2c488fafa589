import PMigrate.Xenstore.Tree

namespace Xenstore

open PackedStrings Function List Option

def look (db : Db) : Look := fun n => db.lookup n

section
variable {db : Db} {n : Name} {x : Node}

theorem look_insert : look (db.insert n x) = update (look db) n (some x) := by
  funext m
  by_cases hm : m = n
  · rw [hm,update_self]
    exact AList.lookup_insert db
  · rw [update_of_ne hm]
    exact AList.lookup_insert_ne hm

theorem look_erase : look (db.erase n) = update (look db) n none := by
  funext m
  by_cases hm : m = n
  · rw [hm,update_self]
    exact AList.lookup_erase n db
  · rw [update_of_ne hm]
    exact AList.lookup_erase_ne hm

theorem mem_iff_look : n ∈ db ↔ look db n ≠ none :=
  ⟨fun h h' => AList.lookup_eq_none.mp h' h,fun h => by_contra fun h' => h (AList.lookup_eq_none.mpr h')⟩

end

section
variable {w : Work} {conn : Conn} {perms : Perms} {d : Nat}

@[simp] theorem Work.bump_db : (w.bump d).db = w.db := by
  unfold Work.bump
  split <;> rfl

@[simp] theorem Work.drop_db : (w.drop d).db = w.db := by
  unfold Work.drop
  split <;> rfl

@[simp] theorem Work.bump_corrupt : (w.bump d).corrupt = w.corrupt := by
  unfold Work.bump
  split <;> rfl

@[simp] theorem Work.drop_corrupt : (w.drop d).corrupt = w.corrupt := by
  unfold Work.drop
  split <;> rfl

@[simp] theorem inc_db : (domainEntryInc conn perms w).db = w.db := by
  unfold domainEntryInc
  split_ifs <;> simp

@[simp] theorem dec_db : (domainEntryDec conn perms w).db = w.db := by
  unfold domainEntryDec
  split_ifs <;> simp

@[simp] theorem inc_corrupt : (domainEntryInc conn perms w).corrupt = w.corrupt := by
  unfold domainEntryInc
  split_ifs <;> simp

@[simp] theorem dec_corrupt : (domainEntryDec conn perms w).corrupt = w.corrupt := by
  unfold domainEntryDec
  split_ifs <;> simp

end

section
variable {db : Db} {conn : Conn} {name name' : Name} {node : Node} {perm : Rights} {e : Errno}

theorem getNode_ok (h : getNode db conn (some name) perm = .ok (name',node)) :
  name' = name ∧ Valid name ∧ look db name = some node ∧ (permForConn conn node.perms).covers perm := by
  unfold getNode at h
  dsimp only at h
  split at h
  · rename_i hv
    split at h
    · rename_i x hx
      split at h
      · rename_i hc
        obtain ⟨rfl,rfl⟩ := Prod.mk.inj (Except.ok.inj h)
        exact ⟨rfl,isValidNodename_iff.mp hv,hx,hc⟩
      · cases h
    · cases h
  · cases h

theorem errnoFromParents_EACCES : errnoFromParents db conn name .EACCES perm = .EACCES := ite_self _

theorem getNode_missing (h : getNode db conn (some name) perm = .error .ENOENT) :
  Valid name ∧ look db name = none ∧ (askParents db conn name.length name).meets perm := by
  unfold getNode at h
  dsimp only at h
  split_ifs at h with hv
  · split at h
    · split at h
      · cases h
      · rw [errnoFromParents_EACCES] at h
        cases h
    rename_i hn
    refine ⟨isValidNodename_iff.mp hv,hn,?_⟩
    by_contra hm
    rw [errnoFromParents,if_neg hm] at h
    cases h
  · cases h

end

inductive Chain (f : Look) (conn : Conn) : Name × Node → List (Name × Node) → Prop
  | base {p : Name} {x : Node} (hp : f p = some x) : Chain f conn (p,x) []
  | step {p n : Name} {x : Node} {up : List (Name × Node)} (hup : Chain f conn (p,x) up) (hv : Valid n)
      (hroot : n ≠ root) (hn : f n = none) (hp : getParent n = p) :
      Chain f conn (n,{perms := inherit conn x.perms,data := [],children := []}) ((p,addChild x (basename n)) :: up)

def overlay (f : Look) : List (Name × Node) → Look
  | [] => f
  | (n,x) :: rest => update (overlay f rest) n (some x)

section
variable {f : Look} {conn : Conn} {y : Name × Node} {up : List (Name × Node)}

theorem Chain.length_lt (h : Chain f conn y up) : ∀ z ∈ up, z.1.length < y.1.length := by
  induction h with
  | base hp => exact fun z hz => nomatch hz
  | @step p n x up hu hv hr hn hp ih =>
    intro z hz
    have hl : p.length < n.length := hp ▸ hv.parent_shorter hr
    rcases mem_cons.mp hz with rfl | hz
    · exact hl
    · exact (ih z hz).trans hl

theorem Chain.nodup (h : Chain f conn y up) : ((y :: up).map Prod.fst).Nodup := by
  induction h with
  | base hp => exact nodup_singleton _
  | @step p n x up hu hv hr hn hp ih =>
    refine nodup_cons.mpr ⟨fun hm => ?_,ih⟩
    obtain ⟨z,hz,ha⟩ := mem_map.mp hm
    have hl := (hu.step hv hr hn hp).length_lt z hz
    rw [ha] at hl
    exact Nat.lt_irrefl _ hl

theorem Chain.missing (h : Chain f conn y up) (x : Node) : ∀ z ∈ ((y.1,x) :: up).dropLast, f z.1 = none := by
  induction h generalizing x with
  | base hp => exact fun z hz => nomatch hz
  | @step p n x' up hu hv hr hn hp ih =>
    intro z hz
    rw [dropLast_cons_cons] at hz
    rcases mem_cons.mp hz with rfl | hz
    · exact hn
    · exact ih _ z hz

theorem overlay_of_not_mem {n : Name} (h : n ∉ up.map Prod.fst) : overlay f up n = f n := by
  induction up with
  | nil => rfl
  | cons u up ih =>
    rw [map_cons,mem_cons,not_or] at h
    rw [overlay,update_of_ne h.1,ih h.2]

theorem overlay_update_of_ne {n m : Name} {v : Option Node} (hm : m ≠ n) :
  overlay (update f n v) up m = overlay f up m := by
  induction up with
  | nil => exact update_of_ne hm ..
  | cons u up ih =>
    rw [overlay,overlay]
    by_cases hu : m = u.1
    · rw [hu,update_self,update_self]
    · rw [update_of_ne hu,update_of_ne hu,ih]

theorem Chain.sound (hf : Sound f) (h : Chain f conn y up) : Sound (overlay f (y :: up)) := by
  induction h with
  | @base p x hp =>
    rw [overlay,overlay,← hp,update_eq_self]
    exact hf
  | @step p n x up hu hv hr hn hp ih =>
    have hi : overlay f ((p,x) :: up) n = none := by
      rw [overlay_of_not_mem fun hm => ?_,hn]
      exact (nodup_cons.mp (hu.step hv hr hn hp).nodup).1 hm
    have ha : overlay f ((p,x) :: up) (getParent n) = some x := by rw [hp,overlay,update_self]
    have hg := @Sound.grow _ n {perms := inherit conn x.perms,data := [],children := []} ih x hv hr hi ha rfl
    rw [hp,overlay,update_idem] at hg
    exact hg

theorem Chain.sound_data (hf : Sound f) (h : Chain f conn y up) (data : List Char) :
  Sound (overlay f ((y.1,{y.2 with data := data}) :: up)) := by
  have hs := h.sound hf
  have he : overlay f (y :: up) y.1 = some y.2 := update_self ..
  have ht := hs.rewrite he (y := {y.2 with data := data}) rfl
  rwa [overlay,update_idem] at ht

end

section
variable {cfg : Config} {conn : Conn} {w w' : Work}

structure Constructed (conn : Conn) (w : Work) (name : Name) (res : Built × Work) : Prop where
  db : res.2.db = w.db
  corrupt : res.2.corrupt = w.corrupt
  chain : ∀ y up, res.1 = some (y,up) → y.1 = name ∧ Chain (look w.db) conn y up

theorem Constructed.under {name : Name} {res : Built × Work} (h : Constructed conn w (getParent name) res)
  (hv : Valid name) (hr : name ≠ root) (hn : look w.db name = none) :
  Constructed conn w name (constructUnder cfg conn name res) := by
  obtain ⟨built,v⟩ := res
  cases built with
  | none => exact ⟨h.db,h.corrupt,fun y up hy => nomatch hy⟩
  | some b =>
    obtain ⟨⟨pname,parent⟩,up⟩ := b
    rw [constructUnder]
    split
    · exact ⟨h.db,h.corrupt,fun y up hy => nomatch hy⟩
    refine ⟨by simpa using h.db,by simpa using h.corrupt,fun y up' hy => ?_⟩
    cases hy
    obtain ⟨rfl,hu⟩ := h.chain _ _ rfl
    exact ⟨rfl,hu.step hv hr hn rfl⟩

theorem constructNode_spec (hr : look w.db root ≠ none) {fuel : Nat} {name : Name} (hv : Valid name)
  (hn : look w.db name = none) : Constructed conn w name (constructNode cfg conn fuel name w) := by
  induction fuel generalizing name with
  | zero => exact ⟨rfl,rfl,fun y up hy => nomatch hy⟩
  | succ fuel ih =>
    have ha : name ≠ root := fun he => hr (he ▸ hn)
    rw [constructNode]
    split
    · rename_i parent hp
      refine Constructed.under ⟨rfl,rfl,fun y up hy => ?_⟩ hv ha hn
      cases hy
      exact ⟨rfl,.base hp⟩
    · rename_i hp
      exact (ih hv.parent hp).under hv ha hn

variable {nodes : List (Name × Node)}

theorem writeNodes_ok (ho : (nodes.map Prod.fst).Nodup) (h : writeNodes cfg conn nodes w = (none,w')) :
  look w'.db = overlay (look w.db) nodes ∧ w'.nbentry = w.nbentry ∧ w'.delta = w.delta ∧ w'.corrupt = w.corrupt := by
  induction nodes generalizing w w' with
  | nil =>
    obtain ⟨-,rfl⟩ := Prod.mk.inj h
    exact ⟨rfl,rfl,rfl,rfl⟩
  | cons z nodes ih =>
    obtain ⟨n,x⟩ := z
    obtain ⟨hn,ho⟩ := nodup_cons.mp ho
    rw [writeNodes] at h
    split at h
    · cases h
    split at h
    · rename_i v hv
      obtain ⟨-,rfl⟩ := Prod.mk.inj h
      obtain ⟨hl,hr⟩ := ih ho hv
      refine ⟨?_,hr⟩
      rw [hl,look_insert,overlay]
      funext m
      by_cases hm : m = n
      · rw [hm,overlay_of_not_mem hn,update_self,update_self]
      · rw [update_of_ne hm,overlay_update_of_ne hm]
    · cases h

theorem writeNodes_accepts (h : ∀ z ∈ nodes, cfg.refuses conn z.2 = false) :
  writeNodes cfg conn nodes w = (none,{w with db := nodes.foldl (fun db z => db.insert z.1 z.2) w.db}) := by
  induction nodes generalizing w with
  | nil => rfl
  | cons z nodes ih =>
    obtain ⟨hz,hn⟩ := forall_mem_cons.mp h
    rw [writeNodes,hz,if_neg Bool.false_ne_true,ih hn]
    rfl

theorem writeNodes_fail {e : Errno} (ha : (nodes.map Prod.fst).Nodup) (hm : ∀ z ∈ nodes.dropLast, look w.db z.1 = none)
  (h : writeNodes cfg conn nodes w = (some e,w')) : look w'.db = look w.db ∧ w'.corrupt = w.corrupt := by
  induction nodes generalizing w w' with
  | nil => cases h
  | cons z nodes ih =>
    obtain ⟨n,x⟩ := z
    obtain ⟨hn,ha⟩ := nodup_cons.mp ha
    rw [writeNodes] at h
    split at h
    · obtain ⟨-,rfl⟩ := Prod.mk.inj h
      exact ⟨by rw [dec_db],dec_corrupt⟩
    split at h
    · cases h
    rename_i e' v hv
    obtain ⟨he,rfl⟩ := Prod.mk.inj h
    have hb : nodes ≠ [] := by
      rintro rfl
      cases hv
    rw [dropLast_cons_of_ne_nil hb] at hm
    have hd : look w.db n = none := hm (n,x) mem_cons_self
    have ho : ∀ z ∈ nodes.dropLast, look (w.db.insert n x) z.1 = none := by
      intro z hz
      have hf : z.1 ≠ n := fun hq =>
        hn (mem_map.mpr ⟨z,mem_of_mem_dropLast hz,hq⟩)
      rw [look_insert,update_of_ne hf]
      exact hm z (mem_cons_of_mem _ hz)
    obtain ⟨hl,hc⟩ := ih ha ho (he ▸ hv)
    refine ⟨?_,hc⟩
    rw [look_erase,hl,look_insert,update_idem,← hd,update_eq_self]

end

section
variable {f g : Look} {n : Name} {x : Node}

structure Hanging (f : Look) (n : Name) : Prop where
  valid : ∀ m, f m ≠ none → Valid m
  tidy : ∀ m x, f m = some x → Tidy x
  linked : ∀ m, Under n m → m ≠ n → f m ≠ none → ∃ p, f (getParent m) = some p ∧ basename m ∈ kids p

theorem Sound.hanging (h : Sound f) (hr : n ≠ root) : Hanging f n where
  valid := h.valid
  tidy := h.tidy
  linked := fun m hu _ hm => h.parent m hm fun he => not_under_root hr (he ▸ hu)

theorem Hanging.relist (h : Hanging f n) (hv : Valid n) (hr : n ≠ root) (hx : Tidy x)
  (hp : f (getParent n) ≠ none) : Hanging (update f (getParent n) (some x)) n where
  valid := fun m hm => h.valid m (ne_none_of_update hp m hm)
  tidy := fun m y hy => by
    by_cases hm : m = getParent n
    · rw [hm,update_self] at hy
      exact Option.some.inj hy ▸ hx
    · rw [update_of_ne hm] at hy
      exact h.tidy m y hy
  linked := fun m hu hn hm => by
    obtain ⟨p,hpm,hb⟩ := h.linked m hu hn (ne_none_of_update hp m hm)
    have hn' : getParent m ≠ getParent n := fun he => not_under_parent hv hr (he ▸ hu.parent hn)
    exact ⟨p,by rwa [update_of_ne hn'],hb⟩

variable {m : Name}

theorem Hanging.top_present (h : Hanging f n) (hu : Under n m) (hm : f m ≠ none) : f n ≠ none := by
  obtain ⟨i,hi⟩ := hu
  induction i generalizing m with
  | zero => exact hi ▸ hm
  | succ i ih =>
    by_cases hn : m = n
    · exact hn ▸ hm
    · obtain ⟨p,hp,-⟩ := h.linked m ⟨i+1,hi⟩ hn hm
      exact ih (hp ▸ some_ne_none p) hi

theorem Hanging.branch (h : Hanging f n) (hr : n ≠ root) (hn : f n = some x) (hu : Under n m)
  (hc : m ≠ n) (hm : f m ≠ none) : ∃ b ∈ kids x, Under (join n b) m := by
  obtain ⟨i,hi⟩ := hu
  induction i generalizing m with
  | zero => exact absurd hi hc
  | succ i ih =>
    obtain ⟨p,hp,hb⟩ := h.linked m ⟨i+1,hi⟩ hc hm
    by_cases ha : getParent m = n
    · have hd : m ≠ root := fun he => hr (by rw [← ha,he,getParent_root])
      rw [ha,hn] at hp
      refine ⟨basename m,Option.some.inj hp ▸ hb,?_⟩
      rw [← ha,(h.valid m hm).join_parent hd]
      exact .refl m
    · obtain ⟨b,hb',hu⟩ := ih ha (hp ▸ some_ne_none p) hi
      exact ⟨b,hb',hu.of_parent⟩

structure Removed (f g : Look) (gone : Name → Prop) : Prop where
  lost : ∀ m, gone m → g m = none
  keep : ∀ m, ¬gone m → g m = f m

def Gone (n : Name) (done : List Name) (m : Name) : Prop := m = n ∨ ∃ b ∈ done, Under (join n b) m

theorem Removed.some_iff {gone : Name → Prop} (h : Removed f g gone) (hm : g m ≠ none) : ¬gone m ∧ g m = f m := by
  have hn : ¬gone m := fun hg => hm (h.lost m hg)
  exact ⟨hn,h.keep m hn⟩

theorem Removed.hanging {done : List Name} {b : Name} (h : Removed f g (Gone n done)) (hf : Hanging f n)
  (hv : Valid n) (hb : Component b) : Hanging g (join n b) where
  valid := fun m hm => hf.valid m ((h.some_iff hm).2 ▸ hm)
  tidy := fun m y hy => hf.tidy m y ((h.some_iff (hy ▸ some_ne_none y)).2 ▸ hy)
  linked := fun m hu hd hm => by
    obtain ⟨hn,he⟩ := h.some_iff hm
    have hc : f m ≠ none := he ▸ hm
    have hk : m ≠ n := fun h' => hn (.inl h')
    obtain ⟨p,hp,ha⟩ := hf.linked m ((under_join hv hb).trans hu) hk hc
    refine ⟨p,?_,ha⟩
    rw [h.keep _ (fun hg => ?_),hp]
    rcases hg with ho | ⟨b',hb',hu'⟩
    · have hl := (hu.parent hd).length_le (hf.valid m hc).parent
      rw [ho] at hl
      have hj : Valid (join n b) := by
        obtain ⟨i,hi⟩ := hu
        exact hi ▸ (hf.valid m hc).ancestor
      have ht := hj.parent_shorter (join_ne_root hb)
      rw [hv.getParent_join hb] at ht
      omega
    · exact hn (.inr ⟨b',hb',hu'.of_parent⟩)

theorem Removed.next {g' : Look} {done : List Name} {b : Name} (h : Removed f g (Gone n done))
  (h' : Removed g g' (Under (join n b))) : Removed f g' (Gone n (done ++ [b])) where
  lost := fun m hm => by
    by_cases hu : Under (join n b) m
    · exact h'.lost m hu
    rw [h'.keep m hu]
    refine h.lost m (hm.imp_right fun ⟨c,hc,hcu⟩ => ⟨c,?_,hcu⟩)
    rcases mem_append.mp hc with hc | hc
    · exact hc
    · exact absurd (mem_singleton.mp hc ▸ hcu) hu
  keep := fun m hm => by
    have hu : ¬Under (join n b) m := fun hu =>
      hm (.inr ⟨b,mem_append_right _ (mem_singleton.mpr rfl),hu⟩)
    rw [h'.keep m hu]
    refine h.keep m fun hg => hm ?_
    exact hg.imp_right fun ⟨c,hc,hcu⟩ => ⟨c,mem_append_left _ hc,hcu⟩

theorem Removed.all (h : Removed f g (Gone n (kids x))) (hf : Hanging f n) (hv : Valid n) (hr : n ≠ root)
  (hn : f n = some x) : Removed f g (Under n) where
  lost := fun m hu => by
    by_cases hm : f m = none
    · by_cases hg : Gone n (kids x) m
      · exact h.lost m hg
      · rw [h.keep m hg,hm]
    refine h.lost m ?_
    by_cases hmn : m = n
    · exact .inl hmn
    · exact .inr (hf.branch hr hn hu hmn hm)
  keep := fun m hu => by
    refine h.keep m fun hg => hu ?_
    rcases hg with rfl | ⟨b,hb,hbu⟩
    · exact .refl m
    · exact (under_join hv ((hf.tidy n x hn).comp b hb)).trans hbu

variable {conn : Conn} {w : Work} {node : Node} {name : Name}

theorem deleteNodeSingle_present (h : look w.db name = some node) :
  deleteNodeSingle conn name node w = domainEntryDec conn node.perms {w with db := w.db.erase name} :=
  if_pos (mem_iff_look.mpr (h ▸ some_ne_none node))

theorem deleteNode_removed {fuel : Nat} (hf : absPathMax < name.length+fuel) (ha : name ≠ root)
  (hh : Hanging (look w.db) name) (hn : look w.db name = some node) :
  Removed (look w.db) (look (deleteNode conn fuel name node w).db) (Under name) ∧
    (deleteNode conn fuel name node w).corrupt = w.corrupt := by
  induction fuel generalizing name node w with
  | zero =>
    have hq := (hh.valid name (hn ▸ some_ne_none node)).short
    omega
  | succ fuel ih =>
    have hv := hh.valid name (hn ▸ some_ne_none node)
    have hg : ∀ todo done v, (∀ b ∈ todo, Component b) → Removed (look w.db) (look v.db) (Gone name done) →
        let v' := todo.foldl (fun w base =>
          match w.db.lookup (childName name base) with
          | some child => deleteNode conn fuel (childName name base) child w
          | none => w) v
        Removed (look w.db) (look v'.db) (Gone name (done ++ todo)) ∧ v'.corrupt = v.corrupt := by
      intro todo
      induction todo with
      | nil =>
        intro done v _ hv
        rw [append_nil]
        exact ⟨hv,rfl⟩
      | cons b todo ihtodo =>
        intro done v ho hr
        obtain ⟨hb,ho⟩ := forall_mem_cons.mp ho
        have hd := hr.hanging hh hv hb
        have hs : ∀ v1 : Work, Removed (look v.db) (look v1.db) (Under (join name b)) →
            Removed (look w.db) (look v1.db) (Gone name (done ++ [b])) := fun v1 => hr.next
        rw [foldl_cons,append_cons,← join_of_ne_root ha]
        cases hl : v.db.lookup (join name b) with
        | some child =>
          have hw : name.length < (join name b).length := by
            rw [join_of_ne_root ha,length_childName]
            omega
          obtain ⟨hk,hc⟩ := @ih v child (join name b) (by omega) (join_ne_root hb) hd hl
          obtain ⟨hi,hp⟩ := ihtodo (done ++ [b]) _ ho (hs _ hk)
          exact ⟨hi,hp.trans hc⟩
        | none =>
          refine ihtodo (done ++ [b]) v ho (hs v ⟨fun m hu => ?_,fun m _ => rfl⟩)
          by_contra hm
          exact hd.top_present hu hm hl
    have ht : Removed (look w.db) (look (deleteNodeSingle conn name node w).db) (Gone name []) := by
      rw [deleteNodeSingle_present hn,dec_db,look_erase]
      constructor
      · rintro m (rfl | ⟨b,hb,-⟩)
        · exact update_self ..
        · cases hb
      · exact fun m hm => update_of_ne (fun he => hm (.inl he)) ..
    obtain ⟨hr,hc⟩ := hg (kids node) [] _ (hh.tidy name node hn).comp ht
    refine ⟨hr.all hh hv ha hn,hc.trans ?_⟩
    rw [deleteNodeSingle_present hn,dec_corrupt]

theorem deleteNode_induct {P : Work → Prop}
  (hi : ∀ name node w, look w.db name = some node → P w → P (deleteNodeSingle conn name node w))
  {fuel : Nat} (hn : look w.db name = some node) (h : P w) : P (deleteNode conn fuel name node w) := by
  induction fuel generalizing name node w with
  | zero => exact h
  | succ fuel ih =>
    rw [deleteNode]
    generalize unpack nul node.children = todo
    have hs := hi name node w hn h
    generalize deleteNodeSingle conn name node w = v at hs
    induction todo generalizing v with
    | nil => exact hs
    | cons b todo ihtodo =>
      rw [foldl_cons]
      refine ihtodo _ ?_
      split
      · rename_i child hc
        exact ih hc hs
      · exact hs

end

end Xenstore
