import PMigrate.Oxenstored.Daemon
import PMigrate.Oxenstored.Verdict

namespace Oxenstored

open PathTree List

def settled {τ : Type} (cfg : Config) (con : Con) (X : Node τ) (r : Request) : Bool :=
  match r.path cfg con with
  | none => true
  | some p =>
      let perms := (getDeepestExistingNode X p).label.perms
      match r with
      | .directory _ | .getperms _ => p = [] || pathExists X p && permits cfg con.perm .read perms
      | .read _ => pathExists X p && permits cfg con.perm .read perms
      | .write _ => permits cfg con.perm .write perms
      | .mkdir _ => p = [] || !pathExists X p && permits cfg con.perm .write perms
      | .rm _ => p = [] || pathExists X p && permits cfg con.perm .write perms
      | .setperms _ =>
          p = [] || pathExists X p && checkOwner cfg con.perm perms && permits cfg con.perm .write perms

inductive Change {τ : Type} (a : τ) (X : Node τ) : Path → Node τ → Path → Prop where
  | value {p : Path} {n : Node τ} (v : List Char) (hn : descend X p = some n) : Change a X p (setValue a n v) p
  | perms {p : Path} {n : Node τ} (perms : NodePerms) (hn : descend X p = some n) : Change a X p (setPerms a n perms) p
  | created {d : Path} {n : Node τ} {x : Name} (rest : List Name) (v : List Char) (hn : descend X d = some n)
      (hx : n.find x = none) {w : Path} (hw : w = d ∨ w = d ++ [x]) :
      Change a X (d ++ [x]) (chain a n.label.perms v x rest) w
  | removed {d : Path} {n : Node τ} (x : Name) (hn : descend X d = some n) : Change a X d (dropChild a n x) d
  | cleared : Change a X [] (delAllChildren a X) []
  | nothing : Change a X [] X []

variable {τ : Type} {cfg : Config} {a : τ} {con : Con} {X n : Node τ} {p : Path}

section
variable {r : Request} {u w : Path} {m : Node τ}

theorem onArgs_sets {α : Type} {args : Except Exn α} {f : α → Verdict τ} (h : onArgs args f = .sets u m w) :
  ∃ v, args = .ok v ∧ f v = .sets u m w := by
  cases args with
  | error e => cases h
  | ok v => exact ⟨v,rfl,h⟩

theorem showVerdict_sets {allowed : Node τ → Bool} {render : Node τ → List Char} :
  showVerdict X p allowed render ≠ .sets u m w := by
  rw [showVerdict]
  split
  · split <;> exact fun h => by cases h
  · exact fun h => by cases h

variable {perms : NodePerms} {v : List Char}

theorem writeVerdict_change (h : writeVerdict cfg a con X p v = .sets u m w) : Change a X u m w := by
  have hr := @reach_reached _ X p
  rw [writeVerdict] at h
  generalize reach X p = res at h hr
  obtain ⟨d,n,rest⟩ := res
  cases rest with
  | nil =>
    dsimp only at h
    split at h <;> cases h
    exact .value v hr.descend_nil
  | cons x rest =>
    dsimp only at h
    split at h <;> cases h
    refine .created rest v hr.node (hr.missing x rest rfl) ?_
    split
    · exact .inl rfl
    · exact .inr rfl

theorem mkdirVerdict_change (h : mkdirVerdict cfg a con X p = .sets u m w) : Change a X u m w := by
  have hr := @reach_reached _ X p
  rw [mkdirVerdict] at h
  split at h
  · cases h
    exact .nothing
  generalize reach X p = res at h hr
  obtain ⟨d,n,rest⟩ := res
  cases rest with
  | nil =>
    dsimp only at h
    split at h <;> cases h
  | cons x rest =>
    dsimp only at h
    split at h <;> cases h
    exact .created rest [] hr.node (hr.missing x rest rfl) (.inr rfl)

theorem rmVerdict_change (h : rmVerdict cfg a con X p = .sets u m w) : Change a X u m w := by
  have hr := @reach_reached _ X p
  rw [rmVerdict] at h
  split at h
  · cases h
    exact .cleared
  generalize reach X p = res at h hr
  obtain ⟨d,n,rest⟩ := res
  rcases rest with _ | ⟨x,_ | ⟨y,rest⟩⟩
  · dsimp only at h
    split at h <;> cases h
    obtain ⟨v,hv⟩ := descend_of_below hr.descend_nil (List.dropLast_prefix p)
    rw [hv,Option.getD_some]
    exact .removed _ hv
  · cases h
  · cases h

theorem setpermsVerdict_change (h : setpermsVerdict cfg a con X p perms = .sets u m w) :
  Change a X u m w := by
  have hr := @reach_reached _ X p
  rw [setpermsVerdict] at h
  split at h
  · cases h
    exact .perms perms rfl
  generalize reach X p = res at h hr
  obtain ⟨d,n,rest⟩ := res
  cases rest with
  | nil =>
    dsimp only at h
    split at h <;> cases h
    exact .perms perms hr.descend_nil
  | cons x rest => cases h

theorem verdict_change (h : verdict cfg a con X r = .sets u m w) : Change a X u m w := by
  cases r with
  | directory data | read data | getperms data =>
    obtain ⟨p,-,h⟩ := onArgs_sets h
    exact absurd h showVerdict_sets
  | write data =>
    obtain ⟨args,-,h⟩ := onArgs_sets h
    exact writeVerdict_change h
  | mkdir data =>
    obtain ⟨p,-,h⟩ := onArgs_sets h
    exact mkdirVerdict_change h
  | rm data =>
    obtain ⟨p,-,h⟩ := onArgs_sets h
    exact rmVerdict_change h
  | setperms data =>
    obtain ⟨args,-,h⟩ := onArgs_sets h
    exact setpermsVerdict_change h

structure Proper (a : τ) (X : Node τ) (u : Path) (m : Node τ) (w : Path) : Prop where
  fits : Fits X u m
  room : Room X u
  low : w <+: u
  nodes : Distinct X → ∀ s n, descend m s = some n → n.stamp = a ∨ descend X (u ++ s) = some n
  distinct : Distinct X → Distinct m

theorem descend_chain_stamp {x : Name} {ys s : List Name}
  (h : descend (chain a perms v x ys) s = some n) : n.stamp = a ∧ (n.children.map key).Nodup := by
  induction ys generalizing x s with
  | nil =>
    cases s with
    | nil =>
      cases h
      exact ⟨rfl,nodup_nil⟩
    | cons k ks => cases h
  | cons y ys ih =>
    cases s with
    | nil =>
      cases h
      exact ⟨rfl,nodup_singleton _⟩
    | cons k ks =>
      by_cases hk : (chain a perms v y ys).key = k
      · have hf : (chain a perms v x (y :: ys)).find k = some (chain a perms v y ys) := findKey_cons_pos hk
        rw [descend_cons_of_find hf] at h
        exact ih h
      have hf : (chain a perms v x (y :: ys)).find k = none := findKey_cons_neg hk
      rw [descend_cons_of_missing hf] at h
      cases h

theorem proper_record {m : Node τ} (hn : descend X p = some n) (hk : m.key = n.key)
  (hc : m.children = n.children) (hs : m.stamp = a ∨ m = n) : Proper a X p m p := by
  refine ⟨hk.trans (descend_key hn),room_of_descend hn,List.prefix_rfl,fun _ s v hv => ?_,fun hd s v hv => ?_⟩
  · rw [descend_append_some hn]
    cases s with
    | nil =>
      rw [← Option.some.inj hv]
      exact hs.imp_right fun he => congrArg some he.symm
    | cons k ks =>
      rw [descend_of_children hc] at hv
      exact .inr hv
  cases s with
  | nil =>
    rw [← Option.some.inj hv,hc]
    exact hd p n hn
  | cons k ks =>
    rw [descend_of_children hc] at hv
    exact hd (p ++ k :: ks) v ((descend_append_some hn).trans hv)

theorem proper_removed {d : Path} (x : Name) (hn : descend X d = some n) : Proper a X d (dropChild a n x) d := by
  have he : n.key = lastKey X.key d := descend_key hn
  have hs : ∀ k ks v, Distinct X → descend (dropChild a n x) (k :: ks) = some v →
      descend X (d ++ k :: ks) = some v := by
    intro k ks v hd hv
    rw [descend_append_some hn]
    by_cases hk : k = x
    · have hf : (dropChild a n x).find k = none := hk ▸ findKey_deleteFirst_self (hd d n hn)
      rw [descend_cons_of_missing hf] at hv
      cases hv
    · have hf : (dropChild a n x).find k = n.find k := findKey_deleteFirst_ne hk
      rwa [descend,hf] at hv
  refine ⟨he,room_of_descend hn,List.prefix_rfl,fun hd s v hv => ?_,fun hd s v hv => ?_⟩
  · cases s with
    | nil => exact .inl (congrArg stamp (Option.some.inj hv)).symm
    | cons k ks => exact .inr (hs k ks v hd hv)
  cases s with
  | nil =>
    rw [← Option.some.inj hv]
    exact deleteFirst_keys_sublist.nodup (hd d n hn)
  | cons k ks => exact hd _ v (hs k ks v hd hv)

theorem setValue_stamp (n : Node τ) (v : List Char) : (setValue a n v).stamp = a ∨ setValue a n v = n := by
  rw [setValue]
  split
  · exact .inr rfl
  · exact .inl rfl

theorem Change.proper (h : Change a X u m w) : Proper a X u m w := by
  cases h with
  | value v hn => exact proper_record hn (setValue_key ..) (setValue_children ..) (setValue_stamp ..)
  | perms perms hn => exact proper_record (m := setPerms a _ perms) hn rfl rfl (.inl rfl)
  | @created d n x rest v hn hx w hw =>
    refine ⟨fits_concat _ chain_key,room_append_singleton hn,?_,fun _ s k hk => .inl (descend_chain_stamp hk).1,
      fun _ s k hk => (descend_chain_stamp hk).2⟩
    rcases hw with rfl | rfl
    · exact List.prefix_append ..
    · exact List.prefix_rfl
  | removed x hn => exact proper_removed x hn
  | cleared =>
    refine ⟨rfl,⟨X,rfl⟩,List.prefix_rfl,fun _ s n hn => ?_,fun _ s n hn => ?_⟩
    · cases s with
      | nil => exact .inl (congrArg stamp (Option.some.inj hn)).symm
      | cons k ks => cases hn
    cases s with
    | nil =>
      rw [← Option.some.inj hn]
      exact nodup_nil
    | cons k ks => cases hn
  | nothing => exact ⟨rfl,⟨X,rfl⟩,List.prefix_rfl,fun _ s n hn => .inr hn,fun hd => hd⟩

end

def Verdict.forget {τ : Type} : Verdict τ → Verdict Unit
  | .fail errno => .fail errno
  | .silent => .silent
  | .shows path data => .shows path data
  | .sets path node lowpath => .sets path node.forget lowpath

theorem reach_forget : reach X.forget p = ((reach X p).1,(reach X p).2.1.forget,(reach X p).2.2) := by
  obtain ⟨hp,hn,hm⟩ := @reach_reached _ X p
  refine Reached.eq ⟨hp,?_,fun x l hl => ?_⟩
  · rw [descend_forget,hn]
    rfl
  · rw [find_forget,hm x l hl]
    rfl

theorem setValue_forget (v : List Char) : (setValue a n v).forget = setValue () n.forget v := by
  rw [setValue,setValue,forget_label]
  split
  · rfl
  · rw [forget_eq]
    simp

theorem setPerms_forget (perms : NodePerms) : (setPerms a n perms).forget = setPerms () n.forget perms := by
  rw [forget_eq]
  simp [setPerms]

theorem dropChild_forget (x : Name) : (dropChild a n x).forget = dropChild () n.forget x := by
  rw [forget_eq]
  simp [dropChild,deleteFirst_forget]

theorem delAllChildren_forget : (delAllChildren a n).forget = delAllChildren () n.forget := by
  rw [forget_eq]
  simp [delAllChildren,forgetAll]

theorem chain_forget (perms : NodePerms) (v : List Char) (x : Name) (ys : List Name) :
  (chain a perms v x ys).forget = chain () perms v x ys := by
  induction ys generalizing x with
  | nil => rfl
  | cons y ys ih =>
    rw [chain,chain,forget_eq]
    simp only [addChild,create,forgetAll,ih]

theorem showVerdict_forget {allowed : Node τ → Bool} {render : Node τ → List Char} {allowed' : Node Unit → Bool}
  {render' : Node Unit → List Char} (ha : ∀ n : Node τ, allowed' n.forget = allowed n)
  (hr : ∀ n : Node τ, render' n.forget = render n) :
  (showVerdict X p allowed render).forget = showVerdict X.forget p allowed' render' := by
  rw [showVerdict,showVerdict,reach_forget]
  generalize reach X p = res
  obtain ⟨d,n,rest⟩ := res
  cases rest with
  | nil =>
    dsimp only
    rw [ha,hr]
    split <;> rfl
  | cons x rest => rfl

theorem writeVerdict_forget (v : List Char) :
  (writeVerdict cfg a con X p v).forget = writeVerdict cfg () con X.forget p v := by
  rw [writeVerdict,writeVerdict,reach_forget]
  generalize reach X p = res
  obtain ⟨d,n,rest⟩ := res
  cases rest with
  | nil =>
    dsimp only
    rw [forget_label]
    split
    · rw [← setValue_forget]
      rfl
    · rfl
  | cons x rest =>
    dsimp only
    rw [forget_label]
    split
    · rw [← @chain_forget _ a]
      rfl
    · rfl

theorem mkdirVerdict_forget : (mkdirVerdict cfg a con X p).forget = mkdirVerdict cfg () con X.forget p := by
  rw [mkdirVerdict,mkdirVerdict,reach_forget]
  split
  · rfl
  generalize reach X p = res
  obtain ⟨d,n,rest⟩ := res
  cases rest with
  | nil =>
    dsimp only
    rw [forget_label]
    split <;> rfl
  | cons x rest =>
    dsimp only
    rw [forget_label]
    split
    · rw [← @chain_forget _ a]
      rfl
    · rfl

theorem rmVerdict_forget : (rmVerdict cfg a con X p).forget = rmVerdict cfg () con X.forget p := by
  rw [rmVerdict,rmVerdict,reach_forget]
  split
  · rw [← @delAllChildren_forget _ a]
    rfl
  generalize reach X p = res
  obtain ⟨d,n,rest⟩ := res
  rcases rest with _ | ⟨x,_ | ⟨y,rest⟩⟩
  · dsimp only
    rw [forget_label]
    split
    · have hp : (descend X.forget p.dropLast).getD X.forget = ((descend X p.dropLast).getD X).forget := by
        rw [descend_forget]
        cases descend X p.dropLast <;> rfl
      rw [hp,← @dropChild_forget _ a]
      rfl
    · rfl
  · rfl
  · rfl

theorem setpermsVerdict_forget (perms : NodePerms) :
  (setpermsVerdict cfg a con X p perms).forget = setpermsVerdict cfg () con X.forget p perms := by
  rw [setpermsVerdict,setpermsVerdict,reach_forget]
  split
  · rw [← @setPerms_forget _ a]
    rfl
  generalize reach X p = res
  obtain ⟨d,n,rest⟩ := res
  cases rest with
  | nil =>
    dsimp only
    rw [forget_label]
    split
    · rw [← @setPerms_forget _ a]
      rfl
    · rfl
  | cons x rest => rfl

theorem onArgs_forget {α : Type} (args : Except Exn α) {f : α → Verdict τ} {f' : α → Verdict Unit}
  (h : ∀ v, (f v).forget = f' v) : (onArgs args f).forget = onArgs args f' := by
  cases args with
  | error e => rfl
  | ok v => exact h v

theorem forget_keys : n.forget.children.map key = n.children.map key := by
  rw [forget_children,forgetAll_eq,map_map]
  simp [Function.comp_def]

theorem verdict_forget (r : Request) : (verdict cfg a con X r).forget = verdict cfg () con X.forget r := by
  cases r with
  | directory data =>
    exact onArgs_forget _ fun p => showVerdict_forget (fun n => by rw [forget_label]) fun n => by rw [forget_keys]
  | read data | getperms data =>
    exact onArgs_forget _ fun p => showVerdict_forget (fun n => by rw [forget_label]) fun n => by rw [forget_label]
  | write data => exact onArgs_forget _ fun args => writeVerdict_forget args.2
  | mkdir data => exact onArgs_forget _ fun p => mkdirVerdict_forget
  | rm data => exact onArgs_forget _ fun p => rmVerdict_forget
  | setperms data => exact onArgs_forget _ fun args => setpermsVerdict_forget args.2

theorem Verdict.forget_reply (v : Verdict τ) : v.forget.reply = v.reply := by cases v <;> rfl

theorem Verdict.forget_root (v : Verdict τ) : v.forget.root () X.forget = (v.root a X).forget := by
  cases v with
  | sets u m w => exact graft_forget.symm
  | fail e => rfl
  | silent => rfl
  | shows p d => rfl

theorem settled_forget (r : Request) : settled cfg con X.forget r = settled cfg con X r := by
  have hd : ∀ p, (getDeepestExistingNode X.forget p).label = (getDeepestExistingNode X p).label := by
    intro p
    induction p generalizing X with
    | nil => exact forget_label
    | cons h t ih =>
      rw [getDeepestExistingNode,getDeepestExistingNode,find_forget]
      cases X.find h with
      | none => exact forget_label
      | some c => exact ih
  have he : ∀ p, pathExists X.forget p = pathExists X p := by
    intro p
    rw [pathExists_eq,pathExists_eq,descend_forget,Option.isSome_map]
  simp only [settled,hd,he]

def regraft (w : Option Path) (Y S : Node Unit) : Node Unit :=
  match w with
  | none => Y
  | some u => (descend S u).elim Y (graft () Y u)

structure Tracks (w r : Option Path) (Y S Z : Node Unit) : Prop where
  written : ∀ u, w = some u → descend S u = descend Z u
  parent : ∀ u, w = some u → descend S u = none → ∃ n n', descend S u.dropLast = some n ∧
    descend Z u.dropLast = some n' ∧ n'.label.perms = n.label.perms
  read : ∀ u, r = some u → descend S u = descend Z u
  moved : Z = regraft w Y S

section
variable {Y S Z n : Node Unit} {w rd : Option Path} {d v : Path} {x : Name} {rest : List Name}

theorem descend_agree (h : descend S v = descend Z v) (hp : v <+: p) : descend S p = descend Z p := by
  obtain ⟨s,rfl⟩ := hp
  rw [descend_append,descend_append,h]

theorem pathExists_reach (X : Node Unit) (p : Path) : pathExists X p = (reach X p).2.2.isEmpty := by
  have hr := @reach_reached _ X p
  rw [pathExists_eq]
  generalize reach X p = res at hr ⊢
  obtain ⟨d,n,rest⟩ := res
  cases rest with
  | nil => rw [hr.descend_nil]; rfl
  | cons x rest => rw [hr.descend_cons]; rfl

theorem reach_agree (h : descend S p = descend Z p) (hr : Reached S p d n []) : reach Z p = reach S p := by
  have hn := hr.descend_nil
  rw [(reached_of_descend hn).eq,(reached_of_descend (h.symm.trans hn)).eq]

theorem Tracks.gap (h : Tracks w rd Y S Z) (hw : w = some v) (hv : v <+: d ++ [x])
  (hr : Reached S p d n (x :: rest)) : ∃ n', reach Z p = (d,n',x :: rest) ∧ n'.label.perms = n.label.perms := by
  obtain ⟨hp,hn,hm⟩ := hr
  have hx := hm x rest rfl
  have hg := descend_concat_missing hn hx []
  rcases List.prefix_concat_iff.mp hv with rfl | hv
  · obtain ⟨u,u',hu,hu',he⟩ := h.parent _ hw hg
    rw [dropLast_concat] at hu hu'
    obtain rfl := Option.some.inj (hn.symm.trans hu)
    refine ⟨u',Reached.eq ⟨hp,hu',fun y l hy => ?_⟩,he⟩
    obtain ⟨rfl,-⟩ := List.cons.inj hy
    have hZ := (h.written _ hw).symm.trans hg
    cases hf : u'.find x with
    | none => rfl
    | some ent =>
      rw [descend_concat_some.mpr ⟨u',hu',hf⟩] at hZ
      cases hZ
  · have hd := descend_agree (h.written v hw) hv
    exact ⟨n,Reached.eq ⟨hp,hd ▸ hn,hm⟩,rfl⟩

structure Covered (w r : Option Path) (v : Verdict Unit) : Prop where
  read : ∀ {q e}, v = .shows q e → ∃ u, r = some u ∧ u <+: q
  written : ∀ {u m q}, v = .sets u m q → ∃ v, w = some v ∧ v <+: q

variable (h : Tracks w rd Y S Z)
include h

theorem showVerdict_moved {allowed : Node Unit → Bool} {render : Node Unit → List Char}
  (hs : ∃ n, reach S p = (p,n,[]) ∧ allowed n = true)
  (hc : Covered w rd (showVerdict S p allowed render)) :
  showVerdict Z p allowed render = showVerdict S p allowed render := by
  obtain ⟨n,hr,ha⟩ := hs
  have hR := @reach_reached _ S p
  rw [hr] at hR
  have hh : showVerdict S p allowed render = .shows p (render n) := by
    rw [showVerdict,hr]
    exact if_pos ha
  obtain ⟨u,hu,hp⟩ := hc.read hh
  rw [showVerdict,showVerdict,reach_agree (descend_agree (h.read u hu) hp) hR]

theorem writeVerdict_moved {value : List Char}
  (hs : permits cfg con.perm .write (getDeepestExistingNode S p).label.perms = true)
  (hc : Covered w rd (writeVerdict cfg () con S p value)) :
  writeVerdict cfg () con Z p value = writeVerdict cfg () con S p value := by
  have hR := @reach_reached _ S p
  rw [deepest_reach] at hs
  rw [writeVerdict] at hc
  rw [writeVerdict,writeVerdict]
  generalize hr : reach S p = res at hR hs hc ⊢
  obtain ⟨d,n,rest⟩ := res
  cases rest with
  | nil =>
    obtain ⟨v,hv,ha⟩ := hc.written (if_pos hs)
    rw [reach_agree (descend_agree (h.written v hv) ha) hR,hr]
  | cons x rest =>
    obtain ⟨v,hv,ha⟩ := hc.written (if_pos hs)
    have hx : v <+: d ++ [x] := by
      split at ha
      · exact ha.trans (List.prefix_append ..)
      · exact ha
    obtain ⟨n',hZ,hp⟩ := h.gap hv hx hR
    rw [hZ]
    dsimp only
    rw [hp]

omit h in
theorem moved_off_root {m m' : Node Unit} {v v' : Verdict Unit} {ok : Bool} (hr : ∀ u, w = some u → u ≠ [])
  (hs : (p = [] || ok) = true) (hc : Covered w rd (if p = [] then .sets [] m [] else v))
  (h : ok = true → Covered w rd v → v' = v) :
  (if p = [] then .sets [] m' [] else v') = if p = [] then .sets [] m [] else v := by
  by_cases hp : p = []
  · rw [if_pos hp] at hc
    obtain ⟨u,hu,ha⟩ := hc.written rfl
    exact absurd (List.prefix_nil.mp ha) (hr u hu)
  rw [decide_eq_false hp,Bool.false_or] at hs
  rw [if_neg hp] at hc
  rw [if_neg hp,if_neg hp]
  exact h hs hc

theorem mkdirVerdict_moved (hr : ∀ u, w = some u → u ≠ []) (hs : (p = [] || !pathExists S p &&
    permits cfg con.perm .write (getDeepestExistingNode S p).label.perms) = true)
  (hc : Covered w rd (mkdirVerdict cfg () con S p)) : mkdirVerdict cfg () con Z p = mkdirVerdict cfg () con S p := by
  refine moved_off_root hr hs hc fun hs hc => ?_
  have hR := @reach_reached _ S p
  rw [deepest_reach,pathExists_reach] at hs
  generalize he : reach S p = res at hR hs hc ⊢
  obtain ⟨d,n,rest⟩ := res
  cases rest with
  | nil => cases hs
  | cons x rest =>
    obtain ⟨v,hv,ha⟩ := hc.written (if_pos hs)
    obtain ⟨n',hZ,hp⟩ := h.gap hv ha hR
    rw [hZ]
    dsimp only
    rw [hp]

omit h in
theorem reach_of_exists (allowed : Node Unit → Bool)
  (h : (pathExists S p && allowed (getDeepestExistingNode S p)) = true) :
  ∃ n, reach S p = (p,n,[]) ∧ allowed n = true := by
  have hR := @reach_reached _ S p
  rw [deepest_reach,pathExists_reach] at h
  generalize reach S p = res at h hR
  obtain ⟨d,n,rest⟩ := res
  cases rest with
  | cons x rest => cases h
  | nil =>
    have hp : d = p := by rw [hR.path,append_nil]
    have ha : allowed n = true := h
    exact ⟨n,by rw [hp],ha⟩

theorem rmVerdict_moved (hr : ∀ u, w = some u → u ≠ []) (hs : (p = [] || pathExists S p &&
    permits cfg con.perm .write (getDeepestExistingNode S p).label.perms) = true)
  (hc : Covered w rd (rmVerdict cfg () con S p)) : rmVerdict cfg () con Z p = rmVerdict cfg () con S p := by
  refine moved_off_root hr hs hc fun hs hc => ?_
  have hR := @reach_reached _ S p
  obtain ⟨n,he,ha⟩ := reach_of_exists (fun n => permits cfg con.perm .write n.label.perms) hs
  rw [he] at hR hc ⊢
  obtain ⟨v,hv,hb⟩ := hc.written (if_pos ha)
  have hp := descend_agree (h.written v hv) hb
  have hd := descend_agree (h.written v hv) (hb.trans (List.dropLast_prefix p))
  rw [reach_agree hd hR,he]
  obtain ⟨u,hu⟩ := descend_of_below hR.descend_nil (List.dropLast_prefix p)
  rw [← hp,hu,Option.getD_some,Option.getD_some]

theorem setpermsVerdict_moved {perms : NodePerms} (hr : ∀ u, w = some u → u ≠ [])
  (hs : (p = [] || pathExists S p && checkOwner cfg con.perm (getDeepestExistingNode S p).label.perms &&
    permits cfg con.perm .write (getDeepestExistingNode S p).label.perms) = true)
  (hc : Covered w rd (setpermsVerdict cfg () con S p perms)) :
  setpermsVerdict cfg () con Z p perms = setpermsVerdict cfg () con S p perms := by
  refine moved_off_root hr hs hc fun hs hc => ?_
  have hR := @reach_reached _ S p
  rw [Bool.and_assoc] at hs
  obtain ⟨n,he,ha⟩ := reach_of_exists
    (fun n => checkOwner cfg con.perm n.label.perms && permits cfg con.perm .write n.label.perms) hs
  rw [he] at hR hc
  obtain ⟨v,hv,hp⟩ := hc.written (if_pos ha)
  rw [reach_agree (descend_agree (h.written v hv) hp) hR]

omit h in
theorem reach_of_root_or_exists (allowed : Node Unit → Bool)
  (h : (p = [] || pathExists S p && allowed (getDeepestExistingNode S p)) = true) :
  ∃ n, reach S p = (p,n,[]) ∧ (decide (p = []) || allowed n) = true := by
  by_cases hp : p = []
  · subst hp
    exact ⟨S,rfl,rfl⟩
  rw [decide_eq_false hp,Bool.false_or] at h
  obtain ⟨n,hn,ha⟩ := reach_of_exists allowed h
  exact ⟨n,hn,by rw [ha,Bool.or_true]⟩

omit h in
theorem onArgs_moved {α : Type} {args : Except Exn α} {f f' : α → Verdict Unit}
  (hc : Covered w rd (onArgs args f)) (h : ∀ v, args = .ok v → Covered w rd (f v) → f' v = f v) :
  onArgs args f' = onArgs args f := by
  cases args with
  | error e => rfl
  | ok v => exact h v rfl hc

theorem verdict_moved {r : Request} (hr : ∀ u, w = some u → u ≠ [])
  (hs : settled cfg con S r = true) (hc : Covered w rd (verdict cfg () con S r)) :
  verdict cfg () con Z r = verdict cfg () con S r := by
  cases r with
  | directory data | getperms data =>
    refine onArgs_moved hc fun p ha hc => ?_
    rw [settled,Request.path,toOption_ok ha] at hs
    exact showVerdict_moved h (reach_of_root_or_exists (fun n => permits cfg con.perm .read n.label.perms) hs) hc
  | read data =>
    refine onArgs_moved hc fun p ha hc => ?_
    rw [settled,Request.path,toOption_ok ha] at hs
    exact showVerdict_moved h (reach_of_exists (fun n => permits cfg con.perm .read n.label.perms) hs) hc
  | write data =>
    refine onArgs_moved hc fun args ha hc => ?_
    rw [settled,Request.path,toOption_ok ha] at hs
    exact writeVerdict_moved h hs hc
  | mkdir data =>
    refine onArgs_moved hc fun p ha hc => ?_
    rw [settled,Request.path,toOption_ok ha] at hs
    exact mkdirVerdict_moved h hr hs hc
  | rm data =>
    refine onArgs_moved hc fun p ha hc => ?_
    rw [settled,Request.path,toOption_ok ha] at hs
    exact rmVerdict_moved h hr hs hc
  | setperms data =>
    refine onArgs_moved hc fun args ha hc => ?_
    rw [settled,Request.path,toOption_ok ha] at hs
    exact setpermsVerdict_moved h hr hs hc

theorem Tracks.graft {u q : Path} {m : Node Unit}
  (he : ∀ u, w = some u → u ≠ [] ∧ Room Y u) (hS : Proper () S u m q) (hZ : Proper () Z u m q)
  (hc : ∃ v, w = some v ∧ v <+: q) : Tracks w rd Y (graft () S u m) (graft () Z u m) := by
  obtain ⟨v,hw,hz⟩ := hc
  have hvu := hz.trans hS.low
  obtain ⟨hne,hro⟩ := he v hw
  have hv : ∃ k, descend (PathTree.graft () S u m) v = some k ∧ descend (PathTree.graft () Z u m) v = some k ∧
      PathTree.graft () Z u m = PathTree.graft () Y v k := by
    have hm := h.moved
    rw [hw,regraft] at hm
    obtain ⟨s,rfl⟩ := hvu
    cases hd : descend S v with
    | none =>
      obtain rfl : s = [] := by
        obtain ⟨k,hk⟩ := hS.room
        by_contra hs
        rw [dropLast_append_of_ne_nil hs,descend_append_none hd] at hk
        cases hk
      rw [hd] at hm
      have hg : Z = Y := hm
      rw [append_nil] at hS hZ ⊢
      exact ⟨m,descend_graft_self hS.fits hS.room,descend_graft_self hZ.fits hZ.room,by rw [hg]⟩
    | some k =>
      have hl := (h.written v hw).symm.trans hd
      rw [hd] at hm
      have hg : Z = PathTree.graft () Y v k := hm
      have hf : Fits Y v k := by
        obtain ⟨e,x,rfl⟩ := (eq_nil_or_concat' v).resolve_left hne
        obtain ⟨_,_,hx⟩ := descend_concat_some.mp hd
        exact fits_concat _ (find_key hx)
      have hb : PathTree.graft () Z (v ++ s) m = PathTree.graft () Y v (PathTree.graft () k s m) := by
        rw [graft_append hl]
        nth_rewrite 1 [hg]
        rw [graft_graft hf hro]
      have ha {T : Node Unit} (hT : Proper () T (v ++ s) m q) (hTv : descend T v = some k) :
          descend (PathTree.graft () T (v ++ s) m) v = some (PathTree.graft () k s m) := by
        cases s with
        | nil =>
          rw [append_nil] at hT ⊢
          exact descend_graft_self hT.fits hT.room
        | cons y ys => exact descend_graft_above hT.fits hTv
      exact ⟨PathTree.graft () k s m,ha hS hd,ha hZ hl,hb⟩
  obtain ⟨k,hi,hZk,hb⟩ := hv
  refine ⟨fun v' hv' => ?_,fun v' hv' ho => ?_,fun v' hv' => ?_,?_⟩
  · obtain rfl := Option.some.inj (hw.symm.trans hv')
    rw [hi,hZk]
  · obtain rfl := Option.some.inj (hw.symm.trans hv')
    rw [hi] at ho
    cases ho
  · have hr := h.read v' hv'
    rcases hS.room.trichotomy v' with ⟨s,rfl⟩ | ⟨y,ys,n,hu,hn⟩ | ⟨hp,hq⟩
    · rw [descend_graft_below hS.fits hS.room,descend_graft_below hZ.fits hZ.room]
    · have ht := hS.fits
      have hy := hZ.fits
      rw [hu] at ht hy ⊢
      rw [descend_graft_above ht hn,descend_graft_above hy (hr.symm.trans hn)]
    · rw [descend_graft_apart hS.fits hS.room hp hq,descend_graft_apart hZ.fits hZ.room hp hq,hr]
  · rw [hw,regraft,hi]
    exact hb

theorem Tracks.step {r : Request} (hr : ∀ u, w = some u → u ≠ [] ∧ Room Y u)
  (hs : settled cfg con S r = true) (hc : Covered w rd (verdict cfg () con S r)) :
  verdict cfg () con Z r = verdict cfg () con S r ∧
  Tracks w rd Y ((verdict cfg () con S r).root () S) ((verdict cfg () con S r).root () Z) := by
  have ha := verdict_moved h (fun u hu => (hr u hu).1) hs hc
  refine ⟨ha,?_⟩
  cases hv : verdict cfg () con S r with
  | sets u m q =>
    have hZ := verdict_change (ha.trans hv)
    exact h.graft hr (verdict_change hv).proper hZ.proper (hc.written hv)
  | fail e | silent | shows q e => exact h

end

end Oxenstored
