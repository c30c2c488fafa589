import PMigrate.Oxenstored.Access

namespace Oxenstored

open PathTree List

def reach {τ : Type} : Node τ → Path → Path × Node τ × List Name
  | n,[] => ([],n,[])
  | n,h :: t =>
      match n.find h with
      | none => ([],n,h :: t)
      | some c => (h :: (reach c t).1,(reach c t).2)

structure Reached {τ : Type} (X : Node τ) (p d : Path) (n : Node τ) (rest : List Name) : Prop where
  path : p = d ++ rest
  node : descend X d = some n
  missing : ∀ x l, rest = x :: l → n.find x = none

def chain {τ : Type} (a : τ) (perms : NodePerms) (value : List Char) : Name → List Name → Node τ
  | x,[] => create a x perms value
  | x,y :: ys => addChild a (create a x perms []) (chain a perms value y ys)

inductive Verdict (τ : Type) where
  | fail (errno : List Char)
  | silent
  | shows (path : Path) (data : List Char)
  | sets (path : Path) (node : Node τ) (lowpath : Path)

section
variable {τ : Type}

def Verdict.reply : Verdict τ → Reply
  | .fail errno => .error errno
  | .silent => .ack
  | .shows _ data => .data data
  | .sets _ _ _ => .ack

def Verdict.root (a : τ) (X : Node τ) : Verdict τ → Node τ
  | .sets path node _ => graft a X path node
  | _ => X

def Verdict.readLowpath (low : Option Path) : Verdict τ → Option Path
  | .shows path _ => getLowest path low
  | _ => low

def Verdict.writeLowpath (low : Option Path) : Verdict τ → Option Path
  | .sets _ _ lowpath => getLowest lowpath low
  | _ => low

def Verdict.changes : Verdict τ → Bool
  | .sets _ _ _ => true
  | _ => false

def missingVerdict : Verdict τ := .fail Exn.notFound.errno

def deniedVerdict : Verdict τ := .fail Exn.permissionDenied.errno

def showVerdict (X : Node τ) (p : Path) (allowed : Node τ → Bool) (render : Node τ → List Char) : Verdict τ :=
  match reach X p with
  | (_,n,[]) => if allowed n then .shows p (render n) else deniedVerdict
  | _ => missingVerdict

variable (cfg : Config) (a : τ) (con : Con)

section
variable (X : Node τ) (p : Path)

def writeVerdict (value : List Char) : Verdict τ :=
  match reach X p with
  | (_,n,[]) =>
      if permits cfg con.perm .write n.label.perms then .sets p (setValue a n value) p else deniedVerdict
  | (d,n,x :: rest) =>
      if permits cfg con.perm .write n.label.perms then
        .sets (d ++ [x]) (chain a n.label.perms value x rest) (if rest = [] then d else d ++ [x])
      else deniedVerdict

def mkdirVerdict : Verdict τ :=
  if p = [] then .sets [] X []
  else match reach X p with
    | (_,n,[]) => if permits cfg con.perm .write n.label.perms then .silent else deniedVerdict
    | (d,n,x :: rest) =>
        if permits cfg con.perm .write n.label.perms then
          .sets (d ++ [x]) (chain a n.label.perms [] x rest) (d ++ [x])
        else deniedVerdict

def rmVerdict : Verdict τ :=
  if p = [] then .sets [] (delAllChildren a X) []
  else match reach X p with
    | (_,n,[]) =>
        if permits cfg con.perm .write n.label.perms then
          .sets p.dropLast (dropChild a ((descend X p.dropLast).getD X) (lastKey [] p)) p.dropLast
        else deniedVerdict
    | (_,_,[_]) => .silent
    | _ => missingVerdict

def setpermsVerdict (perms : NodePerms) : Verdict τ :=
  if p = [] then .sets [] (setPerms a X perms) []
  else match reach X p with
    | (_,n,[]) =>
        if checkOwner cfg con.perm n.label.perms && permits cfg con.perm .write n.label.perms then
          .sets p (setPerms a n perms) p
        else deniedVerdict
    | _ => missingVerdict

end

def onArgs {α : Type} (args : Except Exn α) (f : α → Verdict τ) : Verdict τ :=
  match args with
  | .ok v => f v
  | .error e => .fail e.errno

def verdict (X : Node τ) : Request → Verdict τ
  | .directory data => onArgs (splitOnePath data con) fun p =>
      showVerdict X p (fun n => p = [] || permits cfg con.perm .read n.label.perms) fun n =>
        joinEntries (n.children.map key).reverse
  | .read data => onArgs (splitOnePath data con) fun p =>
      showVerdict X p (fun n => permits cfg con.perm .read n.label.perms) fun n => n.label.value
  | .getperms data => onArgs (splitOnePath data con) fun p =>
      showVerdict X p (fun n => p = [] || permits cfg con.perm .read n.label.perms) fun n =>
        n.label.perms.toString ++ [nul]
  | .write data => onArgs (writeArgs con data) fun args => writeVerdict cfg a con X args.1 args.2
  | .mkdir data => onArgs (splitOnePath data con) fun p => mkdirVerdict cfg a con X p
  | .rm data => onArgs (splitOnePath data con) fun p => rmVerdict cfg a con X p
  | .setperms data => onArgs (setpermsArgs cfg con data) fun args => setpermsVerdict cfg a con X args.1 args.2

end

section
variable {τ : Type} {X n : Node τ} {p d : Path} {rest : List Name}

theorem reach_reached : Reached X p (reach X p).1 (reach X p).2.1 (reach X p).2.2 := by
  induction p generalizing X with
  | nil => exact ⟨rfl,rfl,fun x l h => nomatch h⟩
  | cons h t ih =>
    rw [reach]
    cases hc : X.find h with
    | none => exact ⟨rfl,rfl,fun x l hl => (List.cons.inj hl).1 ▸ hc⟩
    | some c =>
      obtain ⟨hp,hn,hm⟩ := @ih c
      refine ⟨?_,?_,hm⟩
      · rw [cons_append,← hp]
      · rw [descend_cons_of_find hc,hn]

theorem Reached.eq (h : Reached X p d n rest) : reach X p = (d,n,rest) := by
  obtain ⟨rfl,hn,hm⟩ := h
  induction d generalizing X with
  | nil =>
    cases hn
    cases rest with
    | nil => rfl
    | cons x l => rw [nil_append,reach,hm x l rfl]
  | cons k ks ih =>
    rw [cons_append,reach]
    cases hc : X.find k with
    | none =>
      rw [descend_cons_of_missing hc] at hn
      cases hn
    | some c =>
      rw [descend_cons_of_find hc] at hn
      dsimp only
      rw [ih hn]

theorem deepest_reach (X : Node τ) (p : Path) : getDeepestExistingNode X p = (reach X p).2.1 := by
  induction p generalizing X with
  | nil => rfl
  | cons h t ih =>
    rw [getDeepestExistingNode,reach]
    cases X.find h with
    | none => rfl
    | some c => exact ih c

theorem reached_of_descend (h : descend X p = some n) : Reached X p p n [] :=
  ⟨(append_nil p).symm,h,fun _ _ h => nomatch h⟩

theorem Reached.descend_nil (h : Reached X p d n []) : descend X p = some n := by
  obtain ⟨rfl,hn,-⟩ := h
  rwa [append_nil]

theorem Reached.descend_cons {x : Name} (h : Reached X p d n (x :: rest)) : descend X p = none := by
  obtain ⟨rfl,hn,hm⟩ := h
  exact descend_concat_missing hn (hm x rest rfl) rest

theorem getNode_gap {x : Name} (h : Reached X p d n (x :: rest)) :
  getNode X p = if rest = [] then .ok none else .error .notFound := by
  obtain ⟨rfl,hn,hm⟩ := h
  have hx := hm x rest rfl
  rcases eq_nil_or_concat' rest with rfl | ⟨ys,z,rfl⟩
  · exact getNode_none hn hx
  · rw [if_neg (concat_ne_nil z ys),← cons_append,← append_assoc]
    exact getNode_missing (descend_concat_missing hn hx ys)

end

section
variable {τ : Type} {a : τ} {perms : NodePerms} {value v : List Char} {x z : Name} {ys : List Name} {X n : Node τ}
  {d : Path}

theorem chain_key : (chain a perms value x ys).key = x := by cases ys <;> rfl

theorem descend_chain : ∃ u, descend (chain a perms [] x ys) ys = some u ∧ u.label.perms = perms ∧ u.children = [] := by
  induction ys generalizing x with
  | nil => exact ⟨_,rfl,rfl,rfl⟩
  | cons y ys ih =>
    obtain ⟨u,hu,hr⟩ := @ih y
    have hf : (chain a perms [] x (y :: ys)).find y = some (chain a perms [] y ys) :=
      findKey_cons_pos chain_key
    exact ⟨u,(descend_cons_of_find hf).trans hu,hr⟩

theorem graft_chain :
  graft a (chain a perms [] x ys) (ys ++ [z]) (create a z perms v) = chain a perms v x (ys ++ [z]) := by
  induction ys generalizing x with
  | nil => rfl
  | cons y ys ih =>
    have hf : (chain a perms [] x (y :: ys)).find y = some (chain a perms [] y ys) :=
      findKey_cons_pos chain_key
    rw [cons_append,graft_cons_of_find hf,ih]
    simp only [chain,addChild,replaceFirst,chain_key,if_pos]

theorem graft_chain_longer (hn : descend X d = some n) :
  graft a (graft a X (d ++ [x]) (chain a perms [] x ys)) (d ++ x :: (ys ++ [z])) (create a z perms v) =
    graft a X (d ++ [x]) (chain a perms v x (ys ++ [z])) := by
  have hf : Fits X (d ++ [x]) (chain a perms [] x ys) := fits_concat _ chain_key
  have hr : Room X (d ++ [x]) := room_append_singleton hn
  rw [show d ++ x :: (ys ++ [z]) = (d ++ [x]) ++ (ys ++ [z]) from by simp,
    graft_append (descend_graft_self hf hr),graft_graft hf hr,graft_chain]

theorem descend_longer (hn : descend X d = some n) : ∃ u,
  descend (graft a X (d ++ [x]) (chain a perms [] x ys)) (d ++ x :: ys) = some u ∧ u.label.perms = perms ∧
  u.find z = none := by
  have hf : Fits X (d ++ [x]) (chain a perms [] x ys) := fits_concat _ chain_key
  obtain ⟨u,hu,hp,hc⟩ := @descend_chain _ a perms x ys
  refine ⟨u,?_,hp,by rw [find,hc]; rfl⟩
  rw [show d ++ x :: ys = (d ++ [x]) ++ ys from by simp,descend_graft_below hf (room_append_singleton hn),hu]

end

section
variable {τ : Type} {cfg : Config} {a : τ} {perm : ConnPerms} {p : Path} {store : Store τ}

variable (hq : cfg.quotaActivate = false)
include hq

theorem quota_unlimited (quota : Quota) (id : Domid) (size : Nat) : Quota.check cfg quota id size = .ok () := by
  rw [Quota.check,hq]
  rfl

theorem Store.mkdir_unlimited : ∃ quota, Store.mkdir cfg a perm p store =
    (pathMkdir cfg a perm store.root p).map fun root => {root := root,quota := quota} := by
  refine ⟨store.quota.addEntry (getOwner (getDeepestExistingNode store.root p)),?_⟩
  rw [Store.mkdir,quota_unlimited hq]
  cases pathMkdir cfg a perm store.root p <;> rfl

theorem Store.write_unlimited (value : List Char) : ∃ quota, Store.write cfg a perm p value store =
    (pathWrite cfg a perm store.root p value).map fun root => {root := root,quota := quota} := by
  refine ⟨if pathExists store.root p then store.quota
    else store.quota.addEntry (getOwner (getDeepestExistingNode store.root p)),?_⟩
  rw [Store.write,quota_unlimited hq]
  cases pathWrite cfg a perm store.root p value <;> rfl

omit hq in
theorem Store.rm_unlimited {n : Node τ} (hn : descend store.root p = some n) : ∃ quota, Store.rm cfg a perm p store =
    (pathRm cfg a perm store.root p).map fun root => {root := root,quota := quota} := by
  refine ⟨(owners n).foldl Quota.delEntry store.quota,?_⟩
  rw [Store.rm,getNode_some hn]
  cases pathRm cfg a perm store.root p <;> simp [bind,Except.bind,Except.map]

theorem Store.setperms_unlimited (perms : NodePerms) {n : Node τ}
  (hn : descend store.root p = some n) : ∃ quota, Store.setperms cfg a perm p perms store =
    (pathSetperms cfg a perm store.root p perms).map fun root => {root := root,quota := quota} := by
  refine ⟨(store.quota.delEntry (getOwner n)).addEntry perms.owner,?_⟩
  rw [Store.setperms,getNode_some hn]
  cases pathSetperms cfg a perm store.root p perms <;> simp [bind,Except.bind,Except.map,quota_unlimited hq]

end

def pathsFrom (d : Path) : List Name → List Path
  | [] => []
  | z :: zs => (d ++ [z]) :: pathsFrom (d ++ [z]) zs

section
variable {τ : Type} {X n : Node τ} {d e : Path} {x : Name} {zs : List Name}

theorem inits_append : zs.inits.map (d ++ ·) = d :: pathsFrom d zs := by
  induction zs generalizing d with
  | nil => simp [pathsFrom]
  | cons z zs ih =>
    have h := @ih (d ++ [z])
    simp only [inits_cons,map_cons,map_map,append_nil,pathsFrom,← h]
    simp [Function.comp_def]

theorem hierarchy_tail : (getHierarchy d).tail = pathsFrom [] d := by
  have h := @inits_append [] d
  simp only [nil_append,map_id'] at h
  rw [getHierarchy,h,tail_cons]

theorem dropWhile_pathsFrom (hn : descend X (e ++ d) = some n) (hx : n.find x = none) :
  (pathsFrom e (d ++ x :: zs)).dropWhile (pathExists X ·) = pathsFrom (e ++ d) (x :: zs) := by
  induction d generalizing e with
  | nil =>
    rw [append_nil] at hn ⊢
    rw [nil_append,pathsFrom,dropWhile_cons_of_neg]
    rw [pathExists_eq,descend_concat_missing hn hx []]
    exact Bool.false_ne_true
  | cons k ks ih =>
    have ha : e ++ k :: ks = (e ++ [k]) ++ ks := by simp
    rw [ha] at hn ⊢
    obtain ⟨u,hu⟩ := descend_of_below hn (prefix_append ..)
    rw [cons_append,pathsFrom,dropWhile_cons_of_pos]
    · exact ih hn
    · rw [pathExists_eq,hu]
      rfl

end

theorem getCommonPrefix_of_above {p q : Path} (h : p <+: q) : getCommonPrefix q p = p := by
  induction p generalizing q with
  | nil => cases q <;> rfl
  | cons k ks ih =>
    obtain ⟨s,rfl⟩ := h
    rw [cons_append,getCommonPrefix,if_pos rfl,ih (prefix_append ..)]

theorem getCommonPrefix_above (p q : Path) : getCommonPrefix p q <+: p ∧ getCommonPrefix p q <+: q := by
  induction p generalizing q with
  | nil => exact ⟨List.nil_prefix,List.nil_prefix⟩
  | cons k ks ih =>
    cases q with
    | nil => exact ⟨List.nil_prefix,List.nil_prefix⟩
    | cons k' qs =>
      rw [getCommonPrefix]
      split_ifs with hk
      · exact ⟨cons_prefix_cons.mpr ⟨rfl,(ih qs).1⟩,cons_prefix_cons.mpr ⟨hk,(ih qs).2⟩⟩
      · exact ⟨List.nil_prefix,List.nil_prefix⟩

theorem getLowest_of_above {p q : Path} (h : p <+: q) (low : Option Path) :
  getLowest q (getLowest p low) = getLowest p low := by
  cases low with
  | none => exact congrArg some (getCommonPrefix_of_above h)
  | some l => exact congrArg some (getCommonPrefix_of_above ((getCommonPrefix_above p l).1.trans h))

structure Follows {τ : Type} (a : τ) (v : Verdict τ) (t : Transaction τ) (reply : Reply) (t' : Transaction τ) :
    Prop where
  reply : reply = v.reply
  root : t'.store.root = v.root a t.store.root
  oldroot : t'.oldroot = t.oldroot
  readLowpath : t'.readLowpath = v.readLowpath t.readLowpath
  writeLowpath : t'.writeLowpath = v.writeLowpath t.writeLowpath
  ops : t'.ops ≠ [] ↔ t.ops ≠ [] ∨ v.changes = true

section
variable {τ : Type} {cfg : Config} {a : τ} {con : Con} {t : Transaction τ} {p d : Path} {n : Node τ} {x : Name}

theorem follows_fail {e : List Char} : Follows a (.fail e) t (.error e) t :=
  ⟨rfl,rfl,rfl,rfl,rfl,by simp [Verdict.changes]⟩

theorem follows_silent : Follows a .silent t .ack t := ⟨rfl,rfl,rfl,rfl,rfl,by simp [Verdict.changes]⟩

variable {u w : Path} {α : Type} {m : Node τ}

theorem lookup_reach (g : Node τ → α) (X : Node τ) (hp : p ≠ []) :
  (lookup (readChild cfg con.perm) X p).map g = match reach X p with
    | (_,n,[]) => if permits cfg con.perm .read n.label.perms then .ok (g n) else denied
    | _ => .error .notFound := by
  have hr := @reach_reached _ X p
  generalize reach X p = r at hr
  obtain ⟨d,n,rest⟩ := r
  cases rest with
  | nil =>
    rw [lookup_readChild hr.descend_nil hp]
    dsimp only
    split <;> rfl
  | cons x rest =>
    rw [lookup_readChild_missing hr.descend_cons]
    rfl

theorem answering_follows (op : Path → Transaction τ → Except Exn (α × Transaction τ))
  (render : α → List Char) {f : Path → Except Exn α} {allowed : Path → Node τ → Bool} {g : Node τ → α}
  (ho : ∀ p, op p t = (f p).bind fun v => .ok (v,t.setReadLowpath p)) (hf : ∀ p, f p = match reach t.store.root p with
      | (_,n,[]) => if allowed p n then .ok (g n) else denied
      | _ => .error .notFound) (data : List Char) :
    Follows a (onArgs (splitOnePath data con) fun p => showVerdict t.store.root p (allowed p) fun n => render (g n)) t
      (replyOf (answering con op render data t).1) (answering con op render data t).2 := by
  rw [answering]
  cases splitOnePath data con with
  | error e => exact follows_fail
  | ok p =>
    have hb : (Except.ok p : Except Exn Path).bind (fun p => op p t) =
        (f p).bind fun v => .ok (v,t.setReadLowpath p) := ho p
    rw [hb,hf p,onArgs,showVerdict]
    generalize reach t.store.root p = r
    obtain ⟨d,n,rest⟩ := r
    cases rest with
    | cons x rest => exact follows_fail
    | nil =>
      dsimp only
      cases allowed p n with
      | false => exact follows_fail
      | true => exact ⟨rfl,rfl,rfl,rfl,rfl,by simp [Verdict.changes,Transaction.setReadLowpath]; rfl⟩

theorem read_reach (X : Node τ) (p : Path) : read cfg con.perm X p = match reach X p with
    | (_,n,[]) => if permits cfg con.perm .read n.label.perms then .ok n.label.value else denied
    | _ => .error .notFound := by
  rw [read]
  split_ifs with hp
  · rw [hp,checkPerm_bind]
    rfl
  · exact lookup_reach (fun n => n.label.value) X hp

theorem open_root_reach (g : Node τ → α) (X : Node τ) (p : Path) :
  (if p = [] then .ok (g X) else (lookup (readChild cfg con.perm) X p).map g) = match reach X p with
    | (_,n,[]) => if p = [] || permits cfg con.perm .read n.label.perms then .ok (g n) else denied
    | _ => .error .notFound := by
  split_ifs with hp
  · rw [hp]
    rfl
  · rw [lookup_reach g X hp,decide_eq_false hp]
    rfl

theorem ls_reach (X : Node τ) (p : Path) : ls cfg con.perm X p = match reach X p with
    | (_,n,[]) =>
        if p = [] || permits cfg con.perm .read n.label.perms then .ok (n.children.map key).reverse else denied
    | _ => .error .notFound := by
  rw [← open_root_reach fun n => (n.children.map key).reverse,ls]
  split
  · rfl
  · cases lookup (readChild cfg con.perm) X p <;> rfl

theorem follows_sets {s : Store τ} {op : WriteOp × Path} {t' : Transaction τ} (hr : s.root = graft a t.store.root u m)
  (ht' : t' = {t with store := s,ops := op :: t.ops,writeLowpath := getLowest w t.writeLowpath}) :
  Follows a (.sets u m w) t .ack t' := by
  subst ht'
  exact ⟨rfl,hr,rfl,rfl,rfl,by simp [Verdict.changes]⟩

section
variable (hq : cfg.quotaActivate = false)
include hq

theorem Transaction.write_existing (value : List Char)
  (hn : descend t.store.root p = some n) : ∃ store, store.root = graft a t.store.root p (setValue a n value) ∧
  t.write cfg a con.perm p value = if permits cfg con.perm .write n.label.perms then
      .ok {t with store := store,ops := (.write,p) :: t.ops,writeLowpath := getLowest p t.writeLowpath}
    else denied := by
  obtain ⟨quota,hs⟩ := @Store.write_unlimited _ cfg a con.perm p t.store hq value
  rw [pathWrite_existing value hn] at hs
  refine ⟨⟨graft a t.store.root p (setValue a n value),quota⟩,rfl,?_⟩
  have he : pathExists t.store.root p = true := by rw [pathExists_eq,hn]; rfl
  rw [Transaction.write,hs]
  split <;> rfl

theorem Transaction.write_new (value : List Char)
  (hn : descend t.store.root d = some n) (hx : n.find x = none) :
  ∃ store, store.root = graft a t.store.root (d ++ [x]) (create a x n.label.perms value) ∧
  t.write cfg a con.perm (d ++ [x]) value = if permits cfg con.perm .write n.label.perms then
      .ok {t with store := store,ops := (.write,d ++ [x]) :: t.ops,writeLowpath := getLowest d t.writeLowpath}
    else denied := by
  obtain ⟨quota,hs⟩ := @Store.write_unlimited _ cfg a con.perm (d ++ [x]) t.store hq value
  rw [pathWrite_new value hn hx] at hs
  refine ⟨⟨graft a t.store.root (d ++ [x]) (create a x n.label.perms value),quota⟩,rfl,?_⟩
  have he : pathExists t.store.root (d ++ [x]) = false := by
    rw [pathExists_eq,descend_concat_missing hn hx []]
    rfl
  rw [Transaction.write,hs]
  simp only [he,Bool.false_eq_true,if_false,getParent,dropLast_concat]
  split <;> rfl

theorem Transaction.mkdir_new (watch : Bool)
  (hn : descend t.store.root d = some n) (hx : n.find x = none) :
  ∃ store, store.root = graft a t.store.root (d ++ [x]) (create a x n.label.perms []) ∧
  t.mkdir cfg a con.perm watch (d ++ [x]) = if permits cfg con.perm .write n.label.perms then .ok {t with
        store := store,ops := if watch then (.mkdir,d ++ [x]) :: t.ops else t.ops,
        writeLowpath := getLowest (d ++ [x]) t.writeLowpath}
    else denied := by
  obtain ⟨quota,hs⟩ := @Store.mkdir_unlimited _ cfg a con.perm (d ++ [x]) t.store hq
  rw [pathMkdir_new hn hx] at hs
  refine ⟨⟨graft a t.store.root (d ++ [x]) (create a x n.label.perms []),quota⟩,rfl,?_⟩
  rw [Transaction.mkdir,hs]
  split
  · cases watch <;> rfl
  · rfl

structure SameBut (t t' : Transaction τ) : Prop where
  oldroot : t'.oldroot = t.oldroot
  readLowpath : t'.readLowpath = t.readLowpath
  ops : t'.ops = t.ops

theorem mkdirAll_chain {X : Node τ} (hn : descend X d = some n)
  (he : permits cfg con.perm .write n.label.perms = true) {low : Option Path} (ys : List Name)
  (hr : t.store.root = graft a X (d ++ [x]) (chain a n.label.perms [] x ys))
  (hl : t.writeLowpath = getLowest (d ++ [x]) low) (zs : List Name) :
  ∃ t', mkdirAll cfg a con (pathsFrom (d ++ x :: ys) zs) t = (.ok (),t') ∧
    t'.store.root = graft a X (d ++ [x]) (chain a n.label.perms [] x (ys ++ zs)) ∧
    t'.writeLowpath = getLowest (d ++ [x]) low ∧ SameBut t t' := by
  induction zs generalizing ys t with
  | nil => exact ⟨t,rfl,by rw [append_nil,hr],hl,rfl,rfl,rfl⟩
  | cons z zs ih =>
    obtain ⟨u,hu,hp,hz⟩ := @descend_longer _ a n.label.perms x z ys X n d hn
    rw [← hr] at hu
    obtain ⟨store,ht,hm⟩ := @Transaction.mkdir_new _ cfg a con t _ u z hq false hu hz
    rw [hp,if_pos he] at hm
    have ho' : store.root = graft a X (d ++ [x]) (chain a n.label.perms [] x (ys ++ [z])) := by
      rw [ht,hp,hr,append_assoc,cons_append]
      exact graft_chain_longer hn
    have hl' : getLowest (d ++ x :: ys ++ [z]) t.writeLowpath = getLowest (d ++ [x]) low := by
      rw [hl]
      exact getLowest_of_above ⟨ys ++ [z],by simp⟩ low
    obtain ⟨t',ha,ho'',hl'',hs⟩ := ih (ys ++ [z])
      (t := {t with store := store,writeLowpath := getLowest (d ++ x :: ys ++ [z]) t.writeLowpath}) ho' hl'
    refine ⟨t',?_,?_,hl'',hs.oldroot,hs.readLowpath,hs.ops⟩
    · rw [pathsFrom,mkdirAll,hm,← ha]
      simp
    · rw [ho'']
      simp

end

theorem createImplicitPath_missing (hn : descend t.store.root d = some n) (hx : n.find x = none) (ys : List Name)
  (z : Name) :
  createImplicitPath cfg a con (d ++ x :: (ys ++ [z])) t = mkdirAll cfg a con (pathsFrom d (x :: ys)) t := by
  have hd : getParent (d ++ x :: (ys ++ [z])) = d ++ x :: ys := by
    rw [getParent,show d ++ x :: (ys ++ [z]) = (d ++ x :: ys) ++ [z] by simp,dropLast_concat]
  have hp : checkPath t (getHierarchy (d ++ x :: ys)).tail = pathsFrom d (x :: ys) := by
    rw [checkPath,hierarchy_tail,dropWhile_pathsFrom hn hx]
    rfl
  rw [createImplicitPath,hd,pathExists_eq,descend_concat_missing hn hx ys,hp]
  rfl

theorem createImplicitPath_denied (hq : cfg.quotaActivate = false) (hn : descend t.store.root d = some n)
  (hx : n.find x = none) (hp : permits cfg con.perm .write n.label.perms = false) (ys : List Name) (z : Name) :
  createImplicitPath cfg a con (d ++ x :: (ys ++ [z])) t = (denied,t) := by
  obtain ⟨store,-,hm⟩ := @Transaction.mkdir_new _ cfg a con t d n x hq false hn hx
  rw [hp,if_neg Bool.false_ne_true] at hm
  rw [createImplicitPath_missing hn hx,pathsFrom,mkdirAll,hm]
  rfl

structure Prepared (a : τ) (n : Node τ) (d : Path) (x : Name) (ys : List Name) (z : Name) (t t' : Transaction τ)
    (u : Node τ) : Prop where
  node : descend t'.store.root (d ++ x :: ys) = some u
  perms : u.label.perms = n.label.perms
  missing : u.find z = none
  completed : ∀ v, graft a t'.store.root (d ++ x :: ys ++ [z]) (create a z n.label.perms v) =
    graft a t.store.root (d ++ [x]) (chain a n.label.perms v x (ys ++ [z]))
  lowpath : ∀ q, d ++ [x] <+: q → getLowest q t'.writeLowpath = getLowest (d ++ [x]) t.writeLowpath
  same : SameBut t t'

variable (hq : cfg.quotaActivate = false)
include hq

theorem createImplicitPath_prepared (hn : descend t.store.root d = some n)
  (hx : n.find x = none) (hp : permits cfg con.perm .write n.label.perms = true) (ys : List Name) (z : Name) :
  ∃ t' u, createImplicitPath cfg a con (d ++ x :: (ys ++ [z])) t = (.ok (),t') ∧ Prepared a n d x ys z t t' u := by
  obtain ⟨store,ht,hm⟩ := @Transaction.mkdir_new _ cfg a con t d n x hq false hn hx
  rw [if_pos hp] at hm
  obtain ⟨t',ha,hr,hl,hs⟩ := mkdirAll_chain
    (t := {t with store := store,writeLowpath := getLowest (d ++ [x]) t.writeLowpath}) hq hn hp [] ht rfl ys
  obtain ⟨u,hu,he,hz⟩ := @descend_longer _ a n.label.perms x z ys t.store.root n d hn
  refine ⟨t',u,?_,hr ▸ hu,he,hz,fun v => ?_,fun q hb => ?_,hs.oldroot,hs.readLowpath,hs.ops⟩
  · rw [createImplicitPath_missing hn hx,pathsFrom,mkdirAll,hm]
    exact ha
  · rw [hr,append_assoc,cons_append]
    exact graft_chain_longer hn
  · rw [hl]
    exact getLowest_of_above hb _

omit hq in
theorem createImplicitPath_existing (h : ∃ u, descend t.store.root (getParent p) = some u) :
  createImplicitPath cfg a con p t = (.ok (),t) := by
  obtain ⟨u,hu⟩ := h
  rw [createImplicitPath,pathExists_eq,hu]
  rfl

theorem created_follows {kind : WriteOp} {value : List Char}
  (finish : Path → Transaction τ → Except Exn (Transaction τ)) (low : Path → Name → Path) (hl : ∀ d x, d <+: low d x)
  (hb : ∀ {t : Transaction τ} {d n x}, descend t.store.root d = some n → n.find x = none →
    ∃ store, store.root = graft a t.store.root (d ++ [x]) (create a x n.label.perms value) ∧ finish (d ++ [x]) t =
      if permits cfg con.perm .write n.label.perms then
        .ok {t with store := store,ops := (kind,d ++ [x]) :: t.ops,writeLowpath := getLowest (low d x) t.writeLowpath}
      else denied)
  {rest : List Name} (hr : Reached t.store.root p d n (x :: rest))
  {after : Transaction τ → Except Exn Reply × Transaction τ} {r : Except Exn Reply × Transaction τ}
  (he : r = match createImplicitPath cfg a con p t with
    | (.error e,t') => (.error e,t')
    | (.ok (),t') => after t')
  (ha : ∀ t t', finish p t = .ok t' → after t = (.ok .ack,t')) (hd : ∀ t, finish p t = denied → after t = (denied,t))
  (hw : w = if rest = [] then low d x else d ++ [x]) :
  Follows a (if permits cfg con.perm .write n.label.perms then .sets (d ++ [x]) (chain a n.label.perms value x rest) w
    else deniedVerdict) t (replyOf r.1) r.2 := by
  subst hw
  obtain ⟨rfl,hn,hm⟩ := hr
  have hx := hm x rest rfl
  rcases eq_nil_or_concat' rest with rfl | ⟨ys,z,rfl⟩
  · have hp : getParent (d ++ [x]) = d := dropLast_concat
    rw [createImplicitPath_existing ⟨n,hp.symm ▸ hn⟩] at he
    obtain ⟨store,hs,hf⟩ := hb hn hx
    cases hp : permits cfg con.perm .write n.label.perms with
    | true =>
      rw [hp] at hf
      rw [he.trans (ha t _ hf)]
      exact follows_sets hs rfl
    | false =>
      rw [hp] at hf
      rw [he.trans (hd t hf)]
      exact follows_fail
  cases hp : permits cfg con.perm .write n.label.perms with
  | true =>
    obtain ⟨t',u,hi,hu⟩ := @createImplicitPath_prepared _ cfg a con t d n x hq hn hx hp ys z
    obtain ⟨store,hs,hf⟩ := hb hu.node hu.missing
    rw [hu.perms,hp,if_pos rfl,append_assoc,cons_append] at hf
    rw [hu.perms,hu.completed] at hs
    have hb : d ++ [x] <+: low (d ++ x :: ys) z := .trans ⟨ys,by simp⟩ (hl _ _)
    rw [hi] at he
    rw [he.trans (ha t' _ hf),if_pos rfl,if_neg (concat_ne_nil z ys)]
    exact ⟨rfl,hs,hu.same.oldroot,hu.same.readLowpath,hu.lowpath _ hb,by simp [Verdict.changes]⟩
  | false =>
    rw [he,createImplicitPath_denied hq hn hx hp ys z]
    exact follows_fail

section
variable (data : List Char)
include data

theorem doWrite_follows : Follows a (verdict cfg a con t.store.root (.write data)) t
    (replyOf (doWrite cfg a con data t).1) (doWrite cfg a con data t).2 := by
  rw [verdict,doWrite]
  cases writeArgs con data with
  | error e => exact follows_fail
  | ok args =>
    obtain ⟨p,value⟩ := args
    rw [onArgs]
    dsimp only
    rw [writeVerdict]
    have hr := @reach_reached _ t.store.root p
    generalize reach t.store.root p = r at hr ⊢
    obtain ⟨d,n,rest⟩ := r
    cases rest with
    | nil =>
      have hn := hr.descend_nil
      rw [createImplicitPath_existing (descend_of_below hn (List.dropLast_prefix p))]
      obtain ⟨store,hs,hw⟩ := @Transaction.write_existing _ cfg a con t p n hq value hn
      dsimp only
      rw [hw]
      split
      · exact follows_sets hs rfl
      · exact follows_fail
    | cons x rest =>
      refine created_follows hq (Transaction.write cfg a con.perm · value) (fun d _ => d) (fun d _ => prefix_refl d)
        (Transaction.write_new hq value) hr rfl (fun t t' h => by rw [h]) (fun t h => ?_) rfl
      rw [h]
      rfl

theorem doMkdir_follows : Follows a (verdict cfg a con t.store.root (.mkdir data)) t
    (replyOf (doMkdir cfg a con data t).1) (doMkdir cfg a con data t).2 := by
  rw [verdict,doMkdir]
  cases splitOnePath data con with
  | error e => exact follows_fail
  | ok p =>
    rw [onArgs]
    dsimp only
    rw [mkdirVerdict]
    split_ifs with hp
    · subst hp
      obtain ⟨quota,hs⟩ := @Store.mkdir_unlimited _ cfg a con.perm [] t.store hq
      rw [createImplicitPath_existing ⟨_,rfl⟩]
      dsimp only
      rw [Transaction.mkdir,hs]
      exact follows_sets (s := ⟨_,quota⟩) rfl rfl
    have hr := @reach_reached _ t.store.root p
    generalize reach t.store.root p = r at hr ⊢
    obtain ⟨d,n,rest⟩ := r
    cases rest with
    | nil =>
      have hn := hr.descend_nil
      rw [createImplicitPath_existing (descend_of_below hn (List.dropLast_prefix p))]
      obtain ⟨e,x,rfl⟩ := (eq_nil_or_concat' p).resolve_left hp
      obtain ⟨u,hu,hx⟩ := descend_concat_some.mp hn
      obtain ⟨quota,hs⟩ := @Store.mkdir_unlimited _ cfg a con.perm (e ++ [x]) t.store hq
      rw [pathMkdir_existing hu hx] at hs
      dsimp only
      rw [Transaction.mkdir,hs]
      split
      · exact follows_silent
      · exact follows_fail
    | cons x rest =>
      refine created_follows hq (Transaction.mkdir cfg a con.perm true) (fun d x => d ++ [x])
        (fun d x => prefix_append d [x]) (Transaction.mkdir_new hq true) hr rfl (fun t t' h => by rw [h])
        (fun t h => ?_) (ite_self _).symm
      rw [h]
      rfl

omit hq in
theorem doRm_follows : Follows a (verdict cfg a con t.store.root (.rm data)) t
  (replyOf (doRm cfg a con data t).1) (doRm cfg a con data t).2 := by
  rw [verdict,doRm]
  cases splitOnePath data con with
  | error e => exact follows_fail
  | ok p =>
    rw [onArgs]
    dsimp only
    rw [rmVerdict]
    split_ifs with hp
    · subst hp
      obtain ⟨quota,hs⟩ := @Store.rm_unlimited _ cfg a con.perm [] t.store _ rfl
      rw [Transaction.rm,hs]
      exact follows_sets (s := ⟨_,quota⟩) rfl rfl
    obtain ⟨e,y,rfl⟩ := (eq_nil_or_concat' p).resolve_left hp
    have hr := @reach_reached _ t.store.root (e ++ [y])
    generalize reach t.store.root (e ++ [y]) = r at hr ⊢
    obtain ⟨d,n,rest⟩ := r
    cases rest with
    | nil =>
      have hn := hr.descend_nil
      obtain ⟨u,hu,hy⟩ := descend_concat_some.mp hn
      obtain ⟨quota,hs⟩ := @Store.rm_unlimited _ cfg a con.perm (e ++ [y]) t.store n hn
      rw [pathRm_existing hu hy] at hs
      have hl : lastKey [] (e ++ [y]) = y := by rw [lastKey_append]; rfl
      rw [dropLast_concat,hu,Option.getD_some,hl,Transaction.rm,hs,getParent,dropLast_concat]
      dsimp only
      split
      · exact follows_sets (s := ⟨_,quota⟩) rfl rfl
      · exact follows_fail
    | cons x rest =>
      rw [Transaction.rm,Store.rm,getNode_gap hr]
      cases rest with
      | nil => exact follows_silent
      | cons z rest => exact follows_fail

theorem doSetperms_follows : Follows a (verdict cfg a con t.store.root (.setperms data)) t
    (replyOf (doSetperms cfg a con data t).1) (doSetperms cfg a con data t).2 := by
  rw [verdict,doSetperms]
  cases setpermsArgs cfg con data with
  | error e => exact follows_fail
  | ok args =>
    obtain ⟨p,perms⟩ := args
    rw [onArgs]
    dsimp only [Except.bind]
    rw [setpermsVerdict]
    split_ifs with hp
    · subst hp
      obtain ⟨quota,hs⟩ := @Store.setperms_unlimited _ cfg a con.perm [] t.store hq perms _ rfl
      rw [Transaction.setperms,hs]
      exact follows_sets (s := ⟨_,quota⟩) rfl rfl
    obtain ⟨e,y,rfl⟩ := (eq_nil_or_concat' p).resolve_left hp
    have hr := @reach_reached _ t.store.root (e ++ [y])
    generalize reach t.store.root (e ++ [y]) = r at hr ⊢
    obtain ⟨d,n,rest⟩ := r
    cases rest with
    | nil =>
      have hn := hr.descend_nil
      obtain ⟨u,hu,hy⟩ := descend_concat_some.mp hn
      obtain ⟨quota,hs⟩ := @Store.setperms_unlimited _ cfg a con.perm (e ++ [y]) t.store hq perms n hn
      rw [pathSetperms_existing perms hu hy] at hs
      rw [Transaction.setperms,hs]
      dsimp only
      split
      · exact follows_sets (s := ⟨_,quota⟩) rfl rfl
      · exact follows_fail
    | cons x rest =>
      rw [Transaction.setperms,Store.setperms,getNode_gap hr]
      cases rest with
      | nil | cons z rest => exact follows_fail

end

theorem request_follows (r : Request) (t : Transaction τ) : Follows a (verdict cfg a con t.store.root r) t
    (inputHandleError cfg a con r t).1 (inputHandleError cfg a con r t).2 := by
  cases r with
  | directory data =>
    exact answering_follows (fun p t => t.ls cfg con.perm p) joinEntries (fun _ => rfl) (ls_reach t.store.root) data
  | read data =>
    exact answering_follows (fun p t => t.read cfg con.perm p) (fun value => value) (fun _ => rfl)
      (read_reach t.store.root) data
  | getperms data =>
    exact answering_follows (fun p t => t.getperms cfg con.perm p) (fun perms => perms.toString ++ [nul])
      (fun _ => rfl) (open_root_reach (fun n => n.label.perms) t.store.root) data
  | write data => exact doWrite_follows hq data
  | mkdir data => exact doMkdir_follows hq data
  | rm data => exact doRm_follows data
  | setperms data => exact doSetperms_follows hq data

end

end Oxenstored
