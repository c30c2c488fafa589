import PMigrate.Oxenstored.Process

namespace Oxenstored

open PathTree List

def permits (cfg : Config) (perm : ConnPerms) (request : Permty) (perms : NodePerms) : Bool :=
  !(cfg.permsActivate && !perm.isDom0 && !checkOwner cfg perm perms && !perm.getOwners.any (checkAcl perms request))

variable {τ : Type} {cfg : Config} {a : τ} {perm : ConnPerms} {X n ent : Node τ} {d p : Path} {x : Name}

section
variable {α : Type} {m : Node τ}

theorem checkPerm_eq (request : Permty) : checkPerm cfg n perm request =
  if permits cfg perm request n.label.perms then .ok () else .error .permissionDenied := by
  rw [checkPerm,check,permits]
  cases cfg.permsActivate && !perm.isDom0 && !checkOwner cfg perm n.label.perms &&
    !perm.getOwners.any (checkAcl n.label.perms request) <;> rfl

theorem checkPerm_bind (request : Permty) (f : Unit → Except Exn α) : (checkPerm cfg n perm request).bind f =
  if permits cfg perm request n.label.perms then f () else .error .permissionDenied := by
  rw [checkPerm_eq]
  split <;> rfl

theorem descend_concat_some : descend X (d ++ [x]) = some ent ↔ ∃ n, descend X d = some n ∧ n.find x = some ent := by
  rw [descend_append]
  cases descend X d with
  | none => simp
  | some n =>
    have ho : descend n [x] = n.find x := by
      rw [descend]
      cases n.find x <;> rfl
    rw [Option.bind_some,ho]
    simp

theorem descend_concat_missing (hn : descend X d = some n) (hx : n.find x = none) (rest : List Name) :
  descend X (d ++ x :: rest) = none := by
  rw [descend_append_some hn,descend_cons_of_missing hx]

theorem lookupModify_cons (f : Node τ → Name → Except Exn (Node τ)) {l : Path} (hl : l ≠ []) (h : Name) :
  lookupModify a f X (h :: l) = match X.find h with
      | none => .error (.lookupDoesntExist h)
      | some c => (lookupModify a f c l).map (replaceChild a X c) := by
  cases l with
  | nil => exact absurd rfl hl
  | cons h' l => rfl

theorem lookup_cons (f : Node τ → Name → Except Exn α) {l : Path} (hl : l ≠ []) (h : Name) : lookup f X (h :: l) =
    match X.find h with
      | none => .error .notFound
      | some c => lookup f c l := by
  cases l with
  | nil => exact absurd rfl hl
  | cons h' l => rfl

theorem replaceChild_graft {c : Node τ} (h : X.find x = some c) :
  replaceChild a X c (graft a c p m) = graft a X (x :: p) m := by
  rw [replaceChild,graft_cons_of_find h,find_key h]

theorem lookupModify_at (f : Node τ → Name → Except Exn (Node τ)) (h : descend X d = some n) :
  lookupModify a f X (d ++ [x]) = (f n x).map (graft a X d) := by
  induction d generalizing X with
  | nil =>
    obtain rfl := Option.some.inj h
    rw [nil_append,lookupModify]
    cases f X x <;> rfl
  | cons k ks ih =>
    rw [cons_append,lookupModify_cons f (concat_ne_nil x ks) k]
    cases hc : X.find k with
    | none =>
      rw [descend_cons_of_missing hc] at h
      cases h
    | some c =>
      rw [descend_cons_of_find hc] at h
      dsimp only
      rw [ih h]
      cases f n x with
      | error e => rfl
      | ok v => exact congrArg Except.ok (replaceChild_graft hc)

theorem lookup_at (f : Node τ → Name → Except Exn α) (h : descend X d = some n) : lookup f X (d ++ [x]) = f n x := by
  induction d generalizing X with
  | nil =>
    cases h
    rw [nil_append,lookup]
  | cons k ks ih =>
    rw [cons_append,lookup_cons f (concat_ne_nil x ks) k]
    cases hc : X.find k with
    | none =>
      rw [descend_cons_of_missing hc] at h
      cases h
    | some c =>
      rw [descend_cons_of_find hc] at h
      exact ih h

theorem lookup_missing (f : Node τ → Name → Except Exn α) (h : descend X d = none) :
  lookup f X (d ++ [x]) = .error .notFound := by
  induction d generalizing X with
  | nil => cases h
  | cons k ks ih =>
    rw [cons_append,lookup_cons f (concat_ne_nil x ks) k]
    cases hc : X.find k with
    | none => rfl
    | some c =>
      rw [descend_cons_of_find hc] at h
      exact ih h

theorem lookupGet_eq (h : p ≠ []) : lookupGet X p =
  lookup (fun node name => (node.find name).elim (.error .doesntExist) .ok) X p := by
  induction p generalizing X with
  | nil => exact absurd rfl h
  | cons k ks ih =>
    cases ks with
    | nil =>
      rw [lookupGet,lookup]
      cases X.find k <;> rfl
    | cons k' ks =>
      rw [lookupGet,lookup]
      cases X.find k with
      | none => rfl
      | some c => exact ih (cons_ne_nil k' ks)

theorem getNode_some (h : descend X p = some n) : getNode X p = .ok (some n) := by
  rw [getNode]
  split_ifs with hp
  · subst hp
    rw [← Option.some.inj h]
  obtain ⟨d,x,rfl⟩ := (eq_nil_or_concat' p).resolve_left hp
  obtain ⟨u,hu,hx⟩ := descend_concat_some.mp h
  rw [lookupGet_eq hp,lookup_at _ hu,hx]
  rfl

theorem getNode_none (h : descend X d = some n) (hx : n.find x = none) : getNode X (d ++ [x]) = .ok none := by
  rw [getNode,if_neg (concat_ne_nil x d),lookupGet_eq (concat_ne_nil x d),lookup_at _ h,hx]
  rfl

theorem getNode_missing (h : descend X d = none) : getNode X (d ++ [x]) = .error .notFound := by
  rw [getNode,if_neg (concat_ne_nil x d),lookupGet_eq (concat_ne_nil x d),lookup_missing _ h]

theorem pathExists_eq : pathExists X p = (descend X p).isSome := by
  rw [pathExists]
  split_ifs with hp
  · subst hp
    rfl
  obtain ⟨d,x,rfl⟩ := (eq_nil_or_concat' p).resolve_left hp
  cases hd : descend X d with
  | none => rw [lookup_missing _ hd,descend_append_none hd]; rfl
  | some n =>
    rw [lookup_at _ hd,descend_append_some hd,descend]
    cases n.find x <;> rfl

theorem graft_replace (hn : descend X d = some n) (hx : n.find x = some ent) :
  graft a X d (replaceChild a n ent m) = graft a X (d ++ [x]) m := by
  rw [graft_append hn,graft_cons_of_find hx,replaceChild,find_key hx]
  rfl

theorem graft_add (hn : descend X d = some n) (hx : n.find x = none) :
  graft a X d (addChild a n m) = graft a X (d ++ [x]) m := by
  rw [graft_append hn,graft_cons_of_missing hx,addChild]

end

def denied {α : Type} : Except Exn α := .error .permissionDenied

theorem pathMkdir_new (hn : descend X d = some n) (hx : n.find x = none) : pathMkdir cfg a perm X (d ++ [x]) =
  if permits cfg perm .write n.label.perms then .ok (graft a X (d ++ [x]) (create a x n.label.perms []))
  else denied := by
  rw [pathMkdir,if_neg (concat_ne_nil x d),lookupModify_at _ hn]
  simp only [hx,checkPerm_bind]
  split
  · exact congrArg Except.ok (graft_add hn hx)
  · rfl

theorem pathMkdir_existing (hn : descend X d = some n) (hx : n.find x = some ent) : pathMkdir cfg a perm X (d ++ [x]) =
    if permits cfg perm .write ent.label.perms then .error .alreadyExist else denied := by
  rw [pathMkdir,if_neg (concat_ne_nil x d),lookupModify_at _ hn]
  simp only [hx,checkPerm_bind]
  split <;> rfl

theorem pathWrite_new (value : List Char) (hn : descend X d = some n) (hx : n.find x = none) :
  pathWrite cfg a perm X (d ++ [x]) value =
    if permits cfg perm .write n.label.perms then .ok (graft a X (d ++ [x]) (create a x n.label.perms value))
    else denied := by
  rw [pathWrite,if_neg (concat_ne_nil x d),lookupModify_at _ hn]
  simp only [hx,checkPerm_bind]
  split
  · exact congrArg Except.ok (graft_add hn hx)
  · rfl

theorem pathWrite_existing (value : List Char) (h : descend X p = some ent) : pathWrite cfg a perm X p value =
    if permits cfg perm .write ent.label.perms then .ok (graft a X p (setValue a ent value)) else denied := by
  rcases eq_nil_or_concat' p with rfl | ⟨d,x,rfl⟩
  · cases h
    rw [pathWrite,if_pos rfl,checkPerm_bind]
    rfl
  obtain ⟨n,hn,hx⟩ := descend_concat_some.mp h
  rw [pathWrite,if_neg (concat_ne_nil x d),lookupModify_at _ hn]
  simp only [hx,checkPerm_bind]
  split
  · exact congrArg Except.ok (graft_replace hn hx)
  · rfl

def dropChild (a : τ) (n : Node τ) (x : Name) : Node τ := {n with stamp := a,children := deleteFirst x n.children}

theorem pathRm_existing (hn : descend X d = some n) (hx : n.find x = some ent) : pathRm cfg a perm X (d ++ [x]) =
  if permits cfg perm .write ent.label.perms then .ok (graft a X d (dropChild a n x)) else denied := by
  rw [pathRm,if_neg (concat_ne_nil x d),lookupModify_at _ hn]
  simp only [hx,checkPerm_bind,delChildname]
  split <;> rfl

theorem pathSetperms_existing (perms : NodePerms) (hn : descend X d = some n) (hx : n.find x = some ent) :
  pathSetperms cfg a perm X (d ++ [x]) perms =
    if checkOwner cfg perm ent.label.perms && permits cfg perm .write ent.label.perms then
      .ok (graft a X (d ++ [x]) (setPerms a ent perms)) else denied := by
  rw [pathSetperms,if_neg (concat_ne_nil x d),lookupModify_at _ hn]
  simp only [hx,checkPerm_bind,Node.checkOwner]
  cases checkOwner cfg perm ent.label.perms
  · rfl
  rw [if_pos rfl,Bool.true_and]
  split
  · exact congrArg Except.ok (graft_replace hn hx)
  · rfl

theorem lookup_readChild (h : descend X p = some ent) (hp : p ≠ []) : lookup (readChild cfg perm) X p =
  if permits cfg perm .read ent.label.perms then .ok ent else denied := by
  obtain ⟨d,x,rfl⟩ := (eq_nil_or_concat' p).resolve_left hp
  obtain ⟨n,hn,hx⟩ := descend_concat_some.mp h
  rw [lookup_at _ hn,readChild,hx]
  exact checkPerm_bind ..

theorem lookup_readChild_missing (h : descend X p = none) : lookup (readChild cfg perm) X p = .error .notFound := by
  rcases eq_nil_or_concat' p with rfl | ⟨d,x,rfl⟩
  · cases h
  cases hn : descend X d with
  | none => exact lookup_missing _ hn
  | some n =>
    rw [descend_append_some hn] at h
    rw [lookup_at _ hn,readChild]
    cases hx : n.find x with
    | none => rfl
    | some ent =>
      rw [descend_cons_of_find hx] at h
      cases h

end Oxenstored
