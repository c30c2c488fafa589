import PMigrate.Oxenstored.Verdict

namespace Oxenstored

open PathTree List

structure Watch where
  con : Con
  (token path : List Char)

-- The connection's table and count, and the trie of the watches of all connections.
structure Watches where
  con : List Char → Option (List Watch)
  nbWatches : Nat
  all : List Name → Option (List Watch)

section
variable (cfg : Config) (maxwatch : Nat) (con : Con)

def getWatchPath : List Char → Except Exn (List Char)
  | [] => .error .invalidArgument
  | c :: s => .ok (if c = '@' ∨ c = '/' then c :: s else con.getPath ++ c :: s)

def keyOfStr (path : List Char) : Except Exn (List Name) :=
  if path.head? = some '@' then .ok [path] else (Path.ofString path).map ([] :: ·)

def Connection.addWatch (path token : List Char) (w : Watches) : Except Exn (List Char × Watch × Watches) := do
  if cfg.quotaActivate ∧ 0 < maxwatch ∧ con.perm.isDom0 = false ∧ maxwatch < w.nbWatches then .error .limitReached
  let apath ← getWatchPath con path
  let l := (w.con apath).getD []
  if l.any (·.token = token) then .error .alreadyExist
  let watch : Watch := ⟨con,token,path⟩
  .ok (apath,watch,{w with
    con := Function.update w.con apath (some (watch :: l))
    nbWatches := w.nbWatches+1})

def Connections.addWatch (path token : List Char) (w : Watches) : Except Exn Watch × Watches :=
  match Connection.addWatch cfg maxwatch con path token w with
  | .error e => (.error e,w)
  | .ok (apath,watch,w) =>
      match keyOfStr apath with
      | .error e => (.error e,w)
      | .ok key => (.ok watch,{w with all := Function.update w.all key (some (watch :: (w.all key).getD []))})

def doWatch (data : List Char) (w : Watches) : Except Exn Watch × Watches :=
  match data.splitOn nul with
  | [node,token,[]] => Connections.addWatch cfg maxwatch con node token w
  | _ => (.error .invalidCmdArgs,w)

end

inductive AnyRequest where
  | store (r : Request)
  | watch (data : List Char)

variable {τ : Type}

section
variable (cfg : Config) (maxwatch : Nat) (a : τ) (con : Con) (t : Transaction τ) (w : Watches)

def outcome : AnyRequest → Except Exn Unit × Store τ × Watches
  | .store r =>
      let res := functionOfType cfg a con r t
      (res.1.map fun _ => (),res.2.store,w)
  | .watch data =>
      let res := doWatch cfg maxwatch con data w
      (res.1.map fun _ => (),t.store,res.2)

def missingParents (path : Path) : List Path :=
  if pathExists t.store.root (getParent path) then [] else checkPath t (getHierarchy (getParent path)).tail

-- The parent is missing, the connection may write the deepest directory that exists above it, and the owner of that
-- one is within the entry quota.
def Creates (path : Path) : Prop :=
  pathExists t.store.root (getParent path) = false ∧
    checkPerm cfg (getDeepestExistingNode t.store.root (getParent path)) con.perm .write = .ok () ∧
    Quota.check cfg t.store.quota (getOwner (getDeepestExistingNode t.store.root (getParent path))) 0 = .ok ()

def FailsLate : AnyRequest → Prop
  | .store (.write data) => ∃ path value, writeArgs con data = .ok (path,value) ∧ Creates cfg con t path
  | .store (.mkdir data) => ∃ path, splitOnePath data con = .ok path ∧ Creates cfg con t path
  | .store _ => False
  | .watch data => ∃ node token apath r, data.splitOn nul = [node,token,[]] ∧
      Connection.addWatch cfg maxwatch con node token w = .ok (apath,r) ∧ ∀ key, keyOfStr apath ≠ .ok key

end

variable {cfg : Config} {maxwatch : Nat} {a : τ} {con : Con} {t t' : Transaction τ} {w : Watches} {p q : Path}

theorem mkdir_new_node (hm : t.mkdir cfg a con.perm false p = .ok t') (hp : p ≠ []) :
  ∃ m, Fits t.store.root p m ∧ Room t.store.root p ∧ descend t.store.root p = none ∧
    t'.store.root = graft a t.store.root p m := by
  have h := Transaction.mkdir_ok hm
  obtain ⟨d,x,rfl⟩ := (eq_nil_or_concat' p).resolve_left hp
  have hl := h
  rw [pathMkdir,if_neg hp] at hl
  obtain ⟨n,hn⟩ := lookupModify_ok hl
  cases hx : n.find x with
  | some ent =>
    rw [pathMkdir_existing hn hx] at h
    split at h <;> cases h
  | none =>
    rw [pathMkdir_new hn hx] at h
    split at h
    · exact ⟨_,fits_concat _ rfl,room_append_singleton hn,descend_concat_missing hn hx [],(Except.ok.inj h).symm⟩
    · cases h

theorem mkdir_keeps (hm : t.mkdir cfg a con.perm false p = .ok t') (hq : descend t.store.root q ≠ none) :
  descend t'.store.root q ≠ none := by
  by_cases hp : p = []
  · subst hp
    rw [← Except.ok.inj (Transaction.mkdir_ok hm)]
    exact hq
  obtain ⟨m,hf,hr,hn,he⟩ := mkdir_new_node hm hp
  rw [he]
  rcases hr.trichotomy q with ⟨s,rfl⟩ | ⟨k,ks,u,hk,hu⟩ | ⟨hb,ha⟩
  · exact absurd (descend_append_none hn) hq
  · rw [hk] at hf ⊢
    rw [descend_graft_above hf hu]
    exact Option.some_ne_none _
  · rwa [descend_graft_apart hf hr hb ha]

theorem mkdirAll_keeps (ss : List Path) (hq : descend t.store.root q ≠ none) :
  descend (mkdirAll cfg a con ss t).2.store.root q ≠ none := by
  induction ss generalizing t with
  | nil => exact hq
  | cons s ss ih =>
    rw [mkdirAll]
    cases hm : t.mkdir cfg a con.perm false s with
    | error e => exact hq
    | ok t' => exact ih (mkdir_keeps hm hq)

theorem createImplicitPath_eq (p : Path) :
  createImplicitPath cfg a con p t = mkdirAll cfg a con (missingParents t p) t := by
  rw [createImplicitPath,missingParents]
  split <;> rfl

variable {X n : Node τ} {d l : List Name} {x : Name}

theorem first_missing (hn : descend X d = some n) (hx : n.find x = none) :
  ((d ++ x :: l).inits.tail.dropWhile (pathExists X ·)).head? = some (d ++ [x]) := by
  have he : ∀ q ∈ d.inits.tail, pathExists X q = true := by
    intro q hq
    obtain ⟨s,rfl⟩ := (mem_inits q d).mp (mem_of_mem_tail hq)
    rw [pathExists_eq,Option.isSome_iff_ne_none]
    intro h0
    rw [descend_append_none h0] at hn
    cases hn
  have hd : d.inits ≠ [] := ne_nil_of_mem ((mem_inits d d).mpr (prefix_refl d))
  have hm : pathExists X (d ++ [x]) = false := by rw [pathExists_eq,descend_concat_missing hn hx []]; rfl
  obtain ⟨qs,hq⟩ : ∃ qs, l.inits = [] :: qs := by cases l <;> simp
  rw [List.inits_append,tail_append_of_ne_nil hd,dropWhile_append_of_pos he,inits_cons,tail_cons,hq]
  simp [hm]

-- create_implicit_path starts with the directory below the deepest one that exists.
theorem missingParents_head (h : Reached t.store.root (getParent p) d n (x :: l)) :
  (missingParents t p).head? = some (d ++ [x]) := by
  have he : pathExists t.store.root (getParent p) = false := by rw [pathExists_eq,h.descend_cons]; rfl
  rw [missingParents,he,if_neg Bool.false_ne_true,checkPath,getHierarchy,h.path]
  exact first_missing h.node (h.missing x l rfl)

theorem mkdir_gap (hn : descend t.store.root d = some n) (hx : n.find x = none) :
  (∃ t', t.mkdir cfg a con.perm false (d ++ [x]) = .ok t') ↔
    checkPerm cfg n con.perm .write = .ok () ∧ Quota.check cfg t.store.quota (getOwner n) 0 = .ok () := by
  have hd : getDeepestExistingNode t.store.root (d ++ [x]) = n := by
    rw [deepest_reach,Reached.eq ⟨rfl,hn,fun y l h => (List.cons.inj h).1 ▸ hx⟩]
  rw [Transaction.mkdir,Store.mkdir,hd,pathMkdir_new hn hx,checkPerm_eq]
  cases Quota.check cfg t.store.quota (getOwner n) 0 with
  | error e => simp [bind,Except.bind]
  | ok u =>
    split <;> simp [bind,Except.bind,denied]

-- A directory that has been created is still there when a later one fails.
theorem createImplicitPath_unchanged (p : Path) :
  (createImplicitPath cfg a con p t).2.store = t.store ↔ ¬Creates cfg con t p := by
  have hr := @reach_reached _ t.store.root (getParent p)
  rw [createImplicitPath_eq,Creates,deepest_reach]
  generalize reach t.store.root (getParent p) = res at hr
  obtain ⟨d,n,rest⟩ := res
  cases rest with
  | nil =>
    have he : pathExists t.store.root (getParent p) = true := by rw [pathExists_eq,hr.descend_nil]; rfl
    simp [missingParents,he,mkdirAll]
  | cons x l =>
    have he : pathExists t.store.root (getParent p) = false := by rw [pathExists_eq,hr.descend_cons]; rfl
    obtain ⟨ss,hs⟩ := head?_eq_some_iff.mp (missingParents_head hr)
    have hx := hr.missing x l rfl
    rw [hs,mkdirAll,← mkdir_gap (a := a) hr.node hx]
    cases hk : t.mkdir cfg a con.perm false (d ++ [x]) with
    | error e => simp
    | ok t' =>
      refine ⟨fun h => ?_,fun h => absurd ⟨he,t',rfl⟩ h⟩
      obtain ⟨m,hf,hr',-,hg⟩ := mkdir_new_node hk (concat_ne_nil x d)
      refine absurd (h ▸ descend_concat_missing hr.node hx []) (mkdirAll_keeps ss ?_)
      rw [hg,descend_graft_self hf hr']
      exact Option.some_ne_none _

theorem after_parents_unchanged {after : Transaction τ → Except Exn Reply × Transaction τ} {e : Exn}
  (ha : ∀ t' e, (after t').1 = .error e → (after t').2 = t') {r : Except Exn Reply × Transaction τ}
  (hr : r = match createImplicitPath cfg a con p t with
    | (.error e,t') => (.error e,t')
    | (.ok (),t') => after t') (he : r.1 = .error e) : r.2.store = t.store ↔ ¬Creates cfg con t p := by
  rw [← @createImplicitPath_unchanged _ _ a]
  generalize createImplicitPath cfg a con p t = c at hr ⊢
  obtain ⟨res,t'⟩ := c
  subst hr
  cases res with
  | error e => exact Iff.rfl
  | ok u => exact iff_of_eq (congrArg (fun s : Transaction τ => s.store = t.store) (ha t' e he))

theorem addWatch_counts {path token apath : List Char} {watch : Watch} {w' : Watches}
  (h : Connection.addWatch cfg maxwatch con path token w = .ok (apath,watch,w')) : w'.nbWatches = w.nbWatches+1 := by
  unfold Connection.addWatch at h
  split at h
  · cases h
  obtain ⟨p,-,h⟩ := bind_ok h
  dsimp only at h
  split at h
  · cases h
  · cases h
    rfl

theorem doWatch_unchanged {data : List Char} {e : Exn} (he : (doWatch cfg maxwatch con data w).1 = .error e) :
  (doWatch cfg maxwatch con data w).2 = w ↔ ¬FailsLate cfg maxwatch con t w (.watch data) := by
  rw [FailsLate]
  unfold doWatch at he ⊢
  split at he
  · rename_i node token hs
    rw [hs]
    unfold Connections.addWatch at he ⊢
    cases ha : Connection.addWatch cfg maxwatch con node token w with
    | error e => simp_all
    | ok r =>
      obtain ⟨apath,watch,w'⟩ := r
      rw [ha] at he
      dsimp only at he ⊢
      cases hk : keyOfStr apath with
      | ok key =>
        rw [hk] at he
        cases he
      | error e =>
        have hn : w' ≠ w := fun h => absurd (h ▸ addWatch_counts ha) (Nat.ne_of_lt (Nat.lt_succ_self _))
        refine ⟨fun h => absurd h hn,fun h => absurd ⟨node,token,apath,(watch,w'),rfl,ha,?_⟩ h⟩
        simp [hk]
  · rename_i hs
    simp_all

section
variable {data : List Char} {e : Exn}

theorem doWrite_unchanged (he : (doWrite cfg a con data t).1 = .error e) :
  (doWrite cfg a con data t).2.store = t.store ↔ ¬FailsLate cfg maxwatch con t w (.store (.write data)) := by
  simp only [FailsLate,doWrite] at he ⊢
  cases ha : writeArgs con data with
  | error e => simp
  | ok args =>
    obtain ⟨path,value⟩ := args
    rw [ha] at he
    refine (after_parents_unchanged (fun t' e h => ?_) rfl he).trans (by simp)
    split at h
    · cases h
    · rfl

theorem doMkdir_unchanged (he : (doMkdir cfg a con data t).1 = .error e) :
  (doMkdir cfg a con data t).2.store = t.store ↔ ¬FailsLate cfg maxwatch con t w (.store (.mkdir data)) := by
  simp only [FailsLate,doMkdir] at he ⊢
  cases ha : splitOnePath data con with
  | error e => simp
  | ok path =>
    rw [ha] at he
    refine (after_parents_unchanged (fun t' e h => ?_) rfl he).trans (by simp)
    split at h
    · cases h
    · cases h
    · rfl

theorem doRm_unchanged (he : (doRm cfg a con data t).1 = .error e) : (doRm cfg a con data t).2 = t := by
  rw [doRm] at he ⊢
  split at he
  · rfl
  split at he
  · cases he
  · cases he
  · rfl

theorem doSetperms_unchanged (he : (doSetperms cfg a con data t).1 = .error e) :
  (doSetperms cfg a con data t).2 = t := by
  rw [doSetperms] at he ⊢
  split at he
  · cases he
  · rfl

theorem answering_unchanged {α : Type} {op : Path → Transaction τ → Except Exn (α × Transaction τ)}
  {render : α → List Char} (he : (answering con op render data t).1 = .error e) :
  (answering con op render data t).2 = t := by
  rw [answering] at he ⊢
  split at he
  · cases he
  · rfl

-- Only write and mkdir change the store before they can still fail.
theorem store_request_unchanged {r : Request} (he : (functionOfType cfg a con r t).1 = .error e) :
  (functionOfType cfg a con r t).2.store = t.store ↔ ¬FailsLate cfg maxwatch con t w (.store r) := by
  cases r with
  | write data => exact doWrite_unchanged he
  | mkdir data => exact doMkdir_unchanged he
  | rm data => exact iff_of_true (congrArg Transaction.store (doRm_unchanged he)) id
  | setperms data => exact iff_of_true (congrArg Transaction.store (doSetperms_unchanged he)) id
  | directory data | read data | getperms data =>
    exact iff_of_true (congrArg Transaction.store (answering_unchanged he)) id

theorem error_of_map {α : Type} {res : Except Exn α} (h : (res.map fun _ => ()) = .error e) : res = .error e := by
  cases res with
  | error e' => exact congrArg Except.error (Except.error.inj h)
  | ok v => cases h

end

theorem failed_request_unchanged_iff {r : AnyRequest} {e : Exn} (he : (outcome cfg maxwatch a con t w r).1 = .error e) :
  (outcome cfg maxwatch a con t w r).2 = (t.store,w) ↔ ¬FailsLate cfg maxwatch con t w r := by
  cases r with
  | watch data => simpa [outcome] using doWatch_unchanged (error_of_map he)
  | store r => simpa [outcome] using store_request_unchanged (error_of_map he)

def noWatches : Watches := {con := fun _ => none,nbWatches := 0,all := fun _ => none}

-- domain 1 may not write /tool, the deepest directory that exists above the path
theorem denied_write_unchanged :
  (outcome defaultConfig 0 1 (guest 1) bare noWatches (.store (.write (text "/tool/a/b")))).1 =
    .error .permissionDenied ∧
  (outcome defaultConfig 0 1 (guest 1) bare noWatches (.store (.write (text "/tool/a/b")))).2 =
    (bare.store,noWatches) := by
  refine ⟨rfl,(failed_request_unchanged_iff (e := .permissionDenied) rfl).mpr ?_⟩
  rintro ⟨path,value,ha,-,hp,-⟩
  cases (show Except.ok (["tool".toList,"a".toList,"b".toList],[]) = Except.ok (path,value) from ha)
  cases hp

def smallValues : Config := {defaultConfig with maxsize := 1}

theorem failed_requests_leave_changes :
  (let res := outcome smallValues 0 1 (guest 0) bare noWatches (.store (.write (text "/a/b" ++ ['x','x'])));
    res.1 = .error .dataTooBig ∧ pathExists bareRoot [['a']] = false ∧ pathExists res.2.1.root [['a']] = true) ∧
  (let res := outcome smallValues 0 1 (guest 0) bare noWatches (.watch (text "/a//b" ++ text "t"));
    res.1 = .error .invalidPath ∧ res.2.2.nbWatches = noWatches.nbWatches+1) :=
  ⟨⟨rfl,rfl,rfl⟩,rfl,rfl⟩

end Oxenstored
