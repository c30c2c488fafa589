import PMigrate.Oxenstored.Effects

namespace Oxenstored

open PathTree List Option

def Permits (perm : ConnPerms) (request : Permty) (perms : NodePerms) : Prop :=
  perms.owner ∈ perm.getOwners ∨ ∃ id ∈ perm.getOwners, granted ((perms.acl.lookup id).getD perms.other) request = true

def content {τ : Type} (X : Node τ) (q : Path) : Option Content := (descend X q).map label

def Nearest {τ : Type} (X : Node τ) (q : Path) (n : Node τ) : Prop :=
  ∃ d, d <+: q ∧ descend X d = some n ∧ ∀ d', d' <+: q → descend X d' ≠ none → d' <+: d

def Request.path (cfg : Config) (con : Con) : Request → Option Path
  | .directory data | .read data | .getperms data | .mkdir data | .rm data => (splitOnePath data con).toOption
  | .write data => (writeArgs con data).toOption.map (·.1)
  | .setperms data => (setpermsArgs cfg con data).toOption.map (·.1)

def Request.checksRoot : Request → Bool
  | .read _ | .write _ | .mkdir _ => true
  | .directory _ | .getperms _ | .rm _ | .setperms _ => false

def Request.changes : Request → Bool
  | .write _ | .mkdir _ | .rm _ | .setperms _ => true
  | .directory _ | .read _ | .getperms _ => false

inductive Entitled {τ : Type} (perm : ConnPerms) (X : Node τ) : Request → Path → Path → Prop where
  | written {data : List Char} {p : Path} {n : Node τ} (hn : descend X p = some n)
      (hwrite : Permits perm .write n.label.perms) : Entitled perm X (.write data) p p
  | removed {data : List Char} {p q : Path} {n : Node τ} (hq : p <+: q) (hn : descend X p = some n)
      (hwrite : Permits perm .write n.label.perms) : Entitled perm X (.rm data) p q
  | regranted {data : List Char} {p : Path} {n : Node τ} (hn : descend X p = some n)
      (hwrite : Permits perm .write n.label.perms) (hown : n.label.perms.owner ∈ perm.getOwners) :
      Entitled perm X (.setperms data) p p
  | created {r : Request} {p q : Path} {n : Node τ} (hq : q <+: p) (hnew : descend X q = none) (hn : Nearest X q n)
      (hwrite : Permits perm .write n.label.perms) : Entitled perm X r p q

variable {cfg : Config} {perm : ConnPerms}

section
variable {perms : NodePerms}

theorem isOwner_iff (id : Domid) : perm.isOwner id = true ↔ id ∈ perm.getOwners := by
  rw [ConnPerms.isOwner,ConnPerms.getOwners]
  cases perm.target with
  | none => rw [decide_eq_true_iff,mem_singleton,eq_comm]
  | some target =>
    rw [Bool.or_eq_true,decide_eq_true_iff,decide_eq_true_iff,mem_cons,mem_singleton,eq_comm,
      @eq_comm _ target]

theorem permits_iff (hactive : cfg.permsActivate = true) (hdom0 : perm.isDom0 = false) (request : Permty) :
  permits cfg perm request perms = true ↔ Permits perm request perms := by
  rw [permits,checkOwner,hactive,hdom0,Permits,← isOwner_iff]
  cases perm.isOwner perms.owner with
  | true => simp
  | false => simp [checkAcl]

theorem owner_of_checkOwner (hactive : cfg.permsActivate = true) (hdom0 : perm.isDom0 = false)
  (h : checkOwner cfg perm perms = true) : perms.owner ∈ perm.getOwners := by
  rw [checkOwner,hactive,hdom0] at h
  exact (isOwner_iff _).mp h

theorem bind_ok {α β : Type} {x : Except Exn α} {f : α → Except Exn β} {b : β} (h : x.bind f = .ok b) :
  ∃ v, x = .ok v ∧ f v = .ok b := by
  cases x with
  | error e => cases h
  | ok v => exact ⟨v,rfl,h⟩

theorem map_ok {α β : Type} {x : Except Exn α} {f : α → β} {b : β} (h : x.map f = .ok b) :
  ∃ v, x = .ok v ∧ f v = b := by
  cases x with
  | error e => cases h
  | ok v => exact ⟨v,rfl,Except.ok.inj h⟩

end

variable {τ : Type} {a : τ} {X Y : Node τ} {p : Path}

section
variable {store store' : Store τ}

theorem Store.mkdir_ok (h : Store.mkdir cfg a perm p store = .ok store') :
  pathMkdir cfg a perm store.root p = .ok store'.root := by
  obtain ⟨-,-,h⟩ := bind_ok h
  obtain ⟨root,hr,h⟩ := bind_ok h
  rw [← Except.ok.inj h]
  exact hr

theorem Store.write_ok {value : List Char} (h : Store.write cfg a perm p value store = .ok store') :
  pathWrite cfg a perm store.root p value = .ok store'.root := by
  obtain ⟨-,-,h⟩ := bind_ok h
  obtain ⟨root,hr,h⟩ := bind_ok h
  rw [← Except.ok.inj h]
  exact hr

theorem Store.rm_ok (h : Store.rm cfg a perm p store = .ok store') :
  ∃ n, getNode store.root p = .ok (some n) ∧ pathRm cfg a perm store.root p = .ok store'.root := by
  obtain ⟨found,hf,h⟩ := bind_ok h
  cases found with
  | none => cases h
  | some n =>
    obtain ⟨root,hr,h⟩ := bind_ok h
    rw [← Except.ok.inj h]
    exact ⟨n,hf,hr⟩

theorem Store.setperms_ok {perms : NodePerms} (h : Store.setperms cfg a perm p perms store = .ok store') :
  ∃ n, getNode store.root p = .ok (some n) ∧ pathSetperms cfg a perm store.root p perms = .ok store'.root := by
  obtain ⟨found,hf,h⟩ := bind_ok h
  cases found with
  | none => cases h
  | some n =>
    obtain ⟨-,-,h⟩ := bind_ok h
    obtain ⟨root,hr,h⟩ := bind_ok h
    rw [← Except.ok.inj h]
    exact ⟨n,hf,hr⟩

theorem descend_of_getNode {n : Node τ} (h : getNode X p = .ok (some n)) : descend X p = some n := by
  rcases eq_nil_or_concat' p with rfl | ⟨d,x,rfl⟩
  · exact Except.ok.inj h
  cases hd : descend X d with
  | none =>
    rw [getNode_missing hd] at h
    cases h
  | some u =>
    cases hx : u.find x with
    | none =>
      rw [getNode_none hd hx] at h
      cases h
    | some ent =>
      have he := descend_concat_some.mpr ⟨u,hd,hx⟩
      rw [getNode_some he] at h
      rw [he,Except.ok.inj h]

theorem lookupModify_ok {f : Node τ → Name → Except Exn (Node τ)} {d : Path} {x : Name}
  (h : lookupModify a f X (d ++ [x]) = .ok Y) : ∃ n, descend X d = some n := by
  cases hd : descend X d with
  | some n => exact ⟨n,rfl⟩
  | none =>
    exfalso
    induction d generalizing X Y with
    | nil => cases hd
    | cons k ks ih =>
      rw [cons_append,lookupModify_cons f (concat_ne_nil x ks) k] at h
      cases hc : X.find k with
      | none =>
        rw [hc] at h
        cases h
      | some c =>
        rw [hc] at h
        rw [descend_cons_of_find hc] at hd
        obtain ⟨v,hv,-⟩ := map_ok h
        exact ih hv hd

end

def Grown {τ : Type} (perm : ConnPerms) (p : Path) (X Y : Node τ) : Prop :=
  ∀ q, content Y q = content X q ∨ (q <+: p ∧ descend X q = none ∧
    ∃ n u, Nearest X q n ∧ Permits perm .write n.label.perms ∧ descend Y q = some u ∧ u.label.perms = n.label.perms)

section
variable {Z n : Node τ} {d p' : Path} {x : Name}

theorem content_some {c : Content} : content X p = some c ↔ ∃ n, descend X p = some n ∧ n.label = c :=
  map_eq_some_iff

theorem content_none : content X p = none ↔ descend X p = none := map_eq_none_iff

theorem Grown.refl : Grown perm p X X := fun _ => .inl rfl

theorem Grown.mono (h : Grown perm p X Y) (hp : p <+: p') : Grown perm p' X Y := by
  intro q
  rcases h q with he | ⟨hq,hr⟩
  · exact .inl he
  · exact .inr ⟨hq.trans hp,hr⟩

theorem Grown.keeps (h : Grown perm p X Y) {q : Path} (hq : descend X q ≠ none) : descend Y q ≠ none := by
  rcases h q with he | ⟨-,hn,-⟩
  · intro hY
    exact hq (content_none.mp (he ▸ content_none.mpr hY))
  · exact absurd hn hq

theorem Grown.trans (hb : Grown perm p X Y) (hd : Grown perm p Y Z) : Grown perm p X Z := by
  intro q
  rcases hd q with hc | ⟨hq,hY,m,u,⟨d',hd',hm,ha⟩,hw,hu,hp⟩
  · rcases hb q with heq' | ⟨hq,hX,n,u,hn,hw,hu,hp⟩
    · exact .inl (hc.trans heq')
    · obtain ⟨v,hv,hl⟩ := content_some.mp (hc.trans (content_some.mpr ⟨u,hu,rfl⟩))
      exact .inr ⟨hq,hX,n,v,hn,hw,hv,hl ▸ hp⟩
  have hX : descend X q = none := by
    by_contra hX
    exact hb.keeps hX hY
  refine .inr ⟨hq,hX,?_⟩
  rcases hb d' with hc | ⟨-,-,n,u',⟨d0,hd0,hn,hma0⟩,hr',hu',hpe'⟩
  · obtain ⟨n,hn,hl⟩ := content_some.mp (hc.symm.trans (content_some.mpr ⟨m,hm,rfl⟩))
    refine ⟨n,u,⟨d',hd',hn,fun e he hx => ha e he (hb.keeps hx)⟩,hl ▸ hw,hu,hl ▸ hp⟩
  obtain rfl := some.inj (hm.symm.trans hu')
  refine ⟨n,u,⟨d0,hd0.trans hd',hn,fun e he hx => ?_⟩,hr',hu,hp.trans hpe'⟩
  exact hma0 e (ha e he (hb.keeps hx)) hx

theorem nearest_of_missing (hn : descend X d = some n) (hx : n.find x = none) : Nearest X (d ++ [x]) n := by
  refine ⟨d,prefix_append ..,hn,fun d' hd' he => ?_⟩
  rcases prefix_concat_iff.mp hd' with rfl | h
  · exact absurd (descend_concat_missing hn hx []) he
  · exact h

theorem fits_concat (m : Node τ) (hm : m.key = x) : Fits X (d ++ [x]) m := by
  rw [Fits,lastKey_append]
  exact hm

theorem grown_by_one (value : List Char) (hn : descend X d = some n) (hx : n.find x = none)
  (hw : Permits perm .write n.label.perms) :
  Grown perm (d ++ [x]) X (graft a X (d ++ [x]) (create a x n.label.perms value)) := by
  have hf : Fits X (d ++ [x]) (create a x n.label.perms value) := fits_concat _ rfl
  have hr : Room X (d ++ [x]) := room_append_singleton hn
  intro q
  rcases hr.trichotomy q with ⟨s,rfl⟩ | ⟨k,ks,u,he,hu⟩ | ⟨hp,hq⟩
  · cases s with
    | nil =>
      rw [append_nil]
      exact .inr ⟨prefix_rfl,descend_concat_missing hn hx [],n,_,nearest_of_missing hn hx,hw,
        descend_graft_self hf hr,rfl⟩
    | cons k ks =>
      have hX : descend X (d ++ [x] ++ k :: ks) = none := by
        rw [append_assoc]
        exact descend_concat_missing hn hx _
      have hY : descend (create a x n.label.perms value) (k :: ks) = none := rfl
      rw [content,content,descend_graft_below hf hr,hX,hY]
      exact .inl rfl
  · rw [he] at hf ⊢
    rw [content,content,descend_graft_above hf hu,hu]
    exact .inl (congrArg some graft_label)
  · rw [content,content,descend_graft_apart hf hr hp hq]
    exact .inl rfl

end

section
variable {con : Con} {t t' : Transaction τ}

theorem Transaction.mkdir_ok {watch : Bool} (h : t.mkdir cfg a con.perm watch p = .ok t') :
  pathMkdir cfg a con.perm t.store.root p = .ok t'.store.root := by
  obtain ⟨store,hs,h⟩ := bind_ok h
  have hr := Store.mkdir_ok hs
  rw [← Except.ok.inj h]
  cases watch <;> exact hr

variable {m n : Node τ} {data value : List Char} {r : Request} {α : Type} {perms : NodePerms}

theorem content_graft_self (hn : descend X p = some n) (hf : m.key = n.key) {q : Path} (hq : q ≠ p)
  (hc : ∀ k ks, descend m (k :: ks) = descend n (k :: ks)) : content (graft a X p m) q = content X q := by
  have hf' : Fits X p m := hf.trans (descend_key hn)
  have hr := room_of_descend hn
  rcases hr.trichotomy q with ⟨s,rfl⟩ | ⟨k,ks,u,he,hu⟩ | ⟨hp,ha⟩
  · cases s with
    | nil => exact absurd (append_nil p) hq
    | cons k ks => rw [content,content,descend_graft_below hf' hr,descend_append_some hn,hc]
  · rw [he] at hf' ⊢
    rw [content,content,descend_graft_above hf' hu,hu]
    exact congrArg some graft_label
  · rw [content,content,descend_graft_apart hf' hr hp ha]

theorem setValue_key (n : Node τ) (v : List Char) : (setValue a n v).key = n.key := by
  rw [setValue]
  split <;> rfl

theorem setValue_children (n : Node τ) (v : List Char) : (setValue a n v).children = n.children := by
  rw [setValue]
  split <;> rfl

theorem descend_of_children (h : m.children = n.children) (k : Name) (ks : Path) :
  descend m (k :: ks) = descend n (k :: ks) := by
  rw [descend,descend,find,find,h]

theorem Grown.entitled (h : Grown con.perm p X Y) (q : Path) (hq : content Y q ≠ content X q) :
  Entitled con.perm X r p q := by
  rcases h q with he | ⟨hp,ha,n,-,hn,ho,-⟩
  · exact absurd he hq
  · exact .created hp ha hn ho

theorem content_dropChild {d q : Path} {x : Name} (hn : descend X d = some n) (hq : ¬d ++ [x] <+: q) :
  content (graft a X d (dropChild a n x)) q = content X q := by
  have hi : Fits X d (dropChild a n x) := by
    have ha : n.key = lastKey X.key d := descend_key hn
    exact ha
  have hr := room_of_descend hn
  rcases hr.trichotomy q with ⟨s,rfl⟩ | ⟨k,ks,u,he,hu⟩ | ⟨hp,hb⟩
  · rw [content,content,descend_graft_below hi hr,descend_append_some hn]
    cases s with
    | nil => rfl
    | cons k ks =>
      have hk : k ≠ x := by
        rintro rfl
        exact hq ((prefix_append_right_inj d).mpr (cons_prefix_cons.mpr ⟨rfl,List.nil_prefix⟩))
      have hf : (dropChild a n x).find k = n.find k := findKey_deleteFirst_ne hk
      rw [descend,descend,hf]
  · rw [he] at hi ⊢
    rw [content,content,descend_graft_above hi hu,hu]
    exact congrArg some graft_label
  · rw [content,content,descend_graft_apart hi hr hp hb]

theorem toOption_ok {x : Except Exn α} {v : α} (h : x = .ok v) : x.toOption = some v := by rw [h]; rfl

theorem answering_permitted {op : Path → Transaction τ → Except Exn (α × Transaction τ)}
  {render : α → List Char} (f : Node τ → Path → Except Exn α)
  (ho : ∀ p, op p t = (f t.store.root p).bind fun v => .ok (v,t.setReadLowpath p)) (data : List Char) :
  (answering con op render data t).2.store.root = t.store.root ∧ ∀ d, replyOf (answering con op render data t).1 =
    .data d →
    ∃ p v, splitOnePath data con = .ok p ∧ f t.store.root p = .ok v := by
  rw [answering]
  cases ha : splitOnePath data con with
  | error e => exact ⟨rfl,fun d hd => nomatch hd⟩
  | ok p =>
    have hb : (Except.ok p : Except Exn Path).bind (fun p => op p t) =
        (f t.store.root p).bind fun v => .ok (v,t.setReadLowpath p) := ho p
    rw [hb]
    cases hf : f t.store.root p with
    | error e => exact ⟨rfl,fun d hd => nomatch hd⟩
    | ok v => exact ⟨rfl,fun d _ => ⟨p,v,rfl,hf⟩⟩

theorem replyOf_acked {res : Except Exn Reply} {d : List Char} (h : ∀ reply, res = .ok reply → reply = .ack) :
  replyOf res ≠ .data d := by
  cases res with
  | error e => exact fun h => nomatch h
  | ok reply =>
    rw [replyOf,h reply rfl]
    exact fun h => nomatch h

theorem changes_acked (hr : r.changes = true) (d : List Char) : (inputHandleError cfg a con r t).1 ≠ .data d := by
  refine replyOf_acked fun reply he => ?_
  cases r with
  | directory data | read data | getperms data => cases hr
  | write data =>
    simp only [functionOfType,doWrite] at he
    split at he
    · cases he
    split at he
    · cases he
    · split at he <;> cases he
      rfl
  | mkdir data =>
    simp only [functionOfType,doMkdir] at he
    split at he
    · cases he
    split at he
    · cases he
    · split at he <;> cases he <;> rfl
  | rm data =>
    simp only [functionOfType,doRm] at he
    split at he
    · cases he
    · split at he <;> cases he <;> rfl
  | setperms data =>
    simp only [functionOfType,doSetperms] at he
    split at he <;> cases he
    rfl

variable (hactive : cfg.permsActivate = true) (hdom0 : con.perm.isDom0 = false)
include hactive hdom0

theorem pathMkdir_grown (hp : p ≠ []) (h : pathMkdir cfg a con.perm X p = .ok Y) : Grown con.perm p X Y := by
  obtain ⟨d,x,rfl⟩ := (eq_nil_or_concat' p).resolve_left hp
  have hm := h
  rw [pathMkdir,if_neg hp] at hm
  obtain ⟨n,hn⟩ := lookupModify_ok hm
  cases hx : n.find x with
  | some ent =>
    rw [pathMkdir_existing hn hx] at h
    split at h <;> cases h
  | none =>
    rw [pathMkdir_new hn hx] at h
    split_ifs at h with hw
    · rw [← Except.ok.inj h]
      exact grown_by_one [] hn hx ((permits_iff hactive hdom0 _).mp hw)
    · cases h

theorem mkdirAll_grown {ss : List Path} (ha : ∀ s ∈ ss, s ≠ [] ∧ s <+: p) :
  Grown con.perm p t.store.root (mkdirAll cfg a con ss t).2.store.root := by
  induction ss generalizing t with
  | nil => exact .refl
  | cons s ss ih =>
    rw [mkdirAll]
    cases hm : t.mkdir cfg a con.perm false s with
    | error e => exact .refl
    | ok t' =>
      obtain ⟨hn,hp⟩ := ha s mem_cons_self
      have ho := pathMkdir_grown hactive hdom0 hn (Transaction.mkdir_ok hm)
      exact (ho.mono hp).trans (ih fun s hs => ha s (mem_cons_of_mem _ hs))

theorem createImplicitPath_grown :
  Grown con.perm (getParent p) t.store.root (createImplicitPath cfg a con p t).2.store.root := by
  rw [createImplicitPath]
  split
  · exact .refl
  refine mkdirAll_grown hactive hdom0 fun s hs => ?_
  have ht : s ∈ (getHierarchy (getParent p)).tail := (dropWhile_sublist _).subset hs
  rw [getHierarchy] at ht
  refine ⟨?_,(mem_inits _ _).mp (mem_of_mem_tail ht)⟩
  rintro rfl
  cases hd : getParent p with
  | nil =>
    rw [hd] at ht
    cases ht
  | cons k ks =>
    rw [hd,inits_cons,tail_cons] at ht
    simp at ht

theorem createImplicitPath_path :
  content (createImplicitPath cfg a con p t).2.store.root p = content t.store.root p := by
  rcases createImplicitPath_grown (p := p) (t := t) (a := a) hactive hdom0 p with h | ⟨hq,hn,-⟩
  · exact h
  cases p with
  | nil => cases hn
  | cons k ks =>
    have hl := hq.length_le
    rw [getParent,length_dropLast,length_cons] at hl
    omega

theorem write_entitled (hg : Grown con.perm p X t.store.root) (ha : content t.store.root p = content X p)
  (h : t.write cfg a con.perm p value = .ok t') (q : Path) (hq : content t'.store.root q ≠ content X q) :
  Entitled con.perm X (.write data) p q := by
  obtain ⟨store,hs,h⟩ := bind_ok h
  have hw := Store.write_ok hs
  have hr : t'.store.root = store.root := by rw [← Except.ok.inj h]; rfl
  rw [hr] at hq
  cases he : descend t.store.root p with
  | some ent =>
    rw [pathWrite_existing value he] at hw
    split_ifs at hw with hb
    · obtain ⟨n,hn,hl⟩ := content_some.mp (ha.symm.trans (content_some.mpr ⟨ent,he,rfl⟩))
      have hd : Permits con.perm .write n.label.perms := hl ▸ (permits_iff hactive hdom0 _).mp hb
      by_cases hc : q = p
      · rw [hc]
        exact .written hn hd
      rw [← Except.ok.inj hw,content_graft_self he (setValue_key ..) hc
        fun _ _ => descend_of_children (setValue_children ..) _ _] at hq
      exact hg.entitled q hq
    · cases hw
  | none =>
    have hp : p ≠ [] := by
      rintro rfl
      cases he
    have hgr' : Grown con.perm p t.store.root store.root := by
      obtain ⟨d,x,rfl⟩ := (eq_nil_or_concat' p).resolve_left hp
      have hm := hw
      rw [pathWrite,if_neg hp] at hm
      obtain ⟨n,hn⟩ := lookupModify_ok hm
      have hx : n.find x = none := by
        by_contra hx
        obtain ⟨ent,hx⟩ := ne_none_iff_exists'.mp hx
        rw [descend_concat_some.mpr ⟨n,hn,hx⟩] at he
        cases he
      rw [pathWrite_new value hn hx] at hw
      split_ifs at hw with hb
      · rw [← Except.ok.inj hw]
        exact grown_by_one value hn hx ((permits_iff hactive hdom0 _).mp hb)
      · cases hw
    exact (hg.trans hgr').entitled q hq

theorem rm_entitled (hp : p ≠ []) (h : t.rm cfg a con.perm p = .ok t') (q : Path)
  (hq : content t'.store.root q ≠ content t.store.root q) : Entitled con.perm t.store.root (.rm data) p q := by
  obtain ⟨store,hs,h⟩ := bind_ok h
  obtain ⟨ent,he,hm⟩ := Store.rm_ok hs
  have hr : t'.store.root = store.root := by rw [← Except.ok.inj h]; rfl
  rw [hr] at hq
  have hd := descend_of_getNode he
  obtain ⟨d,x,rfl⟩ := (eq_nil_or_concat' p).resolve_left hp
  obtain ⟨n,hn,hx⟩ := descend_concat_some.mp hd
  rw [pathRm_existing hn hx] at hm
  split_ifs at hm with ha
  · refine .removed ?_ hd ((permits_iff hactive hdom0 _).mp ha)
    by_contra hb
    rw [← Except.ok.inj hm] at hq
    exact hq (content_dropChild hn hb)
  · cases hm

theorem setperms_entitled (hp : p ≠ []) (h : t.setperms cfg a con.perm p perms = .ok t') (q : Path)
  (hq : content t'.store.root q ≠ content t.store.root q) : Entitled con.perm t.store.root (.setperms data) p q := by
  obtain ⟨store,hs,h⟩ := bind_ok h
  obtain ⟨ent,he,ha⟩ := Store.setperms_ok hs
  have hr : t'.store.root = store.root := by rw [← Except.ok.inj h]; rfl
  rw [hr] at hq
  have hd := descend_of_getNode he
  obtain ⟨d,x,rfl⟩ := (eq_nil_or_concat' p).resolve_left hp
  obtain ⟨n,hn,hx⟩ := descend_concat_some.mp hd
  rw [pathSetperms_existing perms hn hx] at ha
  split_ifs at ha with hb
  · obtain ⟨ho,hw⟩ := (Bool.and_eq_true _ _).mp hb
    obtain rfl : q = d ++ [x] := by
      by_contra hc
      rw [← Except.ok.inj ha] at hq
      exact hq (content_graft_self (m := setPerms a ent perms) hd rfl hc fun _ _ => descend_of_children rfl _ _)
    exact .regranted hd ((permits_iff hactive hdom0 _).mp hw) (owner_of_checkOwner hactive hdom0 ho)
  · cases ha

theorem lookup_entitled (hp : p ≠ []) (h : lookup (readChild cfg con.perm) X p = .ok n) :
  ∃ n, descend X p = some n ∧ Permits con.perm .read n.label.perms := by
  cases hn : descend X p with
  | none =>
    rw [lookup_readChild_missing hn] at h
    cases h
  | some u =>
    rw [lookup_readChild hn hp] at h
    split_ifs at h with he
    · exact ⟨u,rfl,(permits_iff hactive hdom0 _).mp he⟩
    · cases h

theorem read_entitled
  (h : read cfg con.perm X p = .ok value) : ∃ n, descend X p = some n ∧ Permits con.perm .read n.label.perms := by
  rw [read] at h
  split_ifs at h with hp
  · subst hp
    rw [checkPerm_bind] at h
    split at h
    · rename_i he
      exact ⟨X,rfl,(permits_iff hactive hdom0 _).mp he⟩
    · cases h
  · obtain ⟨n,hn,-⟩ := map_ok h
    exact lookup_entitled hactive hdom0 hp hn

theorem ls_entitled {entries : List Name} (hp : p ≠ []) (h : ls cfg con.perm X p = .ok entries) :
  ∃ n, descend X p = some n ∧ Permits con.perm .read n.label.perms := by
  rw [ls,if_neg hp] at h
  obtain ⟨children,hc,-⟩ := map_ok h
  obtain ⟨n,hn,-⟩ := map_ok hc
  exact lookup_entitled hactive hdom0 hp hn

theorem getperms_entitled (hp : p ≠ []) (h : getperms cfg con.perm X p = .ok perms) :
  ∃ n, descend X p = some n ∧ Permits con.perm .read n.label.perms := by
  rw [getperms,if_neg hp] at h
  obtain ⟨n,hn,-⟩ := map_ok h
  exact lookup_entitled hactive hdom0 hp hn

theorem writes_permitted (data : List Char)
  (q : Path) (hq : content (inputHandleError cfg a con (.write data) t).2.store.root q ≠ content t.store.root q) :
  ∃ p, Request.path cfg con (.write data) = some p ∧ Entitled con.perm t.store.root (.write data) p q := by
  simp only [inputHandleError,functionOfType,doWrite] at hq
  cases ha : writeArgs con data with
  | error e =>
    rw [ha] at hq
    exact absurd rfl hq
  | ok args =>
    obtain ⟨p,value⟩ := args
    have hp : Request.path cfg con (.write data) = some p := by rw [Request.path,toOption_ok ha]; rfl
    have hg := (createImplicitPath_grown (p := p) (t := t) (a := a) hactive hdom0).mono (List.dropLast_prefix p)
    have hs := createImplicitPath_path (p := p) (t := t) (a := a) hactive hdom0
    refine ⟨p,hp,?_⟩
    rw [ha] at hq
    dsimp only at hq
    generalize createImplicitPath cfg a con p t = implicit at hq hg hs
    obtain ⟨res,t1⟩ := implicit
    cases res with
    | error e => exact hg.entitled q hq
    | ok _ =>
      dsimp only at hq
      cases hw : t1.write cfg a con.perm p value with
      | error e =>
        rw [hw] at hq
        exact hg.entitled q hq
      | ok t2 =>
        rw [hw] at hq
        exact write_entitled hactive hdom0 hg hs hw q hq

theorem mkdirs_permitted (data : List Char)
  (q : Path) (hq : content (inputHandleError cfg a con (.mkdir data) t).2.store.root q ≠ content t.store.root q) :
  ∃ p, Request.path cfg con (.mkdir data) = some p ∧ Entitled con.perm t.store.root (.mkdir data) p q := by
  simp only [inputHandleError,functionOfType,doMkdir] at hq
  cases ha : splitOnePath data con with
  | error e =>
    rw [ha] at hq
    exact absurd rfl hq
  | ok p =>
    have hg := (createImplicitPath_grown (p := p) (t := t) (a := a) hactive hdom0).mono (List.dropLast_prefix p)
    refine ⟨p,by rw [Request.path,toOption_ok ha],?_⟩
    rw [ha] at hq
    dsimp only at hq
    generalize createImplicitPath cfg a con p t = implicit at hq hg
    obtain ⟨res,t1⟩ := implicit
    cases res with
    | error e => exact hg.entitled q hq
    | ok _ =>
      dsimp only at hq
      split at hq
      · rename_i t2 hm
        have hr := Transaction.mkdir_ok hm
        by_cases hp : p = []
        · rw [pathMkdir,if_pos hp] at hr
          have hs := Except.ok.inj hr
          rw [← hs] at hq
          exact hg.entitled q hq
        · exact (hg.trans (pathMkdir_grown hactive hdom0 hp hr)).entitled q hq
      · exact hg.entitled q hq
      · exact hg.entitled q hq

theorem rms_permitted (data : List Char) (hr : Request.path cfg con (.rm data) ≠ some []) (q : Path)
  (hq : content (inputHandleError cfg a con (.rm data) t).2.store.root q ≠ content t.store.root q) :
  ∃ p, Request.path cfg con (.rm data) = some p ∧ Entitled con.perm t.store.root (.rm data) p q := by
  simp only [inputHandleError,functionOfType,doRm] at hq
  cases ha : splitOnePath data con with
  | error e =>
    rw [ha] at hq
    exact absurd rfl hq
  | ok p =>
    rw [ha] at hq
    have hb : Request.path cfg con (.rm data) = some p := toOption_ok ha
    dsimp only at hq
    split at hq
    · rename_i t' hm
      exact ⟨p,hb,rm_entitled hactive hdom0 (fun hp => hr (hp ▸ hb)) hm q hq⟩
    · exact absurd rfl hq
    · exact absurd rfl hq

theorem setperms_permitted (data : List Char) (hr : Request.path cfg con (.setperms data) ≠ some []) (q : Path)
  (hq : content (inputHandleError cfg a con (.setperms data) t).2.store.root q ≠ content t.store.root q) :
  ∃ p, Request.path cfg con (.setperms data) = some p ∧ Entitled con.perm t.store.root (.setperms data) p q := by
  simp only [inputHandleError,functionOfType,doSetperms] at hq
  split at hq
  · rename_i t' hs
    obtain ⟨⟨p,perms⟩,ha,hs⟩ := bind_ok hs
    have hb : Request.path cfg con (.setperms data) = some p := by rw [Request.path,toOption_ok ha]; rfl
    exact ⟨p,hb,setperms_entitled hactive hdom0 (fun hp => hr (hp ▸ hb)) hs q hq⟩
  · exact absurd rfl hq

theorem reads_permitted (hr : r.changes = false) (ho : r.path cfg con = some [] → r.checksRoot = true) :
  (inputHandleError cfg a con r t).2.store.root = t.store.root ∧
  ∀ d, (inputHandleError cfg a con r t).1 = .data d → ∃ p n, r.path cfg con = some p ∧
    descend t.store.root p = some n ∧ Permits con.perm .read n.label.perms := by
  cases r with
  | write data | mkdir data | rm data | setperms data => cases hr
  | directory data =>
    refine (answering_permitted (ls cfg con.perm) (fun _ => rfl) data).imp_right fun hb d hd => ?_
    obtain ⟨p,v,ha,hv⟩ := hb d hd
    have hc := toOption_ok ha
    exact ⟨p,(ls_entitled hactive hdom0 (fun hp => nomatch ho (hp ▸ hc)) hv).imp fun _ hn => ⟨hc,hn⟩⟩
  | read data =>
    refine (answering_permitted (read cfg con.perm) (fun _ => rfl) data).imp_right fun hb d hd => ?_
    obtain ⟨p,v,ha,hv⟩ := hb d hd
    exact ⟨p,(read_entitled hactive hdom0 hv).imp fun _ hn => ⟨toOption_ok ha,hn⟩⟩
  | getperms data =>
    refine (answering_permitted (getperms cfg con.perm) (fun _ => rfl) data).imp_right fun hb d hd => ?_
    obtain ⟨p,v,ha,hv⟩ := hb d hd
    have hc := toOption_ok ha
    exact ⟨p,(getperms_entitled hactive hdom0 (fun hp => nomatch ho (hp ▸ hc)) hv).imp fun _ hn => ⟨hc,hn⟩⟩

end

def decimal (s : List Char) : Option Int :=
  if s ≠ [] ∧ s.all Char.isDigit then some (s.foldl (fun v c => v*10+(c.toNat - '0'.toNat)) 0) else none

def defaultConfig : Config :=
  {permsActivate := true,quotaActivate := true,maxent := 10000,maxsize := 4096,maxtransaction := 20,
    doCoalesce := true,intOfString := decimal}

def guest (d : Nat) : Con := {dom := some d,perm := {main := d,target := none}}

def text (s : String) : List Char := s.toList ++ [nul]

def bareRoot : Node Nat := addChild 0 (create 0 [] default0 []) (create 0 "tool".toList default0 [])

def bare : Transaction Nat := .immediate {root := bareRoot,quota := .create}

theorem root_unguarded : permits defaultConfig (guest 1).perm .write bareRoot.label.perms = false ∧
  permits defaultConfig (guest 1).perm .read bareRoot.label.perms = false ∧
  (let res := inputHandleError defaultConfig 1 (guest 1) (.rm (text "/")) bare;
    res.1 = .ack ∧ (content bareRoot ["tool".toList]).isSome ∧ content res.2.store.root ["tool".toList] = none) ∧
  (let res := inputHandleError defaultConfig 1 (guest 1) (.setperms (text "/" ++ text "b1")) bare;
    res.1 = .ack ∧ res.2.store.root.label.perms.owner = 1) ∧
  (inputHandleError defaultConfig 1 (guest 1) (.directory (text "/")) bare).1 = .data (text "tool") ∧
  (inputHandleError defaultConfig 1 (guest 1) (.getperms (text "/")) bare).1 = .data (text "n0") := by
  decide +kernel

section
variable (cfg : Config) (con : Con)

def Enforced (a : τ) (r : Request) (t : Transaction τ) : Prop :=
  (∀ q, content (inputHandleError cfg a con r t).2.store.root q ≠ content t.store.root q →
    ∃ p, r.path cfg con = some p ∧ Entitled con.perm t.store.root r p q) ∧
  ∀ d, (inputHandleError cfg a con r t).1 = .data d →
    ∃ p n, r.path cfg con = some p ∧ descend t.store.root p = some n ∧ Permits con.perm .read n.label.perms

-- when a request that names the root does no more than the connection may do
def RootGuarded (store : Store τ) : Request → Prop
  | .read _ | .write _ | .mkdir _ => True
  | .directory _ | .getperms _ => Permits con.perm .read store.root.label.perms
  | .rm _ => store.root.children = [] ∨ Permits con.perm .write store.root.label.perms
  | .setperms data => ∀ perms, setpermsArgs cfg con data = .ok ([],perms) →
      (∃ e, Quota.check cfg store.quota perms.owner 0 = .error e) ∨ perms = store.root.label.perms ∨
        store.root.label.perms.owner ∈ con.perm.getOwners

end

section
variable {con : Con} {t : Transaction τ} {r : Request} {data : List Char}

theorem ok_of_toOption {α : Type} {x : Except Exn α} {v : α} (h : x.toOption = some v) : x = .ok v := by
  cases x with
  | error e => cases h
  | ok w => exact congrArg Except.ok (some.inj h)

theorem answered_enforced {d : List Char} {t' : Transaction τ} (hp : r.path cfg con = some [])
  (h : inputHandleError cfg a con r t = (.data d,t')) (hs : t'.store.root = t.store.root) :
  Enforced cfg con a r t ↔ Permits con.perm .read t.store.root.label.perms := by
  rw [Enforced,h]
  refine ⟨fun hk => ?_,fun hk => ⟨fun q hq => absurd (congrArg (content · q) hs) hq,
    fun _ _ => ⟨[],t.store.root,hp,rfl,hk⟩⟩⟩
  obtain ⟨p,n,hr,hn,ho⟩ := hk.2 d rfl
  cases hp.symm.trans hr
  cases hn
  exact ho

theorem rm_root_enforced (hp : Request.path cfg con (.rm data) = some []) :
  Enforced cfg con a (.rm data) t ↔ RootGuarded cfg con t.store (.rm data) := by
  have hr : (inputHandleError cfg a con (.rm data) t).2.store.root = delAllChildren a t.store.root := by
    simp only [inputHandleError,functionOfType,doRm,ok_of_toOption hp]
    rfl
  rw [Enforced,hr,RootGuarded]
  constructor
  · intro hk
    cases hc : t.store.root.children with
    | nil => exact .inl rfl
    | cons c cs =>
      have hd : descend t.store.root [c.key] = some c := by
        rw [descend,find,hc,findKey_cons_pos rfl]
        rfl
      obtain ⟨p,hq,he⟩ := hk.1 [c.key] (by
        rw [content,content,hd]
        intro h
        cases h)
      cases hp.symm.trans hq
      cases he with
      | removed hq hn hw =>
        cases hn
        exact .inr hw
      | created hq hn => rw [hd] at hn; cases hn
  · refine fun hg => ⟨fun q hq => ⟨[],hp,?_⟩,fun d hd => absurd hd (changes_acked rfl d)⟩
    cases q with
    | nil => exact absurd rfl hq
    | cons k ks =>
      have hc : t.store.root.children ≠ [] := fun hc => hq (congrArg (Option.map label)
        (descend_of_children (m := delAllChildren a t.store.root) hc.symm k ks))
      exact .removed nil_prefix rfl (hg.resolve_left hc)

theorem rootGuarded_setperms {perms : NodePerms} (ha : setpermsArgs cfg con data = .ok ([],perms)) :
  RootGuarded cfg con t.store (.setperms data) ↔ (∃ e, Quota.check cfg t.store.quota perms.owner 0 = .error e) ∨
    perms = t.store.root.label.perms ∨ t.store.root.label.perms.owner ∈ con.perm.getOwners := by
  rw [RootGuarded,ha]
  exact ⟨fun h => h perms rfl,fun h _ he => (Prod.mk.inj (Except.ok.inj he)).2 ▸ h⟩

-- the branch for the root asks the quota only
theorem setperms_root {perms : NodePerms} (ha : setpermsArgs cfg con data = .ok ([],perms)) :
  (∃ e, Quota.check cfg t.store.quota perms.owner 0 = .error e) ∧
      (inputHandleError cfg a con (.setperms data) t).2.store.root = t.store.root ∨
    Quota.check cfg t.store.quota perms.owner 0 = .ok () ∧
      (inputHandleError cfg a con (.setperms data) t).2.store.root = setPerms a t.store.root perms := by
  have hs : Store.setperms cfg a con.perm [] perms t.store = (Quota.check cfg t.store.quota perms.owner 0).bind fun _ =>
      .ok ⟨setPerms a t.store.root perms,(t.store.quota.delEntry (getOwner t.store.root)).addEntry perms.owner⟩ := rfl
  simp only [inputHandleError,functionOfType,doSetperms,ha,Transaction.setperms,Except.bind,hs]
  cases Quota.check cfg t.store.quota perms.owner 0 with
  | error e => exact .inl ⟨⟨e,rfl⟩,rfl⟩
  | ok _ => exact .inr ⟨rfl,rfl⟩

theorem setperms_root_enforced (hp : Request.path cfg con (.setperms data) = some []) :
  Enforced cfg con a (.setperms data) t ↔ RootGuarded cfg con t.store (.setperms data) := by
  obtain ⟨⟨p,perms⟩,ha,rfl⟩ := map_eq_some_iff.mp hp
  have ha := ok_of_toOption ha
  rw [rootGuarded_setperms ha,Enforced]
  rcases setperms_root (a := a) (t := t) ha with ⟨he,hr⟩ | ⟨hc,hr⟩
  · rw [hr]
    exact iff_of_true ⟨fun q hq => absurd rfl hq,fun d hd => absurd hd (changes_acked rfl d)⟩ (.inl he)
  · rw [hr,hc]
    constructor
    · intro hk
      by_cases he : perms = t.store.root.label.perms
      · exact .inr (.inl he)
      obtain ⟨p,hq,hn⟩ := hk.1 [] fun h => he (congrArg Content.perms (some.inj h))
      cases hp.symm.trans hq
      cases hn with
      | regranted hn hw ho =>
        cases hn
        exact .inr (.inr ho)
      | created hq hn => cases hn
    · refine fun hg => ⟨fun q hq => ⟨[],hp,?_⟩,fun d hd => absurd hd (changes_acked rfl d)⟩
      cases q with
      | nil =>
        rcases hg with ⟨e,he⟩ | rfl | ho
        · cases he
        · exact absurd rfl hq
        · exact .regranted rfl (.inl ho) ho
      | cons k ks => exact absurd (congrArg (Option.map label) (descend_of_children rfl k ks)) hq

end

theorem permissions_enforced {τ : Type} {cfg : Config} {con : Con} (hactive : cfg.permsActivate = true)
  (hdom0 : con.perm.isDom0 = false) (r : Request) (a : τ) (t : Transaction τ) :
  Enforced cfg con a r t ↔ (r.path cfg con = some [] → RootGuarded cfg con t.store r) := by
  by_cases hroot : r.path cfg con = some [] → r.checksRoot = true
  · refine iff_of_true ?_ fun hp => ?_
    · cases r with
      | directory data | read data | getperms data =>
        obtain ⟨hs,hr⟩ := @reads_permitted _ _ a _ t _ hactive hdom0 rfl hroot
        exact ⟨fun q hq => absurd (congrArg (content · q) hs) hq,hr⟩
      | write data => exact ⟨writes_permitted hactive hdom0 data,fun d hd => absurd hd (changes_acked rfl d)⟩
      | mkdir data => exact ⟨mkdirs_permitted hactive hdom0 data,fun d hd => absurd hd (changes_acked rfl d)⟩
      | rm data =>
        exact ⟨rms_permitted hactive hdom0 data (nomatch hroot ·),fun d hd => absurd hd (changes_acked rfl d)⟩
      | setperms data =>
        exact ⟨setperms_permitted hactive hdom0 data (nomatch hroot ·),fun d hd => absurd hd (changes_acked rfl d)⟩
    · have hc := hroot hp
      cases r with
      | read data | write data | mkdir data => trivial
      | directory data | getperms data | rm data | setperms data => cases hc
  · obtain ⟨hp,hc⟩ := Classical.not_imp.mp hroot
    rw [forall_prop_of_true hp]
    cases r with
    | read data | write data | mkdir data => exact absurd rfl hc
    | directory data =>
      have h : inputHandleError cfg a con (.directory data) t =
          (.data (joinEntries (t.store.root.children.map key).reverse),t.setReadLowpath []) := by
        simp only [inputHandleError,functionOfType,doDirectory,answering,ok_of_toOption hp]
        rfl
      exact answered_enforced hp h rfl
    | getperms data =>
      have h : inputHandleError cfg a con (.getperms data) t =
          (.data (t.store.root.label.perms.toString ++ [nul]),t.setReadLowpath []) := by
        simp only [inputHandleError,functionOfType,doGetperms,answering,ok_of_toOption hp]
        rfl
      exact answered_enforced hp h rfl
    | rm data => exact rm_root_enforced hp
    | setperms data => exact setperms_root_enforced hp

def shared : Transaction Nat :=
  .immediate {
    root := addChild 0 (create 0 [] default0 [])
      (create 0 "shared".toList {owner := 0,other := .none,acl := [(1,.rdwr)]} [])
    quota := .create}

theorem granted_write_permitted :
  (inputHandleError defaultConfig 1 (guest 1) (.write (text "/shared/a/b" ++ ['x'])) shared).1 = .ack ∧
  ∃ p, Request.path defaultConfig (guest 1) (.write (text "/shared/a/b" ++ ['x'])) = some p ∧
    Entitled (guest 1).perm shared.store.root (.write (text "/shared/a/b" ++ ['x'])) p ["shared".toList,
      "a".toList] := by
  refine ⟨by decide +kernel,?_⟩
  exact ((permissions_enforced (by decide) (by decide) (.write _) 1 shared).mpr fun _ => trivial).1 _
    (by decide +kernel)

end Oxenstored
