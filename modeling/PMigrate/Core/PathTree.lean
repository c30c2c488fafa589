import Mathlib.Data.List.Nodup

structure PathTree (τ κ ρ : Type) where
  stamp : τ
  key : κ
  label : ρ
  children : List (PathTree τ κ ρ)

namespace PathTree

open List Option

variable {τ κ ρ : Type} {k : κ} {c : PathTree τ κ ρ}

section
variable [DecidableEq κ] {k' : κ} {new new' : PathTree τ κ ρ} {cs : List (PathTree τ κ ρ)}

def findKey (k : κ) (cs : List (PathTree τ κ ρ)) : Option (PathTree τ κ ρ) := cs.find? fun c => c.key = k

def replaceFirst (k : κ) (new : PathTree τ κ ρ) : List (PathTree τ κ ρ) → List (PathTree τ κ ρ)
  | [] => []
  | c :: cs => if c.key = k then new :: cs else c :: replaceFirst k new cs

def deleteFirst (k : κ) (cs : List (PathTree τ κ ρ)) : List (PathTree τ κ ρ) := cs.eraseP fun c => c.key = k

theorem findKey_cons_pos (h : c.key = k) : findKey k (c :: cs) = some c :=
  List.find?_cons_of_pos (decide_eq_true h)

theorem findKey_cons_neg (h : c.key ≠ k) : findKey k (c :: cs) = findKey k cs :=
  List.find?_cons_of_neg (by simpa using h)

theorem deleteFirst_cons_pos (h : c.key = k) : deleteFirst k (c :: cs) = cs :=
  eraseP_cons_of_pos (decide_eq_true h)

theorem deleteFirst_cons_neg (h : c.key ≠ k) : deleteFirst k (c :: cs) = c :: deleteFirst k cs :=
  eraseP_cons_of_neg (by simpa using h)

theorem findKey_key (h : findKey k cs = some c) : c.key = k := by
  have hk := List.find?_some h
  exact of_decide_eq_true hk

theorem findKey_eq_none : findKey k cs = none ↔ k ∉ cs.map key := by simp [findKey]

theorem findKey_replaceFirst_self (h : findKey k cs = some c) (hn : new.key = k) :
  findKey k (replaceFirst k new cs) = some new := by
  induction cs with
  | nil => cases h
  | cons d ds ih =>
    rw [replaceFirst]
    split
    · exact findKey_cons_pos hn
    rename_i hd
    rw [findKey_cons_neg hd] at h
    rw [findKey_cons_neg hd,ih h]

theorem findKey_replaceFirst_ne (he : k' ≠ k) (hn : new.key = k) :
  findKey k' (replaceFirst k new cs) = findKey k' cs := by
  induction cs with
  | nil => rfl
  | cons d ds ih =>
    rw [replaceFirst]
    split_ifs with hd
    · rw [findKey_cons_neg (hn ▸ he.symm),findKey_cons_neg (hd ▸ he.symm)]
    by_cases hd : d.key = k'
    · rw [findKey_cons_pos hd,findKey_cons_pos hd]
    · rw [findKey_cons_neg hd,findKey_cons_neg hd,ih]

theorem replaceFirst_replaceFirst (hn : new.key = k) :
  replaceFirst k new' (replaceFirst k new cs) = replaceFirst k new' cs := by
  induction cs with
  | nil => rfl
  | cons d ds ih =>
    rw [replaceFirst,replaceFirst]
    split
    · rw [replaceFirst,if_pos hn]
    · rename_i hd
      rw [replaceFirst,if_neg hd,ih]

theorem replaceFirst_keys (hn : new.key = k) : (replaceFirst k new cs).map key = cs.map key := by
  induction cs with
  | nil => rfl
  | cons d ds ih =>
    rw [replaceFirst]
    split_ifs with hd
    · rw [map_cons,map_cons,hn,hd]
    · rw [map_cons,map_cons,ih]

theorem replaceFirst_back (h : findKey k cs = some c) : replaceFirst k c cs = cs := by
  induction cs with
  | nil => rfl
  | cons d ds ih =>
    rw [replaceFirst]
    split_ifs with hd
    · rw [findKey_cons_pos hd] at h
      rw [some.inj h]
    · rw [findKey_cons_neg hd] at h
      rw [ih h]

theorem findKey_deleteFirst_ne (hn : k' ≠ k) : findKey k' (deleteFirst k cs) = findKey k' cs := by
  induction cs with
  | nil => rfl
  | cons d ds ih =>
    by_cases hd : d.key = k
    · rw [deleteFirst_cons_pos hd,findKey_cons_neg (hd ▸ hn.symm)]
    rw [deleteFirst_cons_neg hd]
    by_cases hd' : d.key = k'
    · rw [findKey_cons_pos hd',findKey_cons_pos hd']
    · rw [findKey_cons_neg hd',findKey_cons_neg hd',ih]

theorem deleteFirst_keys_sublist : ((deleteFirst k cs).map key).Sublist (cs.map key) := eraseP_sublist.map key

theorem findKey_deleteFirst_self (h : (cs.map key).Nodup) : findKey k (deleteFirst k cs) = none := by
  induction cs with
  | nil => rfl
  | cons d ds ih =>
    rw [map_cons,nodup_cons] at h
    by_cases hd : d.key = k
    · rw [deleteFirst_cons_pos hd]
      exact findKey_eq_none.mpr (hd ▸ h.1)
    · rw [deleteFirst_cons_neg hd,findKey_cons_neg hd,ih h.2]

end

def lastKey : κ → List κ → κ
  | k,[] => k
  | _,k :: ks => lastKey k ks

theorem lastKey_append (k : κ) (p q : List κ) : lastKey k (p ++ q) = lastKey (lastKey k p) q := by
  induction p generalizing k with
  | nil => rfl
  | cons k' ks ih => exact ih k'

section
variable [DecidableEq κ] {a b : τ} {t n m : PathTree τ κ ρ} {p q ks : List κ}

def find (t : PathTree τ κ ρ) (k : κ) : Option (PathTree τ κ ρ) := findKey k t.children

def descend : PathTree τ κ ρ → List κ → Option (PathTree τ κ ρ)
  | t,[] => some t
  | t,k :: ks => (t.find k).bind (descend · ks)

def graft (a : τ) : PathTree τ κ ρ → List κ → PathTree τ κ ρ → PathTree τ κ ρ
  | _,[],m => m
  | t,k :: ks,m =>
      match t.find k with
      | some c => {t with stamp := a,children := replaceFirst k (graft a c ks m) t.children}
      | none => {t with stamp := a,children := m :: t.children}

def Fits (t : PathTree τ κ ρ) (p : List κ) (m : PathTree τ κ ρ) : Prop := m.key = lastKey t.key p

def Room (t : PathTree τ κ ρ) (p : List κ) : Prop := ∃ n, descend t p.dropLast = some n

theorem find_key (h : t.find k = some n) : n.key = k := findKey_key h

theorem descend_cons_of_find (h : t.find k = some n) : descend t (k :: ks) = descend n ks := by
  rw [descend,h,bind_some]

theorem descend_cons_of_missing (h : t.find k = none) : descend t (k :: ks) = none := by
  rw [descend,h,bind_none]

theorem descend_append : descend t (p ++ q) = (descend t p).bind (descend · q) := by
  induction p generalizing t with
  | nil => rfl
  | cons k ks ih =>
    rw [cons_append,descend,descend]
    cases t.find k with
    | none => rfl
    | some c => exact ih

theorem descend_append_some (h : descend t p = some n) : descend t (p ++ q) = descend n q := by
  rw [descend_append,h,bind_some]

theorem descend_append_none (h : descend t p = none) : descend t (p ++ q) = none := by
  rw [descend_append,h,bind_none]

theorem descend_key (h : descend t p = some n) : Fits t p n := by
  induction p generalizing t with
  | nil => exact congrArg key (some.inj h).symm
  | cons k ks ih =>
    cases hc : t.find k with
    | none =>
      rw [descend_cons_of_missing hc] at h
      cases h
    | some c =>
      rw [descend_cons_of_find hc] at h
      have hf := ih h
      rwa [Fits,find_key hc] at hf

theorem descend_of_below (h : descend t q = some n) (hp : p <+: q) : ∃ m, descend t p = some m := by
  obtain ⟨s,rfl⟩ := hp
  cases hm : descend t p with
  | none =>
    rw [descend_append_none hm] at h
    cases h
  | some m => exact ⟨m,rfl⟩

theorem Fits.child (h : Fits t (k :: ks) m) (hc : t.find k = some c) : Fits c ks m := by
  rw [Fits,find_key hc]
  exact h

theorem Room.child (h : Room t (k :: ks)) (hc : t.find k = some c) : Room c ks := by
  obtain ⟨n,hn⟩ := h
  cases ks with
  | nil => exact ⟨c,rfl⟩
  | cons k' ks =>
    rw [dropLast_cons_cons,descend_cons_of_find hc] at hn
    exact ⟨n,hn⟩

theorem Room.last_of_missing (h : Room t (k :: ks)) (hc : t.find k = none) : ks = [] := by
  obtain ⟨n,hn⟩ := h
  cases ks with
  | nil => rfl
  | cons k' ks =>
    rw [dropLast_cons_cons,descend_cons_of_missing hc] at hn
    cases hn

theorem room_of_descend (h : descend t p = some n) : Room t p := descend_of_below h (List.dropLast_prefix p)

theorem room_append_singleton (h : descend t p = some n) : Room t (p ++ [k]) := ⟨n,by rwa [dropLast_concat]⟩

theorem graft_cons_of_find (h : t.find k = some c) :
  graft a t (k :: ks) m = {t with stamp := a,children := replaceFirst k (graft a c ks m) t.children} := by
  rw [graft,h]

theorem graft_cons_of_missing (h : t.find k = none) :
  graft a t (k :: ks) m = {t with stamp := a,children := m :: t.children} := by
  rw [graft,h]

theorem graft_key (h : Fits t p m) : (graft a t p m).key = t.key := by
  cases p with
  | nil => exact h
  | cons k ks =>
    rw [graft]
    split <;> rfl

theorem graft_stamp : (graft a t (k :: ks) m).stamp = a := by
  rw [graft]
  split <;> rfl

theorem graft_label : (graft a t (k :: ks) m).label = t.label := by
  rw [graft]
  split <;> rfl

theorem Fits.child_key (h : Fits t (k :: ks) m) (hc : t.find k = some c) : (graft a c ks m).key = k :=
  (graft_key (h.child hc)).trans (find_key hc)

theorem find_graft_self (hf : Fits t (k :: ks) m) (hc : t.find k = some c) :
  (graft a t (k :: ks) m).find k = some (graft a c ks m) := by
  rw [graft_cons_of_find hc]
  exact findKey_replaceFirst_self hc (hf.child_key hc)

theorem find_graft_new (hf : Fits t [k] m) (hc : t.find k = none) : (graft a t [k] m).find k = some m := by
  have hk : m.key = k := hf
  rw [graft_cons_of_missing hc,find,findKey_cons_pos hk]

theorem find_graft_ne {k' : κ} (hn : k' ≠ k) (hf : Fits t (k :: ks) m) (hr : Room t (k :: ks)) :
  (graft a t (k :: ks) m).find k' = t.find k' := by
  cases hc : t.find k with
  | none =>
    obtain rfl := hr.last_of_missing hc
    have hk : m.key = k := hf
    rw [graft_cons_of_missing hc,find,findKey_cons_neg (hk ▸ hn.symm),find]
  | some c =>
    rw [graft_cons_of_find hc]
    exact findKey_replaceFirst_ne hn (hf.child_key hc)

theorem descend_graft_below (hf : Fits t p m) (hr : Room t p) : descend (graft a t p m) (p ++ q) = descend m q := by
  induction p generalizing t with
  | nil => rfl
  | cons k ks ih =>
    rw [cons_append]
    cases hc : t.find k with
    | none =>
      obtain rfl := hr.last_of_missing hc
      exact descend_cons_of_find (find_graft_new hf hc)
    | some c =>
      rw [descend_cons_of_find (find_graft_self hf hc)]
      exact ih (hf.child hc) (hr.child hc)

theorem descend_graft_self (hf : Fits t p m) (hr : Room t p) : descend (graft a t p m) p = some m := by
  have h := @descend_graft_below _ _ _ _ a _ _ _ [] hf hr
  rwa [append_nil] at h

theorem descend_graft_above (hf : Fits t (p ++ k :: ks) m) (hn : descend t p = some n) :
  descend (graft a t (p ++ k :: ks) m) p = some (graft a n (k :: ks) m) := by
  induction p generalizing t with
  | nil => rw [← some.inj hn]; rfl
  | cons k' ks' ih =>
    rw [cons_append] at hf ⊢
    cases hc : t.find k' with
    | none =>
      rw [descend_cons_of_missing hc] at hn
      cases hn
    | some c =>
      rw [descend_cons_of_find hc] at hn
      rw [descend_cons_of_find (find_graft_self hf hc)]
      exact ih (hf.child hc) hn

theorem descend_graft_apart (hf : Fits t p m) (hr : Room t p) (hp : ¬p <+: q) (hq : ¬q <+: p) :
  descend (graft a t p m) q = descend t q := by
  induction p generalizing t q with
  | nil => exact absurd nil_prefix hp
  | cons k ks ih =>
    cases q with
    | nil => exact absurd nil_prefix hq
    | cons k' qs =>
      by_cases hk : k' = k
      · subst hk
        have hp' : ¬ks <+: qs := fun h => hp (cons_prefix_cons.mpr ⟨rfl,h⟩)
        have hq' : ¬qs <+: ks := fun h => hq (cons_prefix_cons.mpr ⟨rfl,h⟩)
        cases hc : t.find k' with
        | none =>
          obtain rfl := hr.last_of_missing hc
          exact absurd nil_prefix hp'
        | some c =>
          rw [descend_cons_of_find (find_graft_self hf hc),descend_cons_of_find hc]
          exact ih (hf.child hc) (hr.child hc) hp' hq'
      · rw [descend,descend,find_graft_ne hk hf hr]

theorem graft_append (h : descend t p = some n) : graft a t (p ++ q) m = graft a t p (graft a n q m) := by
  induction p generalizing t with
  | nil => rw [← some.inj h]; rfl
  | cons k ks ih =>
    rw [cons_append]
    cases hc : t.find k with
    | none =>
      rw [descend_cons_of_missing hc] at h
      cases h
    | some c =>
      rw [descend_cons_of_find hc] at h
      rw [graft_cons_of_find hc,graft_cons_of_find hc,ih h]

theorem graft_graft (hf : Fits t p n) (hr : Room t p) : graft a (graft b t p n) p m = graft a t p m := by
  induction p generalizing t with
  | nil => rfl
  | cons k ks ih =>
    cases hc : t.find k with
    | none =>
      obtain rfl := hr.last_of_missing hc
      rw [graft_cons_of_find (find_graft_new hf hc),graft_cons_of_missing hc,graft_cons_of_missing hc]
      have hk : n.key = k := hf
      simp only [replaceFirst,if_pos hk]
      rfl
    | some c =>
      rw [graft_cons_of_find (find_graft_self hf hc),graft_cons_of_find hc,graft_cons_of_find hc,
        replaceFirst_replaceFirst (hf.child_key hc),ih (hf.child hc) (hr.child hc)]

theorem Fits.suffix (h : Fits t (p ++ q) m) (hn : descend t p = some n) : Fits n q m := by
  rw [Fits,descend_key hn,← lastKey_append]
  exact h

theorem Room.suffix (h : Room t (p ++ k :: ks)) (hn : descend t p = some n) : Room n (k :: ks) := by
  obtain ⟨u,hu⟩ := h
  rw [dropLast_append_of_ne_nil (cons_ne_nil k ks),descend_append_some hn] at hu
  exact ⟨u,hu⟩

theorem Room.trichotomy (h : Room t p) (q : List κ) :
  (∃ s, q = p ++ s) ∨ (∃ k ks u, p = q ++ k :: ks ∧ descend t q = some u) ∨ (¬p <+: q ∧ ¬q <+: p) := by
  by_cases hp : p <+: q
  · obtain ⟨s,hs⟩ := hp
    exact .inl ⟨s,hs.symm⟩
  by_cases hq : q <+: p
  · obtain ⟨s,rfl⟩ := hq
    cases s with
    | nil => exact absurd ((append_nil q).symm ▸ prefix_rfl) hp
    | cons k ks =>
      obtain ⟨u,hu⟩ := h
      rw [dropLast_append_of_ne_nil (cons_ne_nil k ks)] at hu
      obtain ⟨v,hv⟩ := descend_of_below hu (prefix_append ..)
      exact .inr (.inl ⟨k,ks,v,rfl,hv⟩)
  · exact .inr (.inr ⟨hp,hq⟩)

theorem descend_graft_cases (hf : Fits t p m) (hr : Room t p) (h : descend (graft a t p m) q = some n) :
  n.stamp = a ∨ (∃ s, q = p ++ s ∧ descend m s = some n) ∨ (¬p <+: q ∧ descend t q = some n) := by
  rcases hr.trichotomy q with ⟨s,rfl⟩ | ⟨k,ks,u,rfl,hu⟩ | ⟨hp,hq⟩
  · rw [descend_graft_below hf hr] at h
    exact .inr (.inl ⟨s,rfl,h⟩)
  · rw [descend_graft_above hf hu] at h
    exact .inl (some.inj h ▸ graft_stamp)
  · rw [descend_graft_apart hf hr hp hq] at h
    exact .inr (.inr ⟨hp,h⟩)

def Distinct (t : PathTree τ κ ρ) : Prop := ∀ q n, descend t q = some n → (n.children.map key).Nodup

theorem Distinct.sub (h : Distinct t) (hn : descend t p = some n) : Distinct n :=
  fun q u hu => h (p ++ q) u ((descend_append_some hn).trans hu)

theorem graft_nodup (hf : Fits t (k :: ks) m) (hr : Room t (k :: ks)) (h : (t.children.map key).Nodup) :
  ((graft a t (k :: ks) m).children.map key).Nodup := by
  cases hc : t.find k with
  | none =>
    obtain rfl := hr.last_of_missing hc
    have hk : m.key = k := hf
    rw [graft_cons_of_missing hc,map_cons,nodup_cons,hk]
    exact ⟨findKey_eq_none.mp hc,h⟩
  | some c =>
    rw [graft_cons_of_find hc]
    exact (replaceFirst_keys (hf.child_key hc)).symm ▸ h

theorem Distinct.graft (h : Distinct t) (hm : Distinct m) (hf : Fits t p m) (hr : Room t p) :
  Distinct (graft a t p m) := by
  intro q u hu
  rcases hr.trichotomy q with ⟨s,rfl⟩ | ⟨k,ks,v,rfl,hv⟩ | ⟨hp,hq⟩
  · rw [descend_graft_below hf hr] at hu
    exact hm s u hu
  · rw [descend_graft_above hf hv] at hu
    rw [← some.inj hu]
    exact graft_nodup (hf.suffix hv) (hr.suffix hv) (h q v hv)
  · rw [descend_graft_apart hf hr hp hq] at hu
    exact h q u hu

end

section

mutual
def forget : PathTree τ κ ρ → PathTree Unit κ ρ
  | ⟨_,k,l,cs⟩ => ⟨(),k,l,forgetAll cs⟩

def forgetAll : List (PathTree τ κ ρ) → List (PathTree Unit κ ρ)
  | [] => []
  | c :: cs => forget c :: forgetAll cs
end

variable {t m : PathTree τ κ ρ} {cs : List (PathTree τ κ ρ)}

theorem forget_eq : t.forget = ⟨(),t.key,t.label,forgetAll t.children⟩ := by
  cases t
  rw [forget]

theorem forgetAll_eq : forgetAll cs = cs.map forget := by
  induction cs with
  | nil => rfl
  | cons c cs ih => rw [forgetAll,ih,map_cons]

@[simp] theorem forget_key : t.forget.key = t.key := by rw [forget_eq]

@[simp] theorem forget_label : t.forget.label = t.label := by rw [forget_eq]

@[simp] theorem forget_children : t.forget.children = forgetAll t.children := by rw [forget_eq]

variable [DecidableEq κ] {k : κ} {p : List κ} {a : τ}

theorem findKey_forget : findKey k (forgetAll cs) = (findKey k cs).map forget := by
  rw [findKey,findKey,forgetAll_eq,List.find?_map]
  simp only [Function.comp_def,forget_key]

theorem replaceFirst_forget : forgetAll (replaceFirst k m cs) = replaceFirst k m.forget (forgetAll cs) := by
  induction cs with
  | nil => rfl
  | cons c cs ih =>
    rw [replaceFirst,forgetAll,replaceFirst,forget_key]
    split
    · rw [forgetAll]
    · rw [forgetAll,ih]

theorem deleteFirst_forget : forgetAll (deleteFirst k cs) = deleteFirst k (forgetAll cs) := by
  rw [deleteFirst,deleteFirst,forgetAll_eq,forgetAll_eq,eraseP_map]
  simp only [Function.comp_def,forget_key]

theorem find_forget : t.forget.find k = (t.find k).map forget := by
  rw [find,forget_eq]
  exact findKey_forget

theorem descend_forget : descend t.forget p = (descend t p).map forget := by
  induction p generalizing t with
  | nil => rfl
  | cons k ks ih =>
    rw [descend,descend,find_forget]
    cases t.find k with
    | none => rfl
    | some c => exact ih

theorem graft_forget : (graft a t p m).forget = graft () t.forget p m.forget := by
  induction p generalizing t with
  | nil => rfl
  | cons k ks ih =>
    cases hc : t.find k with
    | none =>
      have hc' : t.forget.find k = none := by rw [find_forget,hc]; rfl
      rw [graft_cons_of_missing hc,graft_cons_of_missing hc',forget_eq]
      simp only [forgetAll,forget_key,forget_label,forget_children]
    | some c =>
      have hc' : t.forget.find k = some c.forget := by rw [find_forget,hc]; rfl
      rw [graft_cons_of_find hc,graft_cons_of_find hc',forget_eq]
      simp only [replaceFirst_forget,ih,forget_key,forget_label,forget_children]

theorem graft_back {t n : PathTree Unit κ ρ} (h : descend t p = some n) : graft () t p n = t := by
  induction p generalizing t with
  | nil => exact (some.inj h).symm
  | cons k ks ih =>
    cases hc : t.find k with
    | none =>
      rw [descend_cons_of_missing hc] at h
      cases h
    | some c =>
      rw [descend_cons_of_find hc] at h
      rw [graft_cons_of_find hc,ih h,replaceFirst_back hc]
      cases t
      rfl

end

section
variable [DecidableEq κ] {s : Nat} {live live' : PathTree Nat κ ρ → Prop} {t m : PathTree Nat κ ρ} {p : List κ}

structure Shared (s : Nat) (live : PathTree Nat κ ρ → Prop) : Prop where
  below : ∀ t, live t → ∀ q n, descend t q = some n → n.stamp < s
  distinct : ∀ t, live t → Distinct t
  coherent : ∀ t u, live t → live u → ∀ q n m, descend t q = some n → descend u q = some m → n.stamp = m.stamp → n = m

def Offspring (s : Nat) (live : PathTree Nat κ ρ → Prop) (t : PathTree Nat κ ρ) : Prop :=
  ∀ q n, descend t q = some n → n.stamp = s ∨ ∃ u, live u ∧ descend u q = some n

theorem offspring_of_live (h : live t) : Offspring s live t := fun _ _ hn => .inr ⟨t,h,hn⟩

theorem Offspring.graft (ht : live t) (hf : Fits t p m) (hr : Room t p)
  (hm : ∀ q n, descend m q = some n → n.stamp = s ∨ ∃ u, live u ∧ descend u (p ++ q) = some n) :
  Offspring s live (graft s t p m) := by
  intro q n hn
  rcases descend_graft_cases hf hr hn with hs | ⟨q,rfl,hq⟩ | ⟨-,hq⟩
  · exact .inl hs
  · exact hm q n hq
  · exact .inr ⟨t,ht,hq⟩

theorem Shared.step (h : Shared s live) (ht : Offspring s live t) (hd : Distinct t)
  (hl : ∀ u, live' u → live u ∨ u = t) : Shared (s+1) live' := by
  have hc : ∀ u, live u → ∀ q n m, descend t q = some n → descend u q = some m → n.stamp = m.stamp → n = m := by
    intro u hu q n m hn hm he
    rcases ht q n hn with hs | ⟨v,hv,ha⟩
    · have hb := h.below u hu q m hm
      omega
    · exact h.coherent v u hv hu q n m ha hm he
  refine ⟨fun u hu q n hn => ?_,fun u hu => ?_,fun u v hu hv q n m hn hm he => ?_⟩
  · rcases hl u hu with hu | rfl
    · exact Nat.lt_succ_of_lt (h.below u hu q n hn)
    rcases ht q n hn with hs | ⟨v,hv,ha⟩
    · omega
    · exact Nat.lt_succ_of_lt (h.below v hv q n ha)
  · rcases hl u hu with hu | rfl
    · exact h.distinct u hu
    · exact hd
  · rcases hl u hu with hu | rfl <;> rcases hl v hv with hv | rfl
    · exact h.coherent u v hu hv q n m hn hm he
    · exact (hc u hu q m n hm hn he.symm).symm
    · exact hc v hv q n m hn hm he
    · exact some.inj (hn.symm.trans hm)

theorem shared_single (hb : ∀ q n, descend t q = some n → n.stamp < s) (hd : Distinct t)
  (hl : ∀ u, live u → u = t) : Shared s live := by
  refine ⟨fun u hu q n hn => hb q n (hl u hu ▸ hn),fun u hu => hl u hu ▸ hd,fun u v hu hv q n m hn hm _ => ?_⟩
  rw [hl u hu] at hn
  rw [hl v hv] at hm
  exact some.inj (hn.symm.trans hm)

end

end PathTree
