import PMigrate.Xenstore.Requests

namespace Xenstore

open PackedStrings Function List Option

def kids (node : Node) : List Name := unpack nul node.children

structure Tidy (node : Node) : Prop where
  packed : pack nul (kids node) = node.children
  nodup : (kids node).Nodup
  comp : ∀ b ∈ kids node, Component b

section
variable {x : Node} {b : Name}

variable {y : Node} {bs : List Name}

theorem kids_of_pack (hs : ∀ b ∈ bs, Component b) (hx : x.children = pack nul bs) : kids x = bs := by
  rw [kids,hx]
  exact unpack_pack fun b hb => (hs b hb).noNul

theorem tidy_of_pack (hb : ∀ b ∈ bs, Component b) (hn : bs.Nodup) (hx : x.children = pack nul bs) : Tidy x := by
  have hk := kids_of_pack hb hx
  exact ⟨by rw [hk,hx],by rwa [hk],by rwa [hk]⟩

theorem Tidy.congr (h : Tidy x) (hc : y.children = x.children) : Tidy y :=
  tidy_of_pack h.comp h.nodup (hc.trans h.packed.symm)

theorem kids_congr (hc : y.children = x.children) : kids y = kids x := by rw [kids,kids,hc]

section
variable (h : Tidy x)
include h

theorem Tidy.addChild_children : (addChild x b).children = pack nul (kids x ++ [b]) := by
  rw [pack_concat,h.packed]
  rfl

theorem Tidy.comp_concat (hb : Component b) : ∀ c ∈ kids x ++ [b], Component c := by
  intro c hc
  rcases mem_append.mp hc with hc | hc
  · exact h.comp c hc
  · rwa [mem_singleton.mp hc]

theorem Tidy.kids_addChild (hb : Component b) : kids (addChild x b) = kids x ++ [b] :=
  kids_of_pack (h.comp_concat hb) h.addChild_children

theorem Tidy.addChild (hb : Component b) (hn : b ∉ kids x) : Tidy (addChild x b) := by
  refine tidy_of_pack (h.comp_concat hb) ?_ h.addChild_children
  exact nodup_append.mpr ⟨h.nodup,nodup_singleton b,fun c hc d hd ha =>
    hn (mem_singleton.mp hd ▸ ha ▸ hc)⟩

theorem Tidy.cut : cutString nul b x.children.length x.children =
    if b ∈ kids x then some (pack nul ((kids x).erase b)) else none := by
  have hl : (kids x).length ≤ (pack nul (kids x)).length := length_le_pack _
  have hc : cutString nul b _ (pack nul (kids x)) = _ := cutString_pack (fun s hs => (h.comp s hs).noNul) hl
  rwa [h.packed] at hc

theorem Tidy.comp_erase : ∀ c ∈ (kids x).erase b, Component c :=
  fun c hc => h.comp c (mem_of_mem_erase hc)

end

end

def Under (n m : Name) : Prop := ∃ i, getParent^[i] m = n

section
variable {n m b : Name}

theorem Under.refl (n : Name) : Under n n := ⟨0,rfl⟩

theorem Under.of_parent (h : Under n (getParent m)) : Under n m := by
  obtain ⟨i,hi⟩ := h
  exact ⟨i+1,hi⟩

theorem Under.parent (h : Under n m) (hn : m ≠ n) : Under n (getParent m) := by
  obtain ⟨i,hi⟩ := h
  cases i with
  | zero => exact absurd hi hn
  | succ i => exact ⟨i,hi⟩

theorem not_under_root (hn : n ≠ root) : ¬Under n root := by
  rintro ⟨i,hi⟩
  exact hn (hi ▸ ancestor_root)

theorem Under.length_le (h : Under n m) (hm : Valid m) : n.length ≤ m.length := by
  obtain ⟨i,rfl⟩ := h
  exact hm.ancestor_length

theorem not_under_parent (hn : Valid n) (he : n ≠ root) : ¬Under n (getParent n) := by
  intro h
  have hl := h.length_le hn.parent
  have ht := hn.parent_shorter he
  omega

theorem Under.trans {k : Name} (h : Under n m) (hk : Under m k) : Under n k := by
  obtain ⟨i,hi⟩ := h
  obtain ⟨j,hj⟩ := hk
  exact ⟨i+j,by rw [iterate_add_apply,hj,hi]⟩

theorem under_join (hn : Valid n) (hb : Component b) : Under n (join n b) := ⟨1,hn.getParent_join hb⟩

end

abbrev Look := Name → Option Node

structure Sound (f : Look) : Prop where
  rooted : f root ≠ none
  valid : ∀ n, f n ≠ none → Valid n
  tidy : ∀ n node, f n = some node → Tidy node
  parent : ∀ n, f n ≠ none → n ≠ root → ∃ p, f (getParent n) = some p ∧ basename n ∈ kids p
  listed : ∀ n node, f n = some node → ∀ b ∈ kids node, f (join n b) ≠ none

section
variable {f : Look} {n : Name} {x y : Node}

theorem update_ne_none (m : Name) (h : f m ≠ none) : update f n (some y) m ≠ none := by
  by_cases hm : m = n
  · rw [hm,update_self]
    exact some_ne_none y
  · rwa [update_of_ne hm]

theorem ne_none_of_update (hx : f n ≠ none) (m : Name) (h : update f n (some y) m ≠ none) : f m ≠ none := by
  by_cases hm : m = n
  · rwa [hm]
  · rwa [update_of_ne hm] at h

theorem Sound.rewrite (h : Sound f) (hx : f n = some x) (hy : y.children = x.children) :
  Sound (update f n (some y)) := by
  have hn : f n ≠ none := hx ▸ some_ne_none x
  have hk : ∀ m z, update f n (some y) m = some z → ∃ z', f m = some z' ∧ z.children = z'.children := by
    intro m z hz
    by_cases hm : m = n
    · rw [hm,update_self] at hz
      exact ⟨x,hm ▸ hx,some.inj hz ▸ hy⟩
    · rw [update_of_ne hm] at hz
      exact ⟨z,hz,rfl⟩
  have ha : ∀ m z, f m = some z → ∃ z', update f n (some y) m = some z' ∧ z'.children = z.children := by
    intro m z hz
    by_cases hm : m = n
    · refine ⟨y,by rw [hm,update_self],?_⟩
      rw [hm,hx] at hz
      exact some.inj hz ▸ hy
    · exact ⟨z,by rwa [update_of_ne hm],rfl⟩
  refine ⟨update_ne_none _ h.rooted,fun m hm => h.valid m (ne_none_of_update hn m hm),?_,?_,?_⟩
  · intro m z hz
    obtain ⟨z',hz',hc⟩ := hk m z hz
    exact (h.tidy m z' hz').congr hc
  · intro m hm hr
    obtain ⟨p,hp,hb⟩ := h.parent m (ne_none_of_update hn m hm) hr
    obtain ⟨p',hp',hc⟩ := ha _ p hp
    exact ⟨p',hp',kids_congr hc ▸ hb⟩
  · intro m z hz b hb
    obtain ⟨z',hz',hc⟩ := hk m z hz
    exact update_ne_none _ (h.listed m z' hz' b (kids_congr hc ▸ hb))

theorem Sound.not_listed (h : Sound f) {p : Node} (hv : Valid n) (hr : n ≠ root) (hn : f n = none)
  (hp : f (getParent n) = some p) : basename n ∉ kids p := by
  intro hb
  have hl := h.listed _ p hp _ hb
  rw [hv.join_parent hr] at hl
  exact hl hn

theorem Sound.grow (h : Sound f) {p : Node} (hv : Valid n) (hr : n ≠ root) (hn : f n = none)
  (hp : f (getParent n) = some p) (hx : x.children = []) :
  Sound (update (update f (getParent n) (some (addChild p (basename n)))) n (some x)) := by
  have hc := hv.component hr
  have hw : getParent n ≠ n := fun he => by
    have hl := hv.parent_shorter hr
    rw [he] at hl
    exact Nat.lt_irrefl _ hl
  have ht := h.tidy _ p hp
  set g := update (update f (getParent n) (some (addChild p (basename n)))) n (some x) with hg
  have hs : g n = some x := update_self ..
  have ha : g (getParent n) = some (addChild p (basename n)) := by rw [hg,update_of_ne hw,update_self]
  have ho : ∀ m, m ≠ n → m ≠ getParent n → g m = f m := fun m h1 h2 => by
    rw [hg,update_of_ne h1,update_of_ne h2]
  have hi : ∀ m, f m ≠ none → g m ≠ none := fun m hm => update_ne_none m (update_ne_none m hm)
  have hold : ∀ m, g m ≠ none → m ≠ n → f m ≠ none := by
    intro m hm hd
    by_cases hf : m = getParent n
    · exact hf ▸ hp ▸ some_ne_none p
    · exact ho m hd hf ▸ hm
  have hk : kids x = [] := by
    rw [kids,hx]
    rfl
  refine ⟨hi _ h.rooted,?_,?_,?_,?_⟩
  · intro m hm
    by_cases hd : m = n
    · exact hd ▸ hv
    · exact h.valid m (hold m hm hd)
  · intro m z hz
    by_cases hd : m = n
    · rw [hd,hs] at hz
      have hy : ∀ b ∈ ([] : List Name), Component b := fun b hb => nomatch hb
      exact some.inj hz ▸ tidy_of_pack hy nodup_nil hx
    by_cases hf : m = getParent n
    · rw [hf,ha] at hz
      exact some.inj hz ▸ ht.addChild hc (h.not_listed hv hr hn hp)
    · exact h.tidy m z (ho m hd hf ▸ hz)
  · intro m hm hmr
    by_cases hd : m = n
    · subst hd
      refine ⟨_,ha,?_⟩
      rw [ht.kids_addChild hc]
      exact mem_append_right _ (mem_singleton.mpr rfl)
    obtain ⟨q,hq,hb⟩ := h.parent m (hold m hm hd) hmr
    by_cases hu : getParent m = getParent n
    · rw [hu,hp] at hq
      refine ⟨_,hu ▸ ha,?_⟩
      rw [ht.kids_addChild hc,some.inj hq]
      exact mem_append_left _ hb
    refine ⟨q,?_,hb⟩
    rw [ho _ (fun he => ?_) hu]
    · exact hq
    · rw [he,hn] at hq
      cases hq
  · intro m z hz b hb
    by_cases hd : m = n
    · rw [hd,hs] at hz
      rw [← some.inj hz,hk] at hb
      cases hb
    by_cases hf : m = getParent n
    · rw [hf,ha] at hz
      rw [← some.inj hz,ht.kids_addChild hc] at hb
      rcases mem_append.mp hb with hb | hb
      · exact hf ▸ hi _ (h.listed _ p hp b hb)
      · rw [mem_singleton.mp hb,hf,hv.join_parent hr,hs]
        exact some_ne_none x
    · exact hi _ (h.listed m z (ho m hd hf ▸ hz) b hb)

theorem Sound.prune (h : Sound f) {p q : Node} {g : Look} (hv : Valid n) (hs : n ≠ root)
  (hp : f (getParent n) = some p) (hq : q.children = pack nul ((kids p).erase (basename n)))
  (hg : ∀ m, Under n m → g m = none) (hk : ∀ m, ¬Under n m → g m = update f (getParent n) (some q) m) : Sound g := by
  have ht := h.tidy _ p hp
  have hi : kids q = (kids p).erase (basename n) := kids_of_pack ht.comp_erase hq
  have ha : g (getParent n) = some q := by rw [hk _ (not_under_parent hv hs),update_self]
  have hn : ∀ m, g m ≠ none → ¬Under n m := fun m hm hu => hm (hg m hu)
  have ho : ∀ m, ¬Under n m → m ≠ getParent n → g m = f m := fun m hm hd => by rw [hk m hm,update_of_ne hd]
  have hold : ∀ m, g m ≠ none → f m ≠ none := by
    intro m hm
    rw [hk m (hn m hm)] at hm
    exact ne_none_of_update (hp ▸ some_ne_none p) m hm
  have hw : ∀ m, ¬Under n m → f m ≠ none → g m ≠ none := by
    intro m hm hf
    rw [hk m hm]
    exact update_ne_none m hf
  refine ⟨hw _ (not_under_root hs) h.rooted,fun m hm => h.valid m (hold m hm),?_,?_,?_⟩
  · intro m z hz
    by_cases hd : m = getParent n
    · rw [hd,ha] at hz
      exact some.inj hz ▸ tidy_of_pack ht.comp_erase (ht.nodup.erase _) hq
    · have hm := hn m (hz ▸ some_ne_none z)
      exact h.tidy m z (ho m hm hd ▸ hz)
  · intro m hm hx
    have hl := hn m hm
    obtain ⟨r,hr,hb⟩ := h.parent m (hold m hm) hx
    have hpu : ¬Under n (getParent m) := fun hu => hl hu.of_parent
    by_cases hd : getParent m = getParent n
    · refine ⟨q,hd ▸ ha,?_⟩
      rw [hd,hp] at hr
      rw [hi,some.inj hr]
      refine (mem_erase_of_ne fun he => hl ?_).mpr hb
      have hvm := h.valid m (hold m hm)
      rw [← hvm.join_parent hx,hd,he,hv.join_parent hs]
      exact .refl n
    · exact ⟨r,by rwa [ho _ hpu hd],hb⟩
  · intro m z hz b hb
    have hm : g m ≠ none := hz ▸ some_ne_none z
    have hl := hn m hm
    obtain ⟨y,hy,hby,hne⟩ : ∃ y, f m = some y ∧ b ∈ kids y ∧ (m = getParent n → b ≠ basename n) := by
      by_cases hd : m = getParent n
      · rw [hd,ha] at hz
        rw [← some.inj hz,hi] at hb
        refine ⟨p,hd ▸ hp,mem_of_mem_erase hb,fun _ he => ?_⟩
        exact ht.nodup.not_mem_erase (he ▸ hb)
      · exact ⟨z,ho m hl hd ▸ hz,hb,fun he => absurd he hd⟩
    refine hw _ (fun hu => ?_) (h.listed m y hy b hby)
    have hvm := h.valid m (hold m hm)
    have hc := (h.tidy m y hy).comp b hby
    by_cases he : join m b = n
    · refine hne ?_ ?_
      · rw [← he,hvm.getParent_join hc]
      · rw [← he,basename_join hc]
    · exact hl (hvm.getParent_join hc ▸ hu.parent he)

end

end Xenstore
