import Mathlib.Data.List.DropRight
import Mathlib.Data.List.Infix

namespace Xenstore

open List

abbrev Name := List Char

def nul : Char := Char.ofNat 0

def root : Name := ['/']

def absPathMax : Nat := 3072

def nodeChars : List Char := "ABCDEFGHIJKLMNOPQRSTUVWXYZabcdefghijklmnopqrstuvwxyz0123456789-/_@".toList

def validChars (node : Name) : Bool := node.all (nodeChars.contains ·)

def isValidNodename (node : Name) : Bool :=
  if ¬['/'] <+: node then false
  else if ['/'] <:+ node ∧ node ≠ root then false
  else if ['/','/'] <:+: node then false
  else if absPathMax < node.length then false
  else validChars node

def getParent : Name → Name
  | [] => root
  | c :: rest =>
      let upto := rest.rdropWhile (· ≠ '/')
      if upto = [] then root else c :: upto.dropLast

def basename (name : Name) : Name := name.rtakeWhile (· ≠ '/')

def childName (dir base : Name) : Name := dir ++ '/' :: base

def join (dir base : Name) : Name := if dir = root then '/' :: base else childName dir base

structure Valid (n : Name) : Prop where
  rooted : ['/'] <+: n
  trail : n ≠ root → ¬['/'] <:+ n
  single : ¬['/','/'] <:+: n
  short : n.length ≤ absPathMax
  chars : ∀ c ∈ n, c ∈ nodeChars

structure Component (b : Name) : Prop where
  nonempty : b ≠ []
  noSlash : '/' ∉ b
  noNul : nul ∉ b

variable {n b : Name}

theorem isValidNodename_iff : isValidNodename n = true ↔ Valid n := by
  unfold isValidNodename
  constructor
  · intro h
    split at h; · cases h
    split at h; · cases h
    split at h; · cases h
    split at h; · cases h
    rename_i h1 h2 h3 h4
    exact ⟨not_not.mp h1,fun hn ht => h2 ⟨ht,hn⟩,h3,not_lt.mp h4,by simpa [validChars] using h⟩
  intro h
  rw [if_neg (not_not.mpr h.rooted),if_neg (fun ht => h.trail ht.2 ht.1),if_neg h.single,if_neg (not_lt.mpr h.short)]
  simpa [validChars] using h.chars

theorem valid_root : Valid root := isValidNodename_iff.mp (by decide +kernel)

theorem getParent_root : getParent root = root := rfl

theorem Valid.noNul (h : Valid n) : nul ∉ n := fun hm => absurd (h.chars nul hm) (by decide +kernel)

variable (hb : Component b)
include hb

theorem Component.scanned : ∀ c ∈ b.reverse, decide (c ≠ '/') = true := by
  intro c hc
  rw [mem_reverse] at hc
  exact decide_eq_true fun h => hb.noSlash (h ▸ hc)

theorem basename_append (x : Name) : basename (x ++ '/' :: b) = b := by
  simp only [basename,List.rtakeWhile,reverse_append,reverse_cons,append_assoc]
  rw [takeWhile_append_of_pos hb.scanned]
  simp

theorem upto_append (u : Name) : (u ++ '/' :: b).rdropWhile (· ≠ '/') = u ++ ['/'] := by
  simp only [List.rdropWhile,reverse_append,reverse_cons,append_assoc]
  rw [dropWhile_append_of_pos hb.scanned]
  simp

theorem getParent_append (c : Char) (u : Name) : getParent (c :: (u ++ '/' :: b)) = c :: u := by
  simp only [getParent,upto_append hb]
  rw [if_neg (by simp),dropLast_concat]

theorem getParent_top (c : Char) : getParent (c :: b) = root := by
  simp only [getParent]
  rw [if_pos]
  rw [rdropWhile_eq_nil_iff]
  exact fun x hx => hb.scanned x (mem_reverse.mpr hx)

omit hb

inductive Split (n : Name) : Prop
  | top (b : Name) (hb : Component b) (hn : n = '/' :: b)
  | deep (u b : Name) (hu : u ≠ []) (hb : Component b) (hn : n = '/' :: (u ++ '/' :: b))

theorem Valid.split (h : Valid n) (hn : n ≠ root) : Split n := by
  obtain ⟨t,rfl⟩ := h.rooted
  rw [singleton_append] at *
  have ha : nul ∉ t := fun hm => h.noNul (mem_cons_of_mem _ hm)
  have hs : t.rdropWhile (· ≠ '/') ++ t.rtakeWhile (· ≠ '/') = t := rdropWhile_append_rtakeWhile
  have hb : '/' ∉ t.rtakeWhile (· ≠ '/') := fun hm => by simpa using mem_rtakeWhile_imp hm
  by_cases hu : t.rdropWhile (· ≠ '/') = []
  · rw [hu,nil_append] at hs
    exact .top t ⟨fun ht => hn (by rw [ht]; rfl),hs ▸ hb,ha⟩ rfl
  obtain ⟨v,hv⟩ : ∃ v, t.rdropWhile (· ≠ '/') = v ++ ['/'] := by
    have hl : (t.rdropWhile (· ≠ '/')).getLast hu = '/' := by simpa using rdropWhile_last_not _ _ hu
    exact ⟨_,hl ▸ (dropLast_append_getLast hu).symm⟩
  rw [hv,append_assoc,singleton_append] at hs
  refine .deep v _ ?_ ⟨?_,hb,fun hm => ha ((rtakeWhile_suffix _ _).subset hm)⟩ (by rw [hs])
  · rintro rfl
    exact h.single ⟨[],_,by rw [← hs]; rfl⟩
  intro hi
  rw [hi] at hs
  exact h.trail hn ⟨'/' :: v,by rw [← hs]; rfl⟩

section
variable {n p b : Name}

theorem Valid.component (h : Valid n) (hn : n ≠ root) : Component (basename n) := by
  cases h.split hn with
  | top b hb hn =>
    rw [hn,← nil_append ('/' :: b),basename_append hb]
    exact hb
  | deep u b hu hb hn =>
    rw [hn,← cons_append,basename_append hb]
    exact hb

theorem Valid.join_parent (h : Valid n) (hn : n ≠ root) : join (getParent n) (basename n) = n := by
  cases h.split hn with
  | top b hb hn =>
    rw [hn,getParent_top hb,join,if_pos rfl,← nil_append ('/' :: b),basename_append hb]
    rfl
  | deep u b hu hb hn =>
    rw [hn,getParent_append hb,join,if_neg (by simpa [root] using hu),← cons_append,basename_append hb]
    rfl

theorem Valid.of_prefix (h : Valid n) (hp : p <+: n) (hn : p ≠ []) (hl : ¬['/'] <:+ p) : Valid p where
  rooted := by
    obtain ⟨t,rfl⟩ := h.rooted
    cases p with
    | nil => exact absurd rfl hn
    | cons c p =>
      rw [singleton_append,List.cons_prefix_cons] at hp
      exact ⟨p,by rw [hp.1]; rfl⟩
  trail := fun _ => hl
  single := fun hs => h.single (hs.trans hp.isInfix)
  short := hp.length_le.trans h.short
  chars := fun c hc => h.chars c (hp.subset hc)

theorem Valid.parent (h : Valid n) : Valid (getParent n) := by
  by_cases hr : n = root
  · exact hr ▸ valid_root
  cases h.split hr with
  | top b hb hn =>
    rw [hn,getParent_top hb]
    exact valid_root
  | deep u b hu hb hn =>
    rw [hn,getParent_append hb]
    have hp : '/' :: u <+: n := ⟨'/' :: b,by rw [hn]; rfl⟩
    refine h.of_prefix hp (by simp) ?_
    rintro ⟨v,hv⟩
    refine h.single ⟨v,b,?_⟩
    rw [hn,← cons_append,← hv]
    simp

theorem Valid.parent_shorter (h : Valid n) (hn : n ≠ root) : (getParent n).length < n.length := by
  cases h.split hn with
  | top b hb hn =>
    have hl : 0 < b.length := length_pos_iff.mpr hb.nonempty
    rw [hn,getParent_top hb,length_cons]
    exact Nat.succ_lt_succ hl
  | deep u b hu hb hn =>
    rw [hn,getParent_append hb]
    simp

theorem Valid.dir (h : Valid p) (hp : p ≠ root) : ∃ u, u ≠ [] ∧ p = '/' :: u := by
  obtain ⟨u,rfl⟩ := h.rooted
  exact ⟨u,fun hu => hp (by rw [hu]; rfl),rfl⟩

theorem Valid.getParent_join (h : Valid p) (hb : Component b) : getParent (join p b) = p := by
  by_cases hp : p = root
  · rw [join,if_pos hp,getParent_top hb,hp]
  obtain ⟨u,-,rfl⟩ := h.dir hp
  rw [join,if_neg hp]
  exact getParent_append hb '/' u

theorem basename_join (hb : Component b) : basename (join p b) = b := by
  rw [join]
  split
  · exact basename_append hb []
  · exact basename_append hb p

theorem join_ne_root (hb : Component b) : join p b ≠ root := by
  intro h
  have ha : basename root = b := h ▸ basename_join hb
  exact hb.nonempty (ha ▸ rfl)

theorem join_of_ne_root (hp : p ≠ root) : join p b = childName p b := if_neg hp

theorem length_childName : (childName p b).length = p.length+b.length+1 := by
  rw [childName,length_append,length_cons]
  omega

end

section
variable {n p k : Name} {i : Nat}

theorem Valid.ancestor (h : Valid n) : Valid (getParent^[i] n) := by
  induction i generalizing n with
  | zero => exact h
  | succ i ih => exact ih h.parent

theorem ancestor_root : getParent^[i] root = root := Function.iterate_fixed getParent_root i

theorem Valid.ancestor_length (h : Valid n) : (getParent^[i] n).length ≤ n.length := by
  induction i generalizing n with
  | zero => exact le_rfl
  | succ i ih =>
    refine (ih h.parent).trans ?_
    by_cases hn : n = root
    · exact Nat.le_of_eq (by rw [hn,getParent_root])
    · exact (h.parent_shorter hn).le

end

end Xenstore
