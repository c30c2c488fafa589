import PMigrate.Xenstore.Effects
import Mathlib.Tactic

namespace Xenstore

open Function List

def owns (e : Nat) (x : Node) : Bool := x.perms.owner.id = e

def owned (db : Db) (e : Nat) : Nat := db.entries.countP fun z => owns e z.2

def share (e : Nat) (x : Option Node) : Int := if x.any (owns e) then 1 else 0

section
variable {db : Db} {n : Name} {x : Node} {e : Nat}

theorem share_some : share e (some x) = ((if owns e x then 1 else 0 : Nat) : Int) := by
  rw [share,Option.any_some]
  split <;> rfl

theorem share_congr {y : Node} (h : x.perms = y.perms) : share e (some x) = share e (some y) :=
  congrArg (fun p : Perms => share e (some {perms := p,data := [],children := []})) h

theorem countP_kerase (l : List (Sigma fun _ : Name => Node)) :
  ((l.kerase n).countP (fun z => owns e z.2) : Int)+share e (l.dlookup n) = l.countP fun z => owns e z.2 := by
  induction l with
  | nil => rfl
  | cons z l ih =>
    obtain ⟨m,y⟩ := z
    by_cases hm : n = m
    · subst hm
      have hr : List.kerase n (⟨n,y⟩ :: l) = l := kerase_cons_eq rfl
      have hl : List.dlookup n (⟨n,y⟩ :: l) = some y := dlookup_cons_eq l n y
      rw [hr,hl,countP_cons,share_some,Int.natCast_add]
    have hr : List.kerase n (⟨m,y⟩ :: l) = ⟨m,y⟩ :: l.kerase n := kerase_cons_ne hm
    have hl : List.dlookup n (⟨m,y⟩ :: l) = l.dlookup n := dlookup_cons_ne l ⟨m,y⟩ hm
    rw [hr,hl,countP_cons,countP_cons]
    omega

theorem owned_erase : (owned (db.erase n) e : Int) = owned db e-share e (look db n) :=
  eq_sub_of_add_eq (countP_kerase db.entries)

theorem owned_insert : (owned (db.insert n x) e : Int) = owned db e-share e (look db n)+share e (some x) := by
  rw [← owned_erase,owned,owned,AList.entries_insert,countP_cons,Int.natCast_add,share_some]
  rfl

theorem share_le_owned : share e (look db n) ≤ owned db e := by
  have hc := @owned_erase db n e
  omega

end

def Work.credit (w : Work) (e : Nat) : Option Int :=
  match w.delta with
  | some delta => some (delta e)
  | none => (w.nbentry e).map fun n : Nat => (n : Int)

structure SameMode (w w' : Work) : Prop where
  mode : w'.delta = none ↔ w.delta = none
  nbentry : w.delta ≠ none → w'.nbentry = w.nbentry

section
variable {w w' w'' : Work} {conn : Conn} {perms : Perms} {d e : Nat}

theorem SameMode.refl (w : Work) : SameMode w w := ⟨Iff.rfl,fun _ => rfl⟩

theorem SameMode.trans (h : SameMode w w') (h' : SameMode w' w'') : SameMode w w'' :=
  ⟨h'.mode.trans h.mode,fun hw => (h'.nbentry (mt h.mode.mp hw)).trans (h.nbentry hw)⟩

theorem SameMode.of_db (db : Db) : SameMode w {w with db := db} := ⟨Iff.rfl,fun _ => rfl⟩

theorem bump_mode : SameMode w (w.bump d) := by
  unfold Work.bump
  split
  · rename_i delta h
    exact ⟨by simp [h],fun _ => rfl⟩
  · rename_i h
    exact ⟨Iff.rfl,fun hw => absurd h hw⟩

theorem drop_mode : SameMode w (w.drop d) := by
  unfold Work.drop
  split
  · rename_i delta h
    exact ⟨by simp [h],fun _ => rfl⟩
  · rename_i h
    exact ⟨Iff.rfl,fun hw => absurd h hw⟩

theorem inc_mode : SameMode w (domainEntryInc conn perms w) := by
  unfold domainEntryInc
  split
  · exact bump_mode
  split
  · exact bump_mode
  · exact .refl w

theorem dec_mode : SameMode w (domainEntryDec conn perms w) := by
  unfold domainEntryDec
  split
  · exact drop_mode
  split
  · exact drop_mode
  · exact .refl w

theorem credit_db (db : Db) : ({w with db := db} : Work).credit e = w.credit e := rfl

theorem bump_credit_self : (w.bump e).credit e = (w.credit e).map (· + 1) := by
  unfold Work.bump Work.credit
  cases hd : w.delta with
  | some delta => simp
  | none => cases w.nbentry e <;> simp

theorem bump_credit_other (h : e ≠ d) : (w.bump d).credit e = w.credit e := by
  unfold Work.bump Work.credit
  cases hd : w.delta with
  | some delta | none => simp [update_of_ne h]

theorem drop_credit_self (h : w.delta = none → w.credit e ≠ some 0) :
  (w.drop e).credit e = (w.credit e).map (· - 1) := by
  unfold Work.drop
  unfold Work.credit at h ⊢
  cases hd : w.delta with
  | some delta => simp
  | none =>
    simp only [hd,update_self,forall_const] at h ⊢
    cases hn : w.nbentry e with
    | none => simp
    | some n =>
      rw [hn] at h
      have hp : 1 ≤ n := Nat.one_le_iff_ne_zero.mpr fun h0 => h (by simp [h0])
      exact congrArg some (Int.natCast_pred_of_pos hp)

theorem drop_credit_other (h : e ≠ d) : (w.drop d).credit e = w.credit e := by
  unfold Work.drop Work.credit
  cases hd : w.delta with
  | some delta | none => simp [update_of_ne h]

variable (hconn : conn.id ≠ 0 → conn.domain = true) (he : e ≠ 0)

include hconn he in
theorem inc_credit {x : Node} : (domainEntryInc conn x.perms w).credit e = (w.credit e).map (· + share e (some x)) := by
  by_cases ho : x.perms.owner.id = e
  · have hs : share e (some x) = 1 := by simp [share,owns,ho]
    rw [hs,domainEntryInc,ho]
    split
    · exact bump_credit_self
    rename_i hi
    have hi : e = conn.id := not_not.mp hi
    rw [if_pos (hconn (hi ▸ he)),← hi]
    exact bump_credit_self
  have hs : share e (some x) = 0 := by simp [share,owns,ho]
  have ha : (w.credit e).map (· + (0 : Int)) = w.credit e := by simp
  rw [hs,ha,domainEntryInc]
  split
  · exact bump_credit_other (Ne.symm ho)
  rename_i hi
  split
  · exact bump_credit_other fun h => ho ((not_not.mp hi).trans h.symm)
  · rfl

def Backed (conn : Conn) (e : Nat) (w : Work) : Prop :=
  (w.delta = none → w.credit e ≠ some 0) ∧ (w.delta ≠ none → conn.id = e → (w.nbentry e).getD 0 ≠ 0)

include hconn he in
theorem dec_credit {x : Node} (h : x.perms.owner.id = e → Backed conn e w) :
  (domainEntryDec conn x.perms w).credit e = (w.credit e).map (· - share e (some x)) := by
  by_cases ho : x.perms.owner.id = e
  · obtain ⟨hg,ht⟩ := h ho
    have hs : share e (some x) = 1 := by simp [share,owns,ho]
    rw [hs,domainEntryDec,ho]
    split
    · exact drop_credit_self hg
    rename_i hi
    have hi : e = conn.id := not_not.mp hi
    rw [← hi]
    split
    · exact drop_credit_self hg
    rename_i hb
    have hz : (w.nbentry e).getD 0 = 0 := by
      by_contra hc
      exact hb ⟨hconn (hi ▸ he),hc⟩
    by_cases hd : w.delta = none
    · have hf : w.nbentry e = none := by
        cases hn : w.nbentry e with
        | none => rfl
        | some n =>
          rw [hn,Option.getD_some] at hz
          exact absurd (by simp [Work.credit,hd,hn,hz]) (hg hd)
      simp [Work.credit,hd,hf]
    · exact absurd hz (ht hd hi.symm)
  have hs : share e (some x) = 0 := by simp [share,owns,ho]
  have ha : (w.credit e).map (· - (0 : Int)) = w.credit e := by simp
  rw [hs,ha,domainEntryDec]
  split
  · exact drop_credit_other (Ne.symm ho)
  rename_i hi
  split
  · exact drop_credit_other fun h => ho ((not_not.mp hi).trans h.symm)
  · rfl

end

structure Exact (e : Nat) (base : Int) (w : Work) : Prop where
  credit : w.credit e = some (owned w.db e-base)
  ground : w.delta = none → base = 0

def Covered (conn : Conn) (e : Nat) (w : Work) : Prop :=
  w.delta ≠ none → conn.id = e → owned w.db e ≠ 0 → (w.nbentry e).getD 0 ≠ 0

section
variable {w w' : Work} {conn : Conn} {e : Nat} {base : Int} {name : Name} {x y : Node}

theorem Exact.backed (h : Exact e base w) (hc : Covered conn e w) (hp : owned w.db e ≠ 0) : Backed conn e w := by
  refine ⟨fun hd hz => ?_,fun hd hi => hc hd hi hp⟩
  rw [h.credit,h.ground hd] at hz
  have := Option.some.inj hz
  omega

theorem owned_pos (hx : look w.db name = some x) (ho : x.perms.owner.id = e) : owned w.db e ≠ 0 := by
  have hl := @share_le_owned w.db name e
  have hs : share e (some x) = 1 := by simp [share,owns,ho]
  rw [hx,hs] at hl
  omega

variable (hconn : conn.id ≠ 0 → conn.domain = true) (he : e ≠ 0)

include hconn he in
theorem deleteNodeSingle_exact (h : Exact e base w) (hc : Covered conn e w) (hx : look w.db name = some x) :
  Exact e base (deleteNodeSingle conn name x w) ∧ Covered conn e (deleteNodeSingle conn name x w) := by
  rw [deleteNodeSingle_present hx]
  have ho : (owned (w.db.erase name) e : Int) = owned w.db e-share e (some x) := by rw [owned_erase,hx]
  have hb : x.perms.owner.id = e → Backed conn e {w with db := w.db.erase name} :=
    fun ha => h.backed hc (owned_pos hx ha)
  have hm : SameMode w (domainEntryDec conn x.perms {w with db := w.db.erase name}) :=
    (SameMode.of_db _).trans dec_mode
  refine ⟨⟨?_,fun hd => h.ground (hm.mode.mp hd)⟩,fun hd hi hp => ?_⟩
  · rw [dec_credit hconn he hb,credit_db,h.credit,dec_db,ho,Option.map_some]
    exact congrArg some (by omega)
  have hp : owned (w.db.erase name) e ≠ 0 := by rwa [dec_db] at hp
  have hw : w.delta ≠ none := mt hm.mode.mpr hd
  rw [hm.nbentry hw]
  refine hc hw hi fun hz => ?_
  have hn : 0 ≤ share e (some x) := by
    rw [share]
    split <;> decide
  omega

include hconn he in
theorem deleteNode_exact {fuel : Nat} (h : Exact e base w) (hc : Covered conn e w)
  (hx : look w.db name = some x) : Exact e base (deleteNode conn fuel name x w) :=
  (@deleteNode_induct conn w x name (fun v => Exact e base v ∧ Covered conn e v)
    (fun _ _ _ hn hv => deleteNodeSingle_exact hconn he hv.1 hv.2 hn) fuel hx ⟨h,hc⟩).1

theorem Exact.of_same (h : Exact e base w) (hc : w'.credit e = w.credit e) (hm : SameMode w w')
  (ho : owned w'.db e = owned w.db e) : Exact e base w' :=
  ⟨by rw [hc,ho,h.credit],fun hd => h.ground (hm.mode.mp hd)⟩

theorem owned_rewrite (hx : look w.db name = some x) (hy : y.perms.owner.id = x.perms.owner.id) :
  owned (w.db.insert name y) e = owned w.db e := by
  have hc := @owned_insert w.db name y e
  have hs : share e (some y) = share e (some x) := by simp [share,owns,hy]
  rw [hx,hs] at hc
  omega

end

def fresh (e : Nat) (nodes : List (Name × Node)) : Int := (nodes.dropLast.map fun z => share e (some z.2)).sum

section
variable {w w' : Work} {cfg : Config} {conn : Conn} {e : Nat} {base : Int} {name : Name} {up : List (Name × Node)}

theorem fresh_cons {p n : Name} {x x' y : Node}
  (hx : x'.perms = x.perms) : fresh e ((n,y) :: (p,x') :: up) = share e (some y)+fresh e ((p,x) :: up) := by
  rw [fresh,dropLast_cons_cons,map_cons,sum_cons,fresh]
  cases up with
  | nil => rfl
  | cons u up => rw [dropLast_cons_cons,dropLast_cons_cons,map_cons,map_cons,share_congr hx]

def gain (db : Db) (e : Nat) (nodes : List (Name × Node)) : Int :=
  (nodes.map fun z => share e (some z.2)-share e (look db z.1)).sum

variable {fuel : Nat} {y : Name × Node} {db : Db}

theorem owned_inserts {nodes : List (Name × Node)} (hn : (nodes.map Prod.fst).Nodup) :
  (owned (nodes.foldl (fun db z => db.insert z.1 z.2) db) e : Int) = owned db e+gain db e nodes := by
  induction nodes generalizing db with
  | nil => simp [gain]
  | cons z nodes ih =>
    obtain ⟨hz,hn⟩ := nodup_cons.mp hn
    have hg : gain (db.insert z.1 z.2) e nodes = gain db e nodes := by
      rw [gain,gain]
      refine congrArg List.sum (map_congr_left fun u hu => ?_)
      have ha : u.1 ≠ z.1 := fun hq => hz (mem_map.mpr ⟨u,hu,hq⟩)
      rw [look_insert,update_of_ne ha]
    rw [foldl_cons,ih hn,hg,owned_insert,gain,gain,map_cons,sum_cons]
    omega

theorem Chain.last {f : Look} (h : Chain f conn y up) :
  ∃ init p x x', y :: up = init ++ [(p,x')] ∧ f p = some x ∧ x'.perms = x.perms := by
  induction h with
  | @base p x hp => exact ⟨[],p,x,x,rfl,hp,rfl⟩
  | @step p n x up hu hv hr hn hp ih =>
    obtain ⟨init,q,z,z',hl,hq,hz⟩ := ih
    cases init with
    | nil =>
      obtain ⟨ha,rfl⟩ := List.cons.inj hl
      cases ha
      exact ⟨[_],p,z,_,rfl,hq,hz⟩
    | cons i init =>
      obtain ⟨rfl,rfl⟩ := List.cons.inj hl
      exact ⟨_ :: _ :: init,q,z,z',rfl,hq,hz⟩

theorem Chain.gain_eq (h : Chain (look db) conn y up)
  {x : Node} (hx : x.perms = y.2.perms) : gain db e ((y.1,x) :: up) = fresh e (y :: up) := by
  obtain ⟨init,p,z,z',hl,hp,hz⟩ := h.last
  have hs : share e (some z') = share e (some z) := share_congr hz
  have hh : gain db e ((y.1,x) :: up) = gain db e (y :: up) := by
    rw [gain,gain,map_cons,map_cons,share_congr hx]
  have hm : ∀ u ∈ init, look db u.1 = none := by
    intro u hu
    refine h.missing y.2 u ?_
    have hu' : u ∈ (y :: up).dropLast := by rwa [hl,dropLast_concat]
    exact hu'
  rw [hh,hl,gain,fresh,dropLast_concat,map_append,sum_append,map_singleton,sum_singleton,hp,hs,sub_self,add_zero]
  refine congrArg List.sum (map_congr_left fun u hu => ?_)
  rw [hm u hu]
  exact sub_zero _

variable (hconn : conn.id ≠ 0 → conn.domain = true) (he : e ≠ 0)

structure Counted (e : Nat) (w : Work) (res : Built × Work) : Prop where
  mode : SameMode w res.2
  credit : ∀ y up, res.1 = some (y,up) → res.2.credit e = (w.credit e).map (· + fresh e (y :: up))

include hconn he in
theorem Counted.under {res : Built × Work} (h : Counted e w res) : Counted e w (constructUnder cfg conn name res) := by
  obtain ⟨built,v⟩ := res
  cases built with
  | none => exact ⟨h.mode,fun y up hy => by cases hy⟩
  | some b =>
    obtain ⟨⟨pname,parent⟩,up⟩ := b
    rw [constructUnder]
    split
    · exact ⟨h.mode,fun y up hy => by cases hy⟩
    refine ⟨h.mode.trans inc_mode,fun y up' hy => ?_⟩
    cases hy
    have hf : ∀ n y, fresh e ((n,y) :: (pname,addChild parent (basename name)) :: up) =
        share e (some y)+fresh e ((pname,parent) :: up) := fun n y => fresh_cons rfl
    rw [hf]
    have hi := @inc_credit v conn e hconn he {perms := inherit conn parent.perms,data := [],children := []}
    refine hi.trans ?_
    rw [h.credit _ _ rfl,Option.map_map]
    refine congrArg (fun f => Option.map f (w.credit e)) (funext fun c => ?_)
    simp only [comp_apply]
    omega

include hconn he in
theorem constructNode_counted : Counted e w (constructNode cfg conn fuel name w) := by
  induction fuel generalizing name with
  | zero => exact ⟨.refl w,fun y up hy => nomatch hy⟩
  | succ fuel ih =>
    rw [constructNode]
    split
    · refine Counted.under hconn he ⟨.refl w,fun y up hy => ?_⟩
      cases hy
      simp [fresh]
    · exact ih.under hconn he

theorem constructNode_refused (h : cfg.entriesReached (domainEntry conn w) = true) :
  constructNode cfg conn fuel name w = (none,w) := by
  induction fuel generalizing name with
  | zero => rfl
  | succ fuel ih =>
    rw [constructNode]
    split
    · rw [constructUnder,if_pos h]
    · rw [ih]
      rfl

end

end Xenstore
