import PMigrate.Xenstore.EntryCounts
import PMigrate.Xenstore.Serial

namespace Xenstore

open PackedStrings Transition Function List Option Nat

def gaps (db : Db) : Nat → Name → Nat
  | 0,_ => 0
  | n+1,name =>
      match db.lookup (getParent name) with
      | some _ => 1
      | none => gaps db n (getParent name)+1

def inheritedPerms (db : Db) : Nat → Name → Nat
  | 0,_ => 0
  | n+1,name =>
      match db.lookup (getParent name) with
      | some x => x.perms.numPerms
      | none => inheritedPerms db n (getParent name)

def Config.fits (cfg : Config) (size : Nat) : Bool := !cfg.maxEntrySize.any (· ≤ size)

def parentsFit (cfg : Config) (db : Db) (perms : Nat) : Nat → Name → Bool
  | 0,_ => true
  | n+1,name =>
      match db.lookup (getParent name) with
      | some x => cfg.fits (entrySize x+((basename name).length+1))
      | none =>
          cfg.fits (3*4+perms*8+((basename name).length+1)) && parentsFit cfg db perms n (getParent name)

def Work.pending (w : Work) (d : Nat) : Int := w.delta.elim 0 (· d)

def roomy (cfg : Config) (conn : Conn) (w : Work) (name : Name) (data : List Char) : Bool :=
  let perms := inheritedPerms w.db name.length name
  let missing := gaps w.db name.length name
  let leafFits := cfg.fits (3*4+perms*8+data.length)
  (!conn.unprivileged) || cfg.entriesReached (domainEntry conn w) ||
    (decide (missing = 1) && !leafFits && (w.delta.isNone || decide ((w.nbentry conn.id).getD 0 ≠ 0))) ||
    (leafFits && parentsFit cfg w.db perms name.length name && cfg.nbEntryPerDomain.all fun limit : Nat =>
      decide ((domainEntry conn w : Int)+w.pending conn.id+missing ≤ limit))

def Request.creates (conn : Conn) : Request → Option (Name × List Char)
  | .write payload =>
      if nul ∈ payload then some (canonicalize conn (first nul payload),afterFirst nul payload) else none
  | .mkdir payload => (onearg payload).map fun name => (canonicalize conn name,[])
  | _ => none

def creating (cfg : Config) (conn : Conn) (r : Request) (w : Work) : Bool := (r.creates conn).all fun c =>
    match getNode w.db conn (some c.1) permWrite with
    | .error .ENOENT => roomy cfg conn w c.1 c.2
    | _ => true

def releasing (conn : Conn) (r : Request) (w : Work) : Bool :=
  match r with
  | .rm _ | .setPerms _ =>
      decide (conn.id = 0) || w.delta.isNone || decide (owned w.db conn.id = 0) ||
        decide ((w.nbentry conn.id).getD 0 ≠ 0)
  | _ => true

def careful (cfg : Config) (s : State) : Action → Bool
  | .request p tx r => (s.work p tx).all fun w =>
      creating cfg (p.conn s.target) r w && releasing (p.conn s.target) r w
  | .transactionEnd p tx _ => ((s.links p).transactions.lookup tx).all fun t =>
      decide (s.generation < t.generation+2^32)
  | _ => true

variable {cfg : Config} {conn : Conn}

section
variable {db : Db}

theorem refuses_iff {x : Node} : cfg.refuses conn x = (conn.unprivileged && !cfg.fits (entrySize x)) := by
  rw [Config.refuses,Config.fits,Bool.not_not]

theorem inherit_numPerms (p : Perms) : (inherit conn p).numPerms = p.numPerms := by
  unfold inherit
  split <;> rfl

theorem entrySize_addChild (x : Node) (b : Name) : entrySize (addChild x b) = entrySize x+(b.length+1) := by
  simp only [entrySize,addChild,length_append,length_singleton]
  omega

structure Sized (cfg : Config) (db : Db) (fuel : Nat) (y : Name × Node) (up : List (Name × Node)) : Prop where
  perms : y.2.perms.numPerms = inheritedPerms db fuel y.1
  empty : y.2.data = [] ∧ y.2.children = []
  gaps : up.length = gaps db fuel y.1
  fit : parentsFit cfg db (inheritedPerms db fuel y.1) fuel y.1 = true → ∀ z ∈ up, cfg.fits (entrySize z.2) = true

theorem Chain.sized {y : Name × Node} {up : List (Name × Node)} (h : Chain (look db) conn y up) {fuel : Nat}
  (hy : look db y.1 = none) (hf : up.length ≤ fuel) : Sized cfg db fuel y up := by
  induction h generalizing fuel with
  | base hp =>
    rw [hp] at hy
    cases hy
  | @step p n x up hu hv hr hn hp ih =>
    obtain ⟨m,rfl⟩ : ∃ m, fuel = m+1 := ⟨fuel-1,by simp only [length_cons] at hf; omega⟩
    cases hl : db.lookup p with
    | some q =>
      obtain ⟨rfl,rfl⟩ : q = x ∧ up = [] := by
        cases hu with
        | base hx => exact ⟨Option.some.inj (hl.symm.trans hx),rfl⟩
        | step _ _ _ hb _ =>
          rw [look,hl] at hb
          cases hb
      constructor
      · rw [inheritedPerms,hp,hl]
        exact inherit_numPerms _
      · exact ⟨rfl,rfl⟩
      · rw [Xenstore.gaps,hp,hl]
        rfl
      · intro hi z hz
        rw [parentsFit,hp,hl] at hi
        rw [mem_singleton.mp hz,entrySize_addChild]
        exact hi
    | none =>
      obtain ⟨he,⟨hd,hc⟩,hg,hi⟩ := ih hl (le_of_succ_le_succ (by simpa using hf))
      constructor
      · rw [inheritedPerms,hp,hl]
        exact (inherit_numPerms _).trans he
      · exact ⟨rfl,rfl⟩
      · rw [Xenstore.gaps,hp,hl,length_cons,hg]
      · intro ha z hz
        rw [parentsFit,inheritedPerms,hp,hl] at ha
        simp only [Bool.and_eq_true] at ha
        rcases mem_cons.mp hz with rfl | hz
        · rw [entrySize_addChild,entrySize,he,hd,hc]
          simpa using ha.1
        · exact hi ha.2 z hz

end

variable {w : Work} {name : Name}

def Work.climb (w : Work) (conn : Conn) (j : Nat) : Nat := if w.delta = none ∧ conn.unprivileged then j else 0

theorem entriesReached_mono {m n : Nat} (h : m ≤ n) (hn : cfg.entriesReached n = false) :
  cfg.entriesReached m = false := by
  unfold Config.entriesReached at hn ⊢
  cases hl : cfg.nbEntryPerDomain with
  | none => rfl
  | some limit =>
    rw [hl,any_some,decide_eq_false_iff_not] at hn
    rw [any_some,decide_eq_false_iff_not]
    exact fun hm => hn (hm.trans h)

theorem climb_succ {v : Work} (hm : SameMode w v) (j : Nat) : w.climb conn j+v.climb conn 1 = w.climb conn (j+1) := by
  simp only [Work.climb,hm.mode]
  split <;> rfl

theorem domainEntry_inc {perms : Perms} (v : Work) :
  domainEntry conn (domainEntryInc conn perms v) ≤ domainEntry conn v+v.climb conn 1 := by
  have hb : ∀ d, domainEntry conn (v.bump d) ≤ domainEntry conn v+v.climb conn 1 := by
    intro d
    unfold domainEntry Work.climb Work.bump
    cases hp : conn.unprivileged with
    | false => simp
    | true =>
      cases he : v.delta with
      | some delta => simp
      | none =>
        by_cases hd : conn.id = d
        · subst hd
          cases v.nbentry conn.id <;> simp
        · simp [update_of_ne hd]
  unfold domainEntryInc
  split
  · exact hb _
  split
  · exact hb _
  · exact Nat.le_add_right ..

structure Through (conn : Conn) (w : Work) (j : Nat) (y : Name × Node) (up : List (Name × Node)) (v : Work) : Prop where
  mode : SameMode w v
  entry : domainEntry conn v ≤ domainEntry conn w+w.climb conn j
  length : up.length = j

theorem Through.under {p : Name} {x : Node} {up : List (Name × Node)} {v : Work} {j : Nat}
  (h : Through conn w j (p,x) up v) (hr : cfg.entriesReached (domainEntry conn w+w.climb conn j) = false) :
  ∃ y up' v', constructUnder cfg conn name (some ((p,x),up),v) = (some (y,up'),v') ∧ Through conn w (j+1) y up' v' := by
  rw [constructUnder,if_neg (Bool.eq_false_iff.mp (entriesReached_mono h.entry hr))]
  refine ⟨_,_,_,rfl,h.mode.trans inc_mode,?_,congrArg (· + 1) h.length⟩
  have hi := @domainEntry_inc conn (inherit conn x.perms) v
  have hc := @climb_succ conn w v h.mode j
  have he := h.entry
  exact hi.trans (by omega)

theorem constructNode_through (ho : look w.db root ≠ none) {fuel : Nat} (hv : Valid name)
  (hn : look w.db name = none) (hf : name.length ≤ fuel)
  (hr : ∀ j < gaps w.db fuel name, cfg.entriesReached (domainEntry conn w+w.climb conn j) = false) :
  ∃ y up v, constructNode cfg conn fuel name w = (some (y,up),v) ∧ Through conn w (gaps w.db fuel name) y up v := by
  induction fuel generalizing name with
  | zero =>
    have hl := hv.rooted.length_le
    rw [length_singleton] at hl
    omega
  | succ fuel ih =>
    have ha : name ≠ root := fun he => ho (he ▸ hn)
    rw [gaps] at hr ⊢
    rw [constructNode]
    cases hp : w.db.lookup (getParent name) with
    | some p =>
      rw [hp] at hr
      have hs : Through conn w 0 (getParent name,p) [] w := ⟨.refl w,Nat.le_add_right ..,rfl⟩
      exact hs.under (hr 0 Nat.zero_lt_one)
    | none =>
      rw [hp] at hr
      have hc := hv.parent_shorter ha
      obtain ⟨⟨p,x⟩,up,v,hb,ht⟩ := ih hv.parent hp (by omega) (fun j hj => hr j (lt_succ_of_lt hj))
      rw [hb]
      exact ht.under (hr _ (lt_succ_self _))

theorem gaps_le (db : Db) (fuel : Nat) (name : Name) : gaps db fuel name ≤ fuel := by
  induction fuel generalizing name with
  | zero => exact le_rfl
  | succ fuel ih =>
    rw [gaps]
    split
    · omega
    · exact succ_le_succ (ih _)

theorem share_le_one (e : Nat) (x : Option Node) : share e x ≤ 1 := by
  rw [share]
  split <;> decide

theorem fresh_le (e : Nat) (y : Name × Node) (up : List (Name × Node)) : fresh e (y :: up) ≤ up.length := by
  have hs : ∀ l : List (Name × Node), (l.map fun z => share e (some z.2)).sum ≤ l.length := by
    intro l
    induction l with
    | nil => simp
    | cons z l ih =>
      rw [map_cons,sum_cons,length_cons]
      have := share_le_one e (some z.2)
      omega
  have hl : (y :: up).dropLast.length = up.length := by simp
  have he := hs (y :: up).dropLast
  rwa [hl] at he

structure Accounts (cfg : Config) (conn : Conn) (w : Work) (changed : Bool) (w' : Work) : Prop where
  mode : SameMode w w'
  exact : ∀ e base, e ≠ 0 → Exact e base w → Exact e base w'
  quiet : changed = false → ∀ e, owned w'.db e = owned w.db e
  limited : ∀ limit, cfg.nbEntryPerDomain = some limit → conn.unprivileged →
    (domainEntry conn w : Int)+w.pending conn.id = owned w.db conn.id →
    owned w'.db conn.id ≤ limit ∨ owned w'.db conn.id ≤ owned w.db conn.id

variable {r : Request}

section
variable {w' : Work} {changed : Bool}

theorem Accounts.of_db (hm : SameMode w w') (hd : w'.db = w.db) (hc : ∀ e, w'.credit e = w.credit e) :
  Accounts cfg conn w changed w' where
  mode := hm
  exact := fun e base _ h => h.of_same (hc e) hm (by rw [hd])
  quiet := fun _ e => by rw [hd]
  limited := fun _ _ _ _ => .inr (by rw [hd])

theorem Accounts.refl : Accounts cfg conn w changed w := .of_db (.refl w) rfl fun _ => rfl

theorem unprivileged_id (h : conn.unprivileged = true) : conn.id ≠ 0 := by
  rw [Conn.unprivileged,Bool.and_eq_true,bne_iff_ne] at h
  exact h.2

theorem inherit_owner (hi : conn.id ≠ 0) (p : Perms) : (inherit conn p).owner.id = conn.id := by
  rw [inherit,if_pos hi]

variable {y : Name × Node} {v : Work} {up : List (Name × Node)}

theorem fresh_owner {f : Look} (h : Chain f conn y up) (hy : f y.1 = none) (hi : conn.id ≠ 0) :
  y.2.perms.owner.id = conn.id := by
  cases h with
  | base hp =>
    rw [hp] at hy
    cases hy
  | step hu hv hr hn hp => exact inherit_owner hi _

variable {x : Node}

theorem written_accounts (hc : Chain (look w.db) conn y up) (hx : x.perms = y.2.perms) (hg : v.db = w.db)
  (hm : SameMode w v)
  (hr : ∀ e, e ≠ 0 → v.credit e = (w.credit e).map (· + fresh e (y :: up)))
  (ha : ∀ z ∈ (y.1,x) :: up, cfg.refuses conn z.2 = false)
  (hl : ∀ limit, cfg.nbEntryPerDomain = some limit → conn.unprivileged →
    (domainEntry conn w : Int)+w.pending conn.id+up.length ≤ limit) :
  Accounts cfg conn w true (writeNodes cfg conn ((y.1,x) :: up) v).2 := by
  have hn : (((y.1,x) :: up).map Prod.fst).Nodup := hc.nodup
  have ho : ∀ e, (owned (((y.1,x) :: up).foldl (fun db z => db.insert z.1 z.2) v.db) e : Int) =
      owned w.db e+fresh e (y :: up) := by
    intro e
    rw [owned_inserts hn,hg,hc.gain_eq hx]
  rw [writeNodes_accepts ha]
  refine ⟨hm.trans (.of_db _),fun e base he h => ⟨?_,fun hd => h.ground (hm.mode.mp hd)⟩,
    (fun h => nomatch h),fun limit hk hp hs => Or.inl ?_⟩
  · rw [credit_db,hr e he,h.credit,ho,map_some]
    exact congrArg some (by omega)
  have hf := fresh_le conn.id y up
  have hb := hl limit hk hp
  have hi := ho conn.id
  have hq : owned (((y.1,x) :: up).foldl (fun db z => db.insert z.1 z.2) v.db) conn.id ≤ limit := by omega
  exact hq

variable (hconn : conn.id ≠ 0 → conn.domain = true)

include hconn in
theorem refused_accounts {u : Name × Node} (hp : conn.unprivileged)
  (hh : Chain (look w.db) conn y [u]) (hy : look w.db y.1 = none) (hx : x.perms = y.2.perms)
  (hg : v.db = w.db) (hm : SameMode w v) (hc : ∀ e, e ≠ 0 → v.credit e = (w.credit e).map (· + fresh e [y,u]))
  (hr : cfg.refuses conn x = true) (ha : w.delta ≠ none → (w.nbentry conn.id).getD 0 ≠ 0) :
  Accounts cfg conn w false (writeNodes cfg conn [(y.1,x),u] v).2 := by
  have hf : ∀ e, fresh e [y,u] = share e (some x) := fun e => by
    rw [share_congr hx,fresh]
    simp
  have ho : x.perms.owner.id = conn.id := by
    rw [hx]
    exact fresh_owner hh hy (unprivileged_id hp)
  rw [writeNodes,if_pos hr]
  refine ⟨hm.trans dec_mode,fun e base he h => ⟨?_,fun hd => ?_⟩,fun _ e => by rw [dec_db,hg],
    fun _ _ _ _ => Or.inr (by rw [dec_db,hg])⟩
  · have hb : x.perms.owner.id = e → Backed conn e v := by
      intro hq
      refine ⟨fun hd hz => ?_,fun hd hi => ?_⟩
      · have hs : share e (some x) = 1 := by simp [share,owns,hq]
        rw [hc e he,hf,h.credit,h.ground (hm.mode.mp hd),hs,map_some] at hz
        have := Option.some.inj hz
        omega
      have hw : w.delta ≠ none := mt hm.mode.mpr hd
      rw [hm.nbentry hw,← hi]
      exact ha hw
    rw [dec_credit hconn he hb,hc e he,hf,h.credit,dec_db,hg,map_some,map_some]
    exact congrArg some (by omega)
  · exact h.ground ((hm.trans dec_mode).mode.mp hd)

theorem created_changed (res : Option Errno × Work) : (created res).changed = res.1.isNone := by
  obtain ⟨e,v⟩ := res
  cases e <;> rfl

variable {data : List Char}

theorem roomy_cases (hr : roomy cfg conn w name data = true)
  (hf : cfg.entriesReached (domainEntry conn w) = false) : conn.unprivileged = false ∨
  (conn.unprivileged = true ∧ gaps w.db name.length name = 1 ∧
    cfg.fits (3*4+inheritedPerms w.db name.length name*8+data.length) = false ∧
    (w.delta ≠ none → (w.nbentry conn.id).getD 0 ≠ 0)) ∨
  (cfg.fits (3*4+inheritedPerms w.db name.length name*8+data.length) = true ∧
    parentsFit cfg w.db (inheritedPerms w.db name.length name) name.length name = true ∧
    ∀ limit, cfg.nbEntryPerDomain = some limit →
      (domainEntry conn w : Int)+w.pending conn.id+gaps w.db name.length name ≤ limit) := by
  by_cases hp : conn.unprivileged = true
  · simp only [roomy,hf,hp,Bool.not_true,Bool.false_or,Bool.or_eq_true,Bool.and_eq_true,Bool.not_eq_true',
      decide_eq_true_eq,isNone_iff_eq_none] at hr
    rcases hr with ⟨⟨ho,hl⟩,hb⟩ | ⟨⟨hl,ha⟩,hi⟩
    · exact .inr (.inl ⟨hp,ho,hl,fun hd => hb.resolve_left hd⟩)
    refine .inr (.inr ⟨hl,ha,fun limit hm => ?_⟩)
    rw [hm,all_some] at hi
    exact of_decide_eq_true hi
  · exact .inl (Bool.eq_false_iff.mpr hp)

theorem roomy_entries (hr : roomy cfg conn w name data = true) (hf : cfg.entriesReached (domainEntry conn w) = false) :
  ∀ j < gaps w.db name.length name, cfg.entriesReached (domainEntry conn w+w.climb conn j) = false := by
  intro j hj
  by_cases hc : w.delta = none ∧ conn.unprivileged
  · obtain ⟨hd,hp⟩ := hc
    rw [Work.climb,if_pos ⟨hd,hp⟩]
    rcases roomy_cases hr hf with hn | ⟨-,ho,-,-⟩ | ⟨-,-,hl⟩
    · rw [hp] at hn
      cases hn
    · obtain rfl : j = 0 := by omega
      exact hf
    · unfold Config.entriesReached
      cases hi : cfg.nbEntryPerDomain with
      | none => rfl
      | some limit =>
        have he := hl limit hi
        have ha : w.pending conn.id = 0 := by rw [Work.pending,hd]; rfl
        rw [any_some,decide_eq_false_iff_not]
        omega
  · rw [Work.climb,if_neg hc]
    exact hf

include hconn in
theorem createNode_accounts (hu : look w.db root ≠ none) (hv : Valid name) (hn : look w.db name = none)
  (hw : roomy cfg conn w name data = true) : Accounts cfg conn w (created (createNode cfg conn name data w)).changed
    (created (createNode cfg conn name data w)).work := by
  rw [created_work,created_changed]
  by_cases hr : cfg.entriesReached (domainEntry conn w) = true
  · rw [createNode,constructNode_refused hr]
    exact .refl
  have hf := Bool.eq_false_iff.mpr hr
  obtain ⟨⟨n,x⟩,up,v,hx,ht⟩ := constructNode_through hu hv hn le_rfl (roomy_entries hw hf)
  have hk := @constructNode_spec cfg conn w hu name.length name hv hn
  have hy := fun e he => @constructNode_counted w cfg conn e name name.length hconn he
  rw [hx] at hk hy
  obtain ⟨rfl,hc⟩ := hk.chain _ _ rfl
  have hd : v.db = w.db := hk.db
  have hq : ∀ e, e ≠ 0 → v.credit e = (w.credit e).map (· + fresh e ((n,x) :: up)) :=
    fun e he => (hy e he).credit _ _ rfl
  have hs := @Chain.sized cfg conn w.db (n,x) up hc n.length hn (ht.length ▸ gaps_le ..)
  have hl : entrySize {x with data := data} = 3*4+inheritedPerms w.db n.length n*8+data.length := by
    rw [entrySize]
    rw [hs.perms,hs.empty.2]
    rfl
  rw [createNode,hx]
  dsimp only
  rcases roomy_cases hw hf with hp | ⟨hp,ho,hi,hb⟩ | ⟨hfi,hpa,hli⟩
  · have hg : ∀ z ∈ (n,{x with data := data}) :: up, cfg.refuses conn z.2 = false := by
      intro z _
      rw [refuses_iff,hp]
      rfl
    have ha := written_accounts hc (x := {x with data := data}) rfl hd ht.mode hq hg
      (fun _ _ h => by rw [hp] at h; cases h)
    rw [writeNodes_accepts hg] at ha ⊢
    exact ha
  · obtain ⟨u,rfl⟩ : ∃ u, up = [u] := length_eq_one_iff.mp (ht.length.trans ho)
    have hre : cfg.refuses conn {x with data := data} = true := by
      rw [refuses_iff,hl,hi,hp]
      rfl
    have ha := refused_accounts hconn hp hc hn (x := {x with data := data}) rfl hd ht.mode hq hre hb
    rw [writeNodes,if_pos hre] at ha ⊢
    exact ha
  · have hg : ∀ z ∈ (n,{x with data := data}) :: up, cfg.refuses conn z.2 = false := by
      intro z hz
      rw [refuses_iff]
      rcases mem_cons.mp hz with rfl | hz
      · rw [hl,hfi]
        exact Bool.and_false _
      · rw [hs.fit hpa z hz]
        exact Bool.and_false _
    have ha := written_accounts hc (x := {x with data := data}) rfl hd ht.mode hq hg
      (fun limit hm _ => ht.length ▸ hli limit hm)
    rw [writeNodes_accepts hg] at ha ⊢
    exact ha

theorem Accounts.rewrite {y : Node} (hx : look w.db name = some x)
  (hy : y.perms.owner.id = x.perms.owner.id) : Accounts cfg conn w changed {w with db := w.db.insert name y} where
  mode := .of_db _
  exact := fun _ _ _ h => h.of_same rfl (.of_db _) (owned_rewrite hx hy)
  quiet := fun _ _ => owned_rewrite hx hy
  limited := fun _ _ _ _ => .inr (owned_rewrite hx hy).le

theorem covered_of_releasing (hr : releasing conn r w = true)
  (hk : (∃ payload, r = .rm payload) ∨ ∃ payload, r = .setPerms payload) {e : Nat} (he : e ≠ 0) :
  Covered conn e w := by
  intro hd hi hp
  subst hi
  rcases hk with ⟨payload,rfl⟩ | ⟨payload,rfl⟩ <;>
  · simp only [releasing,Bool.or_eq_true,decide_eq_true_eq,isNone_iff_eq_none] at hr
    rcases hr with ((hz | hn) | hn) | hc
    · exact absurd hz he
    · exact absurd hn hd
    · exact absurd hn hp
    · exact hc

include hconn in
theorem rm_accounts {node : Node} (hn : look w.db name = some node) (hv : Valid name) (hr : name ≠ root)
  (hc : ∀ e, e ≠ 0 → Covered conn e w) :
  Accounts cfg conn w (rm cfg conn name node w).changed (rm cfg conn name node w).work := by
  rw [rm]
  split
  · exact .refl
  rename_i p hp
  split
  · exact .of_db ⟨Iff.rfl,fun _ => rfl⟩ rfl fun _ => rfl
  rename_i children _
  dsimp only
  split
  · exact .refl
  set q : Node := {p with children := children}
  have hf := @Accounts.rewrite cfg conn w (getParent name) true p q hp rfl
  have ha : name ≠ getParent name := fun hq => not_under_parent hv hr (hq ▸ .refl name)
  have hb : look (w.db.insert (getParent name) q) name = some node := by rw [look_insert,update_of_ne ha,hn]
  have ho : ∀ e, owned (w.db.insert (getParent name) q) e = owned w.db e := fun e => owned_rewrite hp rfl
  have hc' : ∀ e, e ≠ 0 → Covered conn e {w with db := w.db.insert (getParent name) q} :=
    fun e he hd hi hg => hc e he hd hi (ho e ▸ hg)
  have hm : ∀ v : Work, look v.db name = some node → SameMode v (deleteNode conn absPathMax name node v) :=
    fun v hv' => @deleteNode_induct conn v node name (SameMode v) (fun m x u hx hu => by
        rw [deleteNodeSingle_present hx]
        exact (hu.trans (.of_db _)).trans dec_mode) absPathMax hv' (.refl v)
  refine ⟨hf.mode.trans (hm _ hb),fun e base he h => ?_,(fun h => by cases h),fun _ _ _ _ => Or.inr ?_⟩
  · exact deleteNode_exact hconn he (hf.exact e base he h) (hc' e he) hb
  have hl := @deleteNode_induct conn {w with db := w.db.insert (getParent name) q} node name
    (fun u => owned u.db conn.id ≤ owned w.db conn.id)
    (fun m x u hx hu => by
      have hs := @owned_erase u.db m conn.id
      have ht : 0 ≤ share conn.id (look u.db m) := by
        rw [share]
        split <;> decide
      rw [deleteNodeSingle_present hx,dec_db]
      have hk : owned (u.db.erase m) conn.id ≤ owned u.db conn.id := by omega
      exact hk.trans hu) absPathMax hb (ho conn.id).le
  exact hl

include hconn in
theorem setPerms_accounts {y : Node} (hx : look w.db name = some x) (hg : ∀ e, e ≠ 0 → Covered conn e w)
  (ho : conn.unprivileged → y.perms.owner.id = x.perms.owner.id) {w1 : Work}
  (hw1 : w1 = domainEntryInc conn y.perms (domainEntryDec conn x.perms w)) :
  (conn.unprivileged → Accounts cfg conn w false w1) ∧
  Accounts cfg conn w true {w1 with db := w1.db.insert name y} := by
  have hf : w1.db = w.db := by rw [hw1,inc_db,dec_db]
  have hm : SameMode w w1 := hw1 ▸ dec_mode.trans inc_mode
  have hc : ∀ e base, e ≠ 0 → Exact e base w →
      w1.credit e = some (owned w.db e-base-share e (some x)+share e (some y)) := by
    intro e base he h
    have hb : x.perms.owner.id = e → Backed conn e w := fun hq => h.backed (hg e he) (owned_pos hx hq)
    rw [hw1,inc_credit hconn he,dec_credit hconn he hb,h.credit]
    rfl
  constructor
  · intro hp
    refine ⟨hm,fun e base he h => ⟨?_,fun hd => h.ground (hm.mode.mp hd)⟩,fun _ e => by rw [hf],
      fun _ _ _ _ => Or.inr (by rw [hf])⟩
    have hs : share e (some y) = share e (some x) := by simp [share,owns,ho hp]
    rw [hc e base he h,hf,hs]
    exact congrArg some (by omega)
  have hi : ∀ e, (owned (w1.db.insert name y) e : Int) = owned w.db e-share e (some x)+share e (some y) := by
    intro e
    rw [owned_insert,hf,hx]
  refine ⟨hm.trans (.of_db _),fun e base he h => ⟨?_,fun hd => h.ground (hm.mode.mp hd)⟩,
    (fun h => by cases h),fun _ _ hp _ => Or.inr ?_⟩
  · rw [credit_db,hc e base he h,hi]
    exact congrArg some (by omega)
  have hs : share conn.id (some y) = share conn.id (some x) := by simp [share,owns,ho hp]
  have ha := hi conn.id
  have hl : owned (w1.db.insert name y) conn.id ≤ owned w.db conn.id := by omega
  exact hl

theorem creating_roomy (hr : creating cfg conn r w = true)
  (hc : r.creates conn = some (name,data)) (hg : getNode w.db conn (some name) permWrite = .error .ENOENT) :
  roomy cfg conn w name data = true := by
  rw [creating,hc,all_some] at hr
  rwa [hg] at hr

include hconn in
theorem process_accounts (hs : Sound (look w.db)) (hd : creating cfg conn r w = true) (hr : releasing conn r w = true) :
  Accounts cfg conn w (process cfg conn r w).changed (process cfg conn r w).work := by
  cases r with
  | directory payload | read payload | getPerms payload => exact .refl
  | write payload =>
    rw [process,doWrite]
    split_ifs with hu
    · dsimp only
      split
      · rename_i hg
        obtain ⟨hv,hn,-⟩ := getNode_missing hg
        have hc : (Request.write payload).creates conn =
            some (canonicalize conn (first nul payload),afterFirst nul payload) := if_pos hu
        exact createNode_accounts hconn hs.rooted hv hn (creating_roomy hd hc hg)
      · exact .refl
      · rename_i hg
        obtain ⟨rfl,-,hn,-⟩ := getNode_ok hg
        split
        · exact .refl
        · exact .rewrite hn rfl
    · exact .refl
  | mkdir payload =>
    rw [process,doMkdir]
    cases ha : onearg payload with
    | none => exact .refl
    | some arg =>
      dsimp only [map_some]
      split
      · rename_i hg
        obtain ⟨hv,hn,-⟩ := getNode_missing hg
        have hc : (Request.mkdir payload).creates conn = some (canonicalize conn arg,[]) := by
          rw [Request.creates,ha]
          rfl
        exact createNode_accounts hconn hs.rooted hv hn (creating_roomy hd hc hg)
      · exact .refl
      · exact .refl
  | rm payload =>
    have hb := fun e he => @covered_of_releasing conn w _ hr (.inl ⟨payload,rfl⟩) e he
    rw [process,doRm]
    split
    · exact .refl
    split
    · split <;> exact .refl
    · exact .refl
    · rename_i hg
      obtain ⟨rfl,hv,hn,-⟩ := getNode_ok hg
      split
      · exact .refl
      · rename_i hl
        exact rm_accounts hconn hn hv hl hb
  | setPerms payload =>
    have hb := fun e he => @covered_of_releasing conn w _ hr (.inr ⟨payload,rfl⟩) e he
    rw [process,doSetPerms]
    split
    · exact .refl
    dsimp only
    split
    · exact .refl
    rename_i n node hg
    obtain ⟨rfl,hv,hn,-⟩ := getNode_ok hg
    split
    · exact .refl
    rename_i perms _
    split
    · exact .refl
    rename_i hm
    have ho : conn.unprivileged → perms.owner.id = node.perms.owner.id :=
      fun hp => by_contra fun hq => hm ⟨hp,hq⟩
    obtain ⟨hf,hk⟩ := @setPerms_accounts cfg conn w _ node hconn {node with perms := perms} hn hb ho _ rfl
    split_ifs with hi
    · rw [Config.refuses,Bool.and_eq_true] at hi
      exact hf hi.1
    · exact hk

end

theorem peer_domain (p : Peer) (target : Nat → Option Nat) (h : (p.conn target).id ≠ 0) :
  (p.conn target).domain = true := by
  cases p with
  | socket fd canWrite => exact absurd rfl h
  | domain d => rfl

structure Drawn (s : State) (t : Transaction) : Prop where
  before : t.generation ≤ s.generation
  base : ∃ base : Nat → Nat, (∀ e, e ≠ 0 → t.delta e = owned t.db e-base e) ∧
    (t.generation = s.generation → ∀ e, base e = owned s.db e)

structure Books (s : State) : Prop where
  tended : Tended s
  drawn : ∀ p tx t, (s.links p).transactions.lookup tx = some t → Drawn s t

structure Tracked (cfg : Config) (d : Nat) (s : State) : Prop where
  count : s.nbentry d = some (owned s.db d)
  within : ∀ tx t limit, (s.links (.domain d)).transactions.lookup tx = some t → t.generation = s.generation →
    cfg.nbEntryPerDomain = some limit → owned t.db d ≤ limit ∨ owned t.db d ≤ owned s.db d

section
variable {s s' : State} {d : Nat} {t : Transaction}

theorem Drawn.later (h : Drawn s t) (hl : s.generation ≤ s'.generation)
  (hk : s'.generation = s.generation → ∀ e, owned s'.db e = owned s.db e) : Drawn s' t := by
  obtain ⟨hb,base,hd,ha⟩ := h
  refine ⟨hb.trans hl,base,hd,fun he e => ?_⟩
  have hg : s'.generation = s.generation := le_antisymm (he ▸ hb) hl
  rw [hk hg,ha (he.trans hg)]

variable {p q : Peer} {tx : Nat}

variable {ts : Transactions} {link : Link}

theorem lookup_update {links : Peer → Link} (h : (update links p link q).transactions.lookup tx = some t) :
  (q = p ∧ link.transactions.lookup tx = some t) ∨ (q ≠ p ∧ (links q).transactions.lookup tx = some t) := by
  by_cases hq : q = p
  · rw [hq,update_self] at h
    exact .inl ⟨hq,h⟩
  · rw [update_of_ne hq] at h
    exact .inr ⟨hq,h⟩

variable {id : Nat}

theorem lookup_insert_cases {u : Transaction} (h : (ts.insert id u).lookup tx = some t) :
  t = u ∨ ts.lookup tx = some t := by
  by_cases ht : tx = id
  · rw [ht,AList.lookup_insert] at h
    exact .inl (Option.some.inj h).symm
  · rw [AList.lookup_insert_ne ht] at h
    exact .inr h

theorem lookup_erase_some (h : (ts.erase id).lookup tx = some t) : ts.lookup tx = some t := by
  by_cases ht : tx = id
  · rw [ht,AList.lookup_erase] at h
    cases h
  · rwa [AList.lookup_erase_ne ht] at h

theorem kept_of_update (hl : ∀ tx t, link.transactions.lookup tx = some t → (s.links p).transactions.lookup tx = some t)
  (h : (update s.links p link q).transactions.lookup tx = some t) : (s.links q).transactions.lookup tx = some t := by
  rcases lookup_update h with ⟨rfl,hn⟩ | ⟨-,hold⟩
  · exact hl tx t hn
  · exact hold

theorem kept_of_erase (h : ((s.setTransactions p ((s.links p).transactions.erase id)).links q).transactions.lookup tx =
  some t) :
  (s.links q).transactions.lookup tx = some t :=
  kept_of_update (fun _ _ => lookup_erase_some) h

theorem kept_of_empty {next : Nat}
  (h : (update s.links p {nextTransactionId := next,transactions := ∅} q).transactions.lookup tx = some t) :
  (s.links q).transactions.lookup tx = some t :=
  kept_of_update (fun _ _ ht => absurd ht (by rw [AList.lookup_empty]; exact some_ne_none _ ∘ Eq.symm)) h

def State.immediateWork (s : State) : Work := {db := s.db,nbentry := s.nbentry,delta := none,corrupt := s.corrupt}

def State.withinWork (s : State) (t : Transaction) : Work :=
  {db := t.db,nbentry := s.nbentry,delta := some t.delta,corrupt := s.corrupt}

theorem immediate_accounts (ho : Tended s) (hc : careful cfg s (.request p 0 r) = true) :
  Accounts cfg (p.conn s.target) s.immediateWork (process cfg (p.conn s.target) r s.immediateWork).changed
    (process cfg (p.conn s.target) r s.immediateWork).work := by
  have hb : creating cfg (p.conn s.target) r s.immediateWork = true ∧
      releasing (p.conn s.target) r s.immediateWork = true := (Bool.and_eq_true _ _).mp hc
  exact process_accounts (peer_domain p s.target) ho.store hb.1 hb.2

theorem within_accounts (hb : Tended s) (hx : tx ≠ 0)
  (ht : (s.links p).transactions.lookup tx = some t) (hc : careful cfg s (.request p tx r) = true) :
  Accounts cfg (p.conn s.target) (s.withinWork t) (process cfg (p.conn s.target) r (s.withinWork t)).changed
    (process cfg (p.conn s.target) r (s.withinWork t)).work := by
  have hw : s.work p tx = some (s.withinWork t) := by
    rw [State.work,if_neg hx,ht]
    rfl
  rw [careful,hw,all_some,Bool.and_eq_true] at hc
  exact process_accounts (peer_domain p s.target) (hb.copies p tx t ht) hc.1 hc.2

theorem Drawn.within (h : Drawn s t)
  (ha : Accounts cfg (p.conn s.target) (s.withinWork t) (process cfg (p.conn s.target) r (s.withinWork t)).changed
    (process cfg (p.conn s.target) r (s.withinWork t)).work) : Drawn s {t with
    db := (process cfg (p.conn s.target) r (s.withinWork t)).work.db,
    delta := (process cfg (p.conn s.target) r (s.withinWork t)).work.delta.getD t.delta} := by
  obtain ⟨hb,base,hf,hg⟩ := h
  refine ⟨hb,base,fun e he => ?_,hg⟩
  have hx : Exact e (base e) (s.withinWork t) := ⟨congrArg some (hf e he),fun hd => nomatch hd⟩
  have hc := (ha.exact e (base e) he hx).credit
  have hm := ha.mode.mode
  generalize (process cfg (p.conn s.target) r (s.withinWork t)).work = v at hc hm
  cases hv : v.delta with
  | none => exact absurd (hm.mp hv) (some_ne_none _)
  | some delta =>
    rw [Work.credit,hv] at hc
    exact Option.some.inj hc

variable {reply : Option Reply} {a : Action}

theorem Books.happens (h : Books s) (hb : careful cfg s a = true) (ha : Happens cfg s a s' reply) : Books s' := by
  refine ⟨h.tended.happens ha,fun p tx t ht => ?_⟩
  cases ha with
  | @immediate q r =>
    have hf := immediate_accounts h.tended hb
    refine (h.drawn p tx t ht).later ?_ fun hg e => ?_
    · simp only [immediate]
      split <;> omega
    simp only [immediate] at hg ⊢
    split at hg
    · omega
    · rename_i hc
      exact hf.quiet (Bool.eq_false_iff.mpr hc) e
  | @within q id u r hx hu =>
    refine Drawn.later (s := s) ?_ le_rfl fun _ _ => rfl
    rcases lookup_update ht with ⟨rfl,ht⟩ | ⟨-,ht⟩
    · rcases lookup_insert_cases ht with rfl | ht
      · exact (h.drawn p id u hu).within (within_accounts h.tended hx hu hb)
      · exact h.drawn p tx t ht
    · exact h.drawn p tx t ht
  | unknown | notStarted | notOpen hu | badArg hT hF => exact h.drawn p tx t ht
  | started hi =>
    refine Drawn.later (s := s) ?_ le_rfl fun _ _ => rfl
    rcases lookup_update ht with ⟨rfl,ht⟩ | ⟨-,ht⟩
    · rcases lookup_insert_cases ht with rfl | ht
      · exact ⟨le_rfl,owned s.db,fun e _ => (sub_self _).symm,fun _ _ => rfl⟩
      · exact h.drawn p tx t ht
    · exact h.drawn p tx t ht
  | committed hr hu hg =>
    refine (h.drawn p tx t (kept_of_erase ht)).later (le_succ _) fun he => ?_
    exact absurd he (succ_ne_self _)
  | failed hr | aborted hr => exact (h.drawn p tx t (kept_of_erase ht)).later le_rfl fun _ _ => rfl
  | closed | released | introduced hd | reset hd =>
    exact (h.drawn p tx t (kept_of_empty ht)).later le_rfl fun _ _ => rfl
  | targeted target reply => exact (h.drawn p tx t ht).later le_rfl fun _ _ => rfl

variable (h : Tracked cfg d s)
include h

theorem Tracked.kept (hc : s'.nbentry d = s.nbentry d) (hd : s'.db = s.db) (hg : s'.generation = s.generation)
  (hl : ∀ tx t, (s'.links (.domain d)).transactions.lookup tx = some t →
    (s.links (.domain d)).transactions.lookup tx = some t) : Tracked cfg d s' where
  count := by rw [hc,hd,h.count]
  within := fun tx t limit ht he hi => by
    rw [hd]
    exact h.within tx t limit (hl tx t ht) (he.trans hg) hi

theorem Tracked.exact : Exact d 0 s.immediateWork := by
  refine ⟨?_,fun _ => rfl⟩
  have hc : s.immediateWork.credit d = (s.nbentry d).map fun n : Nat => (n : Int) := rfl
  rw [hc,h.count,sub_zero]
  rfl

theorem Tracked.immediate (hd : d ≠ 0)
  (ha : Accounts cfg (p.conn s.target) s.immediateWork (process cfg (p.conn s.target) r s.immediateWork).changed
    (process cfg (p.conn s.target) r s.immediateWork).work) (hb : Books s) : Tracked cfg d (immediate cfg s p r).1 := by
  have he := ha.exact d 0 hd h.exact
  have hm := ha.mode.mode.mpr rfl
  refine ⟨?_,fun tx t limit ht hq hl => ?_⟩
  · have hc := he.credit
    rw [Work.credit,hm,sub_zero] at hc
    obtain ⟨n,hn,hg⟩ := map_eq_some_iff.mp hc
    have hq : n = owned (Xenstore.immediate cfg s p r).1.db d := Int.ofNat_inj.mp hg
    exact hn.trans (congrArg some hq)
  have hi := (hb.drawn _ tx t ht).before
  simp only [Xenstore.immediate] at hq ⊢
  split at hq
  · omega
  rename_i hh
  have ho := ha.quiet (Bool.eq_false_iff.mpr hh) d
  rcases h.within tx t limit ht hq hl with hf | hf
  · exact .inl hf
  · exact .inr (hf.trans ho.ge)

theorem domain_entry (hd : d ≠ 0) (w : Work) (hw : w.nbentry = s.nbentry) :
  domainEntry ((Peer.domain d).conn s.target) w = owned s.db d := by
  have hp : ((Peer.domain d).conn s.target).unprivileged = true := by simp [Peer.conn,Conn.unprivileged,hd]
  rw [domainEntry,if_pos hp,hw]
  exact congrArg (Option.getD · 0) h.count

omit h in
theorem domain_unprivileged (hd : d ≠ 0) : ((Peer.domain d).conn s.target).unprivileged = true := by
  simp [Peer.conn,Conn.unprivileged,hd]

theorem Tracked.within_step (hd : d ≠ 0) (ht : (s.links p).transactions.lookup tx = some t) (hr : Drawn s t)
  (ha : Accounts cfg (p.conn s.target) (s.withinWork t) (process cfg (p.conn s.target) r (s.withinWork t)).changed
    (process cfg (p.conn s.target) r (s.withinWork t)).work) : Tracked cfg d (Xenstore.within cfg s p tx t r).1 := by
  refine ⟨?_,fun tx' t' limit ht' he hi => ?_⟩
  · have hn := ha.mode.nbentry (some_ne_none _)
    exact (congrFun hn d).trans h.count
  rcases lookup_update ht' with ⟨hp,ht'⟩ | ⟨-,ht'⟩
  · subst hp
    rcases lookup_insert_cases ht' with rfl | ht'
    · obtain ⟨-,base,hk,hb⟩ := hr
      have hc : (domainEntry ((Peer.domain d).conn s.target) (s.withinWork t) : Int) +
          (s.withinWork t).pending d = owned t.db d := by
        have hm : (s.withinWork t).pending d = t.delta d := rfl
        rw [domain_entry h hd _ rfl,hm,hk d hd,hb he d]
        omega
      have hl := ha.limited limit hi (domain_unprivileged hd) hc
      have hold := h.within tx t limit ht he hi
      have hg : owned (process cfg ((Peer.domain d).conn s.target) r (s.withinWork t)).work.db d ≤ limit ∨
          owned (process cfg ((Peer.domain d).conn s.target) r (s.withinWork t)).work.db d ≤ owned s.db d := by
        rcases hl with hf | hf
        · exact .inl hf
        · exact hold.imp hf.trans hf.trans
      exact hg
    · exact h.within tx' t' limit ht' he hi
  · exact h.within tx' t' limit ht' he hi

omit h in
theorem same_generation (hd : Drawn s t) (hg : t.generation%2^32 = s.generation%2^32)
  (hf : s.generation < t.generation+2^32) : t.generation = s.generation := by
  have hb := hd.before
  omega

omit h in
theorem few_changes {payload : List Char} (ht : (s.links p).transactions.lookup tx = some t)
  (hc : careful cfg s (.transactionEnd p tx payload) = true) : s.generation < t.generation+2^32 := by
  rw [careful,ht,all_some] at hc
  exact of_decide_eq_true hc

theorem Tracked.happens (hd : d ≠ 0) (hb : Books s)
  (hc : careful cfg s a = true) (hs : a ≠ .disconnect (.domain d)) (ha : Happens cfg s a s' reply) :
  Tracked cfg d s' := by
  cases ha with
  | immediate => exact h.immediate hd (immediate_accounts hb.tended hc) hb
  | within hx ht => exact h.within_step hd ht (hb.drawn _ _ _ ht) (within_accounts hb.tended hx ht hc)
  | unknown | notStarted | notOpen ht | badArg hT hF => exact h
  | started hi =>
    refine ⟨h.count,fun tx t limit ht hq hl => ?_⟩
    rcases lookup_update ht with ⟨hp,ht⟩ | ⟨-,ht⟩
    · subst hp
      rcases lookup_insert_cases ht with rfl | ht
      · exact .inr le_rfl
      · exact h.within tx t limit ht hq hl
    · exact h.within tx t limit ht hq hl
  | @committed p id u payload hr hu hg =>
    have hk := hb.drawn p id u hu
    have hm := same_generation hk hg (few_changes hu hc)
    refine ⟨?_,fun tx t limit ht hq hl => ?_⟩
    · obtain ⟨-,base,hv,hw⟩ := hk
      have hf : (owned s.db d+u.delta d : Int).toNat = owned u.db d := by
        rw [hv d hd,hw hm d]
        omega
      have ho : domainEntryFix s.nbentry u.delta d = some (owned u.db d) := by
        rw [domainEntryFix,h.count]
        exact congrArg some hf
      exact ho
    have hy := (hb.drawn _ tx t (kept_of_erase ht)).before
    have hg' : t.generation = s.generation+1 := hq
    omega
  | failed hr | aborted hr => exact h.kept rfl rfl rfl fun _ _ => kept_of_erase
  | closed | reset he => exact h.kept rfl rfl rfl fun _ _ => kept_of_empty
  | @released e =>
    have hn : d ≠ e := fun hq => hs (hq ▸ rfl)
    exact h.kept (update_of_ne hn ..) rfl rfl fun _ _ => kept_of_empty
  | @introduced e he =>
    have hn : d ≠ e := by
      rintro rfl
      rw [h.count] at he
      cases he
    exact h.kept (update_of_ne hn ..) rfl rfl fun _ _ => kept_of_empty
  | targeted target reply => exact h.kept rfl rfl rfl fun _ _ => id

theorem Tracked.own_limit (hd : d ≠ 0) (hb : Books s) (hc : careful cfg s a = true)
  (ho : (∃ tx r, a = .request (.domain d) tx r) ∨ ∃ tx payload, a = .transactionEnd (.domain d) tx payload)
  (ha : Happens cfg s a s' reply) {limit : Nat} (hl : cfg.nbEntryPerDomain = some limit) :
  owned s'.db d ≤ limit ∨ owned s'.db d ≤ owned s.db d := by
  by_cases hf : touchesStore a reply = false
  · exact .inr (by rw [ha.untouched hf])
  cases ha with
  | @immediate p r =>
    obtain rfl : p = .domain d := by
      rcases ho with ⟨tx,r',hq⟩ | ⟨tx,payload,hq⟩
      · exact (Action.request.inj hq).1
      · cases hq
    have hk := immediate_accounts hb.tended hc
    refine hk.limited limit hl (domain_unprivileged hd) ?_
    rw [domain_entry h hd _ rfl]
    exact add_zero _
  | @committed p tx t payload hr ht hg =>
    obtain rfl : p = .domain d := by
      rcases ho with ⟨tx',r',hq⟩ | ⟨tx',payload',hq⟩
      · cases hq
      · exact (Action.transactionEnd.inj hq).1
    have hs := same_generation (hb.drawn _ tx t ht) hg (few_changes ht hc)
    exact h.within tx t limit ht hs hl
  | within hx ht | unknown hx ht | started hi | notStarted | failed hr | aborted hr | notOpen ht
  | badArg hT hF | closed | released | introduced he | reset he | targeted target reply => exact .inr le_rfl

omit h

theorem Books.reach {allow : State → Action → Prop} (hl : ∀ u a, allow u a → careful cfg u a = true)
  (h : Books s) (hru : Reach (step cfg) allow s s') : Books s' :=
  reach_invariant h (fun _ _ _ _ hu ha hs => by
    obtain ⟨reply,hr⟩ := step_happens hs
    exact hu.happens (hl _ _ ha) hr) hru

end

def seatedRequests : List Action := [.introduce 1,.request (.socket 0 true) 0 (.mkdir (text "/local/domain/1")),
    .request (.socket 0 true) 0 (.setPerms (text "/local/domain/1" ++ text "n1"))]

def oversizedRequests : List Action :=
  seatedRequests ++ [.request (.domain 1) 0 (.write (text "a/b" ++ List.replicate 2040 'x'))]

def crowdedRequests : List Action :=
  seatedRequests ++ [.transactionStart (.domain 1) 0,.request (.domain 1) 1 (.mkdir (text "a")),
      .request (.domain 1) 1 (.mkdir (text "b")),.request (.domain 1) 1 (.mkdir (text "c")),
      .transactionEnd (.domain 1) 1 (text "T")]

theorem entry_counts_drift : (runIf (step defaultConfig) (fun _ _ => true) .boot oversizedRequests).map
    (fun s => (s.nbentry 1,owned s.db 1)) = some (some 2,1) ∧
  (runIf (step {defaultConfig with nbEntryPerDomain := some 2}) (fun _ _ => true) .boot crowdedRequests).map
    (fun s => (s.nbentry 1,owned s.db 1)) = some (some 4,4) := by
  constructor <;> decide +kernel

theorem entry_counts_exact {cfg : Config} {s0 s1 s2 s3 : State} {d : Nat} (hd : d ≠ 0) (h0 : Tended s0)
  (hopen : ∀ p, (s0.links p).transactions = ∅) (hbefore : Reach (step cfg) (fun s a => careful cfg s a = true) s0 s1)
  (hnew : s1.nbentry d = none) (hown : owned s1.db d = 0) (hintro : step cfg s1 (.introduce d) = some s2)
  (hafter : Reach (step cfg) (fun s a => careful cfg s a = true ∧ a ≠ .disconnect (.domain d)) s2 s3) :
  s3.nbentry d = some (owned s3.db d) ∧ ∀ limit a s4, cfg.nbEntryPerDomain = some limit → careful cfg s3 a = true →
    ((∃ tx r, a = .request (.domain d) tx r) ∨ ∃ tx payload, a = .transactionEnd (.domain d) tx payload) →
    step cfg s3 a = some s4 → owned s4.db d ≤ limit ∨ owned s4.db d ≤ owned s3.db d := by
  have hbooks0 : Books s0 := ⟨h0,fun p tx t ht => by rw [hopen p] at ht; cases ht⟩
  have hbooks1 := hbooks0.reach (fun _ _ h => h) hbefore
  obtain ⟨reply,hr⟩ := step_happens hintro
  have hbooks2 := hbooks1.happens rfl hr
  have htracked2 : Tracked cfg d s2 := by
    cases hr with
    | introduced _ =>
      refine ⟨?_,fun tx t limit ht => ?_⟩
      · rw [hown]
        exact update_self ..
      rcases lookup_update ht with ⟨-,ht⟩ | ⟨hn,-⟩
      · cases ht
      · exact absurd rfl hn
    | reset ho => exact absurd hnew ho
  have hbooks3 := hbooks2.reach (fun _ _ h => h.1) hafter
  have htracked3 : Tracked cfg d s3 :=
    reach_invariant htracked2 (fun u _ _ hu hi ha hs => by
      obtain ⟨reply,hr⟩ := step_happens hs
      exact hi.happens hd (hbooks2.reach (fun _ _ h => h.1) hu) ha.1 ha.2 hr) hafter
  refine ⟨htracked3.count,fun limit a s4 hl hc hf hs => ?_⟩
  obtain ⟨reply,hr⟩ := step_happens hs
  exact htracked3.own_limit hd hbooks3 hc hf hr hl

def introducedState : State := (step defaultConfig .boot (.introduce 1)).get (by decide +kernel)

def furnishing : List Action := [.request (.socket 0 true) 0 (.mkdir (text "/local/domain/1")),
    .request (.socket 0 true) 0 (.setPerms (text "/local/domain/1" ++ text "n1")),.transactionStart (.domain 1) 0,
    .request (.domain 1) 1 (.write (text "device/vif" ++ "up".toList)),
    .request (.domain 1) 1 (.write (text "data" ++ List.replicate 2040 'x')),.transactionEnd (.domain 1) 1 (text "T")]

def stays (d : Nat) (s : State) (a : Action) : Bool :=
  careful defaultConfig s a && decide (a ≠ .disconnect (.domain d))

def furnishedState : State := (runIf (step defaultConfig) (stays 1) introducedState furnishing).get (by decide +kernel)

theorem furnished_counts_exact :
  owned furnishedState.db 1 = 3 ∧ furnishedState.nbentry 1 = some (owned furnishedState.db 1) := by
  have hr : runIf (step defaultConfig) (stays 1) introducedState furnishing = some furnishedState :=
    (some_get _).symm
  have ha := reach_of_runIf
    (fun s a h => (⟨(Bool.and_eq_true _ _).mp h |>.1,of_decide_eq_true ((Bool.and_eq_true _ _).mp h).2⟩ :
      careful defaultConfig s a = true ∧ a ≠ .disconnect (.domain 1))) hr
  exact ⟨by decide +kernel,(entry_counts_exact (by decide) boot_tended (fun _ => rfl) .refl rfl (by decide +kernel)
      (some_get _).symm ha).1⟩

end Xenstore
