import PMigrate.Core.Lookup
import PMigrate.Core.Transition
import PMigrate.Oxenstored.Coalesce

namespace Oxenstored

open PathTree Transition Function List Option

structure Entry where
  con : Con
  request : Request
  reply : Reply
  settled : Bool
deriving DecidableEq

def serve (cfg : Config) (X : Node Unit) (e : Entry) : Option (Node Unit) :=
  let res := inputHandleError cfg () e.con e.request (.immediate {root := X,quota := .create})
  if res.1 = e.reply then some res.2.store.root else none

def replay (cfg : Config) (X : Node Unit) (es : List Entry) : Option (Node Unit) := es.foldlM (serve cfg) X

structure History where
  done : List (List Entry)
  pending : Nat → Nat → List Entry

def History.empty : History := {done := [],pending := fun _ _ => []}

def History.setPending (h : History) (c tid : Nat) (log : List Entry) : History :=
  {h with pending := update h.pending c (update (h.pending c) tid log)}

def entry (cfg : Config) (con : Con) (X : Node Nat) (r : Request) (reply : Reply) : Entry :=
  {con := con,request := r,reply := reply,settled := settled cfg con X r}

def wantsCommit (data : List Char) : Bool := (split 8 nul data).head? = some ['T']

def History.next (cfg : Config) (s : State) (h : History) : Action → Option Reply → History
  | .request c tid r,some reply =>
      if tid = 0 then {h with done := h.done ++ [[entry cfg (s.cons c).con s.store.root r reply]]}
      else match (s.cons c).transactions.lookup tid with
        | none => h
        | some t => h.setPending c tid (h.pending c tid ++ [entry cfg (s.cons c).con t.store.root r reply])
  | .transactionStart c _,some (.data _) => h.setPending c (s.cons c).nextTid []
  | .transactionEnd c tid data,some .ack =>
      if wantsCommit data then {h with done := h.done ++ [h.pending c tid]} else h
  | _,_ => h

structure Traced where
  state : State
  history : History

def tracedStep (cfg : Config) (s : Traced) (a : Action) : Option Traced :=
  some {state := (daemon cfg s.state a).1,history := s.history.next cfg s.state a (daemon cfg s.state a).2}

def permsAt (X : Node Nat) (p : Path) : Option NodePerms := (content X p).map Content.perms

def parentsAgree (oldroot currentroot : Node Nat) : Option Path → Bool
  | none => true
  | some u => pathExists oldroot u || permsAt oldroot (getParent u) = permsAt currentroot (getParent u)

def orderly (s : Traced) : Action → Bool
  | .transactionEnd c tid data =>
      !wantsCommit data || ((s.state.cons c).transactions.lookup tid).all fun t =>
        t.oldroot.all fun oldroot => same oldroot s.state.store.root ||
          (s.history.pending c tid).all Entry.settled && parentsAgree oldroot s.state.store.root t.writeLowpath
  | _ => true

variable {cfg : Config}

section
variable {X Y : Node Unit} {e : Entry} {es es' : List Entry}

theorem replay_append : replay cfg X (es ++ es') = (replay cfg X es).bind fun Y => replay cfg Y es' :=
  foldlM_append

theorem replay_concat (h : replay cfg X es = some Y) : replay cfg X (es ++ [e]) = serve cfg Y e := by
  rw [replay_append,h,bind_some]
  exact foldlM_cons.trans (bind_pure _)

theorem serve_eq (hq : cfg.quotaActivate = false) : serve cfg X e =
  if (verdict cfg () e.con X e.request).reply = e.reply then some ((verdict cfg () e.con X e.request).root () X)
  else none := by
  have h := @request_follows _ cfg () e.con hq e.request (.immediate {root := X,quota := .create})
  rw [serve,h.reply,h.root]
  rfl

theorem serve_verdict (hq : cfg.quotaActivate = false) {v : Verdict Unit} (hv : verdict cfg () e.con X e.request = v)
  (hr : v.reply = e.reply) : serve cfg X e = some (v.root () X) := by
  rw [serve_eq hq,hv,if_pos hr]

end

structure Ledger (cfg : Config) (old : Node Nat) (t : Transaction Nat) (log : List Entry) : Prop where
  alone : replay cfg old.forget log = some t.store.root.forget
  idle : t.ops = [] → t.store.root.forget = old.forget
  moved : (∀ e ∈ log, e.settled = true) → ∀ w rd Y,(∀ p, t.writeLowpath = some p → ∃ u, w = some u ∧ u <+: p) →
    (∀ p, t.readLowpath = some p → ∃ u, rd = some u ∧ u <+: p) → (∀ u, w = some u → u ≠ [] ∧ Room Y u) →
    Tracks w rd Y old.forget Y → ∃ Z, replay cfg Y log = some Z ∧ Tracks w rd Y t.store.root.forget Z

variable {old : Node Nat} {t : Transaction Nat} {log : List Entry} {a : Nat}

section
variable {con : Con}

theorem ledger_start (store : Store Nat) : Ledger cfg store.root (.full store) [] :=
  ⟨rfl,fun _ => rfl,fun _ _ _ Y _ _ _ h => ⟨Y,rfl,h⟩⟩

theorem getLowest_covered {q : Path} {low : Option Path} {w : Option Path}
  (h : ∀ p, getLowest q low = some p → ∃ u, w = some u ∧ u <+: p) :
  (∃ u, w = some u ∧ u <+: q) ∧ ∀ p, low = some p → ∃ u, w = some u ∧ u <+: p := by
  cases low with
  | none => exact ⟨h q rfl,fun p hp => nomatch hp⟩
  | some l =>
    obtain ⟨u,hu,hr⟩ := h _ rfl
    refine ⟨⟨u,hu,hr.trans (getCommonPrefix_above q l).1⟩,fun p hp => ?_⟩
    cases hp
    exact ⟨u,hu,hr.trans (getCommonPrefix_above q l).2⟩

theorem Ledger.request (h : Ledger cfg old t log) (hq : cfg.quotaActivate = false) (r : Request) :
  Ledger cfg old (inputHandleError cfg a con r t).2
    (log ++ [entry cfg con t.store.root r (inputHandleError cfg a con r t).1]) := by
  have hf := @request_follows _ cfg a con hq r t
  set reply := (inputHandleError cfg a con r t).1
  set t' := (inputHandleError cfg a con r t).2
  set e := entry cfg con t.store.root r reply with he
  have hc := @verdict_forget _ cfg a con t.store.root r
  have hr : (verdict cfg () con t.store.root.forget r).reply = e.reply := by
    rw [← hc,Verdict.forget_reply,he,entry,hf.reply]
  have hk : (verdict cfg () con t.store.root.forget r).root () t.store.root.forget = t'.store.root.forget := by
    rw [← hc,Verdict.forget_root (a := a),hf.root]
  refine ⟨?_,fun ho => ?_,fun hs w rd Y hw hd hm hz => ?_⟩
  · rw [replay_concat h.alone,serve_verdict hq rfl hr]
    exact congrArg some hk
  · have hi : t.ops = [] ∧ (verdict cfg a con t.store.root r).changes = false := by
      have hp := mt hf.ops.mpr (not_not_intro ho)
      rw [not_or,not_not,Bool.not_eq_true] at hp
      exact hp
    have ha : t'.store.root = t.store.root := by
      rw [hf.root]
      cases hv : verdict cfg a con t.store.root r with
      | sets u m q =>
        rw [hv] at hi
        cases hi.2
      | fail e => rfl
      | silent => rfl
      | shows q e => rfl
    rw [ha]
    exact h.idle hi.1
  · have hl := hf.writeLowpath
    have hu := hf.readLowpath
    have hx : (∀ p, t.writeLowpath = some p → ∃ u, w = some u ∧ u <+: p) ∧
        ∀ u m q, verdict cfg () con t.store.root.forget r = .sets u m q → ∃ v, w = some v ∧ v <+: q := by
      rw [← hc]
      cases hv : verdict cfg a con t.store.root r with
      | sets u m q =>
        rw [hl,hv] at hw
        obtain ⟨hg,hold⟩ := getLowest_covered hw
        exact ⟨hold,fun u' m' q' hb => by cases hb; exact hg⟩
      | fail e | silent | shows q e =>
        rw [hl,hv] at hw
        exact ⟨hw,fun _ _ _ hb => nomatch hb⟩
    have hy : (∀ p, t.readLowpath = some p → ∃ u, rd = some u ∧ u <+: p) ∧
        ∀ q e, verdict cfg () con t.store.root.forget r = .shows q e → ∃ v, rd = some v ∧ v <+: q := by
      rw [← hc]
      cases hv : verdict cfg a con t.store.root r with
      | shows q e =>
        rw [hu,hv] at hd
        obtain ⟨hg,hold⟩ := getLowest_covered hd
        exact ⟨hold,fun q' e' hb => by cases hb; exact hg⟩
      | fail e | silent | sets u m q =>
        rw [hu,hv] at hd
        exact ⟨hd,fun _ _ hb => nomatch hb⟩
    obtain ⟨Z,hZ,ht⟩ := h.moved (fun e' he' => hs e' (mem_append_left _ he')) w rd Y hx.1 hy.1
      hm hz
    have hnw : settled cfg con t.store.root.forget r = true := by
      rw [settled_forget]
      exact hs e (mem_append_right _ (mem_singleton.mpr rfl))
    obtain ⟨ha,hn⟩ := ht.step hm hnw ⟨hy.2 _ _,hx.2 _ _ _⟩
    refine ⟨_,?_,hk ▸ hn⟩
    rw [replay_concat hZ,serve_verdict hq ha hr]

end

section
variable {cstore store : Store Nat} {live : Node Nat → Prop} {X : Node Nat} {u : Path}

theorem gap_of_getNode (h : getNode X u = .ok none) :
  ∃ d x n, u = d ++ [x] ∧ descend X d = some n ∧ n.find x = none := by
  rcases eq_nil_or_concat' u with rfl | ⟨d,x,rfl⟩
  · cases h
  cases hd : descend X d with
  | none =>
    rw [getNode_missing hd] at h
    cases h
  | some n =>
    cases hx : n.find x with
    | none => exact ⟨d,x,n,rfl,hd,hx⟩
    | some ent =>
      rw [getNode_some (descend_concat_some.mpr ⟨n,hd,hx⟩)] at h
      cases h

structure Untouched (oldroot currentroot : Node Nat) (u : Path) : Prop where
  nonroot : u ≠ []
  node : descend oldroot u = descend currentroot u
  parent : ∃ n n', descend oldroot u.dropLast = some n ∧ descend currentroot u.dropLast = some n'

variable {currentroot oldroot : Node Nat}

theorem untouched_of_coalesce
  (ha : ∀ q n m, descend oldroot q = some n → descend currentroot q = some m → n.stamp = m.stamp → n = m)
  (hm : same oldroot currentroot = false) (h : canCoalesce cfg oldroot currentroot (some u) = true) :
  Untouched oldroot currentroot u := by
  rw [canCoalesce] at h
  split at h
  · split at h
    · rename_i b ht
      subst h
      obtain ⟨o,ho,ht⟩ := bind_ok ht
      obtain ⟨c,hc,ht⟩ := bind_ok ht
      cases o with
      | some o =>
        cases c with
        | none => cases ht
        | some c =>
          have ho := descend_of_getNode ho
          have hc := descend_of_getNode hc
          dsimp only at ht
          split_ifs at ht with hs
          · have he := ha u o c ho hc (of_decide_eq_true hs)
            refine ⟨?_,by rw [ho,hc,he],?_⟩
            · rintro rfl
              cases ho
              cases hc
              rw [hm] at hs
              cases hs
            obtain ⟨n,hn⟩ := descend_of_below ho (List.dropLast_prefix u)
            obtain ⟨n',hn'⟩ := descend_of_below hc (List.dropLast_prefix u)
            exact ⟨n,n',hn,hn'⟩
          · cases ht
      | none =>
        cases c with
        | some c => cases ht
        | none =>
          obtain ⟨d,x,n,rfl,hn,hx⟩ := gap_of_getNode ho
          obtain ⟨d',x',n',he,hn',hx'⟩ := gap_of_getNode hc
          obtain ⟨rfl,hl⟩ := append_inj' he rfl
          obtain rfl := (List.cons.inj hl).1
          refine ⟨concat_ne_nil x d,?_,n,n',?_,?_⟩
          · rw [descend_concat_missing hn hx [],descend_concat_missing hn' hx' []]
          · rwa [dropLast_concat]
          · rwa [dropLast_concat]
    · cases h
  · cases h

theorem setNode_eq {n : Node Nat} (hr : Room X u) : setNode a X u n = .ok (graft a X u n) := by
  rcases eq_nil_or_concat' u with rfl | ⟨d,x,rfl⟩
  · rfl
  obtain ⟨k,hk⟩ := hr
  rw [dropLast_concat] at hk
  rw [setNode,if_neg (concat_ne_nil x d),lookupModify_at _ hk]
  cases hx : k.find x with
  | none => exact congrArg Except.ok (graft_add hk hx)
  | some ent => exact congrArg Except.ok (graft_replace hk hx)

theorem room_forget (h : Room X u) : Room X.forget u := by
  obtain ⟨n,hn⟩ := h
  exact ⟨n.forget,by rw [descend_forget,hn]; rfl⟩

theorem tracks_start {w rd : Option Path} (hw : ∀ u, w = some u → Untouched oldroot currentroot u)
  (hr : ∀ u, rd = some u → Untouched oldroot currentroot u) (hp : parentsAgree oldroot currentroot w = true) :
  Tracks w rd currentroot.forget oldroot.forget currentroot.forget := by
  have ha : ∀ u, Untouched oldroot currentroot u → descend oldroot.forget u = descend currentroot.forget u := by
    intro u hu
    rw [descend_forget,descend_forget,hu.node]
  refine ⟨fun u hu => ha u (hw u hu),fun u hu ho => ?_,fun u hu => ha u (hr u hu),?_⟩
  · obtain ⟨n,n',hn,hn'⟩ := (hw u hu).parent
    rw [descend_forget,map_eq_none_iff] at ho
    rw [hu,parentsAgree,pathExists_eq,ho] at hp
    have he := of_decide_eq_true hp
    rw [getParent,permsAt,permsAt,content,content,hn,hn'] at he
    refine ⟨n.forget,n'.forget,by rw [descend_forget,hn]; rfl,by rw [descend_forget,hn']; rfl,?_⟩
    rw [forget_label,forget_label]
    exact (some.inj he).symm
  cases w with
  | none => rfl
  | some u =>
    rw [regraft]
    cases hu : descend oldroot.forget u with
    | none => rfl
    | some n => exact (graft_back ((ha u (hw u rfl)).symm.trans hu)).symm

theorem commitPartial_replays (h : Ledger cfg old t log) (hs : Shared a live) (hold : live old)
  (hg : live t.store.root) (hb : live cstore.root) (hm : same old cstore.root = false)
  (he : ∀ e ∈ log, e.settled = true) (hy : parentsAgree old cstore.root t.writeLowpath = true)
  (hc : commitPartial cfg a t old cstore = .ok (true,store)) :
  replay cfg cstore.root.forget log = some store.root.forget ∧ Offspring a live store.root ∧ Distinct store.root := by
  have hq := hs.coherent old cstore.root hold hb
  rw [commitPartial] at hc
  split_ifs at hc with ha
  · obtain ⟨hz,hcn⟩ := (Bool.and_eq_true _ _).mp ha
    have hw : ∀ u, t.writeLowpath = some u → Untouched old cstore.root u :=
      fun u hu => untouched_of_coalesce hq hm (hu ▸ hcn)
    have hd : ∀ u, t.readLowpath = some u → Untouched old cstore.root u :=
      fun u hu => untouched_of_coalesce hq hm (hu ▸ hz)
    obtain ⟨Z,hZ,ht⟩ := h.moved he t.writeLowpath t.readLowpath cstore.root.forget
      (fun p hp => ⟨p,hp,prefix_rfl⟩) (fun p hp => ⟨p,hp,prefix_rfl⟩)
      (fun u hu => ⟨(hw u hu).nonroot,by
        obtain ⟨n,n',-,hn'⟩ := (hw u hu).parent
        exact room_forget ⟨n',hn'⟩⟩)
      (tracks_start hw hd hy)
    have hZ' := ht.moved
    cases hl : t.writeLowpath with
    | none =>
      rw [hl] at hc hZ'
      obtain rfl := (Prod.mk.inj (Except.ok.inj hc)).2
      exact ⟨hZ.trans (congrArg some hZ'),offspring_of_live hb,hs.distinct _ hb⟩
    | some u =>
      obtain ⟨n0,n',hn0,hn'⟩ := (hw u hl).parent
      have hr : Room cstore.root u := ⟨n',hn'⟩
      rw [hl] at hc hZ'
      rw [regraft] at hZ'
      obtain ⟨found,ho,hc⟩ := bind_ok hc
      cases hn : descend t.store.root u with
      | none =>
        have hf : descend t.store.root.forget u = none := by rw [descend_forget,hn]; rfl
        rw [hf] at hZ'
        obtain rfl : found = none := by
          cases found with
          | none => rfl
          | some k =>
            rw [descend_of_getNode ho] at hn
            cases hn
        obtain rfl := (Prod.mk.inj (Except.ok.inj hc)).2
        exact ⟨hZ.trans (congrArg some hZ'),offspring_of_live hb,hs.distinct _ hb⟩
      | some n =>
        have hf : descend t.store.root.forget u = some n.forget := by rw [descend_forget,hn]; rfl
        rw [hf] at hZ'
        rw [getNode_some hn] at ho
        cases ho
        obtain ⟨root,hv,hc⟩ := bind_ok hc
        rw [setNode_eq hr] at hv
        cases hv
        obtain rfl := (Prod.mk.inj (Except.ok.inj hc)).2
        have hi : Fits cstore.root u n := by
          obtain ⟨e,x,rfl⟩ := (eq_nil_or_concat' u).resolve_left (hw u hl).nonroot
          obtain ⟨_,_,hx⟩ := descend_concat_some.mp hn
          exact fits_concat _ (find_key hx)
        refine ⟨?_,?_,?_⟩
        · rw [hZ,hZ']
          exact congrArg some graft_forget.symm
        · exact Offspring.graft hb hi hr fun q k hk =>
            .inr ⟨t.store.root,hg,(descend_append_some hn).trans hk⟩
        · exact (hs.distinct _ hb).graft ((hs.distinct _ hg).sub hn) hi hr
  · cases hc

theorem commit_replays (h : Ledger cfg old t log) (hr : t.oldroot = some old) (hs : Shared a live)
  (hold : live old) (ht : live t.store.root) (hu : live cstore.root) (ho : same old cstore.root = true ∨
    (∀ e ∈ log, e.settled = true) ∧ parentsAgree old cstore.root t.writeLowpath = true)
  (hc : commit cfg a t cstore = .ok (true,store)) :
  replay cfg cstore.root.forget log = some store.root.forget ∧ Offspring a live store.root ∧ Distinct store.root := by
  rw [commit,hr] at hc
  dsimp only at hc
  split at hc
  · rename_i ha
    obtain rfl := hs.coherent old cstore.root hold hu [] old cstore.root rfl rfl (of_decide_eq_true ha)
    obtain rfl := (Prod.mk.inj (Except.ok.inj hc)).2
    by_cases hb : t.ops = []
    · rw [hb]
      exact ⟨h.alone.trans (congrArg some (h.idle hb)),offspring_of_live hu,hs.distinct _ hu⟩
    · rw [if_pos (length_pos_iff.mpr hb)]
      exact ⟨h.alone,offspring_of_live ht,hs.distinct _ ht⟩
  rename_i hm
  obtain ⟨he,hp⟩ := ho.resolve_left hm
  exact commitPartial_replays h hs hold ht hu (Bool.eq_false_iff.mpr hm) he hp hc

end

def Live (s : State) (X : Node Nat) : Prop :=
  X = s.store.root ∨ ∃ c tid t, (s.cons c).transactions.lookup tid = some t ∧ (X = t.store.root ∨ t.oldroot = some X)

structure Serialised (cfg : Config) (start : Node Unit) (s : Traced) : Prop where
  shared : Shared s.state.clock (Live s.state)
  store : replay cfg start s.history.done.flatten = some s.state.store.root.forget
  ledger : ∀ c tid t, (s.state.cons c).transactions.lookup tid = some t →
    ∃ old, t.oldroot = some old ∧ Ledger cfg old t (s.history.pending c tid)

section
variable {start : Node Unit} {s : Traced} {c tid tid' : Nat} {X : Node Nat}

theorem verdict_offspring {a : Nat} {con : Con} {r : Request} {live : Node Nat → Prop} (hX : live X)
  (hd : Distinct X) : Offspring a live ((verdict cfg a con X r).root a X) ∧
  Distinct ((verdict cfg a con X r).root a X) := by
  cases hv : verdict cfg a con X r with
  | sets u m w =>
    have hp := (verdict_change hv).proper
    refine ⟨Offspring.graft hX hp.fits hp.room fun q n hn => ?_,
      hd.graft (hp.distinct hd) hp.fits hp.room⟩
    exact (hp.nodes hd q n hn).imp_right fun h => ⟨X,hX,h⟩
  | fail e | silent | shows q e => exact ⟨offspring_of_live hX,hd⟩

variable {c' : Nat} {s' : Traced}

theorem setCon_lookup {s : State} {connection : Connection}
  (h : ((s.setCon c connection).cons c').transactions.lookup tid = some t) :
  (c' = c ∧ connection.transactions.lookup tid = some t) ∨ (c' ≠ c ∧ (s.cons c').transactions.lookup tid = some t) := by
  by_cases hc : c' = c
  · simp only [hc,State.setCon,update_self] at h
    exact .inl ⟨hc,h⟩
  · simp only [State.setCon,update_of_ne hc] at h
    exact .inr ⟨hc,h⟩

theorem setPending_self (h : History) (log : List Entry) : (h.setPending c tid log).pending c tid = log := by
  simp only [History.setPending,update_self]

theorem setPending_other (h : History) (log : List Entry) (hn : c' ≠ c ∨ tid' ≠ tid) :
  (h.setPending c tid log).pending c' tid' = h.pending c' tid' := by
  by_cases hc : c' = c
  · subst hc
    simp only [History.setPending,update_self]
    exact update_of_ne (hn.resolve_left fun h => h rfl) ..
  · simp only [History.setPending,update_of_ne hc]

variable (h : Serialised cfg start s)
include h

theorem Serialised.keeps (hc : s'.state.clock = s.state.clock+1) (hr : s'.state.store.root = X)
  (hX : Offspring s.state.clock (Live s.state) X ∧ Distinct X)
  (hd : replay cfg start s'.history.done.flatten = some X.forget)
  (hk : ∀ c tid t, (s'.state.cons c).transactions.lookup tid = some t →
    (s.state.cons c).transactions.lookup tid = some t ∧ s'.history.pending c tid = s.history.pending c tid) :
  Serialised cfg start s' := by
  refine ⟨?_,hr ▸ hd,fun c tid t ht => ?_⟩
  · rw [hc]
    refine h.shared.step hX.1 hX.2 fun u hu => ?_
    rcases hu with hu | ⟨c,tid,t,ht,hu⟩
    · exact .inr (hu.trans hr)
    · exact .inl (.inr ⟨c,tid,t,(hk c tid t ht).1,hu⟩)
  obtain ⟨ht,hp⟩ := hk c tid t ht
  rw [hp]
  exact h.ledger c tid t ht

theorem Serialised.current : Offspring s.state.clock (Live s.state) s.state.store.root ∧ Distinct s.state.store.root :=
  ⟨offspring_of_live (.inl rfl),h.shared.distinct _ (.inl rfl)⟩

theorem Serialised.quiet (hc : s'.state.clock = s.state.clock+1)
  (hr : s'.state.store.root = s.state.store.root) (hd : s'.history.done = s.history.done)
  (hk : ∀ c tid t, (s'.state.cons c).transactions.lookup tid = some t →
    (s.state.cons c).transactions.lookup tid = some t ∧ s'.history.pending c tid = s.history.pending c tid) :
  Serialised cfg start s' :=
  h.keeps hc hr h.current (hd ▸ h.store) hk

theorem Serialised.immediate (hq : cfg.quotaActivate = false) (c : Nat) (r : Request) : Serialised cfg start
    {state := (immediateRequest cfg s.state c r).1.tick,history := {s.history with done := s.history.done ++
        [[entry cfg (s.state.cons c).con s.state.store.root r (immediateRequest cfg s.state c r).2]]}} := by
  set con := (s.state.cons c).con
  have hf := @request_follows _ cfg s.state.clock con hq r (.immediate s.state.store)
  have ho := @verdict_forget _ cfg s.state.clock con s.state.store.root r
  refine h.keeps rfl hf.root (verdict_offspring (.inl rfl) (h.shared.distinct _ (.inl rfl))) ?_
    fun c tid t ht => ⟨ht,rfl⟩
  rw [flatten_append,flatten_singleton,replay_concat h.store]
  refine (serve_verdict hq rfl ?_).trans (congrArg some ?_)
  · exact (congrArg Verdict.reply ho.symm).trans ((Verdict.forget_reply _).trans hf.reply.symm)
  · exact (congrArg (Verdict.root () _) ho.symm).trans (Verdict.forget_root _)

theorem Serialised.within (hq : cfg.quotaActivate = false)
  (ht : (s.state.cons c).transactions.lookup tid = some t) (r : Request) : Serialised cfg start
    {state := (transactionRequest cfg s.state c tid t r).1.tick,
      history := s.history.setPending c tid (s.history.pending c tid ++
        [entry cfg (s.state.cons c).con t.store.root r (transactionRequest cfg s.state c tid t r).2])} := by
  set con := (s.state.cons c).con
  have hf := @request_follows _ cfg s.state.clock con hq r t
  have hl : Live s.state t.store.root := .inr ⟨c,tid,t,ht,.inl rfl⟩
  have ho := @verdict_offspring cfg _ s.state.clock con r _ hl (h.shared.distinct _ hl)
  rw [← hf.root] at ho
  obtain ⟨old,hold,he⟩ := h.ledger c tid t ht
  set t' := (inputHandleError cfg s.state.clock con r t).2
  refine ⟨?_,h.store,fun c' tid' u hu => ?_⟩
  · refine h.shared.step ho.1 ho.2 fun X hX => ?_
    rcases hX with hX | ⟨c',tid',u,hu,hX⟩
    · exact .inl (.inl hX)
    rcases setCon_lookup hu with ⟨rfl,hu⟩ | ⟨-,hu⟩
    · rcases Lookup.of_insert hu with ⟨-,rfl⟩ | ⟨-,hu⟩
      · rcases hX with hX | hX
        · exact .inr hX
        · exact .inl (.inr ⟨c',tid,t,ht,.inr (hf.oldroot ▸ hX)⟩)
      · exact .inl (.inr ⟨c',tid',u,hu,hX⟩)
    · exact .inl (.inr ⟨c',tid',u,hu,hX⟩)
  rcases setCon_lookup hu with ⟨rfl,hu⟩ | ⟨hc,hu⟩
  · rcases Lookup.of_insert hu with ⟨rfl,rfl⟩ | ⟨hi,hu⟩
    · refine ⟨old,hf.oldroot.trans hold,?_⟩
      rw [setPending_self]
      exact he.request hq r
    · rw [setPending_other _ _ (.inr hi)]
      exact h.ledger c' tid' u hu
  · rw [setPending_other _ _ (.inl hc)]
    exact h.ledger c' tid' u hu

theorem Serialised.started (c : Nat) (connection : Connection)
  (ho : connection.transactions = (s.state.cons c).transactions.insert tid (.full s.state.store)) :
  Serialised cfg start {state := (s.state.setCon c connection).tick,history := s.history.setPending c tid []} := by
  have hl : ∀ c' tid' u, ((s.state.setCon c connection).cons c').transactions.lookup tid' = some u →
      (c' = c ∧ tid' = tid ∧ u = .full s.state.store) ∨
        ((c' ≠ c ∨ tid' ≠ tid) ∧ (s.state.cons c').transactions.lookup tid' = some u) := by
    intro c' tid' u hu
    rcases setCon_lookup hu with ⟨rfl,hs⟩ | ⟨hc,hu⟩
    · rw [ho] at hs
      rcases Lookup.of_insert hs with ⟨ht,rfl⟩ | ⟨ht,hu⟩
      · exact .inl ⟨rfl,ht,rfl⟩
      · exact .inr ⟨.inr ht,hu⟩
    · exact .inr ⟨.inl hc,hu⟩
  refine ⟨h.shared.step h.current.1 h.current.2 fun X hX => ?_,h.store,fun c' tid' u hu => ?_⟩
  · rcases hX with hX | ⟨c',tid',u,hu,hX⟩
    · exact .inr hX
    rcases hl c' tid' u hu with ⟨-,-,rfl⟩ | ⟨-,hu⟩
    · exact .inr (hX.elim id fun hX => (some.inj hX).symm)
    · exact .inl (.inr ⟨c',tid',u,hu,hX⟩)
  rcases hl c' tid' u hu with ⟨rfl,rfl,rfl⟩ | ⟨hn,hu⟩
  · rw [setPending_self]
    exact ⟨s.state.store.root,rfl,ledger_start _⟩
  · rw [setPending_other _ _ hn]
    exact h.ledger c' tid' u hu

omit h in
theorem erased_lookup {s : State} {u : Transaction Nat}
  (h : ((s.setTransactions c ((s.cons c).transactions.erase tid)).cons c').transactions.lookup tid' = some u) :
  (s.cons c').transactions.lookup tid' = some u := by
  rcases setCon_lookup h with ⟨rfl,h⟩ | ⟨-,h⟩
  · exact (Lookup.of_erase h).2
  · exact h

theorem Serialised.dropped (c tid : Nat) : Serialised cfg start
    {state := (s.state.setTransactions c ((s.state.cons c).transactions.erase tid)).tick,history := s.history} :=
  h.quiet rfl rfl rfl fun _ _ _ ht => ⟨erased_lookup ht,rfl⟩

theorem Serialised.committed (ht : (s.state.cons c).transactions.lookup tid = some t)
  {data : List Char} (hw : wantsCommit data = true) (hk : orderly s (.transactionEnd c tid data) = true)
  {store : Store Nat} (hc : commit cfg s.state.clock t s.state.store = .ok (true,store)) : Serialised cfg start
    {state := State.tick {s.state.setTransactions c ((s.state.cons c).transactions.erase tid) with store := store},
      history := {s.history with done := s.history.done ++ [s.history.pending c tid]}} := by
  obtain ⟨old,hold,hl⟩ := h.ledger c tid t ht
  have ho : same old s.state.store.root = true ∨ (∀ e ∈ s.history.pending c tid, e.settled = true) ∧
        parentsAgree old s.state.store.root t.writeLowpath = true := by
    rw [orderly,hw,ht] at hk
    simpa only [Bool.not_true,Bool.false_or,all_some,hold,Bool.or_eq_true,Bool.and_eq_true,List.all_eq_true] using hk
  obtain ⟨hr,hf,hd⟩ := commit_replays hl hold h.shared (.inr ⟨c,tid,t,ht,.inr hold⟩)
    (.inr ⟨c,tid,t,ht,.inl rfl⟩) (.inl rfl) ho hc
  refine h.keeps rfl rfl ⟨hf,hd⟩ ?_ fun _ _ _ ht => ⟨erased_lookup ht,rfl⟩
  rw [flatten_append,flatten_singleton,replay_append,h.store]
  exact hr

omit h in
theorem doTransactionEnd_cases (cfg : Config) (s : State) (c tid : Nat) (data : List Char) :
  (∃ e, doTransactionEnd cfg s c tid data = (s,.error e)) ∨ (∃ e, doTransactionEnd cfg s c tid data =
    (s.setTransactions c ((s.cons c).transactions.erase tid),.error e)) ∨
  (wantsCommit data = false ∧ doTransactionEnd cfg s c tid data =
    (s.setTransactions c ((s.cons c).transactions.erase tid),.ack)) ∨
  ∃ t store, wantsCommit data = true ∧ (s.cons c).transactions.lookup tid = some t ∧
    commit cfg s.clock t s.store = .ok (true,store) ∧ doTransactionEnd cfg s c tid data =
      ({s.setTransactions c ((s.cons c).transactions.erase tid) with store := store},.ack) := by
  unfold doTransactionEnd wantsCommit
  split
  · rename_i hs
    rw [endTransaction]
    cases ht : (s.cons c).transactions.lookup tid with
    | none => exact .inl ⟨_,rfl⟩
    | some t =>
      dsimp only
      rw [if_pos rfl]
      split
      · exact .inr (.inl ⟨_,rfl⟩)
      · exact .inr (.inl ⟨_,rfl⟩)
      · rename_i store hc
        exact .inr (.inr (.inr ⟨t,store,by rw [hs]; rfl,rfl,hc,rfl⟩))
  · rename_i hs
    rw [endTransaction]
    cases ht : (s.cons c).transactions.lookup tid with
    | none => exact .inl ⟨_,rfl⟩
    | some t => exact .inr (.inr (.inl ⟨by rw [hs]; rfl,rfl⟩))
  · exact .inl ⟨_,rfl⟩

theorem Serialised.ended (data : List Char) (ho : orderly s (.transactionEnd c tid data) = true) : Serialised cfg start
    {state := (doTransactionEnd cfg s.state c tid data).1.tick,
      history := s.history.next cfg s.state (.transactionEnd c tid data)
        (some (doTransactionEnd cfg s.state c tid data).2)} := by
  rcases doTransactionEnd_cases cfg s.state c tid data with
    ⟨e,he⟩ | ⟨e,he⟩ | ⟨hw,he⟩ | ⟨t,store,hw,ht,hc,he⟩
  · rw [he]
    exact h.quiet rfl rfl rfl fun _ _ _ ht => ⟨ht,rfl⟩
  · rw [he]
    exact h.dropped c tid
  · rw [he,History.next,hw]
    exact h.dropped c tid
  · rw [he,History.next,if_pos hw]
    exact h.committed ht hw ho hc

omit h

theorem tracedStep_serialised (hq : cfg.quotaActivate = false) (h : Serialised cfg start s) {a : Action}
  (ho : orderly s a = true) (hs : tracedStep cfg s a = some s') : Serialised cfg start s' := by
  cases hs
  have ha : Serialised cfg start {state := s.state.tick,history := s.history} :=
    h.quiet rfl rfl rfl fun _ _ _ ht => ⟨ht,rfl⟩
  cases a with
  | request c tid r =>
    by_cases hi : tid = 0
    · simp only [daemon,processPacket,History.next,hi,if_true]
      exact h.immediate hq c r
    cases ht : (s.state.cons c).transactions.lookup tid with
    | none => simpa only [daemon,processPacket,History.next,hi,if_false,ht] using ha
    | some t =>
      simp only [daemon,processPacket,History.next,hi,if_false,ht]
      exact h.within hq ht r
  | transactionStart c tid =>
    by_cases hi : tid = 0
    · simp only [daemon,processPacket,hi,if_true]
      rw [startTransaction]
      split
      · exact ha
      · exact h.started c _ rfl
    cases ht : (s.state.cons c).transactions.lookup tid with
    | none | some t =>
      simp only [daemon,processPacket,hi,if_false,ht]
      exact ha
  | transactionEnd c tid data =>
    simp only [daemon,processPacket]
    split
    · exact ha
    · exact h.ended data ho
  | connect c dom =>
    refine h.quiet rfl rfl rfl fun c' tid' u hu => ?_
    rcases setCon_lookup hu with ⟨-,hu⟩ | ⟨-,hu⟩
    · cases hu
    · exact ⟨hu,rfl⟩
  | setPerm c perm =>
    refine h.quiet rfl rfl rfl fun c' tid' u hu => ?_
    rcases setCon_lookup hu with ⟨rfl,hu⟩ | ⟨-,hu⟩ <;> exact ⟨hu,rfl⟩

end

structure Fresh (s : Traced) : Prop where
  quiescent : ∀ c, (s.state.cons c).transactions = ∅
  history : s.history = .empty
  stamps : ∀ q n, descend s.state.store.root q = some n → n.stamp < s.state.clock
  distinct : Distinct s.state.store.root

theorem serialised_start {cfg : Config} {s : Traced} (h : Fresh s) : Serialised cfg s.state.store.root.forget s := by
  have hn : ∀ c tid t, (s.state.cons c).transactions.lookup tid ≠ some t := by
    intro c tid t ht
    rw [h.quiescent c] at ht
    cases ht
  refine ⟨shared_single h.stamps h.distinct fun X hX => ?_,by rw [h.history]; rfl,
    fun c tid t ht => absurd ht (hn c tid t)⟩
  rcases hX with hX | ⟨c,tid,t,ht,-⟩
  · exact hX
  · exact absurd ht (hn c tid t)

def coalescingConfig : Config := {defaultConfig with quotaActivate := false}

def newborn : Traced :=
  {state := {store := {root := create 0 [] default0 [],quota := .create},cons := fun _ => .create (some 0),clock := 1},
    history := .empty}

theorem newborn_fresh : Fresh newborn := by
  have hr : ∀ q n, descend newborn.state.store.root q = some n → n = newborn.state.store.root := by
    intro q n hn
    cases q with
    | nil => exact (some.inj hn).symm
    | cons x q => cases hn
  exact ⟨fun _ => rfl,rfl,fun q n hn => by rw [hr q n hn]; decide,fun q n hn => by rw [hr q n hn]; decide⟩

def skew : List Action := [.request 0 0 (.write (text "/b" ++ ['0'])),.transactionStart 0 0,.transactionStart 1 0,
    .request 0 1 (.read (text "/a")),.request 0 1 (.write (text "/b" ++ ['1'])),
    .request 1 1 (.read (text "/b")),.request 1 1 (.write (text "/a" ++ ['x'])),
    .transactionEnd 1 1 (text "T"),.transactionEnd 0 1 (text "T")]

def skewed : Traced := (runIf (tracedStep coalescingConfig) (fun _ _ => true) newborn skew).get (by decide +kernel)

theorem failed_reads_unordered : Reach (tracedStep coalescingConfig) (fun _ _ => True) newborn skewed ∧
  skewed.history.done.map (List.map Entry.reply) = [[.ack],[.data ['0'],.ack],[.error "ENOENT".toList,.ack]] ∧
  ∀ order : List (List Entry), order.Perm skewed.history.done →
    replay coalescingConfig newborn.state.store.root.forget order.flatten ≠ some skewed.state.store.root.forget := by
  have hb : ∀ order ∈ skewed.history.done.permutations',
      (replay coalescingConfig newborn.state.store.root.forget order.flatten).map (content · ["b".toList]) ≠
        some (content skewed.state.store.root.forget ["b".toList]) := by
    decide +kernel
  refine ⟨reach_get (fun _ _ _ => trivial) _,by decide +kernel,fun order ho h => ?_⟩
  exact hb order (mem_permutations'.mpr ho) (congrArg (Option.map (content · ["b".toList])) h)

theorem coalescing_serialisable {cfg : Config} (hq : cfg.quotaActivate = false) {start s : Traced}
  (hstart : Fresh start)
  (hreach : Reach (tracedStep cfg) (fun s a => orderly s a = true) start s) :
  replay cfg start.state.store.root.forget s.history.done.flatten = some s.state.store.root.forget :=
  (reach_invariant (I := Serialised cfg start.state.store.root.forget) (serialised_start hstart)
    (fun _ _ _ _ h hok hstep => tracedStep_serialised hq h hok hstep) hreach).store

def separate : List Action :=
  [.request 0 0 (.write (text "/x/p" ++ ['0'])),.request 1 0 (.write (text "/y/q" ++ ['0'])),
    .transactionStart 0 0,.transactionStart 1 0,
    .request 0 1 (.read (text "/x/p")),.request 0 1 (.write (text "/x/p" ++ ['1'])),
    .request 1 1 (.read (text "/y/q")),.request 1 1 (.write (text "/y/q" ++ ['2'])),
    .transactionEnd 0 1 (text "T"),.transactionEnd 1 1 (text "T")]

def separated : Traced := (runIf (tracedStep coalescingConfig) orderly newborn separate).get (by decide +kernel)

theorem separate_commits_serialisable :
  separated.history.done.map (List.map Entry.reply) = [[.ack],[.ack],[.data ['0'],.ack],[.data ['0'],.ack]] ∧
  replay coalescingConfig newborn.state.store.root.forget separated.history.done.flatten =
    some separated.state.store.root.forget := by
  exact ⟨by decide +kernel,coalescing_serialisable rfl newborn_fresh (reach_get (fun _ _ h => h) _)⟩

end Oxenstored
