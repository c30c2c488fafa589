import PMigrate.Core.TokenPool
import PMigrate.Migration.TableBounds

namespace BufferPool

open PageTable BatchCodec Migration PhysMap TableBounds TokenPool Transition Function List Option

def slaveRatio : Nat := 10

structure Receiver (A : Type) where
  setup : Setup A
  host : Host
  slaves : Nat

inductive Slave where
  | waiting
  | reading (buf : Nat)
  | applying (buf j curbatch : Nat)
  | left
  deriving DecidableEq

def Slave.buffer : Slave → Option Nat
  | .reading b | .applying b _ _ => some b
  | .waiting | .left => none

structure State where
  (pool recvPagebuf : List Nat)
  bufs : Nat → Pagebuf
  slave : Nat → Slave
  input : Nat → List UInt8

inductive Action (A : Type) where
  | dequeue (i : Nat)
  | receive (i : Nat)
  | apply (i : Nat) (tables : Tables A) (mapped : Bool) (pfnErr mmuError : Nat → Bool)

def emptied (buf : Pagebuf) : Pagebuf := {buf with nrPages := 0,nrPhyspages := 0}

namespace State

def goto (s : State) (i : Nat) (x : Slave) : State := {s with slave := update s.slave i x}

def pagebufPoolEnqueue (s : State) (b : Nat) : State :=
  {s with bufs := update s.bufs b (emptied (s.bufs b)),pool := s.pool ++ [b]}

def hold (s : State) : Nat → Option Nat := Slave.buffer ∘ s.slave

end State

namespace Receiver

variable {A : Type} (r : Receiver A)

def getOne (buf : Pagebuf) (input : List UInt8) : Option (Int × Pagebuf × List UInt8) :=
  slavePagebufGetOne r.setup.platform r.host (input.length+1) buf input

def receive (s : State) (i b : Nat) : State :=
  match r.getOne (s.bufs b) (s.input i) with
  | none => s.goto i .left
  | some (pagecount,buf,rest) =>
    let s := {s with bufs := update s.bufs b buf,input := update s.input i rest}
    if pagecount > 0 then
      match classify buf with
      | .finish => (s.pagebufPoolEnqueue b).goto i .left
      | .barrier => s
      | .lastIteration => {s with bufs := update s.bufs b (emptied buf)}
      | .data =>
        if buf.nrPages = 0 then {s with recvPagebuf := s.recvPagebuf ++ [b]}.goto i .waiting
        else s.goto i (.applying b buf.nrPages 0)
    else s.goto i .left

-- only the exits behind the mapping of the region give the buffer back
def applyBatch (s : State) (tables : Tables A) (b : Nat) (a : Call) : State × Int :=
  let out := tables.applyBatch r.setup a
  if out.exit = .nomem ∨ out.exit = .mapFailed then (s,out.rc)
  else (s.pagebufPoolEnqueue b,out.rc)

def step (s : State) : Action A → Option State
  | .dequeue i =>
    match s.slave i,s.pool with
    | .waiting,[] => some s
    | .waiting,b :: pool => some ({s with pool := pool}.goto i (.reading b))
    | _,_ => none
  | .receive i =>
    match s.slave i with
    | .reading b => some (r.receive s i b)
    | _ => none
  | .apply i tables mapped pfnErr mmuError =>
    match s.slave i with
    | .applying b j curbatch =>
      let (s,brc) := r.applyBatch s tables b ⟨s.bufs b,curbatch,mapped,pfnErr,mmuError⟩
      if brc < 0 then some (s.goto i .waiting)
      else if curbatch+maxBatchSize < j then
        some (s.goto i (.applying b j (curbatch+maxBatchSize)))
      else some (s.goto i .waiting)
    | _ => none

def start (input : Nat → List UInt8) : State where
  pool := List.range (r.slaves*slaveRatio)
  recvPagebuf := []
  bufs := fun _ => pagebufInit
  slave := fun i => if i < r.slaves then .waiting else .left
  input := input

-- the pfns that the first pass of the call finds unmapped, each once
def missing (tables : Tables A) (a : Call) : List Nat :=
  (TwoPass.mark r.setup.platform.invalidP2mEntry r.setup.platform.pendingP2mEntry
    (fun _ => true) keyOf a.words tables.p2m).2.1

def supplied (s : State) : Action A → Bool
  | .apply i tables mapped pfnErr mmuError => mapped &&
    match s.slave i with
    | .applying b _ curbatch => (populateExact r.setup.populate tables.heap
        (r.missing tables ⟨s.bufs b,curbatch,mapped,pfnErr,mmuError⟩)).isSome
    | _ => true
  | _ => true

def Supplied (s : State) (a : Action A) : Prop := r.supplied s a = true

end Receiver

def Sent (c : SaveCtx) (live : Bool) (bytes : List UInt8) : Prop :=
  ∃ (msgs : List Message) (rest : List UInt8), (∀ m ∈ msgs, m.Completes c live) ∧
    bytes = msgs.flatMap (Message.bytes c live) ++ (ofInt32 xcParaMigrEnd ++ rest)

inductive Received (c : SaveCtx) (live : Bool) (buf : Pagebuf) (rest : List UInt8) : Prop
  | finish (hsignal : classify buf = .finish)
  | barrier (hsignal : classify buf = .barrier) (hbuf : Emptied buf) (hrest : Sent c live rest)
  | lastIteration (hsignal : classify buf = .lastIteration) (hrest : Sent c live rest)
  | data (hsignal : classify buf = .data) (hpos : buf.nrPages ≠ 0)
      (hle : buf.nrPages ≤ maxBatchSize) (hrest : Sent c live rest)

theorem getOne_congr {c c' : Platform} (h : Host) (hl : c.longSize = c'.longSize) :
  slavePagebufGetOne c h = slavePagebufGetOne c' h := by
  have hb : readBatch c = readBatch c' := by
    funext count buf s
    rw [readBatch,readBatch,hl]
  funext fuel
  induction fuel with
  | zero => rfl
  | succ fuel ih =>
    funext buf s
    rw [slavePagebufGetOne,slavePagebufGetOne,ih,hb]

theorem next_message {c : SaveCtx} {live : Bool} (h : Host) (fuel : Nat) {buf : Pagebuf}
  (hbuf : Emptied buf) {bytes : List UInt8} (hs : Sent c live bytes) :
  ∃ n buf' rest, slavePagebufGetOne c.toPlatform h (fuel+1) buf bytes = some (n,buf',rest) ∧
    0 < n ∧ Received c live buf' rest := by
  obtain ⟨msgs,tail,hm,rfl⟩ := hs
  induction msgs with
  | nil => exact ⟨1,_,tail,(getOne_control c.toPlatform h fuel buf tail).1,by decide,.finish rfl⟩
  | cons m msgs ih =>
    have hl : ∀ m' ∈ msgs, m'.Completes c live := fun m' hm' => hm m' (mem_cons_of_mem m hm')
    have hr : Sent c live (msgs.flatMap (Message.bytes c live) ++ (ofInt32 xcParaMigrEnd ++ tail)) :=
      ⟨msgs,tail,hl,rfl⟩
    rw [flatMap_cons,append_assoc]
    cases m with
    | barrier =>
      exact ⟨1,_,_,(getOne_control c.toPlatform h fuel buf _).2.2,by decide,.barrier rfl ⟨rfl,rfl⟩ hr⟩
    | lastIter => exact ⟨1,_,_,(getOne_control c.toPlatform h fuel buf _).2.1,by decide,.lastIteration rfl hr⟩
    | batch b =>
      have ho : ∀ bytes, sendPatch c live b ≠ .failed bytes := hm (.batch b) mem_cons_self
      have hc := sendPatch_cases c live b
      rw [Message.bytes]
      generalize sendPatch c live b = sent at hc ho ⊢
      cases hc with
      | skipped ha => exact ih hl
      | failed bytes => exact absurd rfl (ho bytes)
      | written ha =>
        obtain ⟨buf',hg,hh⟩ := getOne_written (c := c) (h := h) fuel hbuf ha
          (msgs.flatMap (Message.bytes c live) ++ (ofInt32 xcParaMigrEnd ++ tail))
        have hp := b.nonempty
        have he := b.bounded
        refine ⟨_,buf',_,hg,by omega,.data hh.signal ?_ ?_ hr⟩
        · rw [hh.nrPages]
          omega
        · rw [hh.nrPages]
          exact he

variable {A : Type}

section

variable {st : Setup A} {a : Call} {t : Tables A}

theorem applyPage_exit (st : Setup A) (a : Call) (t : Tables A) (i curpage w frame : Nat) :
  (t.applyPage st a i curpage w frame).2.1 ≠ .nomem ∧ (t.applyPage st a i curpage w frame).2.1 ≠ .mapFailed := by
  have hm (t : Tables A) (mfn pfn : Nat) :
      (t.machphysUpdate st a i mfn pfn).2.1 ≠ .nomem ∧
        (t.machphysUpdate st a i mfn pfn).2.1 ≠ .mapFailed := by
    rw [Tables.machphysUpdate,Setup.machphysUpdate]
    split
    · simp
    · split <;> simp
  rw [Tables.applyPage]
  dsimp only
  split
  · simp
  split
  · simp
  split
  · split
    · split
      · simp
      · exact hm _ _ _
    · exact hm _ _ _
  split
  · simp
  · exact hm _ _ _

theorem applyPages_exit {es : List (Nat × Nat)} {i curpage nraces : Nat} :
  (t.applyPages st a es i curpage nraces).exit ≠ .nomem ∧
  (t.applyPages st a es i curpage nraces).exit ≠ .mapFailed := by
  induction es generalizing t i curpage nraces with
  | nil => exact ⟨nofun,nofun⟩
  | cons e es ih =>
    obtain ⟨w,frame⟩ := e
    rw [Tables.applyPages]
    split
    · exact ih
    have hp := applyPage_exit st a t i curpage w frame
    split
    · exact ih
    rename_i he
    rw [he] at hp
    exact hp

theorem firstPass_unchecked (c : Platform) (key : Nat → Option Nat) (ws : List Nat) :
  (Tables.firstPass c (fun _ => true) key ws t).2.2 = true := by
  induction ws generalizing t with
  | nil => rfl
  | cons w ws ih =>
    rw [Tables.firstPass]
    split
    · exact ih
    · rw [if_pos rfl]
      split <;> exact ih

theorem applyBatch_past_mapping {r : Receiver A} (hm : a.mapped = true)
  (hp : (populateExact r.setup.populate t.heap (r.missing t a)).isSome = true) :
  (t.applyBatch r.setup a).exit ≠ .nomem ∧ (t.applyBatch r.setup a).exit ≠ .mapFailed := by
  have hh : (Tables.firstPass r.setup.platform (fun _ => true) keyOf a.words t).1.heap = t.heap := by
    rw [Tables.firstPass_mark.2]
  obtain ⟨⟨mfns,heap⟩,hg⟩ := isSome_iff_exists.mp hp
  rw [Receiver.missing,← Tables.firstPass_mark.1] at hg
  rw [Tables.applyBatch,Tables.allocate]
  simp only [firstPass_unchecked,if_true,hh,hg,hm]
  exact applyPages_exit

end

section

structure Conserved (r : Receiver A) (c : SaveCtx) (live : Bool) (s : State) : Prop where
  perm : (tokens r.slaves s.pool s.hold).Perm (List.range (r.slaves*slaveRatio))
  pooled : ∀ b ∈ s.pool, Emptied (s.bufs b)
  reading : ∀ i b, s.slave i = .reading b → Emptied (s.bufs b)
  applying : ∀ i b j curbatch, s.slave i = .applying b j curbatch →
    curbatch = 0 ∧ j ≤ maxBatchSize
  running : ∀ i, s.slave i ≠ .left → i < r.slaves
  sent : ∀ i, s.slave i ≠ .left → Sent c live (s.input i)

theorem hold_goto (s : State) (i : Nat) (x : Slave) : (s.goto i x).hold = update s.hold i x.buffer :=
  comp_update ..

theorem emptied_spec (buf : Pagebuf) : Emptied (emptied buf) := ⟨rfl,rfl⟩

variable {r : Receiver A} {c : SaveCtx} {live : Bool} {s : State} {i b : Nat}

theorem Conserved.nodup (h : Conserved r c live s) : (tokens r.slaves s.pool s.hold).Nodup :=
  h.perm.nodup_iff.mpr nodup_range

variable {x : Slave} {rest : List UInt8}

theorem hold_of_slave (hx : s.slave i = x) : s.hold i = x.buffer := by rw [State.hold,comp_apply,hx]

variable (h : Conserved r c live s)
include h

variable (hi : i < r.slaves)
include hi

variable {pool : List Nat} {buf : Pagebuf}

theorem Conserved.move {bufs : Nat → Pagebuf}
  (he : (tokens r.slaves pool (update s.hold i x.buffer)).Perm (tokens r.slaves s.pool s.hold))
  (hp : ∀ b ∈ pool, Emptied (bufs b)) (ho : ∀ k, k ≠ i → ∀ b, s.hold k = some b → bufs b = s.bufs b)
  (hr : ∀ b, x = .reading b → Emptied (bufs b))
  (ha : ∀ b j curbatch, x = .applying b j curbatch → curbatch = 0 ∧ j ≤ maxBatchSize)
  (hc : x ≠ .left → Sent c live rest) : Conserved r c live
    {s with pool := pool,bufs := bufs,slave := update s.slave i x,input := update s.input i rest} where
  perm := by
    have hh := hold_goto s i x
    rw [State.hold,State.goto] at hh
    rw [State.hold,hh]
    exact he.trans h.perm
  pooled := hp
  reading k b hk := by
    dsimp only at hk ⊢
    by_cases hb : k = i
    · subst hb
      exact hr b (by rwa [update_self] at hk)
    rw [update_of_ne hb] at hk
    rw [ho k hb b (hold_of_slave hk)]
    exact h.reading k b hk
  applying k b j curbatch hk := by
    dsimp only at hk
    by_cases hb : k = i
    · subst hb
      exact ha b j curbatch (by rwa [update_self] at hk)
    · rw [update_of_ne hb] at hk
      exact h.applying k b j curbatch hk
  running k hk := by
    dsimp only at hk
    by_cases hb : k = i
    · exact hb ▸ hi
    · rw [update_of_ne hb] at hk
      exact h.running k hk
  sent k hk := by
    dsimp only at hk ⊢
    by_cases hb : k = i
    · subst hb
      rw [update_self] at hk ⊢
      exact hc hk
    · rw [update_of_ne hb] at hk ⊢
      exact h.sent k hk

section
variable (hh : s.hold i = some b)
include hh

theorem Conserved.others
  (buf : Pagebuf) (k : Nat) (ha : k ≠ i) (d : Nat) (hk : s.hold k = some d) : update s.bufs b buf d = s.bufs d := by
  refine update_of_ne (fun hd => ha ?_) _ _
  subst hd
  have hr : s.slave k ≠ .left := by
    intro hl
    rw [hold_of_slave hl] at hk
    cases hk
  exact holder_unique h.nodup (h.running k hr) hi hk hh

theorem Conserved.pooled_update
  (buf : Pagebuf) (d : Nat) (hd : d ∈ s.pool) : Emptied (update s.bufs b buf d) := by
  have hn : d ≠ b := fun hd' => not_pooled h.nodup hi hh (hd' ▸ hd)
  rw [update_of_ne hn]
  exact h.pooled d hd

theorem Conserved.keep (hx : x.buffer = some b) (hr : x = .reading b → Emptied buf)
  (ha : ∀ j curbatch, x = .applying b j curbatch → curbatch = 0 ∧ j ≤ maxBatchSize) (he : Sent c live rest) :
  Conserved r c live {s with bufs := update s.bufs b buf,slave := update s.slave i x,
                             input := update s.input i rest} := by
  refine h.move hi ?_ (h.pooled_update hi hh buf) (h.others hi hh buf) (fun d hd => ?_)
    (fun d j curbatch hd => ?_) fun _ => he
  · rw [hx,← hh,update_eq_self]
  · subst hd
    obtain rfl : d = b := some.inj hx
    rw [update_self]
    exact hr rfl
  · subst hd
    obtain rfl : d = b := some.inj hx
    exact ha j curbatch rfl

theorem Conserved.give (hx : x.buffer = none) (hbuf : Emptied buf) (hr : x ≠ .left → Sent c live rest) :
  Conserved r c live {s with pool := s.pool ++ [b],bufs := update s.bufs b buf,
                             slave := update s.slave i x,input := update s.input i rest} := by
  refine h.move hi ?_ (fun d hd => ?_) (h.others hi hh buf) (fun d hd => ?_)
    (fun d j curbatch hd => ?_) hr
  · rw [hx]
    exact tokens_give hi hh
  · rcases mem_append.mp hd with hd | hd
    · exact h.pooled_update hi hh buf d hd
    · rw [mem_singleton.mp hd,update_self]
      exact hbuf
  · subst hd
    cases hx
  · subst hd
    cases hx

end

omit hi

theorem Conserved.dequeue (hw : s.slave i = .waiting) (hp : s.pool = b :: pool) :
  Conserved r c live ({s with pool := pool}.goto i (.reading b)) := by
  have hr : s.slave i ≠ .left := by
    rw [hw]
    exact nofun
  have hi := h.running i hr
  have he (d : Nat) (hd : d ∈ b :: pool) : Emptied (s.bufs d) := h.pooled d (hp ▸ hd)
  have hm : Conserved r c live
      {s with pool := pool,bufs := s.bufs,slave := update s.slave i (.reading b),
              input := update s.input i (s.input i)} := by
    refine h.move hi ?_ (fun d hd => he d (mem_cons_of_mem b hd)) (fun _ _ _ _ => rfl)
      (fun d hd => ?_) (fun _ _ _ hd => nomatch hd) fun _ => h.sent i hr
    · rw [hp]
      exact tokens_take hi (hold_of_slave hw)
    · cases hd
      exact he b mem_cons_self
  rwa [update_eq_self] at hm

theorem Conserved.receive (hl : r.setup.platform.longSize = c.toPlatform.longSize) (he : s.slave i = .reading b) :
  Conserved r c live (r.receive s i b) := by
  have hu : s.slave i ≠ .left := by
    rw [he]
    exact nofun
  have hi := h.running i hu
  have hh : s.hold i = some b := hold_of_slave he
  obtain ⟨n,buf,rest,hg,hn,hc⟩ := next_message r.host (s.input i).length
    (h.reading i b he) (h.sent i hu)
  have ht : update s.slave i (.reading b) = s.slave := update_eq_self_iff.mpr he.symm
  rw [Receiver.receive,Receiver.getOne,getOne_congr r.host hl,hg]
  dsimp only
  rw [if_pos hn]
  cases hc with
  | finish hs =>
    rw [hs]
    dsimp only [State.pagebufPoolEnqueue,State.goto]
    rw [update_self,update_idem]
    exact h.give hi hh rfl (emptied_spec buf) fun ha => absurd rfl ha
  | barrier hs hbuf hr =>
    rw [hs]
    have hk := h.keep hi hh rfl (x := .reading b) (fun _ => hbuf) (fun _ _ hx => nomatch hx) hr
    rwa [ht] at hk
  | lastIteration hs hr =>
    rw [hs]
    rw [update_idem]
    have hk := h.keep hi hh rfl (x := .reading b) (fun _ => emptied_spec buf)
      (fun _ _ hx => nomatch hx) hr
    rwa [ht] at hk
  | data hs hp hb hr =>
    rw [hs]
    dsimp only
    rw [if_neg hp]
    exact h.keep hi hh rfl (x := .applying b buf.nrPages 0) (fun hx => nomatch hx)
      (fun j curbatch hx => by cases hx; exact ⟨rfl,hb⟩) hr

-- one call of apply_batch serves the whole buffer
theorem Conserved.apply_gives_back {i b j curbatch : Nat} {tables : Tables A} {mapped : Bool}
  {pfnErr mmuError : Nat → Bool} (ha : s.slave i = .applying b j curbatch)
  (ho : r.Supplied s (.apply i tables mapped pfnErr mmuError)) :
  r.step s (.apply i tables mapped pfnErr mmuError) = some ((s.pagebufPoolEnqueue b).goto i .waiting) := by
  obtain ⟨rfl,hb⟩ := h.applying i b j curbatch ha
  rw [Receiver.Supplied,Receiver.supplied,ha,Bool.and_eq_true] at ho
  have he := applyBatch_past_mapping ho.1 ho.2
  rw [Receiver.step,ha]
  dsimp only [Receiver.applyBatch]
  rw [if_neg (not_or.mpr he)]
  dsimp only
  rw [if_neg (show ¬0+maxBatchSize < j by omega),ite_self]

theorem Conserved.step (hl : r.setup.platform.longSize = c.toPlatform.longSize) {a : Action A} {s' : State}
  (ho : r.Supplied s a) (hs : r.step s a = some s') : Conserved r c live s' := by
  cases a with
  | dequeue i =>
    rw [Receiver.step] at hs
    split at hs
    · cases hs
      exact h
    · rename_i b pool hw hp
      cases hs
      exact h.dequeue hw hp
    · cases hs
  | receive i =>
    rw [Receiver.step] at hs
    split at hs
    · rename_i b hr
      cases hs
      exact h.receive hl hr
    · cases hs
  | apply i tables mapped pfnErr mmuError =>
    have hk := hs
    rw [Receiver.step] at hk
    split at hk
    · rename_i b j curbatch ha
      have hu : s.slave i ≠ .left := by
        rw [ha]
        exact nofun
      have hg := h.give (h.running i hu) (hold_of_slave ha) (x := .waiting) rfl
        (emptied_spec (s.bufs b)) fun _ => h.sent i hu
      rw [update_eq_self] at hg
      cases (h.apply_gives_back ha ho).symm.trans hs
      exact hg
    · cases hk

omit h

theorem start_slave (r : Receiver A) (input : Nat → List UInt8) (i : Nat) :
  (r.start input).slave i = if i < r.slaves then .waiting else .left := rfl

theorem conserved_start (r : Receiver A) {input : Nat → List UInt8}
  (ha : ∀ i < r.slaves, Sent c live (input i)) : Conserved r c live (r.start input) where
  perm := by
    have hn : (r.start input).hold = fun _ => none := by
      funext i
      rw [State.hold,comp_apply,start_slave]
      split <;> rfl
    rw [hn,tokens,held,filterMap_none,append_nil]
    exact .refl _
  pooled _ _ := ⟨rfl,rfl⟩
  reading i b hi := by
    rw [start_slave] at hi
    split at hi <;> cases hi
  applying i b j curbatch hi := by
    rw [start_slave] at hi
    split at hi <;> cases hi
  running i hi := by
    by_contra ho
    exact hi (if_neg ho)
  sent i hi := by
    refine ha i ?_
    by_contra ho
    exact hi (if_neg ho)

end

theorem pool_conserved {A : Type} (r : Receiver A) (c : SaveCtx) (live : Bool)
  (hlong : r.setup.platform.longSize = c.toPlatform.longSize) (input : Nat → List UInt8)
  (hinput : ∀ i < r.slaves, Sent c live (input i)) (s : State) (hreach : Reach r.step r.Supplied (r.start input) s) :
  s.pool.length+(held r.slaves s.hold).length = r.slaves*slaveRatio ∧ s.pool.Nodup ∧
    (∀ i < r.slaves, ∀ b, s.hold i = some b → b ∉ s.pool) ∧
    ∀ b ∈ s.pool, (s.bufs b).nrPages = 0 ∧ (s.bufs b).nrPhyspages = 0 := by
  have h : Conserved r c live s := reach_invariant (I := Conserved r c live)
    (conserved_start r hinput) (fun _ _ _ _ hI ho hs => hI.step hlong ho hs) hreach
  refine ⟨?_,?_,fun i hi b hb => not_pooled h.nodup hi hb,fun b hb => ?_⟩
  · rw [← length_append,← length_range (n := r.slaves*slaveRatio)]
    exact h.perm.length_eq
  · exact (nodup_append'.mp h.nodup).1
  · exact ⟨(h.pooled b hb).nrPages,(h.pooled b hb).nrPhyspages⟩

def oneSlave (populate : Nat → List Nat → Option (List Nat × Nat)) : Receiver Nat where
  setup := {sampleSetup with populate := populate}
  host := quietHost
  slaves := 1

def oneBatch (_ : Nat) : List UInt8 :=
  [Message.batch blankBatch].flatMap (Message.bytes SaveCtx.longCtx true) ++
    (ofInt32 xcParaMigrEnd ++ [])

def applyFirst (mapped : Bool) : Action Nat :=
  .apply 0 (record emptyGuest) mapped (fun _ => false) fun _ => false

def wholeRun : List (Action Nat) := [.dequeue 0,.receive 0,applyFirst true,.dequeue 0,.receive 0]

theorem oneBatch_sent (i : Nat) : Sent SaveCtx.longCtx true (oneBatch i) := by
  refine ⟨[.batch blankBatch],[],fun m hm => ?_,rfl⟩
  rw [mem_singleton.mp hm]
  intro bytes hf
  have hc := sendPatch_cases SaveCtx.longCtx true blankBatch
  rw [hf] at hc
  cases hc with
  | failed _ hl => cases hl

theorem one_batch_conserved : ∃ s, Reach (oneSlave (takeNext 2000)).step (oneSlave (takeNext 2000)).Supplied
      ((oneSlave (takeNext 2000)).start oneBatch) s ∧ s.slave 0 = .left ∧
    s.pool.length+(held 1 s.hold).length = 10 ∧ s.pool.Nodup := by
  have hu : (runIf (oneSlave (takeNext 2000)).step (oneSlave (takeNext 2000)).supplied
      ((oneSlave (takeNext 2000)).start oneBatch) wholeRun).map (fun s => s.slave 0) =
        some .left := by decide +kernel
  obtain ⟨s,hr,hl⟩ := reach_observed (fun _ _ h => h) hu
  obtain ⟨hc,hn,-,-⟩ := pool_conserved (oneSlave (takeNext 2000)) SaveCtx.longCtx true rfl
    oneBatch (fun i _ => oneBatch_sent i) s hr
  exact ⟨s,hr,hl,hc,hn⟩

def account (s : State) : Slave × Nat := (s.slave 0,s.pool.length+(held 1 s.hold).length)

theorem buffers_lost : (∃ s, Reach (oneSlave fun _ _ => none).step (fun _ _ => True)
    ((oneSlave fun _ _ => none).start oneBatch) s ∧ account s = (.waiting,9)) ∧
  (∃ s, Reach (oneSlave (takeNext 2000)).step (fun _ _ => True)
    ((oneSlave (takeNext 2000)).start oneBatch) s ∧ account s = (.waiting,9)) ∧
  ∃ s, Reach (oneSlave (takeNext 2000)).step (fun _ _ => True)
    ((oneSlave (takeNext 2000)).start fun _ => []) s ∧ account s = (.left,9) := by
  have hr {A : Type} {r : Receiver A} {input : Nat → List UInt8} {x : Slave × Nat} (as : List (Action A)) :=
    @reach_observed _ _ (r.start input) r.step (fun _ _ => True) (fun _ _ => true) as _ (fun _ _ _ => trivial) account x
  refine ⟨hr [.dequeue 0,.receive 0,applyFirst true] ?_,hr [.dequeue 0,.receive 0,applyFirst false] ?_,
    hr [.dequeue 0,.receive 0] ?_⟩ <;> decide +kernel

end BufferPool
