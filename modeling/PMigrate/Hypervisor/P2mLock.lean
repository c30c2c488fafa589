import PMigrate.Hypervisor.PopulateOnDemand

namespace PopulateOnDemand

inductive Fault where
  | bug
  | notHeld
  deriving DecidableEq

-- true: this CPU is the locker
def p2mLock (held : Bool) : Except Fault Bool := if held then .error .bug else .ok true

def p2mUnlock (held : Bool) : Except Fault Bool := if held then .ok false else .error .notHeld

def lockIf (b held : Bool) : Except Fault Bool := if b then p2mLock held else .ok held

def unlockIf (b held : Bool) : Except Fault Bool := if b then p2mUnlock held else .ok held

structure Flags where
  (translate dying : Bool)

def orBug : Option State → Except Fault State
  | none => .error .bug
  | some s => .ok s

def locked (held : Bool) (body : Option State) : Except Fault (State × Bool) := do
  let held ← p2mLock held
  let s ← orBug body
  let held ← p2mUnlock held
  pure (s,held)

section
variable (d : Flags) (s : State) (held : Bool)

section
variable (gfn order : Nat)

def anyRam : Bool := (List.range (2^order)).any fun i => (s.p2m (gfn+i)).type.isRam

-- the jump to out from the loop goes past the unlock
def guestPhysmapMark : Except Fault (State × Bool) :=
  if anyRam s gfn order then do
    let held ← p2mLock held
    pure (s,held)
  else locked held ((markPopulateOnDemand s gfn order).map Prod.fst)

def podDemandPopulate (guest : Bool) (env : PopulateEnv) : Except Fault (State × Bool) :=
  if d.dying then pure (s,held)
  else do
    let s ← orBug (demandPopulate s gfn order guest env)
    let held ← unlockIf (order = 18) held
    pure (s,held)

def populateIfPod (guest : Bool) (env : PopulateEnv) : Except Fault (State × Bool) :=
  if isPod s gfn then podDemandPopulate d s held gfn order guest env else pure (s,held)

def podCheckAndPopulate (guest : Bool) (env : PopulateEnv) : Except Fault (State × Bool) := do
  let doLocking := !held
  let held ← lockIf doLocking held
  let r ← populateIfPod d s held gfn order guest env
  let held ← unlockIf doLocking r.2
  pure (r.1,held)

end

def call : Op → Except Fault (State × Bool)
  | .mark gfn order => guestPhysmapMark s held gfn order
  | .populate gfn order guest env => podCheckAndPopulate d s held gfn order guest env
  | .decrease gpfn order env =>
    if s.entryCount = 0 then pure (s,held)
    else locked held (if d.dying then some s else (decreaseReservation s gpfn order env).map Prod.fst)
  | .setTarget target totPages env =>
    locked held (if d.dying then some s else (setMemTarget s target totPages env).map Prod.fst)
  | .add gfn mfn order t env =>
    if !d.translate then pure (s,held)
    else locked held ((physmapAddEntry s gfn mfn order t env).map Prod.fst)
  | .remove gfn mfn order env => locked held (some (physmapRemoveEntry s gfn mfn order env))

def Regular : Op → Prop
  | .mark gfn order => anyRam s gfn order = false ∨ held = true
  | .populate gfn order _ _ => order ≠ 18 ∨ d.dying = true ∨ isPod s gfn = false
  | _ => True

end

def Balanced (held : Bool) (r : Except Fault (State × Bool)) : Prop :=
  (∀ s' held', r = .ok (s',held') → held' = held) ∧ r ≠ .error .notHeld

variable {d : Flags} {s : State} {held : Bool}

theorem balanced_pure (s : State) (held : Bool) : Balanced held (pure (s,held)) := by
  refine ⟨fun s' he' h => ?_,nofun⟩
  cases h
  rfl

theorem locked_balanced (held : Bool) (body : Option State) : Balanced held (locked held body) := by
  cases held with
  | true => exact ⟨nofun,nofun⟩
  | false =>
    cases body with
    | none => exact ⟨nofun,nofun⟩
    | some s => exact balanced_pure s false

section
variable {gfn order : Nat}

theorem populateIfPod_held (h : order ≠ 18 ∨ d.dying = true ∨ isPod s gfn = false) (guest : Bool) (env : PopulateEnv) :
  (∃ t, populateIfPod d s true gfn order guest env = .ok (t,true)) ∨
    populateIfPod d s true gfn order guest env = .error .bug := by
  unfold populateIfPod podDemandPopulate
  split_ifs with hp hd
  · exact .inl ⟨s,rfl⟩
  · have ho : order ≠ 18 := h.resolve_right fun hx => hx.elim hd fun hn => by simp [hp] at hn
    rw [decide_eq_false ho]
    cases demandPopulate s gfn order guest env with
    | none => exact .inr rfl
    | some t => exact .inl ⟨t,rfl⟩
  · exact .inl ⟨s,rfl⟩

-- the order 18 branch drops the lock its caller drops again
theorem populateIfPod_dropped (hd : d.dying = false) (hp : isPod s gfn = true) (guest : Bool) (env : PopulateEnv) :
  ∃ t, populateIfPod d s true gfn 18 guest env = .ok (t,false) := by
  rw [populateIfPod,if_pos hp,podDemandPopulate,hd]
  exact ⟨_,rfl⟩

theorem populate_balanced (guest : Bool) (env : PopulateEnv) :
  Balanced held (podCheckAndPopulate d s held gfn order guest env) ↔
    (order ≠ 18 ∨ d.dying = true ∨ isPod s gfn = false) := by
  have hl : lockIf (!held) held = .ok true := by cases held <;> rfl
  have hp : podCheckAndPopulate d s held gfn order guest env = populateIfPod d s true gfn order guest env >>=
      fun r => unlockIf (!held) r.2 >>= fun b => pure (r.1,b) := by
    rw [podCheckAndPopulate,hl]
    rfl
  rw [hp]
  by_cases h : order ≠ 18 ∨ d.dying = true ∨ isPod s gfn = false
  · refine iff_of_true ?_ h
    obtain ⟨t,ht⟩ | ht := populateIfPod_held h guest env
    · rw [ht]
      cases held <;> exact balanced_pure t _
    · rw [ht]
      exact ⟨nofun,nofun⟩
  · refine iff_of_false ?_ h
    simp only [not_or,not_not,Bool.not_eq_true,Bool.not_eq_false] at h
    obtain ⟨rfl,hd,hi⟩ := h
    obtain ⟨t,ht⟩ := populateIfPod_dropped hd hi guest env
    rw [ht]
    cases held with
    | false => exact fun hb => hb.2 rfl
    | true => exact fun hb => nomatch hb.1 t false rfl

end

def sampleMap : State := {initial with
  p2m := fun g => if g = 4 then ⟨.ramRw,some 9⟩ else if 2^18 ≤ g then ⟨.populateOnDemand,some 0⟩ else ⟨.invalid,none⟩}

def noFrames : ZeroEnv := ⟨fun _ => false,fun _ => false,fun _ => false,fun _ => false⟩

end PopulateOnDemand
