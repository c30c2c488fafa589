import Mathlib.Tactic

namespace GrantTransfer

open Function List

def pageShift : Nat := 12

def gtfAcceptTransfer : Nat := 2

def gtfTransferCommitted : Nat := 4

def gtfTransferCompleted : Nat := 8

inductive Status where
  | okay
  | badPage
  | badDomain
  | permissionDenied
  | addressTooBig
  | generalError
  deriving DecidableEq

structure Header where
  (flags domid : Nat)
  deriving DecidableEq

structure Entry where
  header : Header
  frame : Nat

structure State (β : Type) where
  owner : Nat → Option Nat
  pageList : Nat → List Nat
  contents : Nat → β
  totPages : Nat → Nat
  entry : Entry
  freed : List Nat
  physmap : List (Nat × Nat × Nat)

structure Op where
  (domid ref : Nat)

structure Env where
  mfn : Nat
  (mfnValid xenHeap soleReference found xsmDenied : Bool)
  maxBitsize : Nat
  newPage : Option Nat
  dying : Bool
  (maxPages gtVersion nrGrantEntries : Nat)
  -- the words the recipient has put in the entry when each cmpxchg looks at it
  words : List Header

def prepareLoop (ld : Nat) : Nat → Header → List Header → Option Header
  | _,scombo,[] => if scombo.flags = gtfAcceptTransfer ∧ scombo.domid = ld then
      some {scombo with flags := scombo.flags ||| gtfTransferCommitted} else none
  | retries,scombo,prev :: words =>
    if scombo.flags = gtfAcceptTransfer ∧ scombo.domid = ld then
      if prev = scombo then some {scombo with flags := scombo.flags ||| gtfTransferCommitted}
      else if retries = 4 then none
      else prepareLoop ld (retries+1) prev words
    else none

def gnttabPrepareForTransfer (ld : Nat) (op : Op) (env : Env) (header : Header) : Option Header :=
  if env.gtVersion = 0 then none
  else if env.nrGrantEntries ≤ op.ref then none
  else prepareLoop ld 0 header env.words

variable {β : Type}

def stealPage (s : State β) (d mfn : Nat) : State β := {s with
  owner := update s.owner mfn none,
  pageList := update s.pageList d ((s.pageList d).erase mfn),
  totPages := update s.totPages d (s.totPages d-1)}

def freeDomheapPage (s : State β) (mfn : Nat) : State β := {s with freed := s.freed ++ [mfn]}

def storedFrame (env : Env) (mfn : Nat) : Nat := if env.gtVersion = 1 then mfn%2^32 else mfn

-- page is the frame of the page object, which the copy replaces; mfn is left as it was
def handOver (s : State β) (d : Nat) (op : Op) (env : Env) (page : Nat) : Status × State β :=
  let e := op.domid
  if env.dying ∨ env.maxPages ≤ s.totPages e then (.generalError,freeDomheapPage s page)
  else match gnttabPrepareForTransfer d op env s.entry.header with
    | none => (.generalError,freeDomheapPage s page)
    | some header => (.okay,{s with
        totPages := update s.totPages e (s.totPages e+1),pageList := update s.pageList e (s.pageList e ++ [page]),
        owner := update s.owner page (some e),physmap := s.physmap ++ [(e,s.entry.frame,env.mfn)],
        entry := ⟨{header with flags := header.flags ||| gtfTransferCompleted},storedFrame env env.mfn⟩})

def AboveLimit (env : Env) : Prop := 2^(env.maxBitsize-pageShift) ≤ env.mfn

instance (env : Env) : Decidable (AboveLimit env) := inferInstanceAs (Decidable (_ ≤ _))

def afterSteal (s : State β) (d : Nat) (op : Op) (env : Env) : Status × State β :=
  if !env.found then (.badDomain,freeDomheapPage s env.mfn)
  else if env.xsmDenied then (.permissionDenied,freeDomheapPage s env.mfn)
  else if AboveLimit env then
    match env.newPage with
    | none => (.addressTooBig,freeDomheapPage s env.mfn)
    | some pg =>
      handOver (freeDomheapPage {s with contents := update s.contents pg (s.contents env.mfn)} env.mfn) d op env pg
  else handOver s d op env env.mfn

def Stolen (s : State β) (d : Nat) (env : Env) : Prop :=
  env.mfnValid = true ∧ env.xenHeap = false ∧ s.owner env.mfn = some d ∧ env.soleReference = true

instance (s : State β) (d : Nat) (env : Env) : Decidable (Stolen s d env) :=
  inferInstanceAs (Decidable (_ ∧ _ ∧ _ ∧ _))

def gnttabTransfer (s : State β) (d : Nat) (op : Op) (env : Env) : Status × State β :=
  if Stolen s d env then afterSteal (stealPage s d env.mfn) d op env else (.badPage,s)

variable {s : State β} {d : Nat} {op : Op} {env : Env}

structure HandedOver (s s' : State β) (op : Op) (env : Env) : Prop where
  listed : s'.entry.frame ∈ s'.pageList op.domid
  owned : s'.owner s'.entry.frame = some op.domid
  bytes : s'.contents s'.entry.frame = s.contents env.mfn
  physmap : s'.physmap = s.physmap ++ [(op.domid,s.entry.frame,s'.entry.frame)]

theorem storedFrame_eq_iff : storedFrame env env.mfn = env.mfn ↔ (env.gtVersion = 1 → env.mfn < 2^32) := by
  unfold storedFrame
  split_ifs with hv
  · exact ⟨fun h _ => h ▸ Nat.mod_lt _ (by decide),fun h => Nat.mod_eq_of_lt (h hv)⟩
  · exact iff_of_true rfl fun h => absurd h hv

-- the physmap is given mfn itself, so that the stored frame is that page only when it is mfn and mfn is the page
theorem handOver_okay (s : State β) {s1 : State β} {page : Nat} (h : (handOver s1 d op env page).1 = .okay)
  (he : s1.entry = s.entry) (hm : s1.physmap = s.physmap) (hc : page = env.mfn → s1.contents page = s.contents page)
  (ho : page ≠ env.mfn → s1.owner env.mfn = none) : HandedOver s (handOver s1 d op env page).2 op env ↔
    page = env.mfn ∧ storedFrame env env.mfn = env.mfn := by
  unfold handOver at h ⊢
  dsimp only at h ⊢
  split_ifs at h ⊢
  split at h
  · cases h
  constructor
  · rintro ⟨-,hw,-,hp⟩
    have hf : env.mfn = storedFrame env env.mfn := by simpa [hm,he] using hp
    dsimp only at hw
    rw [← hf] at hw
    by_cases hg : page = env.mfn
    · exact ⟨hg,hf.symm⟩
    · rw [update_of_ne (Ne.symm hg),ho hg] at hw
      cases hw
  · rintro ⟨rfl,hf⟩
    refine ⟨?_,?_,?_,?_⟩ <;> simp only [hf,update_self,he,hm]
    · exact mem_append_right _ (mem_singleton.mpr rfl)
    · exact hc rfl

theorem handOver_failed {page : Nat} (h : (handOver s d op env page).1 ≠ .okay) :
  (handOver s d op env page).2.freed = s.freed ++ [page] := by
  unfold handOver at h ⊢
  dsimp only at h ⊢
  split_ifs at h ⊢ with hc
  · rfl
  split at h
  · rfl
  · exact absurd rfl h

theorem transfer_hands_over (s : State β) (d : Nat) (op : Op) (env : Env) (hn : env.newPage ≠ some env.mfn) :
  ((gnttabTransfer s d op env).1 = .okay → (HandedOver s (gnttabTransfer s d op env).2 op env ↔
    ¬AboveLimit env ∧ (env.gtVersion = 1 → env.mfn < 2^32))) ∧ (Stolen s d env → (gnttabTransfer s d op env).1 ≠ .okay →
    ∃ l, (gnttabTransfer s d op env).2.freed = s.freed ++ l ∧ l.Nodup ∧ env.mfn ∈ l) := by
  refine ⟨fun hk => ?_,fun hs hf => ?_⟩
  · rw [← storedFrame_eq_iff]
    unfold gnttabTransfer at hk ⊢
    split_ifs at hk ⊢
    unfold afterSteal at hk ⊢
    split_ifs at hk ⊢ with _ _ ha
    · split at hk
      · cases hk
      · rename_i pg hp
        have hne : pg ≠ env.mfn := fun he => hn (he ▸ hp)
        rw [handOver_okay s hk rfl rfl (fun he => absurd he hne) fun _ => update_self ..]
        exact iff_of_false (fun hc => hne hc.1) fun hc => hc.1 ha
    · rw [handOver_okay s hk rfl rfl (fun _ => rfl) fun hc => absurd rfl hc]
      exact and_congr_left fun _ => iff_of_true rfl ha
  · rw [gnttabTransfer,if_pos hs] at hf ⊢
    have ho : [env.mfn].Nodup ∧ env.mfn ∈ [env.mfn] := ⟨nodup_cons.mpr ⟨not_mem_nil,nodup_nil⟩,mem_singleton.mpr rfl⟩
    unfold afterSteal at hf ⊢
    split_ifs at hf ⊢
    · exact ⟨_,rfl,ho⟩
    · exact ⟨_,rfl,ho⟩
    · split at hf
      · exact ⟨_,rfl,ho⟩
      · rename_i pg hp
        rw [hp] at hn
        rw [handOver_failed hf,freeDomheapPage,append_assoc]
        have hb : env.mfn ≠ pg := fun he => hn (he ▸ rfl)
        exact ⟨[env.mfn,pg],rfl,by simp [hb],by simp⟩
    · rw [handOver_failed hf]
      exact ⟨_,rfl,ho⟩

def sampleState (mfn : Nat) : State Nat :=
  ⟨fun m => if m = mfn then some 1 else none,fun d => if d = 1 then [mfn] else [],fun m => m,fun _ => 1,⟨⟨2,1⟩,7⟩,[],[]⟩

def sampleEnv (mfn : Nat) : Env := ⟨mfn,true,false,true,true,false,32,some 5,false,10,1,512,[]⟩

theorem low_frame_handed_over : (gnttabTransfer (sampleState 9) 1 ⟨2,0⟩ (sampleEnv 9)).1 = .okay ∧
  HandedOver (sampleState 9) (gnttabTransfer (sampleState 9) 1 ⟨2,0⟩ (sampleEnv 9)).2 ⟨2,0⟩ (sampleEnv 9) :=
  ⟨by decide,transfer_hands_over (sampleState 9) 1 ⟨2,0⟩ (sampleEnv 9) (by decide) |>.1 (by decide) |>.mpr (by decide)⟩

theorem copied_frame_lost : (gnttabTransfer (sampleState (2^20)) 1 ⟨2,0⟩ (sampleEnv (2^20))).1 = .okay ∧
  (gnttabTransfer (sampleState (2^20)) 1 ⟨2,0⟩ (sampleEnv (2^20))).2.entry.frame = 2^20 ∧
  (gnttabTransfer (sampleState (2^20)) 1 ⟨2,0⟩ (sampleEnv (2^20))).2.pageList 2 = [5] ∧
  (gnttabTransfer (sampleState (2^20)) 1 ⟨2,0⟩ (sampleEnv (2^20))).2.freed = [2^20] := by decide

end GrantTransfer
