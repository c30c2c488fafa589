import PMigrate.Hypervisor.TimerQueue

namespace TimerQueue

open Transition IndexedHeap List Nat

def Frame.arm (F : Frame) (t : Nat) (x : Option Int) : Frame :=
  {F with armed := fun u => if u = t then x else F.armed u}

@[simp] theorem Frame.arm_armed (F : Frame) (t : Nat) (x : Option Int) : (F.arm t x).armed t = x := if_pos rfl

@[simp] theorem Frame.arm_arm (F : Frame) (t : Nat) (x y : Option Int) : (F.arm t x).arm t y = F.arm t y := by
  simp only [Frame.arm]
  congr 1
  funext u
  by_cases hu : u = t <;> simp [hu]

variable {F : Frame} {s : State}

variable {k t : Nat}

theorem Frame.arm_self {x : Option Int} (h : F.armed t = x) : F.arm t x = F := by
  obtain ⟨limit,softirq,armed⟩ := F
  simp only [Frame.arm]
  congr 1
  funext u
  by_cases hu : u = t
  · rw [if_pos hu,hu,← h]
  · exact if_neg hu

def NoneLoose : Nat → Prop := fun _ => False

def State.Keeps (s s' : State) : Prop :=
  ∀ u, (s'.timer u).cpu = (s.timer u).cpu ∧ (s'.timer u).expires = (s.timer u).expires

theorem State.Keeps.trans {s' s'' : State} (h : s.Keeps s') (h' : s'.Keeps s'') : s.Keeps s'' :=
  fun u => ⟨(h' u).1.trans (h u).1,(h' u).2.trans (h u).2⟩

def State.Active (s : State) (c t : Nat) : Prop :=
  (s.timer t).cpu = some c ∧ ((s.timer t).status = .inHeap ∨ (s.timer t).status = .inList)

variable {L : Nat → Prop} {F : Frame} {s : State} {c t u : Nat}

@[simp] theorem setTimer_timer_self (f : Timer → Timer) : (s.setTimer t f).timer t = f (s.timer t) :=
  if_pos rfl

theorem setTimer_timer_ne (f : Timer → Timer) (h : u ≠ t) : (s.setTimer t f).timer u = s.timer u := if_neg h

theorem setTimers_timers_ne (f : Timers → Timers) {d : Nat} (h : d ≠ c) :
  (s.setTimers c f).timers d = s.timers d := if_neg h

theorem setTimer_id : s.setTimer t id = s := by
  have : (s.setTimer t id).timer = s.timer := by
    funext u
    simp [State.setTimer]
  obtain ⟨timer,timers,running,softirq,pending,deadline⟩ := s
  simpa only [State.setTimer,State.mk.injEq,and_true] using this

theorem listDel_setTimer (f : Timer → Timer) (hf : ∀ x, (f x).cpu = x.cpu) :
  (s.setTimer t f).listDel t = (s.listDel t).setTimer t f := by
  rw [State.listDel,State.listDel,setTimer_timer_self,hf]
  split <;> rfl

theorem Wf.rearm (h : Wf L F s) (ht : L t) (x : Option Int) : Wf L (F.arm t x) s where
  queue := h.queue
  limit := h.limit
  limits := h.limits
  softirq := h.softirq
  settled u hu := by
    have ha : u ≠ t := by
      rintro rfl
      exact hu ht
    refine ⟨(h.settled u hu).1.trans (if_neg ha).symm,(h.settled u hu).2⟩

theorem Wf.disarmed (h : Wf L F s) (ht : ¬L t) (hs : (s.timer t).status = .inactive) : F.armed t = none := by
  rw [← (h.settled t ht).1,State.armed_of_idle (by rw [hs]; decide) (by rw [hs]; decide)]

theorem Wf.expiry (h : Wf L F s) (ht : ¬L t) (hs : (s.timer t).status = .inHeap ∨ (s.timer t).status = .inList) :
  F.armed t = some (s.expires t) := by
  rw [← (h.settled t ht).1,State.armed_of_active hs]

theorem Wf.tight (h : Wf (fun u => u = t) F s) (ht : s.Settled F t) (hs : ¬(s.timer t).status.Placed) :
  Wf NoneLoose F s := by
  refine h.relabel (fun status c u hp ho => ?_) fun u _ => ?_
  · have hu : u ≠ t := by
      rintro rfl
      exact hs (ho.1 ▸ hp)
    simp [NoneLoose,hu]
  by_cases hu : u = t
  · exact hu ▸ ht
  · exact h.settled u hu

theorem Wf.loose (h : Wf NoneLoose F s) (hs : ¬(s.timer t).status.Placed) : Wf (fun u => u = t) F s := by
  refine h.relabel (fun status c u hp ho => ?_) fun u _ => h.settled u id
  have hu : u ≠ t := by
    rintro rfl
    exact hs (ho.1 ▸ hp)
  simp [NoneLoose,hu]

theorem Wf.only (h : Wf (fun u => NoneLoose u ∨ u = t) F s) : Wf (fun u => u = t) F s :=
  h.relabel (fun _ _ _ _ _ => by simp [NoneLoose]) fun u hu => h.settled u (by simpa [NoneLoose] using hu)

theorem Wf.all (h : Wf (fun u => u = t ∧ u ≠ t) F s) : Wf NoneLoose F s :=
  h.relabel (fun _ _ _ _ _ => by simp [NoneLoose]) fun u _ => h.settled u (by simp)

theorem keeps_setTimer (f : Timer → Timer) (hf : ∀ x, (f x).cpu = x.cpu ∧ (f x).expires = x.expires) :
  s.Keeps (s.setTimer t f) := by
  intro u
  by_cases hu : u = t
  · rw [hu,setTimer_timer_self]
    exact hf _
  · rw [setTimer_timer_ne f hu]
    exact ⟨rfl,rfl⟩

theorem keeps_addToHeap : s.Keeps (s.addToHeap c t).1 := by
  intro u
  simp only [State.addToHeap]
  split <;> exact ⟨rfl,rfl⟩

theorem keeps_setStatus (status : Status) : s.Keeps (s.setStatus t status) :=
  keeps_setTimer _ fun _ => ⟨rfl,rfl⟩

@[simp] theorem setStatus_timer_self (status : Status) :
  (s.setStatus t status).timer t = {s.timer t with status} := setTimer_timer_self _

theorem Wf.setStatus (h : Wf L F s) (ht : L t) (status : Status) : Wf L F (s.setStatus t status) :=
  h.setTimer ht _

theorem listDel_setStatus (status : Status) : (s.setStatus t status).listDel t = (s.listDel t).setStatus t status :=
  listDel_setTimer _ fun _ => rfl

@[simp] theorem setCpu_timer_self (cpu : Option Nat) :
  (s.setCpu t cpu).timer t = {s.timer t with cpu} := setTimer_timer_self _

theorem Wf.setCpu (h : Wf L F s) (ht : L t) (cpu : Option Nat) : Wf L F (s.setCpu t cpu) := h.setTimer ht _

theorem removeEntry_inHeap (ho : s.On .inHeap c t) :
  (s.removeEntry t).1 = (s.removeFromHeap c t).1.setStatus t .invalid := by
  rw [State.removeEntry,ho.1,ho.2]

theorem removeEntry_inList (ho : s.On .inList c t) :
  (s.removeEntry t).1 = (s.removeFromList c t).1.setStatus t .invalid := by
  rw [State.removeEntry,ho.1,ho.2]

theorem State.Active.cases (h : s.Active c t) : s.On .inHeap c t ∨ s.On .inList c t :=
  h.2.imp (⟨·,h.1⟩) (⟨·,h.1⟩)

theorem keeps_removeEntry (h : s.Active c t) : s.Keeps (s.removeEntry t).1 := by
  rcases h.cases with ho | ho
  · rw [removeEntry_inHeap ho]
    have hr : s.Keeps (s.removeFromHeap c t).1 := fun _ => ⟨rfl,rfl⟩
    exact hr.trans (keeps_setStatus _)
  rw [removeEntry_inList ho]
  have hr : s.Keeps (s.removeFromList c t).1 := fun _ => ⟨rfl,rfl⟩
  exact hr.trans (keeps_setStatus _)

theorem keeps_addEntry : s.Keeps (s.addEntry t).1 := by
  rw [State.addEntry]
  split
  · exact fun _ => ⟨rfl,rfl⟩
  rename_i cpu _
  have hf := (keeps_setTimer (s := s) (t := t)
    (fun timer => {timer with heapOffset := 0,status := .inHeap}) fun _ => ⟨rfl,rfl⟩).trans
      (keeps_addToHeap (c := cpu) (t := t))
  dsimp only
  split
  · exact hf
  · exact hf.trans (keeps_setStatus _)

variable (h : Wf NoneLoose F s)
include h

theorem Wf.removeEntry (ha : s.Active c t) : Wf (fun u => u = t) F (s.removeEntry t).1 := by
  rcases ha.cases with ho | ho
  · rw [removeEntry_inHeap ho]
    exact (h.removeFromHeap id ho).only.setStatus rfl _
  · rw [removeEntry_inList ho]
    exact (h.removeFromList id ho).only.setStatus rfl _

omit h in
theorem Wf.addEntry (h : Wf L F s) (ht : L t) (hc : (s.timer t).cpu = some c)
  (hr : F.armed t = some (s.expires t)) : Wf (fun u => L u ∧ u ≠ t) F (s.addEntry t).1 := by
  rw [State.addEntry,hc]
  dsimp only
  have hb := h.setTimer ht fun timer => {timer with heapOffset := 0,status := .inHeap}
  have hs := setTimer_timer_self (s := s) (t := t) fun timer => {timer with heapOffset := 0,status := .inHeap}
  generalize s.setTimer t (fun timer => {timer with heapOffset := 0,status := .inHeap}) = s0
    at hb hs
  have ha0 : F.armed t = some (s0.expires t) := by rw [hr,State.expires,State.expires,hs]
  have hc0 : (s0.timer t).cpu = some c := by rw [hs,hc]
  by_cases hf : (s0.timers c).size = (s0.timers c).limit
  · have hd : s0.addToHeap c t = (s0,false) := if_pos hf
    rw [hd,if_neg (by rw [hs]; simp)]
    refine (hb.setStatus ht .inList).addToList ht ⟨by rw [setStatus_timer_self],?_⟩ ?_
    · rw [setStatus_timer_self]
      exact hc0
    · rw [ha0,State.expires,State.expires,setStatus_timer_self]
  have hn : s0.On .inHeap c t := ⟨by rw [hs],hc0⟩
  have ha := hb.addToHeap ht hn hf ha0
  have hp : (s0.addToHeap c t).1.On .inHeap c t := by
    rw [State.addToHeap,if_neg hf]
    exact hn
  have ho : 1 ≤ ((s0.addToHeap c t).1.timer t).heapOffset :=
    ((ha.queue c).heap.offset_mem (t := t) ⟨by simp,hp⟩).1
  rw [if_pos (Nat.pos_iff_ne_zero.mp ho)]
  exact ha

omit h in
theorem Wf.raiseSoftirq (h : Wf L F s) (cpu : Option Nat) (rc : Bool) :
  Wf L F (s.raiseSoftirq cpu rc) := h.of_agree rfl rfl fun _ _ => rfl

theorem Wf.activateTimer (ho : s.On .inactive c t) (f : Timer → Timer) (hf : ∀ x, (f x).cpu = x.cpu) :
  Wf NoneLoose (F.arm t (some (f (s.timer t)).expires)) ((s.setTimer t f).activateTimer t) := by
  have hl := (((h.listDel id ho).only.setTimer rfl f).setStatus rfl .invalid).rearm rfl (some (f (s.timer t)).expires)
  have ht : (s.listDel t).timer = s.timer := by
    rw [State.listDel,ho.2]
    rfl
  have hs : (((s.listDel t).setTimer t f).setStatus t .invalid).timer t = {f (s.timer t) with status := .invalid} := by
    rw [setStatus_timer_self,setTimer_timer_self,ht]
  rw [State.activateTimer,listDel_setStatus,listDel_setTimer f hf]
  refine (hl.addEntry (c := c) rfl ?_ ?_).all.raiseSoftirq _ _
  · rw [hs]
    exact (hf _).trans ho.2
  · rw [Frame.arm_armed,State.expires,hs]

theorem Wf.deactivateTimer (ha : s.Active c t) :
  Wf NoneLoose (F.arm t none) (s.deactivateTimer t) ∧ (s.deactivateTimer t).On .inactive c t ∧
    s.Keeps (s.deactivateTimer t) := by
  have hl := h.removeEntry ha
  have hk := keeps_removeEntry ha
  rw [State.deactivateTimer]
  generalize s.removeEntry t = r at hl hk
  obtain ⟨s1,rc⟩ := r
  have hc : (s1.timer t).cpu = some c := (hk t).1.trans ha.1
  have hr := hl.raiseSoftirq (s1.timer t).cpu rc
  have he : s.Keeps (s1.raiseSoftirq (s1.timer t).cpu rc) := hk
  have hc' : ((s1.raiseSoftirq (s1.timer t).cpu rc).timer t).cpu = some c := hc
  dsimp only
  generalize s1.raiseSoftirq (s1.timer t).cpu rc = s2 at hr he hc'
  have ho : (s2.setStatus t .inactive).On .inactive c t := by
    rw [State.On,setStatus_timer_self]
    exact ⟨rfl,hc'⟩
  rw [ho.2]
  exact ⟨(((hr.setStatus rfl _).rearm rfl none).listAdd rfl ho (Frame.arm_armed ..)).all,ho,
    he.trans (keeps_setStatus _)⟩

theorem Wf.deactivateActive (hc : (s.timer t).cpu = some c) : Wf NoneLoose (F.arm t none) (s.deactivateActive t) ∧
    (s.deactivateActive t).On .inactive c t ∧ s.Keeps (s.deactivateActive t) := by
  rw [State.deactivateActive]
  split
  · rename_i ha
    exact h.deactivateTimer ⟨hc,by simpa [Timer.active] using ha⟩
  rename_i hd
  have hi : (s.timer t).status = .inactive := by
    have hp := (h.settled t id).2.mpr (by simp [hc])
    cases hs : (s.timer t).status with
    | invalid => exact absurd hs hp.1
    | inactive => rfl
    | killed => exact absurd hs hp.2
    | inHeap | inList => simp [Timer.active,hs] at hd
  rw [Frame.arm_self (h.disarmed id hi)]
  exact ⟨h,⟨hi,hc⟩,fun _ => ⟨rfl,rfl⟩⟩

theorem Wf.initTimer (hs : ¬(s.timer t).status.Placed) : Wf NoneLoose F (s.initTimer t c) := by
  have hn : F.armed t = none := by
    rw [← (h.settled t id).1]
    refine State.armed_of_idle (fun he => ?_) fun he => ?_ <;> exact hs (by rw [he]; decide)
  have hl := (h.loose hs).setTimer rfl fun _ => ⟨0,0,some c,.inactive⟩
  refine (hl.listAdd rfl ?_ hn).all
  rw [State.On,setTimer_timer_self]
  exact ⟨rfl,rfl⟩

theorem Wf.timerSet (hc : (s.timer t).cpu = some c) (expires : Int) :
  Wf NoneLoose (F.arm t (some expires)) (s.timerSet t expires) := by
  obtain ⟨hw,ho,-⟩ := h.deactivateActive hc
  have := hw.activateTimer ho (fun timer => {timer with expires}) fun _ => rfl
  rw [Frame.arm_arm] at this
  rw [State.timerSet,hc]
  exact this

theorem Wf.migrateTimer (d : Nat) : Wf NoneLoose F (s.migrateTimer t d) := by
  rw [State.migrateTimer]
  split
  · exact h
  rename_i c hc
  split
  · exact h
  obtain ⟨hw,ho,hk⟩ := h.deactivateActive hc
  have hm := (hw.listDel id ho).only.setCpu rfl (some d)
  have ht : ((s.deactivateActive t).listDel t).timer = (s.deactivateActive t).timer := by
    rw [State.listDel,ho.2]
    rfl
  have hs : ((((s.deactivateActive t).listDel t).setCpu t (some d)).listAdd d t).timer t =
      {(s.deactivateActive t).timer t with cpu := some d} := by
    rw [← ht]
    exact setCpu_timer_self _
  have ho' : ((((s.deactivateActive t).listDel t).setCpu t (some d)).listAdd d t).On .inactive d t := by
    rw [State.On,hs]
    exact ⟨ho.1,rfl⟩
  have ha := (hm.listAdd rfl ho' (Frame.arm_armed ..)).all
  split
  · rename_i hb
    have := ha.activateTimer ho' id fun _ => rfl
    rw [setTimer_id,Frame.arm_arm,id,hs,Frame.arm_self] at this
    · exact this
    · rw [h.expiry id (by simpa [Timer.active] using hb)]
      exact congrArg some (hk t).2.symm
  rename_i hi
  rw [Frame.arm_self] at ha
  · exact ha
  · rw [← (h.settled t id).1,State.armed,if_neg hi]

theorem Wf.killTimer (hc : (s.timer t).cpu = some c) : Wf NoneLoose (F.arm t none) (s.killTimer t) := by
  obtain ⟨hw,ho,-⟩ := h.deactivateActive hc
  have hl := ((hw.listDel id ho).only.setStatus rfl .killed).setCpu rfl none
  have hs : ((((s.deactivateActive t).listDel t).setStatus t .killed).setCpu t none).timer t =
      {((s.deactivateActive t).listDel t).timer t with cpu := none,status := .killed} := by
    rw [setCpu_timer_self,setStatus_timer_self]
  rw [State.killTimer,hc]
  have hd : ¬(((((s.deactivateActive t).listDel t).setStatus t .killed).setCpu t none).timer t).status.Placed := by
    rw [hs]
    exact fun hp => hp.2 rfl
  refine hl.tight ⟨?_,iff_of_false hd ?_⟩ hd
  · rw [Frame.arm_armed]
    exact State.armed_of_idle (fun he => by rw [hs] at he; cases he)
      fun he => by rw [hs] at he; cases he
  · rw [hs]
    exact not_not.mpr rfl

omit h

variable {s' : State}

theorem Wf.setSoftirq (h : Wf L F s) (ht : s'.timer = s.timer) (hi : s'.timers = s.timers) :
  Wf L {F with softirq := s'.softirq} s' where
  queue c := (h.queue c).of_agree (congrFun hi c) (fun _ u _ => by rw [State.On,State.On,ht]) (fun u _ _ => by rw [ht])
    fun u _ => by rw [State.expires,State.expires,ht]
  limit c := hi ▸ h.limit c
  limits := h.limits
  softirq := rfl
  settled u hu := by
    rw [State.Settled,State.armed,ht]
    exact h.settled u hu

theorem Wf.executeTimer (h : Wf (fun u => u = t) F s) (hc : (s.timer t).cpu = some c) (resume : Softirq) :
  Wf NoneLoose {F.arm t none with softirq := (s.executeTimer c t resume).softirq} (s.executeTimer c t resume) := by
  have ho : (s.setStatus t .inactive).On .inactive c t := by
    rw [State.On,setStatus_timer_self]
    exact ⟨rfl,hc⟩
  exact (((h.setStatus rfl _).rearm rfl none).listAdd rfl ho (Frame.arm_armed ..)).all.setSoftirq rfl rfl

theorem Wf.refill {ts : List Nat} (h : Wf (fun u => u ∈ ts) F s) (hn : ts.Nodup)
  (ht : ∀ u ∈ ts, (s.timer u).cpu = some c ∧ F.armed u = some (s.expires u)) : Wf NoneLoose F (s.refill ts) := by
  induction ts generalizing s with
  | nil => exact h.relabel (fun _ _ _ _ _ => by simp [NoneLoose]) fun u _ => h.settled u (by simp)
  | cons t ts ih =>
    obtain ⟨ho,hn⟩ := nodup_cons.mp hn
    have hh := ht t mem_cons_self
    have hk : s.Keeps ((s.setStatus t .invalid).addEntry t).1 := (keeps_setStatus _).trans keeps_addEntry
    have ha := (h.setStatus mem_cons_self .invalid).addEntry (c := c) mem_cons_self
      (by rw [setStatus_timer_self]; exact hh.1)
      (by rw [hh.2,State.expires,State.expires,setStatus_timer_self])
    rw [State.refill]
    refine ih (ha.relabel (fun _ _ u _ _ => ?_) fun u hu => ha.settled u ?_) hn fun u hu => ?_
    · rw [mem_cons]
      constructor
      · intro hu
        exact ⟨.inr hu,fun he => ho (he ▸ hu)⟩
      rintro ⟨he | hu,hb⟩
      · exact absurd he hb
      · exact hu
    · rintro ⟨hm,hb⟩
      exact hu ((mem_cons.mp hm).resolve_left hb)
    · have hu' := ht u (mem_cons_of_mem _ hu)
      rw [(hk u).1,State.expires,(hk u).2]
      exact hu'

section
variable (h : Wf NoneLoose F s)
include h

theorem Wf.emptyList (c : Nat) :
  Wf (fun u => u ∈ (s.timers c).list) F (s.setTimers c fun ts => {ts with list := []}) := by
  have hq := h.queue c
  refine h.setList rfl (fun u => ?_) List.Pairwise.nil nodup_nil (fun u hu => ?_) fun u _ => h.settled u id
  · rw [hq.list]
    simp [NoneLoose]
  · rw [hq.list]
    simp [NoneLoose,hu]

theorem Wf.refilled (c : Nat) :
  Wf NoneLoose F ((s.setTimers c fun ts => {ts with list := []}).refill (s.timers c).list) := by
  have hq := h.queue c
  refine (h.emptyList c).refill (c := c) hq.listNodup fun u hu => ?_
  obtain ⟨_,ho⟩ := (hq.list u).mp hu
  exact ⟨ho.2,h.expiry id (.inr ho.1)⟩

theorem Wf.popList {rest : List Nat} (hl : (s.timers c).list = t :: rest) :
  Wf (fun u => u = t) F (s.setTimers c fun ts => {ts with list := rest}) := by
  have hq := h.queue c
  have hn := hl ▸ hq.listNodup
  have hs := hl ▸ hq.sorted
  obtain ⟨ho,hr⟩ := nodup_cons.mp hn
  have hm (u : Nat) : s.On .inList c u ↔ u = t ∨ u ∈ rest := by
    rw [← mem_cons,← hl,hq.list]
    simp [NoneLoose]
  refine h.setList rfl (fun u => ?_) (pairwise_cons.mp hs).2 hr (fun u hu => ?_) fun u _ => h.settled u id
  · rw [hm]
    constructor
    · intro hu
      exact ⟨fun he => ho (he ▸ hu),.inr hu⟩
    rintro ⟨ha,he | hu⟩
    · exact absurd he ha
    · exact hu
  rw [hm] at hu
  simp only [NoneLoose,iff_false]
  exact fun he => hu (.inl he)

structure Resumes (F : Frame) (c : Nat) (s' : State) : Prop where
  other : ∀ d, d ≠ c → s'.softirq d = F.softirq d
  self : ∀ k, s'.softirq c ≠ .grow k
  fires : Wf NoneLoose {F with softirq := s'.softirq} s' ∨ ∃ t, F.armed t ≠ none ∧ s'.running c = some t ∧
      Wf NoneLoose {F.arm t none with softirq := s'.softirq} s'

theorem Resumes.finish (c : Nat) (reprogrammed : Bool) : Resumes F c (s.finishSoftirq c reprogrammed) where
  other d hd := (if_neg hd).trans (congrFun (h.refilled c).softirq d)
  self _ he := Softirq.noConfusion ((if_pos rfl : _ = Softirq.idle).symm.trans he)
  fires := .inl ((h.refilled c).setSoftirq rfl rfl)

end

theorem Resumes.execute (h : Wf (fun u => u = t) F s) (hc : (s.timer t).cpu = some c)
  (ha : F.armed t ≠ none) {resume : Softirq} (hr : ∀ k, resume ≠ .grow k) :
  Resumes F c (s.executeTimer c t resume) where
  other d hd := (if_neg hd).trans (congrFun h.softirq d)
  self k he := hr k ((if_pos rfl : _ = resume).symm.trans he)
  fires := .inr ⟨t,ha,if_pos rfl,h.executeTimer hc resume⟩

theorem Wf.listLoop (h : Wf NoneLoose F s) (c : Nat) (now : Int) (reprogrammed : Bool) :
  Resumes F c (s.listLoop c now reprogrammed) := by
  rw [State.listLoop]
  split
  · exact .finish h c _
  rename_i t rest hl
  split
  · obtain ⟨_,ho⟩ := ((h.queue c).list t).mp (hl ▸ mem_cons_self)
    refine .execute (h.popList hl) ho.2 ?_ (fun _ => Softirq.noConfusion)
    rw [h.expiry id (.inr ho.1)]
    exact Option.some_ne_none _
  · exact .finish h c _

theorem Wf.top (h : Wf NoneLoose F s) (hs : (s.timers c).size ≠ 0) : s.On .inHeap c ((s.timers c).slots 1) :=
  (((h.queue c).heap.tracks.members _).mpr ⟨1,Nat.le_refl 1,Nat.pos_iff_ne_zero.mpr hs,rfl⟩).2

theorem Wf.heapLoop (h : Wf NoneLoose F s) (c : Nat) (now : Int) (reprogrammed : Bool) :
  Resumes F c (s.heapLoop c now reprogrammed) := by
  rw [State.heapLoop]
  split_ifs with hd
  · have ho := h.top hd.1
    refine .execute (h.removeFromHeap id ho).only ho.2 ?_ (fun _ => Softirq.noConfusion)
    rw [h.expiry id (.inl ho.1)]
    exact Option.some_ne_none _
  · exact h.listLoop c now reprogrammed

theorem grown_limit (h : k ∈ [0,15,255,4095,65535]) :
  u16 (((k+1) <<< 4)-1) ∈ [0,15,255,4095,65535] ∧ k ≤ u16 (((k+1) <<< 4)-1) := by
  simp only [mem_cons,not_mem_nil,or_false] at h
  rcases h with rfl | rfl | rfl | rfl | rfl <;> decide

theorem Wf.growHeap (h : Wf NoneLoose F s) (hk : F.limit c = k) (fresh : Nat → Nat) : Wf NoneLoose {F with
    limit := fun d => if d = c then u16 (((k+1) <<< 4)-1) else F.limit d
    softirq := (s.growHeap c k fresh).softirq} (s.growHeap c k fresh) := by
  have hg := grown_limit (hk ▸ h.limits c)
  have hl := h.limit c
  have hs : (s.growHeap c k fresh).timers c = {s.timers c with
      slots := fun i => if i ≤ k then (s.timers c).slots i else fresh i
      limit := u16 (((k+1) <<< 4)-1)} := if_pos rfl
  refine ⟨fun d => ?_,fun d => ?_,fun d => ?_,rfl,h.settled⟩
  · by_cases hd : d = c
    · rw [hd]
      have hq := h.queue c
      have ha := hq.size
      refine ⟨?_,hs ▸ hq.list,hs ▸ hq.inactive,hs ▸ hq.sorted,hs ▸ hq.listNodup,hs ▸ hq.inactiveNodup,?_⟩ <;> rw [hs]
      · refine hq.heap.congr (fun i hi => ?_) (fun _ _ => rfl) (fun _ _ => rfl) fun _ => Iff.rfl
        simp only [State.heap,hs]
        exact if_pos (by omega)
      · simp only
        omega
    · exact (h.queue d).of_agree (if_neg hd) (fun _ _ _ => Iff.rfl) (fun _ _ _ => rfl) fun _ _ => rfl
  · by_cases hd : d = c
    · rw [hd,hs]
      exact (if_pos rfl).symm
    · rw [show (s.growHeap c k fresh).timers d = s.timers d from if_neg hd,h.limit d]
      exact (if_neg hd).symm
  · dsimp only
    split
    · exact hg.1
    · exact h.limits d

def State.load (s : State) (c : Nat) : Nat := (s.timers c).size+(s.timers c).list.length

section

variable {d : Nat}

theorem Wf.nextOn (h : Wf NoneLoose F s) (hn : s.nextOn c = some t) : s.Active c t := by
  simp only [State.nextOn] at hn
  split_ifs at hn with hs
  · cases hn
    have ho := h.top hs
    exact ⟨ho.2,.inl ho.1⟩
  · obtain ⟨_,ho⟩ := ((h.queue c).list t).mp (mem_of_mem_head? hn)
    exact ⟨ho.2,.inr ho.1⟩

theorem load_eq_zero (h : s.nextOn c = none) : s.load c = 0 := by
  simp only [State.nextOn] at h
  split at h
  · cases h
  rename_i hs
  rw [State.load,List.head?_eq_none_iff.mp h]
  simpa using hs

theorem removeFromHeap_timers : (s.removeFromHeap c t).1.timers c = {s.timers c with
  slots := ((s.heap c).removeFromHeap s.expires (s.timers c).size t).slot
  size := u16 ((s.timers c).size-1)} := if_pos rfl

theorem removeFromList_timers : (s.removeFromList c t).1.timers c =
  {s.timers c with list := (s.timers c).list.erase t} := if_pos rfl

theorem Wf.load_removeEntry (h : Wf NoneLoose F s) (ha : s.Active c t) : (s.removeEntry t).1.load c+1 = s.load c := by
  have hq := h.queue c
  rcases ha.cases with ho | ho
  · rw [removeEntry_inHeap ho]
    have hm := hq.heap.offset_mem ⟨id,ho⟩
    have hs : u16 ((s.timers c).size-1) = (s.timers c).size-1 := by
      have := hq.size
      have := limit_lt h c
      exact mod_eq_of_lt (by omega)
    change ((s.removeFromHeap c t).1.timers c).size+((s.removeFromHeap c t).1.timers c).list.length+1 = _
    rw [removeFromHeap_timers,hs,State.load]
    dsimp only
    omega
  rw [removeEntry_inList ho]
  have hm : t ∈ (s.timers c).list := (hq.list t).mpr ⟨id,ho⟩
  have hp := length_pos_of_mem hm
  change ((s.removeFromList c t).1.timers c).size+((s.removeFromList c t).1.timers c).list.length+1 = _
  rw [removeFromList_timers,State.load,length_erase_of_mem hm]
  dsimp only
  omega

theorem removeEntry_inactive (ha : s.Active c t) : ((s.removeEntry t).1.timers c).inactive = (s.timers c).inactive := by
  rcases ha.cases with ho | ho
  · rw [removeEntry_inHeap ho]
    change ((s.removeFromHeap c t).1.timers c).inactive = _
    rw [removeFromHeap_timers]
  rw [removeEntry_inList ho]
  change ((s.removeFromList c t).1.timers c).inactive = _
  rw [removeFromList_timers]

theorem addToHeap_timers_ne (h : d ≠ c) : (s.addToHeap c t).1.timers d = s.timers d := by
  simp only [State.addToHeap]
  split
  · rfl
  · exact if_neg h

theorem addEntry_timers_ne (hc : (s.timer t).cpu = some c) (h : d ≠ c) : (s.addEntry t).1.timers d = s.timers d := by
  rw [State.addEntry,hc]
  dsimp only
  split
  · exact addToHeap_timers_ne h
  · exact (if_neg h).trans (addToHeap_timers_ne h)

theorem Wf.moveOne (h : Wf NoneLoose F s) (ha : s.Active c t) (hn : c ≠ d) :
  Wf NoneLoose F (((s.removeEntry t).1.setCpu t (some d)).addEntry t).1 ∧
    (((s.removeEntry t).1.setCpu t (some d)).addEntry t).1.load c+1 = s.load c ∧
    ((((s.removeEntry t).1.setCpu t (some d)).addEntry t).1.timers c).inactive = (s.timers c).inactive := by
  have hc : (((s.removeEntry t).1.setCpu t (some d)).timer t).cpu = some d := by rw [setCpu_timer_self]
  refine ⟨(((h.removeEntry ha).setCpu rfl (some d)).addEntry rfl hc ?_).all,?_,?_⟩
  · rw [h.expiry id ha.2,State.expires,State.expires,setCpu_timer_self]
    exact congrArg some (keeps_removeEntry ha t).2.symm
  · rw [State.load,addEntry_timers_ne hc hn]
    exact h.load_removeEntry ha
  · rw [addEntry_timers_ne hc hn]
    exact removeEntry_inactive ha

theorem Wf.moveActive (he : c ≠ d) (n : Nat) (notify : Bool) (h : Wf NoneLoose F s) (hn : s.load c ≤ n) :
  Wf NoneLoose F (State.moveActive c d n (s,notify)).1 ∧ (State.moveActive c d n (s,notify)).1.load c = 0 ∧
    ((State.moveActive c d n (s,notify)).1.timers c).inactive = (s.timers c).inactive := by
  induction n generalizing s notify with
  | zero => exact ⟨h,le_zero.mp hn,rfl⟩
  | succ n ih =>
    rw [State.moveActive]
    split
    · rename_i hx
      exact ⟨h,load_eq_zero hx,rfl⟩
    rename_i t hx
    obtain ⟨hw,hl,hi⟩ := h.moveOne (h.nextOn hx) he
    obtain ⟨hd,hz,hs⟩ := ih _ hw (le_of_succ_le_succ (hl.trans_le hn))
    exact ⟨hd,hz,hs.trans hi⟩

theorem Wf.moveInactive (ha : c ≠ d) (n : Nat) (h : Wf NoneLoose F s) (hn : (s.timers c).inactive.length ≤ n) :
  Wf NoneLoose F (State.moveInactive c d n s) ∧ ((State.moveInactive c d n s).timers c).inactive = [] ∧
    (State.moveInactive c d n s).load c = s.load c := by
  induction n generalizing s with
  | zero => exact ⟨h,length_eq_zero_iff.mp (le_zero.mp hn),rfl⟩
  | succ n ih =>
    rw [State.moveInactive]
    split
    · rename_i hi
      exact ⟨h,hi,rfl⟩
    rename_i t rest hc
    obtain ⟨_,ho⟩ := ((h.queue c).inactive t).mp (hc ▸ mem_cons_self)
    have hs : (((s.listDel t).setCpu t (some d)).listAdd d t).timers c = {s.timers c with inactive := rest} := by
      rw [State.listAdd,setTimers_timers_ne _ ha,State.listDel,ho.2]
      refine (if_pos rfl).trans ?_
      rw [hc,erase_cons_head]
    have ht : (s.listDel t).timer = s.timer := by
      rw [State.listDel,ho.2]
      rfl
    have ho' : ((s.listDel t).setCpu t (some d)).On .inactive d t := by
      rw [State.On,setCpu_timer_self,ht]
      exact ⟨ho.1,rfl⟩
    have hw := (((h.listDel id ho).only.setCpu rfl (some d)).listAdd rfl ho' (h.disarmed id ho.1)).all
    obtain ⟨hd,he,hl⟩ := ih hw (by rw [hs]; simpa [hc] using hn)
    exact ⟨hd,he,hl.trans (by rw [State.load,hs,State.load])⟩

theorem Wf.migrateTimersFromCpu (h : Wf NoneLoose F s) (hn : c ≠ d) :
  Wf NoneLoose F (s.migrateTimersFromCpu c d) ∧ (s.migrateTimersFromCpu c d).load c = 0 ∧
    ((s.migrateTimersFromCpu c d).timers c).inactive = [] := by
  obtain ⟨ha,hz,hs⟩ := h.moveActive hn (s.load c) false le_rfl
  obtain ⟨hw,he,hl⟩ := ha.moveInactive hn (s.timers c).inactive.length (by rw [hs])
  exact ⟨hw.raiseSoftirq _ _,hl.trans hz,he⟩

end

structure Inv (s : State) (F : Frame) : Prop where
  wf : Wf NoneLoose F s
  growing : ∀ c k, F.softirq c = .grow k → F.limit c = k

def Effect (s : State) (a : Action) (s' : State) (armed : Nat → Option Int) : Prop :=
  match a with
  | .setTimer t expires =>
    armed = if (s.timer t).cpu = none then s.armed
      else fun u => if u = t then some expires else s.armed u
  | .stopTimer t | .killTimer _ t => armed = fun u => if u = t then none else s.armed u
  | .enter cpu _ _ | .callbackReturns cpu _ =>
    armed = s.armed ∨ ∃ t, s.armed t ≠ none ∧ s'.running cpu = some t ∧
      armed = fun u => if u = t then none else s.armed u
  | .cpuDead oldCpu _ => armed = s.armed ∧ s'.load oldCpu = 0 ∧ (s'.timers oldCpu).inactive = []
  | _ => armed = s.armed

theorem Wf.armed_eq (h : Wf NoneLoose F s) : s.armed = F.armed := funext fun t => (h.settled t id).1

theorem Inv.resume (h : Inv s F) (hr : Resumes F c s') :
  ∃ F', Inv s' F' ∧ (F'.armed = F.armed ∨ ∃ t, F.armed t ≠ none ∧ s'.running c = some t ∧
    F'.armed = fun u => if u = t then none else F.armed u) := by
  have hg (d k : Nat) (hd : s'.softirq d = .grow k) : F.limit d = k := by
    by_cases hc : d = c
    · exact absurd (hc ▸ hd) (hr.self k)
    · exact h.growing d k ((hr.other d hc).symm.trans hd)
  rcases hr.fires with hw | ⟨t,ha,hu,hw⟩
  · exact ⟨_,⟨hw,hg⟩,.inl rfl⟩
  · exact ⟨_,⟨hw,hg⟩,.inr ⟨t,ha,hu,rfl⟩⟩

theorem Inv.begin (h : Inv s F) (pending : Nat → Bool) (allocated : Bool) : ∃ F', Inv {s with
    pending
    softirq := fun d =>
      if d = c then
        if (s.timers c).list ≠ [] ∧ allocated then .grow (s.timers c).limit else .ready
      else s.softirq d} F' ∧ F'.armed = F.armed := by
  refine ⟨_,⟨h.wf.setSoftirq rfl rfl,fun d k hd => ?_⟩,rfl⟩
  dsimp only at hd
  split at hd
  · rename_i hc
    split at hd
    · cases hd
      rw [hc,← h.wf.limit c]
    · cases hd
  · exact h.growing d k (h.wf.softirq ▸ hd)

theorem Inv.grow (h : Inv s F) (hs : s.softirq c = .grow k) (fresh : Nat → Nat) :
  ∃ F', Inv (s.growHeap c k fresh) F' ∧ F'.armed = F.armed := by
  have hk := h.growing c k (h.wf.softirq ▸ hs)
  refine ⟨_,⟨h.wf.growHeap hk fresh,fun d j hd => ?_⟩,rfl⟩
  by_cases hc : d = c
  · subst hc
    cases (if_pos rfl : _ = Softirq.ready).symm.trans hd
  refine (if_neg hc).trans (h.growing d j ?_)
  rw [← h.wf.softirq,← hd]
  exact (if_neg hc).symm

theorem armed_arm (h : Wf NoneLoose F s) (t : Nat) (x : Option Int) :
  (F.arm t x).armed = fun u => if u = t then x else s.armed u := by
  rw [h.armed_eq]
  rfl

theorem Wf.disarmed_of_cpu (h : Wf NoneLoose F s) (hc : (s.timer t).cpu = none) : F.arm t none = F := by
  have hp : ¬(s.timer t).status.Placed := fun hp => (h.settled t id).2.mp hp hc
  refine Frame.arm_self ?_
  rw [← (h.settled t id).1]
  exact State.armed_of_idle (fun he => hp (by rw [he]; decide))
    fun he => hp (by rw [he]; decide)

theorem Inv.plain (h : Inv s F) {F' : Frame} (hw : Wf NoneLoose F' s') (hl : F'.limit = F.limit)
  (hs : F'.softirq = F.softirq) : Inv s' F' :=
  ⟨hw,fun c k hc => by rw [hl]; exact h.growing c k (hs ▸ hc)⟩

theorem Inv.step (h : Inv s F) {a : Action} (hs : s.step a = some s') : ∃ F', Inv s' F' ∧ Effect s a s' F'.armed := by
  have ha := h.wf.armed_eq
  cases a with
  | initTimer t cpu =>
    have hi (ht : ¬(s.timer t).status.Placed) : ∃ F', Inv (s.initTimer t cpu) F' ∧
        F'.armed = s.armed := ⟨F,h.plain (h.wf.initTimer ht) rfl rfl,ha.symm⟩
    simp only [State.step] at hs
    split at hs
    · rename_i ht
      cases hs
      exact hi (by simp [ht])
    · rename_i ht
      cases hs
      exact hi (by simp [ht])
    · cases hs
  | setTimer t expires =>
    simp only [State.step] at hs
    split at hs
    · cases hs
      simp only [Effect]
      cases hc : (s.timer t).cpu with
      | none =>
        refine ⟨F,?_,by simp [ha]⟩
        rw [State.timerSet,hc]
        exact h
      | some c => exact ⟨_,h.plain (h.wf.timerSet hc expires) rfl rfl,by simp [armed_arm h.wf]⟩
    · cases hs
  | stopTimer t =>
    simp only [State.step] at hs
    split at hs
    · cases hs
      refine ⟨F.arm t none,h.plain ?_ rfl rfl,armed_arm h.wf t none⟩
      rw [State.stopTimer]
      split
      · rename_i hc
        rw [h.wf.disarmed_of_cpu hc]
        exact h.wf
      · rename_i hc
        exact (h.wf.deactivateActive hc).1
    · cases hs
  | migrateTimer t newCpu =>
    simp only [State.step] at hs
    split at hs
    · cases hs
      exact ⟨F,h.plain (h.wf.migrateTimer newCpu) rfl rfl,ha.symm⟩
    · cases hs
  | killTimer self t =>
    simp only [State.step] at hs
    split at hs
    · cases hs
      refine ⟨F.arm t none,h.plain ?_ rfl rfl,armed_arm h.wf t none⟩
      cases hc : (s.timer t).cpu with
      | none =>
        rw [h.wf.disarmed_of_cpu hc,State.killTimer,hc]
        exact h.wf
      | some c => exact h.wf.killTimer hc
    · cases hs
  | softirq cpu allocated =>
    simp only [State.step] at hs
    split at hs
    · cases hs
      obtain ⟨F',hb,hq⟩ := h.begin (fun c => if c = cpu then false else s.pending c) allocated
      exact ⟨F',hb,hq.trans ha.symm⟩
    · cases hs
  | grow cpu fresh =>
    simp only [State.step] at hs
    split at hs
    · rename_i ho
      cases hs
      obtain ⟨F',hb,hq⟩ := h.grow ho fresh
      exact ⟨F',hb,hq.trans ha.symm⟩
    · cases hs
  | enter cpu now reprogrammed =>
    simp only [State.step] at hs
    split at hs
    · cases hs
      simp only [Effect,ha]
      exact h.resume (h.wf.heapLoop cpu now reprogrammed)
    · cases hs
  | callbackReturns cpu reprogrammed =>
    have hw : Wf NoneLoose F {s with running := fun c => if c = cpu then none else s.running c} :=
      h.wf.of_agree rfl rfl fun _ _ => rfl
    simp only [State.step] at hs
    split at hs
    · cases hs
      simp only [Effect,ha]
      exact h.resume (hw.heapLoop cpu _ reprogrammed)
    · cases hs
      simp only [Effect,ha]
      exact h.resume (hw.listLoop cpu _ reprogrammed)
    · cases hs
  | cpuDead oldCpu newCpu =>
    simp only [State.step] at hs
    split at hs
    · split at hs
      · rename_i hn
        cases hs
        obtain ⟨hw,hl,he⟩ := h.wf.migrateTimersFromCpu hn
        exact ⟨F,h.plain hw rfl rfl,ha.symm,hl,he⟩
      · cases hs
    · cases hs

structure Start (s : State) : Prop where
  timer : ∀ t, (s.timer t).status = .invalid ∧ (s.timer t).cpu = none
  timers : ∀ c, (s.timers c).size = 0 ∧ (s.timers c).limit = 0 ∧ (s.timers c).list = [] ∧ (s.timers c).inactive = []
  softirq : ∀ c, s.softirq c = .idle

theorem Start.inv (h : Start s) : ∃ F, Inv s F := by
  have ho (status : Status) (c u : Nat) : ¬s.On status c u := fun ho =>
    Option.some_ne_none c (ho.2.symm.trans (h.timer u).2)
  refine ⟨⟨fun _ => 0,s.softirq,fun _ => none⟩,⟨fun c => ?_,fun c => (h.timers c).2.1,
    fun _ => mem_cons_self,rfl,fun u _ => ?_⟩,fun c k hk => ?_⟩
  · obtain ⟨hb,hd,hl,ha⟩ := h.timers c
    refine ⟨⟨⟨fun i hi hn => by omega,fun u => ?_,fun _ _ => rfl⟩,fun i hi hn => by omega⟩,
      fun u => ?_,fun u => ?_,?_,?_,?_,?_⟩
    · refine iff_of_false (fun hu => ho _ _ _ hu.2) ?_
      rintro ⟨i,hi,hn,_⟩
      omega
    · rw [hl]
      exact iff_of_false not_mem_nil fun hu => ho _ _ _ hu.2
    · rw [ha]
      exact iff_of_false not_mem_nil fun hu => ho _ _ _ hu.2
    · rw [hl]
      exact List.Pairwise.nil
    · rw [hl]
      exact nodup_nil
    · rw [ha]
      exact nodup_nil
    · omega
  · obtain ⟨hs,hc⟩ := h.timer u
    refine ⟨State.armed_of_idle ?_ ?_,?_⟩ <;> simp [hs,hc]
  · simp [h.softirq c] at hk

def State.heapTimers (s : State) (c : Nat) : List Nat :=
  (List.range (s.timers c).size).map fun i => (s.timers c).slots (i+1)

def State.place (s : State) (status : Status) (c t : Nat) : Nat :=
  if (s.timer t).status = status ∧ (s.timer t).cpu = some c then 1 else 0

structure Consistent (s : State) : Prop where
  size : ∀ c, (s.timers c).size ≤ (s.timers c).limit ∧ (s.timers c).limit ≤ 65535
  heap : ∀ c i, 1 < i → i ≤ (s.timers c).size →
    s.expires ((s.timers c).slots (i/2)) ≤ s.expires ((s.timers c).slots i)
  offset : ∀ c i, 1 ≤ i → i ≤ (s.timers c).size → (s.timer ((s.timers c).slots i)).heapOffset = i
  sorted : ∀ c, (s.timers c).list.Pairwise fun t u => s.expires t ≤ s.expires u
  inHeap : ∀ c t, (s.heapTimers c).count t = s.place .inHeap c t
  inList : ∀ c t, (s.timers c).list.count t = s.place .inList c t
  inactive : ∀ c t, (s.timers c).inactive.count t = s.place .inactive c t
  cpu : ∀ t, (s.timer t).status.Placed ↔ (s.timer t).cpu ≠ none

theorem count_of_mem {l : List Nat} {P : Prop} [Decidable P] (hn : l.Nodup)
  (hm : t ∈ l ↔ P) : l.count t = if P then 1 else 0 := by
  rw [List.Nodup.count hn]
  exact if_congr hm rfl rfl

theorem Wf.heapTimers (h : Wf NoneLoose F s) (c : Nat) :
  (s.heapTimers c).Nodup ∧ ∀ t, t ∈ s.heapTimers c ↔ s.On .inHeap c t := by
  have hh := (h.queue c).heap
  constructor
  · refine List.Nodup.map_on (fun i hi j hj he => ?_) nodup_range
    have hi' := mem_range.mp hi
    have hj' := mem_range.mp hj
    by_contra hn
    exact hh.tracks.slot_ne ⟨le_add_left 1 i,hi'⟩ ⟨le_add_left 1 j,hj'⟩ (by omega) he
  intro t
  have hm := hh.tracks.members t
  simp only [NoneLoose,not_false_eq_true,true_and] at hm
  rw [hm,State.heapTimers,mem_map]
  constructor
  · rintro ⟨i,hi,rfl⟩
    exact ⟨i+1,le_add_left 1 i,mem_range.mp hi,rfl⟩
  · rintro ⟨i,hi,ha,rfl⟩
    exact ⟨i-1,mem_range.mpr (by omega),by rw [Nat.sub_add_cancel hi]; rfl⟩

theorem Wf.consistent (h : Wf NoneLoose F s) : Consistent s where
  size c := ⟨(h.queue c).size,le_of_lt_succ (limit_lt h c)⟩
  heap c := (h.queue c).heap.ordered
  offset c := (h.queue c).heap.tracks.indexed
  sorted c := (h.queue c).sorted
  inHeap c t := count_of_mem (h.heapTimers c).1 ((h.heapTimers c).2 t)
  inList c t := count_of_mem (h.queue c).listNodup (((h.queue c).list t).trans (by
    simp [NoneLoose,State.On]))
  inactive c t := count_of_mem (h.queue c).inactiveNodup (((h.queue c).inactive t).trans (by
    simp [NoneLoose,State.On]))
  cpu t := (h.settled t id).2

theorem timer_queues_consistent {s0 s : State} (h0 : Start s0) (hs : Reach State.step (fun _ _ => True) s0 s) :
  Consistent s ∧ ∀ a s', s.step a = some s' → Effect s a s' s'.armed := by
  have hi : ∃ F, Inv s F := reach_invariant (I := fun s => ∃ F, Inv s F) h0.inv
    (fun _ _ _ _ ⟨_,h⟩ _ ht => (h.step ht).imp fun _ h => h.1) hs
  obtain ⟨F,h⟩ := hi
  refine ⟨h.wf.consistent,fun a s' ht => ?_⟩
  obtain ⟨F',h',he⟩ := h.step ht
  rw [h'.wf.armed_eq]
  exact he

def idleState : State where
  timer := fun _ => ⟨0,0,none,.invalid⟩
  timers := fun _ => ⟨fun _ => 0,0,0,[],[]⟩
  running := fun _ => none
  softirq := fun _ => .idle
  pending := fun _ => false
  deadline := fun _ => 0

theorem start_idleState : Start idleState := ⟨fun _ => ⟨rfl,rfl⟩,fun _ => ⟨rfl,rfl,rfl,rfl⟩,fun _ => rfl⟩

theorem two_timers_one_fired :
  ∃ s, runIf State.step (fun _ _ => true) idleState [.initTimer 7 0,.initTimer 8 0,.setTimer 7 100,
    .setTimer 8 50,.softirq 0 true,.grow 0 fun _ => 0,.enter 0 60 true,.callbackReturns 0 true] = some s ∧
    Consistent s ∧ s.heapTimers 0 = [7] ∧ (s.timers 0).list = [] ∧ (s.timers 0).inactive = [8] ∧
    s.armed 7 = some 100 ∧ s.armed 8 = none := by
  obtain ⟨s,hr,hh,hl,hi,he,hg⟩ : ∃ s,
      runIf State.step (fun _ _ => true) idleState [.initTimer 7 0,.initTimer 8 0,.setTimer 7 100,
        .setTimer 8 50,.softirq 0 true,.grow 0 fun _ => 0,.enter 0 60 true,
        .callbackReturns 0 true] = some s ∧ s.heapTimers 0 = [7] ∧ (s.timers 0).list = [] ∧
        (s.timers 0).inactive = [8] ∧ s.armed 7 = some 100 ∧ s.armed 8 = none :=
    ⟨_,rfl,rfl,rfl,rfl,rfl,rfl⟩
  have hs : Reach State.step (fun _ _ => True) idleState s := reach_of_runIf (fun _ _ _ => trivial) hr
  exact ⟨s,hr,(timer_queues_consistent start_idleState hs).1,hh,hl,hi,he,hg⟩

end TimerQueue
