import Mathlib.Data.Set.Function

namespace TwoPass

open Function List Option

variable {ε K V : Type} [DecidableEq K] [DecidableEq V]

section
variable (inv pending : V) (ok : K → Bool) (key : ε → Option K)

def mark : List ε → (K → V) → (K → V) × List K × Bool
  | [],m => (m,[],true)
  | e :: es,m =>
    match key e with
    | none => mark es m
    | some k =>
      if ok k then
        if m k = inv then
          let r := mark es (update m k pending)
          (r.1,k :: r.2.1,r.2.2)
        else mark es m
      else (m,[],false)

def fill : List ε → (K → V) → List V → (K → V) × List (Option V)
  | [],m,_ => (m,[])
  | e :: es,m,vs =>
    match key e with
    | none =>
      let r := fill es m vs
      (r.1,none :: r.2)
    | some k =>
      if m k = pending then
        let v := vs.headD pending
        let r := fill es (update m k v) vs.tail
        (r.1,some v :: r.2)
      else
        let r := fill es m vs
        (r.1,some (m k) :: r.2)

def assign : List ε → (K → V) → List V → K → V
  | [],m,_ => m
  | e :: es,m,vs =>
    match key e with
    | none => assign es m vs
    | some k => if m k = inv then assign es (update m k (vs.headD pending)) vs.tail else assign es m vs

end

variable {inv pending : V} {ok : K → Bool} {key : ε → Option K} {es : List ε} {m : K → V}
  {vs : List V}

theorem mark_of_mapped (h : ∀ e ∈ es, ∀ k, key e = some k → ok k = true ∧ m k ≠ inv) :
  mark inv pending ok key es m = (m,[],true) := by
  induction es with
  | nil => rfl
  | cons e es ih =>
    have he := ih fun e' he' => h e' (by simp [he'])
    rw [mark]
    cases hk : key e with
    | none => exact he
    | some k =>
      obtain ⟨h1,h2⟩ := h e (by simp) k hk
      simp [h1,h2,he]

theorem fill_of_settled (h : ∀ e ∈ es, ∀ k, key e = some k → m k ≠ pending) :
  fill pending key es m vs = (m,es.map fun e => (key e).map m) := by
  induction es with
  | nil => rfl
  | cons e es ih =>
    have he := ih fun e' he' => h e' (by simp [he'])
    rw [fill]
    cases hk : key e with
    | none => simp [he,hk]
    | some k => simp [h e (by simp) k hk,he,hk]

variable {k : K} {v : V}

theorem mark_update (hk : m k ≠ inv) (hv : v ≠ inv) : mark inv pending ok key es (update m k v) =
    (update (mark inv pending ok key es m).1 k v,(mark inv pending ok key es m).2) := by
  induction es generalizing m with
  | nil => rfl
  | cons e es ih =>
    rw [mark,mark]
    cases he : key e with
    | none => exact ih hk
    | some j =>
      by_cases hj : j = k
      · subst hj
        simp only [update_self,hv,hk,if_false]
        split
        · exact ih hk
        · rfl
      have ha : update m j pending k ≠ inv := by rwa [update_of_ne (Ne.symm hj)]
      simp only [update_of_ne hj]
      split
      · split
        · rw [update_comm (Ne.symm hj),ih ha]
        · exact ih hk
      · rfl

theorem mark_settled (hk : m k ≠ inv) : (mark inv pending ok key es m).1 k = m k := by
  have h := @mark_update _ _ _ _ _ inv pending ok key es m k (m k) hk hk
  rw [update_eq_self] at h
  simpa using congrFun (congrArg Prod.fst h) k

theorem mark_marks (hn : pending ≠ inv) (ho : ∀ e ∈ es, ∀ j, key e = some j → ok j = true) {e : ε} (he : e ∈ es)
  (hk : key e = some k) : (mark inv pending ok key es m).1 k ≠ inv := by
  induction es generalizing m with
  | nil => cases he
  | cons d es ih =>
    have hr := fun hm => @ih m (fun e he => ho e (mem_cons_of_mem d he)) hm
    have hu := fun j hm => @ih (update m j pending) (fun e he => ho e (mem_cons_of_mem d he)) hm
    rw [mark]
    rcases mem_cons.mp he with rfl | he
    · rw [hk]
      dsimp only
      rw [if_pos (ho e mem_cons_self k hk)]
      split
      · rw [mark_settled (by rwa [update_self]),update_self]
        exact hn
      · rename_i hm
        rwa [mark_settled hm]
    cases hd : key d with
    | none => exact hr he
    | some j =>
      dsimp only
      rw [if_pos (ho d mem_cons_self j hd)]
      split
      · exact hu j he
      · exact hr he

theorem assign_keeps (hk : m k ≠ inv) : assign inv pending key es m vs k = m k := by
  induction es generalizing m vs with
  | nil => rfl
  | cons e es ih =>
    rw [assign]
    cases key e with
    | none => exact ih hk
    | some j =>
      dsimp only
      split
      · rename_i hj
        have ha : k ≠ j := fun h => hk (h ▸ hj)
        rw [ih (by rwa [update_of_ne ha]),update_of_ne ha]
      · exact ih hk

inductive Supplied (inv : V) (ok : K → Bool) (key : ε → Option K) : List ε → (K → V) → List V → Prop
  | nil (m : K → V) : Supplied inv ok key [] m []
  | skip {e : ε} {es : List ε} {m : K → V} {vs : List V} (he : key e = none)
      (h : Supplied inv ok key es m vs) : Supplied inv ok key (e :: es) m vs
  | keep {e : ε} {es : List ε} {m : K → V} {vs : List V} {k : K} (he : key e = some k)
      (hk : ok k = true) (hm : m k ≠ inv) (h : Supplied inv ok key es m vs) : Supplied inv ok key (e :: es) m vs
  | take {e : ε} {es : List ε} {m : K → V} {vs : List V} {k : K} {v : V} (he : key e = some k)
      (hk : ok k = true) (hm : m k = inv) (hv : v ≠ inv)
      (h : Supplied inv ok key es (update m k v) vs) : Supplied inv ok key (e :: es) m (v :: vs)

theorem mark_take (hn : pending ≠ inv) (hv : v ≠ inv) : mark inv pending ok key es (update m k v) =
    (update (mark inv pending ok key es (update m k pending)).1 k v,
      (mark inv pending ok key es (update m k pending)).2) := by
  have hp : update m k pending k ≠ inv := by rwa [update_self]
  have h := @mark_update _ _ _ _ _ inv pending ok key es (update m k pending) k v hp hv
  rwa [update_idem] at h

theorem supplied_of_mark (hn : pending ≠ inv) (ho : (mark inv pending ok key es m).2.2 = true)
  (hl : vs.length = (mark inv pending ok key es m).2.1.length) (ha : ∀ v ∈ vs, v ≠ inv) :
  Supplied inv ok key es m vs := by
  induction es generalizing m vs with
  | nil =>
    obtain rfl := length_eq_zero_iff.mp hl
    exact .nil m
  | cons e es ih =>
    rw [mark] at ho hl
    cases he : key e with
    | none =>
      rw [he] at ho hl
      exact .skip he (ih ho hl ha)
    | some k =>
      rw [he] at ho hl
      have hk : ok k = true := by
        by_contra hk
        simp [hk] at ho
      by_cases hi : m k = inv
      · simp only [hk,hi,if_true] at ho hl
        obtain ⟨v,rest,rfl⟩ := exists_cons_of_length_eq_add_one hl
        have hv := ha v (by simp)
        have hs := @mark_take _ _ _ _ _ inv pending ok key es m k v hn hv
        refine .take he hk hi hv (ih ?_ ?_ fun w hw => ha w (by simp [hw]))
        · rw [hs]
          exact ho
        · rw [hs]
          simpa using hl
      · simp only [hk,hi,if_true,if_false] at ho hl
        exact .keep he hk hi (ih ho hl ha)

theorem fill_mark (hn : pending ≠ inv) (h : Supplied inv ok key es m vs)
  (hm : ∀ k, m k ≠ pending) (ha : ∀ v ∈ vs, v ≠ pending) : fill pending key es (mark inv pending ok key es m).1 vs =
    (assign inv pending key es m vs,es.map fun e => (key e).map (assign inv pending key es m vs)) := by
  induction h with
  | nil m => rfl
  | skip he h ih => simp [mark,fill,assign,he,ih hm ha]
  | @keep e es m vs k he hk hi h ih =>
    have hb : (mark inv pending ok key es m).1 k = m k := mark_settled hi
    simp [mark,fill,assign,he,hk,hi,hb,hm k,ih hm ha,assign_keeps hi]
  | @take e es m vs k v he hk hi hv h ih =>
    have hp : update m k pending k ≠ inv := by rwa [update_self]
    have hc : ∀ j, update m k v j ≠ pending := by
      intro j
      rcases eq_or_ne j k with rfl | hj
      · rw [update_self]
        exact ha v (by simp)
      · rw [update_of_ne hj]
        exact hm j
    have hr := ih hc fun w hw => ha w (by simp [hw])
    rw [mark_take hn hv] at hr
    have hs : assign inv pending key es (update m k v) vs k = v := by
      rw [assign_keeps (by rwa [update_self]),update_self]
    simp [mark,fill,assign,he,hk,hi,mark_settled hp,hr,hs]

variable (h : Supplied inv ok key es m vs)
include h

theorem assign_rule {P : (K → V) → List V → Prop}
  (hs : ∀ m k v vs, m k = inv → P m (v :: vs) → P (update m k v) vs) (hP : P m vs) :
  P (assign inv pending key es m vs) [] := by
  induction h with
  | nil m => exact hP
  | skip he h ih => simpa [assign,he] using ih hP
  | keep he hk hi h ih => simpa [assign,he,hi] using ih hP
  | take he hk hi hv h ih => simpa [assign,he,hi] using ih (hs _ _ _ _ hi hP)

theorem assign_valid {e : ε} (he : e ∈ es) (hk : key e = some k) : assign inv pending key es m vs k ≠ inv := by
  induction h with
  | nil m => cases he
  | skip he' h ih =>
    rcases mem_cons.mp he with rfl | he
    · rw [he'] at hk
      cases hk
    · simpa [assign,he'] using ih he
  | keep he' ho hi h ih =>
    rcases mem_cons.mp he with rfl | he
    · obtain rfl := some.inj (he'.symm.trans hk)
      simp [assign,he',hi,assign_keeps hi]
    · simpa [assign,he',hi] using ih he
  | take he' ho hi hv h ih =>
    rcases mem_cons.mp he with rfl | he
    · obtain rfl := some.inj (he'.symm.trans hk)
      simp only [assign,he',hi,if_true,headD_cons,tail_cons]
      rwa [assign_keeps (by rwa [update_self]),update_self]
    · simpa [assign,he',hi] using ih he

theorem assign_ne_pending (hm : ∀ k, m k ≠ pending)
  (hv : ∀ v ∈ vs, v ≠ pending) (k : K) : assign inv pending key es m vs k ≠ pending := by
  refine (assign_rule (P := fun m vs => (∀ k, m k ≠ pending) ∧ ∀ v ∈ vs, v ≠ pending) h ?_ ⟨hm,hv⟩).1 k
  rintro m k v vs-⟨h1,h2⟩
  refine ⟨?_,fun w hw => h2 w (by simp [hw])⟩
  intro j
  rcases eq_or_ne j k with rfl | hj
  · rw [update_self]
    exact h2 v (by simp)
  · rw [update_of_ne hj]
    exact h1 j

theorem assign_injOn (hm : Set.InjOn m {k | m k ≠ inv}) (hv : vs.Nodup) (hf : ∀ v ∈ vs, ∀ k, m k ≠ v) :
  Set.InjOn (assign inv pending key es m vs) {k | assign inv pending key es m vs k ≠ inv} := by
  refine (assign_rule (P := fun m vs => Set.InjOn m {k | m k ≠ inv} ∧ vs.Nodup ∧
    ∀ v ∈ vs, ∀ k, m k ≠ v) h ?_ ⟨hm,hv,hf⟩).1
  rintro m k v vs-⟨h1,h2,h3⟩
  obtain ⟨he,hn⟩ := nodup_cons.mp h2
  refine ⟨?_,hn,?_⟩
  · intro i hi j hj ha
    rcases eq_or_ne i k with rfl | hk
    · rcases eq_or_ne j i with rfl | hb
      · rfl
      · rw [update_self,update_of_ne hb] at ha
        exact absurd ha.symm (h3 v (by simp) j)
    rcases eq_or_ne j k with rfl | hc
    · rw [update_self,update_of_ne hk] at ha
      exact absurd ha (h3 v (by simp) i)
    · simp only [Set.mem_ofPred_eq,update_of_ne hk,update_of_ne hc] at hi hj ha
      exact h1 hi hj ha
  intro w hw j
  rcases eq_or_ne j k with rfl | hj
  · rw [update_self]
    exact fun hd => he (hd ▸ hw)
  · rw [update_of_ne hj]
    exact h3 w (by simp [hw]) j

theorem assign_values (k : K) : assign inv pending key es m vs k = m k ∨ assign inv pending key es m vs k ∈ vs := by
  refine (assign_rule (P := fun m' vs' => (∀ k, m' k = m k ∨ m' k ∈ vs) ∧ vs' ⊆ vs) h ?_
    ⟨fun k => .inl rfl,List.Subset.refl vs⟩).1 k
  rintro m' k v vs'-⟨h1,h2⟩
  refine ⟨?_,fun w hw => h2 (by simp [hw])⟩
  intro j
  rcases eq_or_ne j k with rfl | hj
  · rw [update_self]
    exact .inr (h2 (by simp))
  · rw [update_of_ne hj]
    exact h1 j

omit h

section
variable (ok : K → Bool) (key : ε → Option K)

def passes (e : ε) : Bool := (key e).all ok

theorem mark_cut (inv pending : V) (es : List ε) (m : K → V) : (mark inv pending ok key es m).1 =
    (mark inv pending ok key (es.takeWhile (passes ok key)) m).1 := by
  induction es generalizing m with
  | nil => rfl
  | cons e es ih =>
    cases he : key e with
    | none =>
      have hp : passes ok key e = true := by simp [passes,he]
      simp only [takeWhile_cons,hp,if_true,mark,he]
      exact ih m
    | some k =>
      cases hk : ok k with
      | false =>
        have hp : passes ok key e = false := by simp [passes,he,hk]
        simp [hp,mark,he,hk]
      | true =>
        have hp : passes ok key e = true := by simp [passes,he,hk]
        simp only [takeWhile_cons,hp,if_true,mark,he,hk]
        split
        · exact ih _
        · exact ih m

theorem mark_complete (inv pending : V) (es : List ε) (m : K → V) :
  (mark inv pending ok key es m).2.2 = es.all (passes ok key) := by
  induction es generalizing m with
  | nil => rfl
  | cons e es ih =>
    cases he : key e with
    | none =>
      simp only [mark,he,all_cons,passes,all_none,Bool.true_and]
      exact ih m
    | some k =>
      simp only [mark,he,all_cons,passes,all_some]
      split
      · rename_i hk
        rw [hk,Bool.true_and]
        split
        · exact ih _
        · exact ih m
      · rename_i hk
        simp [hk]

end

end TwoPass
