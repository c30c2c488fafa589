import Mathlib.Data.List.Basic
import Mathlib.Data.List.TakeWhile
import Mathlib.Tactic.Ring

namespace XsLib

def intMax : Nat := 2^31-1

def ch (c : Char) : UInt8 := .ofNat c.toNat

inductive Fault where
  | assertion
  | null
  | overrun
deriving DecidableEq

-- A string of realloc's answers, one for each size asked for.
def expandingBufferEnsure (realloc : Nat → Bool) (avail minAvail : Nat) : Except Fault Nat :=
  if minAvail ≤ avail then .ok avail
  else if intMax/3 ≤ minAvail then .error .null
  else if realloc (avail+minAvail+10) then .ok (avail+minAvail+10)
  else .error .null

-- ADD, and ADDF with the NUL that sprintf appends: the bytes after the first used ones of the buffer.
def add (avail : Nat) (out bytes : List UInt8) (nul : Nat) : Except Fault (List UInt8) :=
  if out.length+bytes.length+nul ≤ avail then .ok (out ++ bytes) else .error .overrun

def digit (d : Nat) : UInt8 := .ofNat (if d < 10 then 48+d else 87+d)

def plain (c : UInt8) : Bool := ch ' ' ≤ c && c ≤ ch '~' && c != ch '\\'

-- What follows the backslash, and whether sprintf puts a NUL after it.
def escape (c : UInt8) : List UInt8 × Nat :=
  if c = ch '\t' then ([ch 't'],0)
  else if c = ch '\n' then ([ch 'n'],0)
  else if c = ch '\r' then ([ch 'r'],0)
  else if c = ch '\\' then ([ch '\\'],0)
  else if c < 8 then ([digit 0,digit 0,digit c.toNat],1)
  else ([ch 'x',digit (c.toNat/16),digit (c.toNat%16)],1)

def sanitiseLoop (realloc : Nat → Bool) : List UInt8 → Nat → List UInt8 → Except Fault (Nat × List UInt8)
  | [],avail,out => (add avail out [0] 0).map fun out => (avail,out)
  | c :: remain,avail,out =>
      if plain c then (add avail out [c] 0).bind (sanitiseLoop realloc remain avail)
      else do
        let avail ← expandingBufferEnsure realloc avail (out.length+remain.length+5)
        let out ← add avail out [ch '\\'] 0
        let out ← add avail out (escape c).1 (escape c).2
        sanitiseLoop realloc remain avail out

-- The size the buffer records at the end and the bytes written to it.
def sanitiseValue (realloc : Nat → Bool) (avail : Nat) (val : List UInt8) : Except Fault (Nat × List UInt8) :=
  if intMax/5 ≤ val.length then .error .assertion
  else (expandingBufferEnsure realloc avail (val.length+1)).bind fun avail => sanitiseLoop realloc val avail []

-- The value a conversion of at most width digits gives and the number of characters it takes.
structure Sscanf where
  scan : (base width : Nat) → List UInt8 → Option (Nat × Nat)
  digits : ∀ base ds rest, base ≤ 16 → (∀ d ∈ ds, d < base) → ds ≠ [] →
    scan base ds.length (ds.map digit ++ rest) = some (ds.foldl (fun v d => v*base+d) 0,ds.length)

section
variable (sc : Sscanf)

def getf (base width : Nat) (c : UInt8) (ip : List UInt8) : UInt8 × List UInt8 :=
  match sc.scan base width ip with
  | some (v,n) => (.ofNat v,ip.drop n)
  | none => (c,ip)

def readEscape (c : UInt8) (ip : List UInt8) : UInt8 × List UInt8 :=
  if c = ch 't' then (ch '\t',ip)
  else if c = ch 'n' then (ch '\n',ip)
  else if c = ch 'r' then (ch '\r',ip)
  else if c = ch '\\' then (ch '\\',ip)
  else if c = ch 'x' then getf sc 16 2 c ip
  else if ch '0' ≤ c && c ≤ ch '7' then getf sc 8 3 c (c :: ip)
  else if c = 0 then (c,c :: ip)
  else (c,ip)

-- Each round of the loop takes at least one character, so the length of the input is enough fuel.
def unsanitiseValue : Nat → List UInt8 → List UInt8
  | n+1,c :: ip =>
      if c = 0 then []
      else if c = ch '\\' then
        match ip with
        | e :: ip => (readEscape sc e ip).1 :: unsanitiseValue n (readEscape sc e ip).2
        | [] => []
      else c :: unsanitiseValue n ip
  | _,_ => []

end

def escaped (c : UInt8) : List UInt8 := if plain c then [c] else ch '\\' :: (escape c).1

variable {realloc : Nat → Bool} {avail : Nat} {out val rest : List UInt8} {c : UInt8}

theorem add_ok {bytes : List UInt8} {nul : Nat} (h : out.length+bytes.length+nul ≤ avail) :
  add avail out bytes nul = .ok (out ++ bytes) := if_pos h

theorem escape_length : (escape c).1.length ≤ 3 ∧ (escape c).1.length+(escape c).2 ≤ 4 := by
  rw [escape]
  split_ifs <;> simp

theorem escaped_length : 0 < (escaped c).length ∧ (escaped c).length ≤ 4 := by
  have hl := (escape_length (c := c)).1
  rw [escaped]
  split_ifs
  · simp
  · rw [List.length_cons]
    omega

theorem ensure_cases (realloc : Nat → Bool) (avail min : Nat) :
  expandingBufferEnsure realloc avail min = .error .null ∧ ((∀ n, realloc n = true) → intMax/3 ≤ min) ∨
  ∃ n, expandingBufferEnsure realloc avail min = .ok n ∧ avail ≤ n ∧ min ≤ n := by
  rw [expandingBufferEnsure]
  split_ifs with hm hl hr
  · exact .inr ⟨avail,rfl,le_rfl,hm⟩
  · exact .inl ⟨rfl,fun _ => hl⟩
  · exact .inr ⟨_,rfl,by omega,by omega⟩
  · exact .inl ⟨rfl,fun ha => absurd (ha _) hr⟩

-- What a call of the loop has come to: realloc has failed or the size limit is reached, or val follows out in full.
def Rendered (realloc : Nat → Bool) (val out : List UInt8) (r : Except Fault (Nat × List UInt8)) : Prop :=
  r = .error .null ∧ ((∀ n, realloc n = true) → intMax/3 < out.length+4*val.length+5) ∨
  ∃ n, r = .ok (n,out ++ (val.flatMap escaped ++ [0])) ∧ out.length+(val.flatMap escaped).length+1 ≤ n

theorem Rendered.cons {r : Except Fault (Nat × List UInt8)} (h : Rendered realloc val (out ++ escaped c) r) :
  Rendered realloc (c :: val) out r := by
  have hl := escaped_length (c := c)
  refine h.imp (fun ⟨he,hi⟩ => ⟨he,fun ha => ?_⟩) fun ⟨n,he,hi⟩ => ⟨n,?_,?_⟩
  · have := hi ha
    rw [List.length_append] at this
    rw [List.length_cons]
    omega
  · rw [he,List.append_assoc,← List.append_assoc (escaped c)]
    rfl
  · simpa only [List.flatMap_cons,List.length_append,Nat.add_assoc] using hi

-- The buffer always has room for the bytes that remain and the final NUL.
theorem sanitiseLoop_spec (h : out.length+val.length+1 ≤ avail) :
  Rendered realloc val out (sanitiseLoop realloc val avail out) := by
  induction val generalizing avail out with
  | nil =>
    refine .inr ⟨avail,?_,by simpa using h⟩
    rw [sanitiseLoop,add_ok (by simpa using h)]
    rfl
  | cons c remain ih =>
    rw [List.length_cons] at h
    rw [sanitiseLoop]
    split_ifs with hp
    · have he : escaped c = [c] := if_pos hp
      rw [add_ok (by simp; omega),← he]
      exact (ih (by simp [he]; omega)).cons
    · have he : escaped c = ch '\\' :: (escape c).1 := if_neg hp
      have hl := escape_length (c := c)
      rcases ensure_cases realloc avail (out.length+remain.length+5) with ⟨hn,hi⟩ | ⟨n,hn,ha,hm⟩
      · rw [hn]
        exact .inl ⟨rfl,fun ha => by have := hi ha; simp; omega⟩
      have ho : add n out [ch '\\'] 0 = .ok (out ++ [ch '\\']) := add_ok (by simp; omega)
      have hx : add n (out ++ [ch '\\']) (escape c).1 (escape c).2 = .ok (out ++ escaped c) := by
        rw [add_ok (by simp; omega),he,List.append_assoc]
        rfl
      simp only [hn,ho,hx,bind,Except.bind]
      exact (ih (by simp [he]; omega)).cons

variable {sc : Sscanf}

theorem getf_digits (ds : List Nat) {base : Nat} (hb : base ≤ 16) (hd : ∀ d ∈ ds, d < base) (hn : ds ≠ []) :
  getf sc base ds.length c (ds.map digit ++ rest) = (.ofNat (ds.foldl (fun v d => v*base+d) 0),rest) := by
  rw [getf,sc.digits base ds rest hb hd hn]
  simp

theorem readEscape_escape (sc : Sscanf) (c : UInt8) (rest : List UInt8) :
  ∃ e tl, (escape c).1 = e :: tl ∧ readEscape sc e (tl ++ rest) = (c,rest) := by
  rw [escape]
  split_ifs with ht hn hr hb ho
  · exact ⟨_,_,rfl,by rw [ht]; rfl⟩
  · exact ⟨_,_,rfl,by rw [hn]; rfl⟩
  · exact ⟨_,_,rfl,by rw [hr]; rfl⟩
  · exact ⟨_,_,rfl,by rw [hb]; rfl⟩
  · have hd : getf sc 8 3 (digit 0) (digit 0 :: digit 0 :: digit c.toNat :: rest) = _ :=
      getf_digits [0,0,c.toNat] (by decide) (by simpa using UInt8.lt_iff_toNat_lt.mp ho) (by simp)
    exact ⟨_,_,rfl,hd.trans (by simp)⟩
  · have hl := c.toNat_lt
    have hd : getf sc 16 2 (ch 'x') (digit (c.toNat/16) :: digit (c.toNat%16) :: rest) = _ :=
      getf_digits [c.toNat/16,c.toNat%16] (by decide) (by simp; omega) (by simp)
    refine ⟨_,_,rfl,hd.trans ?_⟩
    simp [Nat.div_add_mod']

theorem unsanitise_escaped (n : Nat) :
  unsanitiseValue sc (n+1) (escaped c ++ rest) = c :: unsanitiseValue sc n rest := by
  rw [escaped]
  split_ifs with hp
  · have hz : c ≠ 0 := by rintro rfl; exact absurd hp (by decide)
    have hb : c ≠ ch '\\' := by rintro rfl; exact absurd hp (by decide)
    simp [unsanitiseValue,hz,hb]
  · obtain ⟨e,tl,he,hr⟩ := readEscape_escape sc c rest
    rw [he]
    simp only [List.cons_append,unsanitiseValue,hr]
    rfl

theorem unsanitise_all {n : Nat} (hn : val.length < n) :
  unsanitiseValue sc n (val.flatMap escaped ++ 0 :: rest) = val := by
  induction val generalizing n with
  | nil =>
    obtain ⟨n,rfl⟩ := Nat.exists_eq_add_of_lt hn
    rfl
  | cons c val ih =>
    obtain ⟨n,rfl⟩ : ∃ m, n = m+1 := ⟨n-1,by omega⟩
    rw [List.flatMap_cons,List.append_assoc,unsanitise_escaped,ih (by simpa using hn)]

theorem length_le_escaped : val.length ≤ (val.flatMap escaped).length := by
  induction val with
  | nil => simp
  | cons c val ih =>
    have hp := (escaped_length (c := c)).1
    simp only [List.flatMap_cons,List.length_append,List.length_cons]
    omega

theorem value_round_trip (sc : Sscanf) (realloc : Nat → Bool) (avail : Nat) (val : List UInt8) :
  sanitiseValue realloc avail val ≠ .error .overrun ∧
  (∀ size out, sanitiseValue realloc avail val = .ok (size,out) → out.length ≤ size ∧
    ∀ rest, unsanitiseValue sc (out ++ rest).length (out ++ rest) = val) ∧
  ((∀ n, realloc n = true) → 4*val.length+5 ≤ intMax/3 → ∃ r, sanitiseValue realloc avail val = .ok r) := by
  have hi : intMax/3 < 4*(intMax/5) := by decide
  rw [sanitiseValue]
  split_ifs with hl
  · exact ⟨by simp,by simp,fun _ hb => by omega⟩
  rcases ensure_cases realloc avail (val.length+1) with ⟨hn,hb⟩ | ⟨n,hn,ha,hm⟩
  · simp only [hn,Except.bind]
    exact ⟨by simp,by simp,fun hr hb' => absurd (hb hr) (by omega)⟩
  simp only [hn,Except.bind]
  rcases @sanitiseLoop_spec realloc n [] val (by simpa using hm) with
    ⟨he,hb⟩ | ⟨m,he,hs⟩
  · rw [he]
    exact ⟨by simp,by simp,fun hr hb' => absurd (hb hr) (by simp; omega)⟩
  · rw [he]
    refine ⟨by simp,?_,fun _ _ => ⟨_,rfl⟩⟩
    rintro size out ⟨⟩
    refine ⟨by simpa using hs,fun rest => ?_⟩
    have hv := @length_le_escaped val
    rw [List.nil_append,List.append_assoc]
    exact unsanitise_all (by simp only [List.length_append,List.length_cons]; omega)

def digitValue (c : UInt8) : Nat := if c < 58 then c.toNat-48 else c.toNat-87

def isDigit (base : Nat) (c : UInt8) :
    Bool := (ch '0' ≤ c && c ≤ ch '9' || ch 'a' ≤ c && c ≤ ch 'f') && digitValue c < base

theorem digit_facts : ∀ d < 16, digitValue (digit d) = d ∧ isDigit 16 (digit d) = true := by decide

def scanDigits : Sscanf where
  scan base width s :=
    let ds := (s.take width).takeWhile (isDigit base)
    if ds = [] then none else some (ds.foldl (fun v c => v*base+digitValue c) 0,ds.length)
  digits base ds rest hb hd hn := by
    have hf : ∀ d ∈ ds, digitValue (digit d) = d ∧ isDigit base (digit d) = true := by
      intro d hm
      obtain ⟨hv,hi⟩ := digit_facts d ((hd d hm).trans_le hb)
      simp only [isDigit,hv,Bool.and_eq_true,decide_eq_true_eq] at hi ⊢
      exact ⟨trivial,hi.1,hd d hm⟩
    have hw : ((ds.map digit ++ rest).take ds.length).takeWhile (isDigit base) = ds.map digit := by
      rw [List.take_left' (by simp),List.takeWhile_eq_self_iff]
      simpa using fun d hm => (hf d hm).2
    simp only [hw,List.foldl_map,List.length_map,List.map_eq_nil_iff,if_neg hn]
    rw [List.foldl_ext _ _ _ fun v d hm => by rw [(hf d hm).1]]

def sample : List UInt8 := [ch 'a',0,ch '7',ch '\\',200]

theorem sample_round_trip :
  ∃ size out, sanitiseValue (fun _ => true) 3 sample = .ok (size,out) ∧ out.length ≤ size ∧
    ∀ rest, unsanitiseValue scanDigits (out ++ rest).length (out ++ rest) = sample := by
  have h := value_round_trip scanDigits (fun _ => true) 3 sample
  obtain ⟨⟨size,out⟩,hr⟩ := h.2.2 (fun _ => rfl) (by decide)
  exact ⟨size,out,hr,h.2.1 size out hr⟩

end XsLib
