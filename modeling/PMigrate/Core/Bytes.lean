import Mathlib.Tactic

namespace Bytes

open List Nat

def encode : Nat → Nat → List UInt8
  | 0,_ => []
  | k+1,n => UInt8.ofNat n :: encode k (n/256)

def decode : List UInt8 → Nat
  | [] => 0
  | b :: bs => b.toNat+256*decode bs

@[simp] theorem length_encode (k n : Nat) : (encode k n).length = k := by
  induction k generalizing n with
  | zero => rfl
  | succ k ih => simp [encode,ih]

theorem decode_encode (k n : Nat) : decode (encode k n) = n%256^k := by
  induction k generalizing n with
  | zero => simp [encode,decode,mod_one]
  | succ k ih =>
    have hp : 256^(k+1) = 256*256^k := pow_succ'
    rw [encode,decode,ih,UInt8.toNat_ofNat',hp,mod_mul]

variable {k n : Nat} {xs s : List UInt8}

theorem decode_encode_of_lt (h : n < 256^k) : decode (encode k n) = n := by
  rw [decode_encode,mod_eq_of_lt h]

theorem decode_lt (bs : List UInt8) : decode bs < 256^bs.length := by
  induction bs with
  | nil => simp [decode]
  | cons b bs ih =>
    have hb := b.toNat_lt
    simp only [decode,length_cons,pow_succ']
    omega

def read (k : Nat) (bs : List UInt8) : Option (List UInt8 × List UInt8) :=
  if k ≤ bs.length then some (bs.take k,bs.drop k) else none

theorem read_append (h : xs.length = k) (ys : List UInt8) : read k (xs ++ ys) = some (xs,ys) := by
  subst h
  simp [read]

variable {bs ys : List UInt8} {cs : List (List UInt8)}

theorem length_of_read (h : read k s = some (xs,ys)) : s.length = k+ys.length := by
  rw [read] at h
  split at h
  · cases h
    rw [length_drop]
    omega
  · cases h

theorem read_split (h : read k s = some (xs,ys)) : s = xs ++ ys ∧ xs.length = k := by
  rw [read] at h
  split at h
  · cases h
    exact ⟨(take_append_drop ..).symm,length_take_of_le ‹_›⟩
  · cases h

theorem read_short (h : s.length < k) : read k s = none := if_neg (not_le.mpr h)

@[simp] theorem read_encode (k n : Nat) (ys : List UInt8) : read k (encode k n ++ ys) = some (encode k n,ys) :=
  read_append (length_encode k n) ys

def chunks (k : Nat) : Nat → List UInt8 → List (List UInt8)
  | 0,_ => []
  | n+1,bs => bs.take k :: chunks k n (bs.drop k)

@[simp] theorem length_chunks (k n : Nat) (bs : List UInt8) : (chunks k n bs).length = n := by
  induction n generalizing bs with
  | zero => rfl
  | succ n ih => simp [chunks,ih]

theorem chunks_flatten (h : ∀ c ∈ cs, c.length = k) : chunks k cs.length cs.flatten = cs := by
  induction cs with
  | nil => rfl
  | cons c cs ih =>
    have hc : c.length = k := h c (by simp)
    have hs := ih fun d hd => h d (by simp [hd])
    simp [chunks,← hc] at hs ⊢
    exact hs

theorem length_of_mem_chunks {c : List UInt8} (h : bs.length = n*k) (hc : c ∈ chunks k n bs) : c.length = k := by
  induction n generalizing bs with
  | zero => simp [chunks] at hc
  | succ n ih =>
    rw [succ_mul] at h
    rcases mem_cons.mp hc with rfl | hc
    · simp only [length_take]
      omega
    · exact ih (by simp only [length_drop]; omega) hc

theorem length_flatten (h : ∀ c ∈ cs, c.length = k) : cs.flatten.length = cs.length*k := by
  induction cs with
  | nil => simp
  | cons c cs ih =>
    have hc : c.length = k := h c (by simp)
    have hs := ih fun d hd => h d (by simp [hd])
    simp only [flatten_cons,length_append,length_cons,hc,hs,succ_mul]
    omega

def store (k : Nat) (ws : List Nat) : List UInt8 := (ws.map (encode k)).flatten

def load (k n : Nat) (bs : List UInt8) : List Nat := (chunks k n bs).map decode

@[simp] theorem length_store (k : Nat) (ws : List Nat) : (store k ws).length = ws.length*k := by
  have h := @length_flatten k (ws.map (encode k)) (by simp)
  simpa [store] using h

@[simp] theorem length_load (k n : Nat) (bs : List UInt8) : (load k n bs).length = n := by simp [load]

theorem load_append (h : xs.length = k) (n : Nat) (ys : List UInt8) :
  load k (n+1) (xs ++ ys) = decode xs :: load k n ys := by
  subst h
  simp [load,chunks]

theorem load_store (k : Nat) (ws : List Nat) : load k ws.length (store k ws) = ws.map (· % 256^k) := by
  have h := @chunks_flatten k (ws.map (encode k)) (by simp)
  rw [length_map] at h
  simp [load,store,h,decode_encode,Function.comp_def]

theorem load_store_of_lt {ws : List Nat} (h : ∀ w ∈ ws, w < 256^k) : load k ws.length (store k ws) = ws := by
  rw [load_store]
  nth_rewrite 2 [← map_id ws]
  exact map_congr_left fun w hw => mod_eq_of_lt (h w hw)

theorem lt_of_mem_load {w : Nat} (h : bs.length = n*k) (hw : w ∈ load k n bs) : w < 256^k := by
  obtain ⟨c,hc,rfl⟩ := mem_map.mp hw
  have hl := decode_lt c
  rwa [length_of_mem_chunks h hc] at hl

def peek (off k : Nat) (bs : List UInt8) : Nat := decode ((bs.drop off).take k)

def poke (off k v : Nat) (bs : List UInt8) : List UInt8 :=
  if off+k ≤ bs.length then bs.take off ++ (encode k v ++ bs.drop (off+k)) else bs

@[simp] theorem length_poke (off k v : Nat) (bs : List UInt8) : (poke off k v bs).length = bs.length := by
  rw [poke]
  split
  · simp only [length_append,length_take,length_encode,length_drop]
    omega
  · rfl

section
variable (off k n : Nat)

theorem encode_zero : encode k 0 = List.replicate k 0 := by
  induction k with
  | zero => rfl
  | succ k ih => rw [encode,Nat.zero_div,ih,replicate_succ]; rfl

theorem decode_replicate_zero : decode (List.replicate n 0) = 0 := by
  induction n with
  | zero => rfl
  | succ n ih => rw [replicate_succ,decode,ih]; rfl

theorem peek_blank : peek off k (List.replicate n 0) = 0 := by
  rw [peek,drop_replicate,take_replicate,decode_replicate_zero]

theorem poke_blank : poke off k 0 (List.replicate n 0) = List.replicate n 0 := by
  rw [poke]
  split_ifs with hl
  · rw [length_replicate] at hl
    rw [encode_zero,take_replicate,drop_replicate,replicate_append_replicate,replicate_append_replicate]
    congr 1
    omega
  · rfl

end

end Bytes
