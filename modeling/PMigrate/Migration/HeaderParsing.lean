import PMigrate.Migration.ExtendedInfo

namespace ExtendedInfo

open PageTable List Option Bytes Nat

structure Block where
  sig : List UInt8
  sig_length : sig.length = 4
  body : List UInt8
  body_lt : body.length < 2^32

namespace Block

def bytes (k : Block) : List UInt8 := k.sig ++ (encode 4 k.body.length ++ k.body)

theorem bytes_append (k : Block) (s : List UInt8) :
  k.bytes ++ s = k.sig ++ (encode 4 k.body.length ++ (k.body ++ s)) := by simp [bytes]

theorem length_bytes (k : Block) : k.bytes.length = k.body.length+8 := by
  simp only [bytes,length_append,length_encode,k.sig_length]
  omega

end Block

structure Regular (sig : List UInt8) (n : Nat) : Prop where
  noWrap : n+8 < 2^32
  xcnt : sig = xcntSig → n = 4

inductive Regulars : Nat → List UInt8 → Prop
  | done (s : List UInt8) : Regulars 0 s
  | short {tot : Nat} {s : List UInt8} (h : s.length < 8) : Regulars tot s
  -- a block that fails the (wrapping) size check ends the walk with NULL, whatever it declares
  | block {tot n : Nat} {sig s : List UInt8} (hsig : sig.length = 4) (hn : n < 2^32)
      (hreg : (n+8)%2^32 ≤ tot → Regular sig n)
      (hrest : n+8 ≤ tot → Regulars (tot-(n+8)) (s.drop n)) : Regulars tot (sig ++ (encode 4 n ++ s))

inductive Consumed (b : Build) : Info → Nat → List UInt8 → List Block → Info → List UInt8 → Prop
  | done (info : Info) (s : List UInt8) : Consumed b info 0 s [] info s
  | block {info info' info'' : Info} {tot : Nat} {s s' : List UInt8} {k : Block} {ks : List Block}
      (hread : readBlock b info tot (k.bytes ++ s) = some (info',tot-k.bytes.length,s))
      (hfits : k.bytes.length ≤ tot)
      (hrest : Consumed b info' (tot-k.bytes.length) s ks info'' s') :
      Consumed b info tot (k.bytes ++ s) (k :: ks) info'' s'

theorem Consumed.split {b : Build} {info info' : Info} {tot : Nat} {s s' : List UInt8}
  {ks : List Block} (h : Consumed b info tot s ks info' s') :
  s = (ks.map Block.bytes).flatten ++ s' ∧ (ks.map Block.bytes).flatten.length = tot := by
  induction h with
  | done => exact ⟨rfl,rfl⟩
  | block _ hf _ ih =>
    obtain ⟨hs,hl⟩ := ih
    rw [map_cons,flatten_cons,append_assoc,← hs,length_append,hl]
    exact ⟨rfl,by omega⟩

variable {b : Build} {info info' : Info} {tot : Nat} {s : List UInt8}

section
variable {tot' n : Nat} {s' sig : List UInt8} {ks : List Block}

variable {fuel size : Nat}

theorem discard_exact (hi : 0 < size) (hf : n ≤ fuel) (ha : n ≤ tot)
  (hl : tot < 2^32) (h : discard size fuel n tot s = some (tot',s')) :
  tot' = tot-n ∧ ∃ body : List UInt8, body.length = n ∧ s = body ++ s' := by
  induction fuel generalizing n tot s with
  | zero =>
    cases h
    exact ⟨by omega,[],(le_zero.mp hf).symm,rfl⟩
  | succ fuel ih =>
    rw [discard] at h
    split_ifs at h with hn
    · cases h
      exact ⟨by omega,[],hn.symm,rfl⟩
    cases hr : read (min n size) s with
    | none => simp [hr] at h
    | some r =>
      obtain ⟨part,rest⟩ := r
      obtain ⟨hs,hp⟩ := read_split hr
      simp only [hr,bind_eq_bind,bind_some] at h
      rw [sub32_of_le (by omega) hl] at h
      obtain ⟨ht,body,hb,he⟩ := ih (by omega) (by omega) (by omega) h
      refine ⟨by omega,part ++ body,?_,?_⟩
      · rw [length_append,hp,hb]
        omega
      · rw [hs,he,append_assoc]

theorem longSize_pos (b : Build) : 0 < b.longSize := by cases b <;> decide

theorem readBody_exact (ha : sig = xcntSig → n = 4) (hl : n ≤ tot) (ht : tot < 2^32)
  (h : readBody b info sig n tot s = some (info',tot',s')) :
  (tot' = tot-n ∧ ∃ body : List UInt8, body.length = n ∧ s = body ++ s') ∨ s' = [] := by
  rw [readBody] at h
  split at h
  · cases hw : widthOf n with
    | none => simp [hw] at h
    | some w =>
      cases hr : read n s with
      | none => simp [hw,hr] at h
      | some r =>
        obtain ⟨ctxt,rest⟩ := r
        obtain ⟨hs,hc⟩ := read_split hr
        simp only [hw,hr,bind_eq_bind,bind_some,some.injEq,Prod.mk.injEq] at h
        obtain ⟨-,rfl,rfl⟩ := h
        exact .inl ⟨sub32_of_le hl ht,ctxt,hc,hs⟩
  split at h
  · cases hd : discard b.longSize n n tot s with
    | none => simp [hd] at h
    | some r =>
      simp only [hd,bind_eq_bind,bind_some,some.injEq,Prod.mk.injEq] at h
      obtain ⟨-,rfl,rfl⟩ := h
      exact .inl (discard_exact (longSize_pos b) le_rfl hl ht hd)
  split_ifs at h with hi
  · obtain rfl := ha hi
    simp only [some.injEq,Prod.mk.injEq,readExtstateSize] at h
    obtain ⟨-,rfl,rfl⟩ := h
    cases hr : read 4 s with
    | none => exact .inr rfl
    | some r =>
      obtain ⟨x,rest⟩ := r
      obtain ⟨hs,hx⟩ := read_split hr
      exact .inl ⟨sub32_of_le hl ht,x,hx,hs⟩
  cases hd : discard b.longSize n n tot s with
  | none => simp [hd] at h
  | some r =>
    simp only [hd,bind_eq_bind,bind_some,some.injEq,Prod.mk.injEq] at h
    obtain ⟨-,rfl,rfl⟩ := h
    exact .inl (discard_exact (longSize_pos b) le_rfl hl ht hd)

theorem readBlock_header (hs : sig.length = 4) (hn : n < 2^32) : readBlock b info tot (sig ++ (encode 4 n ++ s)) =
    if tot < (n+8)%2^32 then none else readBody b info sig n (sub32 tot 8) s := by
  simp only [readBlock,read_append hs,bind_eq_bind,bind_some,read_encode,decode_word hn]

theorem readBlock_short (h : s.length < 8) : readBlock b info tot s = none := by
  rw [readBlock]
  cases hs : read 4 s with
  | none => rfl
  | some r =>
    obtain ⟨sig,rest⟩ := r
    obtain ⟨rfl,hl⟩ := read_split hs
    rw [length_append,hl] at h
    simp [read_short (show rest.length < 4 by omega)]

theorem readBlocks_nil (h : readBlocks b fuel info tot [] = some (info',s')) : s' = [] := by
  cases fuel with
  | zero => cases h
  | succ fuel =>
    rw [readBlocks,readBlock_short (by decide)] at h
    split at h
    · cases h
      rfl
    · cases h

-- A block that passes the size check is consumed to its end, unless the stream ends inside it.
theorem readBlock_regular {n tot' : Nat} {sig rest : List UInt8} {info' : Info} (hi : sig.length = 4) (hn : n < 2^32)
  (ho : (n+8)%2^32 ≤ tot → Regular sig n) (hm : tot < 2^32)
  (h : readBlock b info tot (sig ++ (encode 4 n ++ rest)) = some (info',tot',s')) :
  n+8 ≤ tot ∧ ((tot' = tot-(n+8) ∧ ∃ body, body.length = n ∧ rest = body ++ s') ∨ s' = []) := by
  rw [readBlock_header hi hn] at h
  split at h
  · cases h
  rename_i hf
  have ho := ho (not_lt.mp hf)
  have hw := ho.noWrap
  rw [mod_eq_of_lt hw] at hf
  have hf : n+8 ≤ tot := not_lt.mp hf
  rw [sub32_of_le (by omega) hm] at h
  rcases readBody_exact ho.xcnt (by omega) (by omega) h with ⟨hl,hb⟩ | hp
  · exact ⟨hf,.inl ⟨by omega,hb⟩⟩
  · exact ⟨hf,.inr hp⟩

theorem readBlocks_exact (hg : Regulars tot s) (hm : tot < 2^32)
  (h : readBlocks b fuel info tot s = some (info',s')) : (∃ ks, Consumed b info tot s ks info' s') ∨ s' = [] := by
  induction fuel generalizing info tot s with
  | zero => cases h
  | succ fuel ih =>
    rw [readBlocks] at h
    split at h
    · rename_i ht
      cases h
      subst ht
      exact .inl ⟨[],.done _ _⟩
    rename_i ht
    cases hb : readBlock b info tot s with
    | none => simp [hb] at h
    | some r =>
      obtain ⟨info1,tot1,s1⟩ := r
      simp only [hb,bind_eq_bind,bind_some] at h
      cases hg with
      | done => exact absurd rfl ht
      | short hs => simp [readBlock_short hs] at hb
      | @block _ n sig rest hi hn ho hr =>
        obtain ⟨hf,⟨rfl,body,rfl,rfl⟩ | rfl⟩ := readBlock_regular hi hn ho hm hb
        · have hr := hr hf
          rw [drop_left] at hr
          rcases ih hr (by omega) h with ⟨ks,hk⟩ | hp
          · have he := Block.length_bytes ⟨sig,hi,body,hn⟩
            rw [← Block.bytes_append ⟨sig,hi,body,hn⟩] at hb ⊢
            rw [← he] at hb hk hf
            exact .inl ⟨_,.block hb hf hk⟩
          · exact .inr hp
        · exact .inr (readBlocks_nil h)

theorem discard_le (h : discard size fuel n tot s = some (tot',s')) : s'.length ≤ s.length := by
  induction fuel generalizing n tot s with
  | zero =>
    cases h
    exact le_rfl
  | succ fuel ih =>
    rw [discard] at h
    split at h
    · cases h
      exact le_rfl
    cases hr : Bytes.read (min n size) s with
    | none => simp [hr] at h
    | some r =>
      simp only [hr,bind_eq_bind,bind_some] at h
      have hl := Bytes.length_of_read hr
      have he := ih h
      omega

theorem readBody_le (h : readBody b info sig n tot s = some (info',tot',s')) : s'.length ≤ s.length := by
  rw [readBody] at h
  split at h
  · simp only [bind_eq_bind,bind_eq_some_iff,some.injEq,Prod.mk.injEq] at h
    obtain ⟨_,_,r,hr,-,-,rfl⟩ := h
    have hl := Bytes.length_of_read hr
    omega
  split at h
  · simp only [bind_eq_bind,bind_eq_some_iff,some.injEq,Prod.mk.injEq] at h
    obtain ⟨r,hd,-,-,rfl⟩ := h
    exact discard_le hd
  split at h
  · simp only [some.injEq,Prod.mk.injEq,readExtstateSize] at h
    obtain ⟨-,-,rfl⟩ := h
    cases hr : Bytes.read 4 s with
    | none => exact zero_le _
    | some r =>
      have hl := Bytes.length_of_read hr
      exact (show r.2.length ≤ s.length by omega)
  simp only [bind_eq_bind,bind_eq_some_iff,some.injEq,Prod.mk.injEq] at h
  obtain ⟨r,hd,-,-,rfl⟩ := h
  exact discard_le hd

theorem readBlock_shrinks (h : readBlock b info tot s = some (info',tot',s')) : s'.length < s.length := by
  simp only [readBlock,bind_eq_bind,bind_eq_some_iff] at h
  obtain ⟨r,hs,r',hn,hb⟩ := h
  split at hb
  · cases hb
  have h1 := Bytes.length_of_read hs
  have h2 := Bytes.length_of_read hn
  have h3 := readBody_le hb
  omega

-- xcnt takes four bytes whatever it declares: it took what it declares only if that is four, or at the stream's end
theorem regular_of_consumed (h : Consumed b info tot s ks info' s') (ht : tot < 2^32) (hs : s' ≠ []) :
  Regulars tot s := by
  induction h with
  | done => exact .done _
  | @block info _ _ tot s _ k ks hread hf hr ih =>
    rw [Block.length_bytes] at hf hread ih
    rw [Block.bytes_append] at hread ⊢
    refine .block k.sig_length k.body_lt (fun hm => ⟨by omega,fun hx => ?_⟩) fun _ => ?_
    · rw [readBlock_header k.sig_length k.body_lt,if_neg (not_lt.mpr hm),hx,readBody,if_neg (by decide),
        if_neg (by decide),if_pos rfl] at hread
      simp only [some.injEq,Prod.mk.injEq,readExtstateSize] at hread
      obtain ⟨-,-,hl⟩ := hread
      cases hd : read 4 (k.body ++ s) with
      | none =>
        rw [hd] at hl
        subst hl
        exact absurd (append_eq_nil_iff.mp hr.split.1.symm).2 hs
      | some r =>
        rw [hd] at hl
        have hc := Bytes.length_of_read hd
        dsimp only at hl
        rw [hl,length_append] at hc
        omega
    · rw [drop_left]
      exact ih (by omega) hs

-- A run of the loop over the blocks: it ends at a zero count or at the first block that is not read (NULL).
inductive BlockLoop (b : Build) : Info → Nat → List UInt8 → Option (Info × List UInt8) → Prop
  | done (info : Info) (s : List UInt8) : BlockLoop b info 0 s (some (info,s))
  | failed {info : Info} {tot : Nat} {s : List UInt8} (ht : tot ≠ 0) (hb : readBlock b info tot s = none) :
      BlockLoop b info tot s none
  | next {info info' : Info} {tot tot' : Nat} {s s' : List UInt8} {r : Option (Info × List UInt8)} (ht : tot ≠ 0)
      (hb : readBlock b info tot s = some (info',tot',s')) (hr : BlockLoop b info' tot' s' r) : BlockLoop b info tot s r

-- A block takes bytes off the stream, so the loop ends even if the count wraps.
theorem block_loop_ends (b : Build) (info : Info) (tot : Nat) (s : List UInt8) :
  ∃ r, BlockLoop b info tot s r ∧ ∀ fuel, s.length < fuel → readBlocks b fuel info tot s = r := by
  induction hn : s.length using Nat.strong_induction_on generalizing info tot s with
  | _ n ih =>
    subst hn
    by_cases ht : tot = 0
    · subst ht
      refine ⟨_,.done info s,fun fuel hf => ?_⟩
      obtain ⟨fuel,rfl⟩ := exists_eq_succ_of_ne_zero (show fuel ≠ 0 by omega)
      rw [readBlocks,if_pos rfl]
    cases hb : readBlock b info tot s with
    | none =>
      refine ⟨_,.failed ht hb,fun fuel hf => ?_⟩
      obtain ⟨fuel,rfl⟩ := exists_eq_succ_of_ne_zero (show fuel ≠ 0 by omega)
      rw [readBlocks,if_neg ht,hb]
      rfl
    | some r =>
      obtain ⟨info',tot',s'⟩ := r
      have hl := readBlock_shrinks hb
      obtain ⟨r,hr,he⟩ := ih s'.length hl info' tot' s' rfl
      refine ⟨r,.next ht hb hr,fun fuel hf => ?_⟩
      obtain ⟨fuel,rfl⟩ := exists_eq_succ_of_ne_zero (show fuel ≠ 0 by omega)
      rw [readBlocks,if_neg ht,hb]
      exact he fuel (by omega)

end

section
variable {p2mSize : Nat} {rest : List UInt8} {frames : List Nat}

def ReadExactly (b : Build) (p2mSize : Nat) (info : Info) (tot : Nat) (s : List UInt8) (frames : List Nat)
    (info' : Info)
    (rest : List UInt8) : Prop :=
  ∃ ks u, Consumed b info tot s ks info' u ∧ s = (ks.map Block.bytes).flatten ++ u ∧
  (ks.map Block.bytes).flatten.length = tot ∧
    ∃ list, list.length = p2mFlEntries p2mSize info'.guestWidth*b.longSize ∧ u = list ++ rest ∧
      frames = load b.longSize (p2mFlEntries p2mSize info'.guestWidth) list

theorem extended_info_exact (htot : tot < 2^32) (h : loadP2mFrameList b p2mSize info
    (encode b.longSize (signature b) ++ (encode 4 tot ++ s)) = some (frames,info',rest)) :
  ReadExactly b p2mSize info tot s frames info' rest ↔ Regulars tot s := by
  have ho := longSize_pos b
  simp only [loadP2mFrameList,readFirst,bind_eq_bind,read_encode,bind_some,
    decode_signature,if_true,decode_word htot,bind_eq_some_iff] at h
  obtain ⟨r,⟨blocks,hb,r',hf,hr⟩,h⟩ := h
  obtain ⟨info1,u⟩ := blocks
  obtain ⟨first,u'⟩ := r'
  cases hr
  split at h
  · cases h
  rename_i hp
  simp only [bind_eq_some_iff,some.injEq,Prod.mk.injEq] at h
  obtain ⟨⟨tail,rest'⟩,ha,rfl,rfl,rfl⟩ := h
  constructor
  · rintro ⟨ks,v,hk,-,-,list,hl,rfl,-⟩
    refine regular_of_consumed hk htot fun hn => ?_
    have hz := Nat.mul_pos (Nat.pos_of_ne_zero hp) ho
    rw [← hl,(append_eq_nil_iff.mp hn).1] at hz
    exact lt_irrefl 0 hz
  intro hreg
  obtain ⟨hu,hl⟩ := read_split hf
  obtain ⟨hu',hlen'⟩ := read_split ha
  change u = _ at hu
  obtain ⟨entries,he⟩ := exists_eq_succ_of_ne_zero hp
  rw [he,Nat.succ_eq_add_one,Nat.add_sub_cancel] at hlen' ⊢
  rcases readBlocks_exact hreg htot hb with ⟨ks,hk⟩ | rfl
  · obtain ⟨hs,ht⟩ := hk.split
    refine ⟨ks,u,hk,hs,ht,first ++ tail,?_,?_,?_⟩
    · rw [he,length_append,hl,hlen',succ_mul,add_comm]
    · rw [hu,hu',append_assoc]
    · rw [he]
      exact (load_append hl ..).symm
  rw [← hl,length_pos_iff] at ho
  exact absurd (append_eq_nil_iff.mp hu.symm).1 ho

end

def header (tot : Nat) (s : List UInt8) : List UInt8 := encode 8 (signature .x86_64) ++ (encode 4 tot ++ s)

def xcntBlockOf (size : Nat) (s : List UInt8) : List UInt8 := xcntSig ++ (encode 4 size ++ s)

theorem four_byte_xcnt_exact : Regulars 12 (xcntBlockOf 4 (encode 4 576 ++ encode 8 7)) ∧
    ∃ info, ∃ ks : List Block, loadP2mFrameList .x86_64 1 (.initial 8 4)
        (header 12 (xcntBlockOf 4 (encode 4 576 ++ encode 8 7))) = some ([7],info,[]) ∧
        (ks.map Block.bytes).flatten.length = 12 ∧
      xcntBlockOf 4 (encode 4 576 ++ encode 8 7) = (ks.map Block.bytes).flatten ++ encode 8 7 := by
  have hr : Regulars 12 (xcntBlockOf 4 (encode 4 576 ++ encode 8 7)) :=
    .block (by decide) (by decide) (fun _ => ⟨by decide,fun _ => rfl⟩) fun _ => .done _
  have hl : loadP2mFrameList .x86_64 1 (.initial 8 4) (header 12 (xcntBlockOf 4 (encode 4 576 ++ encode 8 7))) =
        some ([7],{Info.initial 8 4 with vcpuextstate := true,vcpuextstateSize := 576},[]) := by
    rfl
  obtain ⟨ks,u,-,hs,ht,-⟩ := (extended_info_exact (by decide) hl).mpr hr
  refine ⟨hr,_,ks,hl,ht,?_⟩
  have hc : xcntBlockOf 4 (encode 4 576 ++ encode 8 7) = xcntBlockOf 4 (encode 4 576) ++ encode 8 7 := rfl
  rw [hc] at hs ⊢
  rw [(append_inj hs (ht ▸ rfl)).1]

def emptyXcnt : List UInt8 := xcntBlockOf 0 (encode 8 7 ++ encode 4 9)

theorem empty_xcnt_overruns : ∃ info, loadP2mFrameList .x86_64 1 (.initial 8 4) (header 8 emptyXcnt) =
      some ([9*2^32],info,[]) ∧ load 8 1 (emptyXcnt.drop 8) = [7] ∧ (emptyXcnt.drop 8).drop 8 ≠ [] :=
  ⟨_,rfl,by decide,by decide⟩

end ExtendedInfo
