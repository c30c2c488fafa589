import PMigrate.Hypervisor.PageAlloc

namespace PageAlloc

open DyadicBlock Transition Function

structure Chunk (P : Platform) (n z k h : Nat) : Prop where
  order_le : k ≤ maxOrder
  aligned : 2^k ∣ h
  pos : 0 < h
  home : ∀ m, Mem h k m → P.mfnValid m = true ∧ P.nid m = n ∧ m.log2 = z

def FreeState (s : Heap) (m : Nat) : Prop := (s.page m).countInfo.state = .free

structure Lists (P : Platform) (s : Heap) (F : Nat → Prop) : Prop where
  nodup : ∀ n z k, (s.heap n z k).Nodup
  chunk : ∀ n z k h, h ∈ s.heap n z k → Chunk P n z k h
  order : ∀ n z k h, h ∈ s.heap n z k → (s.page h).v = k
  free : ∀ n z k h, h ∈ s.heap n z k → ∀ m, Mem h k m → (s.page m).countInfo = stateFree
  apart : ∀ n z k h n' z' k' h' m, h ∈ s.heap n z k → h' ∈ s.heap n' z' k' →
    Mem h k m → Mem h' k' m → n = n' ∧ z = z' ∧ k = k' ∧ h = h'
  covered : ∀ m, FreeState s m → F m ∨ ∃ n z k h, h ∈ s.heap n z k ∧ Mem h k m
  floating : ∀ m, F m → (s.page m).countInfo = stateFree ∧ ∀ n z k h, h ∈ s.heap n z k → ¬Mem h k m
  buddies : ∀ n z z' k h, k < maxOrder → 2^(k+1) ∣ h → h ∈ s.heap n z k → h+2^k ∉ s.heap n z' k

structure Counts (P : Platform) (s : Heap) : Prop where
  finite : {m | FreeState s m}.Finite
  total : s.totalAvailPages = {m | FreeState s m}.ncard
  avail : ∀ n a z, s.avail n = some a → a z = {m | FreeState s m ∧ P.nid m = n ∧ m.log2 = z}.ncard
  nodes : ∀ m, FreeState s m → (s.avail (P.nid m)).isSome

variable {P : Platform} {n z k h : Nat}

theorem Chunk.join (hk : k < maxOrder) (ha : 2^(k+1) ∣ h) (hl : Chunk P n z k h)
  (hu : Chunk P n z k (h+2^k)) : Chunk P n z (k+1) h where
  order_le := hk
  aligned := ha
  pos := hl.pos
  home := fun m hm => (mem_succ.mp hm).elim (hl.home m) (hu.home m)

theorem Chunk.lower (hc : Chunk P n z (k+1) h) : Chunk P n z k h where
  order_le := Nat.le_of_succ_le hc.order_le
  aligned := (aligned_half hc.aligned).1
  pos := hc.pos
  home := fun m hm => hc.home m (mem_succ.mpr (.inl hm))

theorem Chunk.upper (hc : Chunk P n z (k+1) h) : Chunk P n z k (h+2^k) where
  order_le := Nat.le_of_succ_le hc.order_le
  aligned := (aligned_half hc.aligned).2
  pos := Nat.add_pos_left hc.pos _
  home := fun m hm => hc.home m (mem_succ.mpr (.inr hm))

variable {s s' : Heap}

section

variable {F G : Nat → Prop}

theorem Lists.congr (hl : Lists P s F) (hh : s'.heap = s.heap) (hp : s'.page = s.page) : Lists P s' F := by
  constructor
  · rw [hh]
    exact hl.nodup
  · rw [hh]
    exact hl.chunk
  · rw [hh,hp]
    exact hl.order
  · rw [hh,hp]
    exact hl.free
  · rw [hh]
    exact hl.apart
  · unfold FreeState
    rw [hh,hp]
    exact hl.covered
  · rw [hh,hp]
    exact hl.floating
  · rw [hh]
    exact hl.buddies

theorem mem_pageListDel (hl : ∀ n z k, (s.heap n z k).Nodup) {n' z' k' x : Nat} :
  x ∈ (pageListDel s n z k h).heap n' z' k' ↔ x ∈ s.heap n' z' k' ∧ ¬(n' = n ∧ z' = z ∧ k' = k ∧ x = h) := by
  simp only [pageListDel,setList]
  split
  · rename_i he
    obtain ⟨rfl,rfl,rfl⟩ := he
    rw [(hl n' z' k').mem_erase_iff]
    constructor
    · rintro ⟨hn,hx⟩
      exact ⟨hx,fun hc => hn hc.2.2.2⟩
    · rintro ⟨hx,hn⟩
      exact ⟨fun hc => hn ⟨rfl,rfl,rfl,hc⟩,hx⟩
  · rename_i hn
    exact ⟨fun hx => ⟨hx,fun hc => hn ⟨hc.1,hc.2.1,hc.2.2.1⟩⟩,And.left⟩

theorem Lists.remove (hl : Lists P s F) (hh : h ∈ s.heap n z k) :
  Lists P (pageListDel s n z k h) (fun m => F m ∨ Mem h k m) := by
  have hb : ∀ {n' z' k' x}, x ∈ (pageListDel s n z k h).heap n' z' k' →
      x ∈ s.heap n' z' k' := fun hx => ((mem_pageListDel hl.nodup).mp hx).1
  constructor
  case nodup =>
    intro n' z' k'
    simp only [pageListDel,setList]
    split
    · exact (hl.nodup _ _ _).erase _
    · exact hl.nodup _ _ _
  case chunk => exact fun _ _ _ _ hx => hl.chunk _ _ _ _ (hb hx)
  case order => exact fun _ _ _ _ hx => hl.order _ _ _ _ (hb hx)
  case free => exact fun _ _ _ _ hx => hl.free _ _ _ _ (hb hx)
  case apart => exact fun _ _ _ _ _ _ _ _ _ hx hy => hl.apart _ _ _ _ _ _ _ _ _ (hb hx) (hb hy)
  case covered =>
    intro m hm
    obtain hf | ⟨n',z',k',x,hx,hc⟩ := hl.covered m hm
    · exact .inl (.inl hf)
    by_cases he : n' = n ∧ z' = z ∧ k' = k ∧ x = h
    · obtain ⟨rfl,rfl,rfl,rfl⟩ := he
      exact .inl (.inr hc)
    · exact .inr ⟨n',z',k',x,(mem_pageListDel hl.nodup).mpr ⟨hx,he⟩,hc⟩
  case floating =>
    rintro m (hf | hm)
    · exact ⟨(hl.floating m hf).1,fun _ _ _ _ hx => (hl.floating m hf).2 _ _ _ _ (hb hx)⟩
    refine ⟨hl.free _ _ _ _ hh m hm,fun n' z' k' x hx hc => ?_⟩
    obtain ⟨hx,hn⟩ := (mem_pageListDel hl.nodup).mp hx
    exact hn (hl.apart _ _ _ _ _ _ _ _ m hx hh hc hm)
  case buddies => exact fun _ _ _ _ _ hk ha hx hy => hl.buddies _ _ _ _ _ hk ha (hb hx) (hb hy)

def Lonely (s : Heap) (n k h : Nat) : Prop :=
  ∀ z, (2^(k+1) ∣ h → h+2^k ∉ s.heap n z k) ∧ ∀ g, h = g+2^k → 2^(k+1) ∣ g → g ∉ s.heap n z k

theorem mem_insertChunk {n' z' k' x : Nat} : x ∈ (insertChunk s n z h k).heap n' z' k' ↔
    x ∈ s.heap n' z' k' ∨ (n' = n ∧ z' = z ∧ k' = k ∧ x = h) := by
  simp only [insertChunk,pageListAddTail,setPfnOrder,setList]
  split
  · rename_i he
    obtain ⟨rfl,rfl,rfl⟩ := he
    simp
  · rename_i hn
    exact ⟨.inl,fun hx => hx.elim id fun hc => absurd ⟨hc.1,hc.2.1,hc.2.2.1⟩ hn⟩

@[simp] theorem countInfo_insertChunk (m : Nat) :
  ((insertChunk s n z h k).page m).countInfo = (s.page m).countInfo := by
  simp only [insertChunk,pageListAddTail,setPfnOrder,setList]
  by_cases hm : m = h
  · rw [hm,update_self]
  · rw [update_of_ne hm]

theorem v_insertChunk (m : Nat) : ((insertChunk s n z h k).page m).v = if m = h then k else (s.page m).v := by
  simp only [insertChunk,pageListAddTail,setPfnOrder,setList]
  by_cases hm : m = h
  · rw [hm,update_self,if_pos rfl]
  · rw [update_of_ne hm,if_neg hm]

theorem Lists.insert (hl : Lists P s G) (hG : ∀ m, G m ↔ F m ∨ Mem h k m)
  (hF : ∀ m, F m → ¬Mem h k m) (hc : Chunk P n z k h) (hp : k < maxOrder → Lonely s n k h) :
  Lists P (insertChunk s n z h k) F := by
  have hq : ∀ m, Mem h k m → G m := fun m hm => (hG m).mpr (.inr hm)
  have hr : ∀ m, Mem h k m → (s.page m).countInfo = stateFree := fun m hm => (hl.floating m (hq m hm)).1
  have ho : ∀ {n' z' k' x m}, x ∈ s.heap n' z' k' → Mem x k' m → ¬Mem h k m :=
    fun hx hd hm => (hl.floating _ (hq _ hm)).2 _ _ _ _ hx hd
  have hn : ∀ {n' z' k'}, h ∉ s.heap n' z' k' := fun hx => ho hx (mem_head _ _) (mem_head _ _)
  constructor
  case nodup =>
    intro n' z' k'
    simp only [insertChunk,pageListAddTail,setPfnOrder,setList]
    split
    · exact List.Nodup.append (hl.nodup _ _ _) (List.nodup_singleton h) (List.disjoint_singleton.mpr hn)
    · exact hl.nodup _ _ _
  case chunk =>
    intro n' z' k' x hx
    obtain hx | ⟨rfl,rfl,rfl,rfl⟩ := mem_insertChunk.mp hx
    · exact hl.chunk _ _ _ _ hx
    · exact hc
  case order =>
    intro n' z' k' x hx
    rw [v_insertChunk]
    obtain hx | ⟨rfl,rfl,rfl,rfl⟩ := mem_insertChunk.mp hx
    · rw [if_neg (fun he : x = h => hn (he ▸ hx))]
      exact hl.order _ _ _ _ hx
    · rw [if_pos rfl]
  case free =>
    intro n' z' k' x hx m hm
    rw [countInfo_insertChunk]
    obtain hx | ⟨rfl,rfl,rfl,rfl⟩ := mem_insertChunk.mp hx
    · exact hl.free _ _ _ _ hx m hm
    · exact hr m hm
  case apart =>
    intro n1 z1 k1 x1 n2 z2 k2 x2 m hx hy hd hi
    obtain hx1 | ⟨rfl,rfl,rfl,rfl⟩ := mem_insertChunk.mp hx <;> obtain hy1 | ⟨rfl,rfl,rfl,rfl⟩ := mem_insertChunk.mp hy
    · exact hl.apart _ _ _ _ _ _ _ _ m hx1 hy1 hd hi
    · exact absurd hi (ho hx1 hd)
    · exact absurd hd (ho hy1 hi)
    · exact ⟨rfl,rfl,rfl,rfl⟩
  case covered =>
    intro m hm
    rw [FreeState,countInfo_insertChunk] at hm
    obtain hg | ⟨n',z',k',x,hx,hd⟩ := hl.covered m hm
    · obtain hf | hb := (hG m).mp hg
      · exact .inl hf
      · exact .inr ⟨n,z,k,h,mem_insertChunk.mpr (.inr ⟨rfl,rfl,rfl,rfl⟩),hb⟩
    · exact .inr ⟨n',z',k',x,mem_insertChunk.mpr (.inl hx),hd⟩
  case floating =>
    intro m hf
    obtain ⟨hs,ht⟩ := hl.floating m ((hG m).mpr (.inl hf))
    rw [countInfo_insertChunk]
    refine ⟨hs,fun n' z' k' x hx => ?_⟩
    obtain hx | ⟨rfl,rfl,rfl,rfl⟩ := mem_insertChunk.mp hx
    · exact ht _ _ _ _ hx
    · exact hF m hf
  case buddies =>
    intro n' z1 z2 k' x hk ha hx hy
    obtain hx1 | ⟨rfl,rfl,rfl,rfl⟩ := mem_insertChunk.mp hx <;> obtain hy1 | ⟨e1,e2,e3,hh⟩ := mem_insertChunk.mp hy
    · exact hl.buddies _ _ _ _ _ hk ha hx1 hy1
    · subst e1 e2 e3
      exact (hp hk z1).2 x hh.symm ha hx1
    · exact (hp hk z2).1 ha hy1
    · have := Nat.two_pow_pos k'
      omega

theorem Lists.mergeable (hl : Lists P s F) (hh : h ∈ s.heap n z k) : Mergeable P s n k h := by
  have ho := (hl.chunk _ _ _ _ hh).home h (mem_head h k)
  refine ⟨ho.1,?_,hl.order _ _ _ _ hh,ho.2.1⟩
  rw [hl.free _ _ _ _ hh h (mem_head h k)]
  rfl

theorem Lists.buddy_listed {L pg b : Nat} (hl : Lists P s (Mem pg k)) (hc : Chunk P n z k pg)
  (hL : 2^(k+1) ∣ L) (hb : b = L ∧ pg = L+2^k ∨ b = L+2^k ∧ pg = L) (hm : Mergeable P s n k b) : b ∈ s.heap n z k := by
  have hd : Mem L (k+1) pg := by
    rw [Mem,Nat.pow_succ]
    omega
  have he : Mem L (k+1) b := by
    rw [Mem,Nat.pow_succ]
    omega
  have ho : ¬Mem pg k b := by
    rw [Mem]
    omega
  have hk : 2^k ∣ b := by
    obtain ⟨hq,hi⟩ := aligned_half hL
    rcases hb with ⟨rfl,-⟩ | ⟨rfl,-⟩
    · exact hq
    · exact hi
  obtain hf | ⟨n',z',j,h,hh,hg⟩ := hl.covered b hm.2.1
  · exact absurd hf ho
  have ha := hl.chunk _ _ _ _ hh
  by_cases hj : j ≤ k
  · have hr : b = h := head_eq ha.aligned ((Nat.pow_dvd_pow 2 hj).trans hk) hg
    subst hr
    have hs : j = k := (hl.order _ _ _ _ hh).symm.trans hm.2.2.1
    have hn : n' = n := (ha.home b (mem_head b j)).2.1.symm.trans hm.2.2.2
    have hL0 : 0 < L := by
      have := hc.pos
      have := ha.pos
      omega
    have hz : z' = z := by
      rw [← (ha.home b (mem_head b j)).2.2,log2_const hL hL0 he,← log2_const hL hL0 hd]
      exact (hc.home pg (mem_head pg k)).2.2
    subst hs hn hz
    exact hh
  · have hp : Mem h j pg := mem_mono hL ha.aligned (by omega) he hg hd
    exact absurd hp ((hl.floating pg (mem_head pg k)).2 _ _ _ _ hh)

end

structure Merged (P : Platform) (s : Heap) (n z : Nat) (r : Heap × Nat × Nat) : Prop where
  lists : Lists P r.1 (Mem r.2.1 r.2.2)
  chunk : Chunk P n z r.2.2 r.2.1
  lonely : r.2.2 < maxOrder → Lonely r.1 n r.2.2 r.2.1
  page : r.1.page = s.page
  avail : r.1.avail = s.avail
  total : r.1.totalAvailPages = s.totalAvailPages

variable {s : Heap} {k pg : Nat} {d : Int}

theorem lonely_of_upper (hl : Lists P s (Mem pg k)) (hi : pg/2^k%2 = 1) (hb : ¬Mergeable P s n k (pg-2^k)) :
  Lonely s n k pg := by
  refine fun z' => ⟨fun ha => ?_,fun g hg hc hm => ?_⟩
  · obtain ⟨c,rfl⟩ := ha
    rw [Nat.pow_succ,Nat.mul_assoc,Nat.mul_div_cancel_left _ (Nat.two_pow_pos k)] at hi
    omega
  · rw [hg,Nat.add_sub_cancel] at hb
    exact hb (hl.mergeable hm)

theorem lonely_of_lower (hl : Lists P s (Mem pg k)) (hi : pg/2^k%2 = 0) (hb : ¬Mergeable P s n k (pg+2^k)) :
  Lonely s n k pg := by
  refine fun z' => ⟨fun ha hm => hb (hl.mergeable hm),fun g hg hc hm => ?_⟩
  obtain ⟨c,rfl⟩ := hc
  rw [hg,Nat.pow_succ,Nat.mul_assoc,Nat.add_div_right _ (Nat.two_pow_pos k),
    Nat.mul_div_cancel_left _ (Nat.two_pow_pos k)] at hi
  omega

theorem mergeChunks_spec (i : Nat) (s : Heap) (pg k : Nat) (hi : k+i = maxOrder)
  (hl : Lists P s (Mem pg k)) (hc : Chunk P n z k pg) : Merged P s n z (mergeChunks P n z i s pg k) := by
  induction i generalizing s pg k with
  | zero => exact ⟨hl,hc,fun ht : k < maxOrder => absurd ht (by omega),rfl,rfl,rfl⟩
  | succ i ih =>
    have hk : k < maxOrder := by omega
    rw [mergeChunks]
    split
    · rename_i hb
      rw [and_two_pow_ne_zero] at hb
      obtain ⟨ha,hd⟩ := upper_aligned hc.aligned hb
      split_ifs with hm
      · have he := hl.buddy_listed hc ha (.inl ⟨rfl,(Nat.sub_add_cancel hd).symm⟩) hm
        have hj : Chunk P n z (k+1) (pg-2^k) :=
          Chunk.join hk ha (hl.chunk _ _ _ _ he) (by rwa [Nat.sub_add_cancel hd])
        have hf : (fun m => Mem pg k m ∨ Mem (pg-2^k) k m) = Mem (pg-2^k) (k+1) := by
          funext m
          rw [eq_iff_iff,mem_succ,Nat.sub_add_cancel hd,or_comm]
        have hr := ih _ _ _ (by omega) (hf ▸ hl.remove he) hj
        exact ⟨hr.lists,hr.chunk,hr.lonely,hr.page,hr.avail,hr.total⟩
      · exact ⟨hl,hc,fun _ => lonely_of_upper hl hb hm,rfl,rfl,rfl⟩
    rename_i hb
    rw [and_two_pow_ne_zero] at hb
    have hb : pg/2^k%2 = 0 := by omega
    have ha := lower_aligned hc.aligned hb
    split_ifs with hm
    · have he := hl.buddy_listed hc ha (.inr ⟨rfl,rfl⟩) hm
      have hj : Chunk P n z (k+1) pg := Chunk.join hk ha hc (hl.chunk _ _ _ _ he)
      have hf : (fun m => Mem pg k m ∨ Mem (pg+2^k) k m) = Mem pg (k+1) := by
        funext m
        rw [eq_iff_iff,mem_succ]
      have hr := ih _ _ _ (by omega) (hf ▸ hl.remove he) hj
      exact ⟨hr.lists,hr.chunk,hr.lonely,hr.page,hr.avail,hr.total⟩
    · exact ⟨hl,hc,fun _ => lonely_of_lower hl hb hm,rfl,rfl,rfl⟩

structure Halved (P : Platform) (s : Heap) (n z k : Nat) (r : Heap × Nat) : Prop where
  lists : Lists P r.1 (Mem r.2 k)
  chunk : Chunk P n z k r.2
  state : ∀ m, (r.1.page m).countInfo = (s.page m).countInfo
  avail : r.1.avail = s.avail
  total : r.1.totalAvailPages = s.totalAvailPages

theorem Lists.halve {j : Nat} (hl : Lists P s (Mem pg (j+1)))
  (hc : Chunk P n z (j+1) pg) : Lists P (insertChunk s n z pg j) (Mem (pg+2^j) j) := by
  refine hl.insert (fun m => mem_succ.trans or_comm) (fun m hu ho => ?_) hc.lower fun _ z' => ?_
  · have h1 := hu.1
    have h2 := ho.2
    omega
  refine ⟨fun _ hm => ?_,fun g hg ha _ => ?_⟩
  · exact (hl.floating _ (mem_succ.mpr (.inr (mem_head _ _)))).2 _ _ _ _ hm (mem_head _ _)
  have hd : 2^(j+1) ∣ 2^j := (Nat.dvd_add_right ha).mp (hg ▸ hc.aligned)
  have := Nat.le_of_dvd (Nat.two_pow_pos j) hd
  have := Nat.two_pow_pos j
  rw [Nat.pow_succ] at *
  omega

theorem halveChunk_spec (i : Nat) (s : Heap) (pg : Nat) (hl : Lists P s (Mem pg (k+i)))
  (hc : Chunk P n z (k+i) pg) : Halved P s n z k (halveChunk n z k i s pg) := by
  induction i generalizing s pg with
  | zero => exact ⟨hl,hc,fun _ => rfl,rfl,rfl⟩
  | succ i ih =>
    have hr := ih (insertChunk s n z pg (k+i)) (pg+2^(k+i)) (hl.halve hc) hc.upper
    rw [halveChunk]
    exact ⟨hr.lists,hr.chunk,fun m => (hr.state m).trans (countInfo_insertChunk m),hr.avail,hr.total⟩

theorem page_mapPages (f : Page → Page) (m : Nat) :
  (mapPages s h k f).page m = if Mem h k m then f (s.page m) else s.page m := rfl

theorem Lists.repage {page : Nat → Page} {F F' : Nat → Prop} (hl : Lists P s F)
  (hp : ∀ n z k x m, x ∈ s.heap n z k → Mem x k m → page m = s.page m)
  (hc : ∀ m, (page m).countInfo.state = .free → F' m ∨ FreeState s m ∧ ¬F m)
  (hf : ∀ m, F' m → (page m).countInfo = stateFree ∧ ∀ n z k x, x ∈ s.heap n z k → ¬Mem x k m) :
  Lists P {s with page := page} F' where
  nodup := hl.nodup
  chunk := hl.chunk
  order n z k x hx := by
    show (page x).v = k
    rw [hp _ _ _ _ _ hx (mem_head _ _)]
    exact hl.order _ _ _ _ hx
  free n z k x hx m hm := by
    show (page m).countInfo = stateFree
    rw [hp _ _ _ _ _ hx hm]
    exact hl.free _ _ _ _ hx m hm
  apart := hl.apart
  covered m hm := (hc m hm).imp_right fun h => (hl.covered m h.1).resolve_left h.2
  floating := hf
  buddies := hl.buddies

theorem Lists.not_inuse (hl : Lists P s F) {n z k x m : Nat} (hx : x ∈ s.heap n z k) (hm : Mem x k m) :
  (s.page m).countInfo.state ≠ .inuse := by
  rw [hl.free _ _ _ _ hx m hm]
  decide

theorem Lists.release (hl : Lists P s fun _ => False) (hf : Freeable P s h k) :
  Lists P (mapPages s h k freePage) (Mem h k) := by
  have ho : ∀ n z k' x m, x ∈ s.heap n z k' → Mem x k' m → ¬Mem h k m :=
    fun _ _ _ _ m hx ha hm => hl.not_inuse hx ha (hf.inuse m hm).1
  refine hl.repage (fun _ _ _ _ _ hx ha => if_neg (ho _ _ _ _ _ hx ha)) (fun m hm => ?_) fun m hm => ?_
  · by_cases hb : Mem h k m
    · exact .inl hb
    · rw [if_neg hb] at hm
      exact .inr ⟨hm,id⟩
  · obtain ⟨hs,hc,-⟩ := hf.inuse m hm
    rw [if_pos hm]
    exact ⟨by simp [freePage,hs,hc,stateFree],fun _ _ _ _ hx ha => ho _ _ _ _ _ hx ha hm⟩

theorem Lists.take (hl : Lists P s (Mem h k)) : Lists P (mapPages s h k fun _ => ⟨stateInuse,0⟩) fun _ => False := by
  refine hl.repage (fun _ _ _ _ _ hx ha => if_neg fun hm => (hl.floating _ hm).2 _ _ _ _ hx ha) (fun m hm => ?_)
    fun _ hf => hf.elim
  split at hm
  · cases hm
  · rename_i hb
    exact .inr ⟨hm,hb⟩

theorem Lists.use (hl : Lists P s fun _ => False) {p : Page}
  (hs : (s.page h).countInfo.state = .inuse) (hp : p.countInfo.state = .inuse) :
  Lists P {s with page := update s.page h p} fun _ => False := by
  refine hl.repage (fun _ _ _ _ m hx ha => update_of_ne ?_ ..) (fun m hm => ?_) fun _ hf => hf.elim
  · rintro rfl
    exact hl.not_inuse hx ha hs
  · by_cases hh : m = h
    · rw [hh,update_self,hp] at hm
      cases hm
    · rw [update_of_ne hh] at hm
      exact .inr ⟨hm,id⟩

theorem Counts.congr (hc : Counts P s) (hs : ∀ m, FreeState s' m ↔ FreeState s m)
  (ha : s'.avail = s.avail) (ht : s'.totalAvailPages = s.totalAvailPages) : Counts P s' := by
  have he : FreeState s' = FreeState s := funext fun m => propext (hs m)
  constructor
  · rw [he]
    exact hc.finite
  · rw [he,ht]
    exact hc.total
  · rw [he,ha]
    exact hc.avail
  · rw [he,ha]
    exact hc.nodes

theorem avail_addAvail {n' : Nat} {a : Nat → Int} (ha : (addAvail s n z d).avail n' = some a) :
  ∃ b, s.avail n' = some b ∧ ∀ z', a z' = b z'+if n' = n ∧ z' = z then d else 0 := by
  simp only [addAvail] at ha
  by_cases hn : n' = n
  · subst hn
    rw [update_self] at ha
    obtain ⟨b,hb,rfl⟩ := Option.map_eq_some_iff.mp ha
    refine ⟨b,hb,fun z' => ?_⟩
    by_cases hz : z' = z
    · subst hz
      simp
    · simp [hz]
  · rw [update_of_ne hn] at ha
    exact ⟨a,ha,fun z' => by simp [hn]⟩

theorem isSome_addAvail (n' : Nat) : ((addAvail s n z d).avail n').isSome = (s.avail n').isSome := by
  simp only [addAvail]
  by_cases hn : n' = n
  · subst hn
    rw [update_self,Option.isSome_map]
  · rw [update_of_ne hn]

theorem ncard_home (hc : Chunk P n z k h) (ha : ∀ m, FreeState s' m ↔ FreeState s m ∨ Mem h k m)
  (ho : ∀ m, FreeState s m → ¬Mem h k m) (hf : {m | FreeState s m}.Finite) (n' z' : Nat) :
  ({m | FreeState s' m ∧ P.nid m = n' ∧ m.log2 = z'}.ncard : Int) =
    {m | FreeState s m ∧ P.nid m = n' ∧ m.log2 = z'}.ncard+if n' = n ∧ z' = z then 2^k else 0 := by
  split
  · rename_i he
    obtain ⟨rfl,rfl⟩ := he
    rw [ncard_add_block ha ho hf fun m hm => (hc.home m hm).2]
    push_cast
    rfl
  rename_i hn
  rw [ncard_skip_block ha fun m hm hq =>
    hn ⟨hq.1.symm.trans (hc.home m hm).2.1,hq.2.symm.trans (hc.home m hm).2.2⟩]
  exact (Int.add_zero _).symm

theorem ncard_free (ha : ∀ m, FreeState s' m ↔ FreeState s m ∨ Mem h k m)
  (ho : ∀ m, FreeState s m → ¬Mem h k m) (hf : {m | FreeState s m}.Finite) :
  ({m | FreeState s' m}.ncard : Int) = {m | FreeState s m}.ncard+2^k := by
  have := ncard_add_block (Q := fun _ => True) ha ho hf fun _ _ => trivial
  simp only [and_true] at this
  rw [this]
  push_cast
  rfl

theorem Counts.release (hs : Counts P s) (hc : Chunk P n z k h) (hn : (s.avail n).isSome)
  (hd : ∀ m, FreeState s' m ↔ FreeState s m ∨ Mem h k m) (ho : ∀ m, FreeState s m → ¬Mem h k m)
  (hv : s'.avail = (addAvail s n z (2^k)).avail) (ht : s'.totalAvailPages = s.totalAvailPages+2^k) : Counts P s' where
  finite := finite_add_block hd hs.finite
  total := by rw [ht,hs.total,ncard_free hd ho hs.finite]
  avail := by
    intro n' a z' ha
    rw [hv] at ha
    obtain ⟨b,hb,he⟩ := avail_addAvail ha
    rw [he,hs.avail n' b z' hb,ncard_home hc hd ho hs.finite]
  nodes := by
    intro m hm
    rw [hv,isSome_addAvail]
    obtain hf | hb := (hd m).mp hm
    · exact hs.nodes m hf
    · rw [(hc.home m hb).2.1]
      exact hn

theorem Counts.take (hs : Counts P s') (hc : Chunk P n z k h) (hd : ∀ m, FreeState s' m ↔ FreeState s m ∨ Mem h k m)
  (ho : ∀ m, FreeState s m → ¬Mem h k m) (hv : s.avail = (addAvail s' n z (-2^k)).avail)
  (ht : s.totalAvailPages = s'.totalAvailPages + -2^k) : Counts P s := by
  have hf : {m | FreeState s m}.Finite := hs.finite.subset fun m hm => (hd m).mpr (.inl hm)
  constructor
  case finite => exact hf
  case total =>
    have := ncard_free hd ho hf
    rw [ht,hs.total]
    omega
  case avail =>
    intro n' a z' ha
    rw [hv] at ha
    obtain ⟨b,hb,he⟩ := avail_addAvail ha
    have := ncard_home hc hd ho hf n' z'
    rw [he,hs.avail n' b z' hb,this]
    split <;> omega
  case nodes =>
    intro m hm
    rw [hv,isSome_addAvail]
    exact hs.nodes m ((hd m).mpr (.inl hm))

end PageAlloc
