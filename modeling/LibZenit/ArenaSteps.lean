import LibZenit.ArenaSurgery

/-! Tag writes, and the helpers of `arena.c` as steps between layouts. -/
namespace LibZenit.Arena
open ByteMemory LinkedChain

variable {m n : Memory} {uaPtr lo hi fl : ℕ} {blocks L R : List Block} {chain xs ys : List ℕ}
  {b c : Block}

theorem Tiles.apart (h : Tiles lo hi blocks) (hb : b ∈ blocks) (hc : c ∈ blocks) (hne : b ≠ c) :
    b.addr + b.size ≤ c.addr ∨ c.addr + c.size ≤ b.addr := by
  obtain ⟨L, R, rfl⟩ := List.append_of_mem hb
  obtain ⟨hL, -, hR⟩ := h.split
  rcases List.mem_append.mp hc with hc | hc
  · exact Or.inr (hL.mem c hc).2.1
  · rcases List.mem_cons.mp hc with rfl | hc
    · exact absurd rfl hne
    · exact Or.inl (hR.mem c hc).1

theorem Tiles.spaced (h : Tiles lo hi blocks) {zs : List ℕ}
    (hz : ∀ z ∈ zs, ∃ b ∈ blocks, b.addr = z) : Spaced zs := by
  intro z hzs y hys hne
  obtain ⟨b, hb, rfl⟩ := hz z hzs
  obtain ⟨c, hc, rfl⟩ := hz y hys
  have h1 := (h.mem b hb).2.2
  have h2 := (h.mem c hc).2.2
  rcases h.apart hb hc (fun he => hne (he ▸ rfl)) with h | h
  · exact Or.inl (by omega)
  · exact Or.inr (by omega)

/-- Link surgery on the headers of a tiling leaves all its tags alone. -/
theorem BlockAt.offLinks (h : BlockAt m uaPtr b) (ht : Tiles lo hi blocks) (hb : b ∈ blocks)
    {zs : List ℕ} (hz : ∀ z ∈ zs, ∃ c ∈ blocks, c.addr = z) (ho : OffLinks m n zs) :
    BlockAt n uaPtr b := by
  have hs := (ht.mem b hb).2.2
  simp only [minSplitTotal, headerSize, alignment, footerSize] at hs
  apply h.congr (ht.mem b hb).2.2
  · intro x hl hr
    apply ho
    intro z hzs
    obtain ⟨c, hc, rfl⟩ := hz z hzs
    by_cases he : b = c
    · subst he; omega
    · have h2 := (ht.mem c hc).2.2
      simp only [minSplitTotal, headerSize, alignment, footerSize] at h2
      rcases ht.apart hb hc he with h | h <;> omega
  · intro x hl hr
    simp only [footerSize] at hl
    apply ho
    intro z hzs
    obtain ⟨c, hc, rfl⟩ := hz z hzs
    by_cases he : b = c
    · subst he; omega
    · have h2 := (ht.mem c hc).2.2
      simp only [minSplitTotal, headerSize, alignment, footerSize] at h2
      rcases ht.apart hb hc he with h | h <;> omega

/-- A linked list depends on its link words only. -/
theorem DList.link_congr (hd : DList (hNext m) (hPrev m) 0 fl chain)
    (h : ∀ z ∈ chain, ∀ x, z + 24 ≤ x → x < z + 40 → n x = m x) :
    DList (hNext n) (hPrev n) 0 fl chain :=
  hd.congr (fun z hz => read_congr fun x hl hr => h z hz x hl (by omega))
    fun z hz => read_congr fun x hl hr => h z hz x (by omega) (by omega)

/-! ## Tag writes -/

theorem footerSync_off {h k x : ℕ} (hk : hSize m h = k) (h16 : 16 ≤ k)
    (hx : x < h + k - 16 ∨ h + k ≤ x) :
    footerSync m h x = m x := by
  unfold footerSync footerOf footerSize
  rw [hk, write_apply_of_outside _ (by omega), write_apply_of_outside _ (by omega)]

theorem Block.tag_lt (b : Block) : b.tag < 256 ^ 4 := by
  unfold Block.tag
  split_ifs <;> simp [bufFree, bufInUse]

/-- After `footer_sync` a block whose header is right is right altogether. -/
theorem blockAt_footerSync (hs : minSplitTotal ≤ b.size) (h1 : hState m b.addr = b.tag)
    (h2 : hUa m b.addr = uaPtr) (h3 : hSize m b.addr = b.size) :
    BlockAt (footerSync m b.addr) uaPtr b := by
  have hlt : b.size < 2 ^ 64 := h3 ▸ read_lt m _ 8
  simp only [minSplitTotal, headerSize, alignment, footerSize] at hs
  have head : ∀ x, x < b.addr + 40 → footerSync m b.addr x = m x := fun x hx =>
    footerSync_off h3 (by omega) (by omega)
  constructor
  · rw [← h1]
    exact read_congr fun x hl hr => head x (by omega)
  · rw [← h2]
    exact read_congr fun x hl hr => head x (by omega)
  · conv_rhs => rw [← h3]
    exact read_congr fun x hl hr => head x (by omega)
  · unfold footerSync footerOf fSize
    rw [read_write_of_disjoint _ (by omega), h3, read_write_of_lt _ hlt]
  · unfold footerSync footerOf fState
    have hst : hState (write m (b.addr + hSize m b.addr - footerSize) 8 (hSize m b.addr)) b.addr
        = b.tag := by
      rw [← h1]
      unfold hState
      rw [h3, read_write_of_disjoint]
      simp only [footerSize]
      omega
    dsimp only
    rw [hst, h3, read_write_of_lt _ b.tag_lt]

/-! ## Replacing a run of blocks -/

theorem Tiles.end_unique {e e' : ℕ} (h : Tiles lo e blocks) (h' : Tiles lo e' blocks) :
    e = e' := by
  induction blocks generalizing lo with
  | nil => exact h.symm.trans h'
  | cons b bs ih => exact ih h.2.2 h'.2.2

theorem Tiles.split_run {O : List Block} {a e : ℕ} (h : Tiles lo hi (L ++ b :: O ++ R))
    (hO : Tiles a e (b :: O)) : Tiles lo a L ∧ Tiles e hi R := by
  rw [List.append_assoc] at h
  obtain ⟨a', hL, hrest⟩ := tiles_append.mp h
  obtain ⟨e', hO', hR⟩ := tiles_append.mp hrest
  obtain rfl : a = a' := hO.1.symm.trans hO'.1
  obtain rfl : e = e' := hO.end_unique hO'
  exact ⟨hL, hR⟩

/-- Blocks beside a rewritten run keep their tags. -/
theorem fields_beside {O N : List Block} {a e : ℕ} (h : Tiles lo hi (L ++ b :: O ++ R))
    (hO : Tiles a e (b :: O)) (fields : ∀ c ∈ L ++ b :: O ++ R, BlockAt m uaPtr c)
    (out : ∀ x, x < a ∨ e ≤ x → n x = m x) (new : ∀ c ∈ N, BlockAt n uaPtr c) :
    ∀ c ∈ L ++ N ++ R, BlockAt n uaPtr c := by
  obtain ⟨hL, hR⟩ := h.split_run hO
  intro c hc
  simp only [List.append_assoc, List.mem_append] at hc
  rcases hc with hc | hc | hc
  · have hr := hL.mem c hc
    apply (fields c (by simp [hc])).congr hr.2.2
    · intro x hl hr'
      have := hr.2.2
      simp only [minSplitTotal, headerSize, alignment, footerSize] at this
      exact out x (by omega)
    · intro x hl hr'
      exact out x (by omega)
  · exact new c hc
  · have hr := hR.mem c hc
    apply (fields c (by simp [hc])).congr hr.2.2
    · intro x hl hr'
      exact out x (by omega)
    · intro x hl hr'
      have := hr.2.2
      simp only [minSplitTotal, headerSize, alignment, footerSize] at this hl
      exact out x (by omega)

/-- Rewriting the tags of a run keeps the free list. -/
theorem links_beside {O : List Block} {a e : ℕ} (h : Core m uaPtr lo hi fl (L ++ b :: O ++ R) chain)
    (hO : Tiles a e (b :: O)) (out : ∀ x, x < a ∨ e ≤ x → n x = m x)
    (inside : ∀ c ∈ b :: O, ∀ x, c.addr + 24 ≤ x → x < c.addr + 40 → n x = m x) :
    DList (hNext n) (hPrev n) 0 fl chain := by
  obtain ⟨hL, hR⟩ := h.tiles.split_run hO
  apply DList.link_congr h.links
  intro z hz x hl hr
  obtain ⟨c, hc, rfl⟩ := h.nodes z hz
  simp only [List.append_assoc, List.mem_append] at hc
  rcases hc with hc | hc | hc
  · have := hL.mem c hc
    simp only [minSplitTotal, headerSize, alignment, footerSize] at this
    exact out x (by omega)
  · exact inside c hc x hl hr
  · have := hR.mem c hc
    exact out x (by omega)

theorem Tiles.replace {O N : List Block} {a e : ℕ} (h : Tiles lo hi (L ++ b :: O ++ R))
    (hO : Tiles a e (b :: O)) (hN : Tiles a e N) : Tiles lo hi (L ++ N ++ R) := by
  obtain ⟨hL, hR⟩ := h.split_run hO
  rw [List.append_assoc]
  exact tiles_append.mpr ⟨a, hL, tiles_append.mpr ⟨e, hN, hR⟩⟩

/-! ## Steps -/

theorem Core.spaced (h : Core m uaPtr lo hi fl blocks chain) : Spaced chain :=
  h.tiles.spaced h.nodes

/-- Change the state of one block in header and footer. -/
theorem Core.mark (h : Core m uaPtr lo hi fl (L ++ b :: R) chain) (f : Bool) :
    Core (footerSync (setState m b.addr (Block.tag ⟨b.addr, b.size, f⟩)) b.addr) uaPtr lo hi fl
      (L ++ ⟨b.addr, b.size, f⟩ :: R) chain := by
  have hb := h.fields b (by simp)
  have hs := (h.tiles.mem b (by simp)).2.2
  have hs' := hs
  simp only [minSplitTotal, headerSize, alignment, footerSize] at hs'
  have hO : Tiles b.addr (b.addr + b.size) [b] := ⟨rfl, hs, rfl⟩
  have hN : Tiles b.addr (b.addr + b.size) [⟨b.addr, b.size, f⟩] := ⟨rfl, hs, rfl⟩
  obtain ⟨m1, hm1⟩ : ∃ m1, m1 = setState m b.addr (Block.tag ⟨b.addr, b.size, f⟩) := ⟨_, rfl⟩
  have off1 : ∀ x, x < b.addr ∨ b.addr + 4 ≤ x → m1 x = m x := fun x hx => by
    rw [hm1]
    exact write_apply_of_outside m hx
  have hsize : hSize m1 b.addr = b.size := by
    conv_rhs => rw [← hb.size]
    exact read_congr fun x hl hr => off1 x (by omega)
  have off2 : ∀ x, (x < b.addr ∨ b.addr + 4 ≤ x) → (x < b.addr + b.size - 16 ∨
      b.addr + b.size ≤ x) → footerSync m1 b.addr x = m x := fun x h1 h2 => by
    rw [footerSync_off hsize (by omega) h2, off1 x h1]
  have hnew : BlockAt (footerSync m1 b.addr) uaPtr ⟨b.addr, b.size, f⟩ := by
    apply blockAt_footerSync (b := ⟨b.addr, b.size, f⟩) hs
    · rw [hm1]
      exact read_write_of_lt m (Block.tag_lt _)
    · rw [← hb.owner]
      exact read_congr fun x hl hr => off1 x (by dsimp only at hl hr; omega)
    · exact hsize
  have hL : L ++ b :: R = L ++ [b] ++ R := by simp
  have hL' : L ++ ⟨b.addr, b.size, f⟩ :: R = L ++ [⟨b.addr, b.size, f⟩] ++ R := by simp
  rw [← hm1, hL']
  rw [hL] at h
  have out : ∀ x, x < b.addr ∨ b.addr + b.size ≤ x → footerSync m1 b.addr x = m x :=
    fun x hx => off2 x (by omega) (by omega)
  refine ⟨h.owner, h.base, h.bound, h.tiles.replace hO hN, ?_, ?_, ?_⟩
  · exact fields_beside h.tiles hO h.fields out (by simpa using hnew)
  · apply links_beside h hO out
    intro c hc x hl hr
    obtain rfl : c = b := by simpa using hc
    exact off2 x (by omega) (by omega)
  · intro z hz
    obtain ⟨c, hc, rfl⟩ := h.nodes z hz
    simp only [List.append_assoc, List.mem_append, List.mem_singleton] at hc
    rcases hc with hc | rfl | hc
    · exact ⟨c, by simp [hc], rfl⟩
    · exact ⟨⟨c.addr, c.size, f⟩, by simp, rfl⟩
    · exact ⟨c, by simp [hc], rfl⟩

theorem Core.unlink (h : Core m uaPtr lo hi fl blocks (xs ++ b.addr :: ys)) :
    Core (unlinkBlock m fl b.addr).1 uaPtr lo hi (unlinkBlock m fl b.addr).2 blocks (xs ++ ys) := by
  obtain ⟨hl, ho⟩ := unlinkBlock_spec h.links h.spaced
  have hn : ∀ z ∈ xs ++ ys, ∃ c ∈ blocks, c.addr = z := fun z hz => h.nodes z (by
    rcases List.mem_append.mp hz with hz | hz <;> simp [hz])
  exact ⟨h.owner, h.base, h.bound, h.tiles,
    fun c hc => (h.fields c hc).offLinks h.tiles hc hn ho, hl, hn⟩

theorem Core.addr_pos (h : Core m uaPtr lo hi fl blocks chain) (hb : b ∈ blocks) :
    b.addr ≠ 0 ∧ b.addr < 2 ^ 64 := by
  have hm := h.tiles.mem b hb
  have h1 := h.base
  have h2 := h.bound
  simp only [minSplitTotal, headerSize, alignment, footerSize] at hm
  omega

theorem Core.push (h : Core m uaPtr lo hi fl blocks chain) (hb : b ∈ blocks)
    (hc : b.addr ∉ chain) :
    Core (pushFree m fl b.addr) uaPtr lo hi b.addr blocks (b.addr :: chain) := by
  have hn : ∀ z ∈ b.addr :: chain, ∃ c ∈ blocks, c.addr = z := fun z hz => by
    rcases List.mem_cons.mp hz with rfl | hz
    · exact ⟨b, hb, rfl⟩
    · exact h.nodes z hz
  have hlt : ∀ z ∈ b.addr :: chain, z < 2 ^ 64 := fun z hz => by
    obtain ⟨c, hc, rfl⟩ := hn z hz
    exact (h.addr_pos hc).2
  obtain ⟨hl, ho⟩ := pushFree_spec h.links (h.tiles.spaced hn) (h.addr_pos hb).1 hc hlt
  exact ⟨h.owner, h.base, h.bound, h.tiles,
    fun c hc => (h.fields c hc).offLinks h.tiles hc hn ho, hl, hn⟩

/-- Clearing the links of a block that is not on the list. -/
theorem Core.clearLinks (h : Core m uaPtr lo hi fl blocks chain) (hb : b ∈ blocks)
    (hc : b.addr ∉ chain) :
    Core (setNext (setPrev m b.addr 0) b.addr 0) uaPtr lo hi fl blocks chain := by
  have ho : OffLinks m (setNext (setPrev m b.addr 0) b.addr 0) [b.addr] := fun x hx => by
    rw [setNext_off (hx b.addr (by simp)), setPrev_off (hx b.addr (by simp))]
  have hn : ∀ z ∈ [b.addr], ∃ c ∈ blocks, c.addr = z := fun z hz =>
    ⟨b, hb, by simpa using (List.mem_singleton.mp hz).symm⟩
  refine ⟨h.owner, h.base, h.bound, h.tiles,
    fun c hc => (h.fields c hc).offLinks h.tiles hc hn ho, ?_, h.nodes⟩
  apply DList.link_congr h.links
  intro z hz x hl hr
  obtain ⟨c, hc', rfl⟩ := h.nodes z hz
  apply ho
  intro y hy
  obtain rfl : y = b.addr := List.mem_singleton.mp hy
  have hne : b ≠ c := fun he => hc (he ▸ hz)
  have h1 := (h.tiles.mem b hb).2.2
  have h2 := (h.tiles.mem c hc').2.2
  simp only [minSplitTotal, headerSize, alignment, footerSize] at h1 h2
  rcases h.tiles.apart hb hc' hne with h | h <;> omega

theorem splitTags_spec {k : ℕ} (hb : BlockAt m uaPtr b) (hu : uaPtr < 2 ^ 64)
    (hf : b.free = true) (hk : minSplitTotal ≤ k) (hr : k + minSplitTotal ≤ b.size) :
    let n := splitTags m uaPtr b.addr k (b.size - k)
    BlockAt n uaPtr ⟨b.addr, k, true⟩ ∧ BlockAt n uaPtr ⟨b.addr + k, b.size - k, true⟩ ∧
      ∀ x, (x < b.addr + 16 ∨ b.addr + 24 ≤ x) → (x < b.addr + k - 16 ∨ b.addr + k + 24 ≤ x) →
        (x < b.addr + b.size - 16 ∨ b.addr + b.size ≤ x) → n x = m x := by
  have hlt : b.size < 2 ^ 64 := hb.size ▸ read_lt m _ 8
  have hk' := hk
  simp only [minSplitTotal, headerSize, alignment, footerSize] at hk' hr
  obtain ⟨m1, hm1⟩ : ∃ m1, m1 = setSize m b.addr k := ⟨_, rfl⟩
  obtain ⟨m2, hm2⟩ : ∃ m2, m2 = footerSync m1 b.addr := ⟨_, rfl⟩
  obtain ⟨m3, hm3⟩ : ∃ m3, m3 = setSize (setUa (setState m2 (b.addr + k) bufFree) (b.addr + k)
    uaPtr) (b.addr + k) (b.size - k) := ⟨_, rfl⟩
  have off1 : ∀ x, x < b.addr + 16 ∨ b.addr + 24 ≤ x → m1 x = m x := fun x hx => by
    rw [hm1]
    exact write_apply_of_outside m (by omega)
  have size1 : hSize m1 b.addr = k := by
    rw [hm1]
    exact read_write_of_lt m (show k < 2 ^ 64 by omega)
  have off2 : ∀ x, x < b.addr + k - 16 ∨ b.addr + k ≤ x → m2 x = m1 x := fun x hx => by
    rw [hm2]
    exact footerSync_off size1 (by omega) hx
  have left2 : BlockAt m2 uaPtr ⟨b.addr, k, true⟩ := by
    rw [hm2]
    apply blockAt_footerSync (b := ⟨b.addr, k, true⟩) hk
    · rw [← show b.tag = Block.tag ⟨b.addr, k, true⟩ by simp [Block.tag, hf], ← hb.state]
      exact read_congr fun x hl hr => off1 x (by dsimp only at hl hr; omega)
    · rw [← hb.owner]
      exact read_congr fun x hl hr => off1 x (by dsimp only at hl hr; omega)
    · exact size1
  have off3 : ∀ x, x < b.addr + k ∨ b.addr + k + 24 ≤ x → m3 x = m2 x := fun x hx => by
    rw [hm3]
    unfold setSize setUa setState
    rw [write_apply_of_outside _ (by omega), write_apply_of_outside _ (by omega),
      write_apply_of_outside _ (by omega)]
  have size3 : hSize m3 (b.addr + k) = b.size - k := by
    rw [hm3]
    exact read_write_of_lt _ (show b.size - k < 2 ^ 64 by omega)
  have right4 : BlockAt (footerSync m3 (b.addr + k)) uaPtr ⟨b.addr + k, b.size - k, true⟩ := by
    apply blockAt_footerSync (b := ⟨b.addr + k, b.size - k, true⟩)
    · simp only [minSplitTotal, headerSize, alignment, footerSize]
      omega
    · rw [hm3]
      unfold hState setSize setUa setState
      dsimp only
      rw [read_write_of_disjoint _ (by omega), read_write_of_disjoint _ (by omega)]
      exact read_write_of_lt _ (by decide)
    · rw [hm3]
      unfold hUa setSize setUa
      dsimp only
      rw [read_write_of_disjoint _ (by omega)]
      exact read_write_of_lt _ hu
    · exact size3
  have off4 : ∀ x, x < b.addr + b.size - 16 ∨ b.addr + b.size ≤ x →
      footerSync m3 (b.addr + k) x = m3 x := fun x hx =>
    footerSync_off size3 (by omega) (by omega)
  have heq : splitTags m uaPtr b.addr k (b.size - k) = footerSync m3 (b.addr + k) := by
    rw [hm3, hm2, hm1]
    rfl
  simp only [heq]
  refine ⟨?_, right4, ?_⟩
  · apply left2.congr hk
    · intro x hl hr'
      rw [off4 x (by dsimp only at *; omega), off3 x (by dsimp only at *; omega)]
    · intro x hl hr'
      simp only [footerSize] at hl hr'
      rw [off4 x (by omega), off3 x (by omega)]
  · intro x h1 h2 h3
    rw [off4 x h3, off3 x (by omega), off2 x (by omega), off1 x h1]

/-- Splitting a listed free block links the rest right behind it. -/
theorem Core.split {k : ℕ} (h : Core m uaPtr lo hi fl (L ++ b :: R) (xs ++ b.addr :: ys))
    (hf : b.free = true) (hk : minSplitTotal ≤ k) (hr : k + minSplitTotal ≤ b.size) :
    Core (splitBlock m uaPtr b.addr k (b.size - k)) uaPtr lo hi fl
      (L ++ ⟨b.addr, k, true⟩ :: ⟨b.addr + k, b.size - k, true⟩ :: R)
      (xs ++ b.addr :: (b.addr + k) :: ys) := by
  have hs := (h.tiles.mem b (by simp)).2.2
  have hk' := hk
  have hr' := hr
  simp only [minSplitTotal, headerSize, alignment, footerSize] at hk' hr'
  obtain ⟨left, right, off⟩ := splitTags_spec (h.fields b (by simp)) h.owner hf hk hr
  have hfresh : b.addr + k ∉ xs ++ b.addr :: ys := by
    intro hm
    obtain ⟨c, hc, he⟩ := h.nodes _ hm
    by_cases hcb : b = c
    · rw [← hcb] at he
      omega
    · have hsize := (h.tiles.mem c hc).2.2
      simp only [minSplitTotal, headerSize, alignment, footerSize] at hsize
      rcases h.tiles.apart (by simp) hc hcb with hap | hap <;> omega
  have hO : Tiles b.addr (b.addr + b.size) [b] := ⟨rfl, hs, rfl⟩
  have hN : Tiles b.addr (b.addr + b.size)
      [⟨b.addr, k, true⟩, ⟨b.addr + k, b.size - k, true⟩] := by
    refine ⟨rfl, hk, rfl, ?_, ?_⟩
    · dsimp only
      omega
    · simp only [Tiles]
      omega
  have hL : L ++ b :: R = L ++ [b] ++ R := by simp
  have hL' : L ++ (⟨b.addr, k, true⟩ : Block) :: ⟨b.addr + k, b.size - k, true⟩ :: R =
      L ++ [⟨b.addr, k, true⟩, ⟨b.addr + k, b.size - k, true⟩] ++ R := by simp
  rw [hL] at h
  have out : ∀ x, x < b.addr ∨ b.addr + b.size ≤ x →
      splitTags m uaPtr b.addr k (b.size - k) x = m x :=
    fun x hx => off x (by omega) (by omega) (by omega)
  have tiles := h.tiles.replace hO hN
  have fields := fields_beside h.tiles hO h.fields out
    (N := [⟨b.addr, k, true⟩, ⟨b.addr + k, b.size - k, true⟩]) (by simpa using ⟨left, right⟩)
  have links : DList _ _ 0 fl (xs ++ b.addr :: ys) := links_beside h hO out (by
    intro c hc x hl hr
    obtain rfl : c = b := by simpa using hc
    exact off x (by omega) (by omega) (by omega))
  have nodes : ∀ z ∈ (b.addr + k) :: (xs ++ b.addr :: ys), ∃ c ∈ L ++
      [⟨b.addr, k, true⟩, ⟨b.addr + k, b.size - k, true⟩] ++ R, c.addr = z := by
    intro z hz
    rcases List.mem_cons.mp hz with rfl | hz
    · exact ⟨⟨b.addr + k, b.size - k, true⟩, by simp, rfl⟩
    · obtain ⟨c, hc, rfl⟩ := h.nodes z hz
      simp only [List.append_assoc, List.mem_append, List.mem_singleton] at hc
      rcases hc with hc | rfl | hc
      · exact ⟨c, by simp [hc], rfl⟩
      · exact ⟨⟨c.addr, k, true⟩, by simp, rfl⟩
      · exact ⟨c, by simp [hc], rfl⟩
  have core : Core (splitTags m uaPtr b.addr k (b.size - k)) uaPtr lo hi fl (L ++
      [⟨b.addr, k, true⟩, ⟨b.addr + k, b.size - k, true⟩] ++ R) (xs ++ b.addr :: ys) :=
    ⟨h.owner, h.base, h.bound, tiles, fields, links, fun z hz => nodes z (by simp [hz])⟩
  have hlt : ∀ z ∈ (b.addr + k) :: (xs ++ b.addr :: ys), z < 2 ^ 64 := fun z hz => by
    obtain ⟨c, hc, rfl⟩ := nodes z hz
    exact (core.addr_pos hc).2
  obtain ⟨hl, ho⟩ := linkAfter_spec links (tiles.spaced nodes) (by omega) hfresh hlt
  rw [hL']
  refine ⟨h.owner, h.base, h.bound, tiles,
    fun c hc => (fields c hc).offLinks tiles hc nodes ho, hl, fun z hz => nodes z ?_⟩
  simp only [List.mem_append, List.mem_cons] at hz ⊢
  tauto

/-- The forward merge: `b` swallows the listed block behind it. -/
theorem Core.mergeNext (h : Core m uaPtr lo hi fl (L ++ b :: c :: R) (xs ++ c.addr :: ys)) :
    let n := footerSync (setSize m b.addr (b.size + c.size)) b.addr
    Core (unlinkBlock n fl c.addr).1 uaPtr lo hi (unlinkBlock n fl c.addr).2
      (L ++ ⟨b.addr, b.size + c.size, b.free⟩ :: R) (xs ++ ys) := by
  have hL : L ++ b :: c :: R = L ++ [b, c] ++ R := by simp
  have hL' : L ++ (⟨b.addr, b.size + c.size, b.free⟩ : Block) :: R =
      L ++ [⟨b.addr, b.size + c.size, b.free⟩] ++ R := by simp
  obtain ⟨-, hsb, hcaddr, hsc, hR⟩ := h.tiles.split
  have hb := h.fields b (by simp)
  have hbound := (h.tiles.mem c (by simp)).2.1
  have hi64 := h.bound
  have hlo := h.base
  have hb' := (h.tiles.mem b (by simp)).1
  obtain ⟨-, -, hcx, hcy, -⟩ := h.links.append_facts
  rw [hL] at h
  have hsb' := hsb
  have hsc' := hsc
  simp only [minSplitTotal, headerSize, alignment, footerSize] at hsb' hsc'
  obtain ⟨m1, hm1⟩ : ∃ m1, m1 = setSize m b.addr (b.size + c.size) := ⟨_, rfl⟩
  have off1 : ∀ x, x < b.addr + 16 ∨ b.addr + 24 ≤ x → m1 x = m x := fun x hx => by
    rw [hm1]
    exact write_apply_of_outside m (by omega)
  have size1 : hSize m1 b.addr = b.size + c.size := by
    rw [hm1]
    exact read_write_of_lt m (show b.size + c.size < 2 ^ 64 by omega)
  have off2 : ∀ x, (x < b.addr + 16 ∨ b.addr + 24 ≤ x) →
      (x < b.addr + b.size + c.size - 16 ∨ b.addr + b.size + c.size ≤ x) →
      footerSync m1 b.addr x = m x := fun x h1 h2 => by
    rw [footerSync_off size1 (by omega) (by omega), off1 x h1]
  have hnew : BlockAt (footerSync m1 b.addr) uaPtr ⟨b.addr, b.size + c.size, b.free⟩ := by
    apply blockAt_footerSync (b := ⟨b.addr, b.size + c.size, b.free⟩)
    · simp only [minSplitTotal, headerSize, alignment, footerSize]
      omega
    · rw [← show b.tag = Block.tag ⟨b.addr, b.size + c.size, b.free⟩ from rfl, ← hb.state]
      exact read_congr fun x hl hr => off1 x (by dsimp only at hl hr; omega)
    · rw [← hb.owner]
      exact read_congr fun x hl hr => off1 x (by dsimp only at hl hr; omega)
    · exact size1
  have hO : Tiles b.addr (b.addr + (b.size + c.size)) [b, c] :=
    ⟨rfl, hsb, hcaddr, hsc, by simp only [Tiles]; omega⟩
  have hN : Tiles b.addr (b.addr + (b.size + c.size)) [⟨b.addr, b.size + c.size, b.free⟩] :=
    ⟨rfl, by dsimp only; omega, rfl⟩
  have out : ∀ x, x < b.addr ∨ b.addr + (b.size + c.size) ≤ x → footerSync m1 b.addr x = m x :=
    fun x hx => off2 x (by omega) (by omega)
  have tiles := h.tiles.replace hO hN
  have fields := fields_beside h.tiles hO h.fields out
    (N := [⟨b.addr, b.size + c.size, b.free⟩]) (by simpa using hnew)
  have links : DList _ _ 0 fl (xs ++ c.addr :: ys) := links_beside h hO out (by
    intro d hd x hl hr
    simp only [List.mem_cons, List.not_mem_nil, or_false] at hd
    rcases hd with rfl | rfl
    · exact off2 x (by omega) (by omega)
    · exact off2 x (by omega) (by omega))
  have nodes : ∀ z ∈ xs ++ ys, ∃ d ∈ L ++ [⟨b.addr, b.size + c.size, b.free⟩] ++ R,
      d.addr = z := by
    intro z hz
    have hzc : z ≠ c.addr := by
      rintro rfl
      simp [hcx, hcy] at hz
    obtain ⟨d, hd, rfl⟩ := h.nodes z (by
      rcases List.mem_append.mp hz with hz | hz <;> simp [hz])
    simp only [List.append_assoc, List.mem_append, List.mem_cons, List.not_mem_nil,
      or_false] at hd
    rcases hd with hd | (rfl | rfl) | hd
    · exact ⟨d, by simp [hd], rfl⟩
    · exact ⟨⟨d.addr, d.size + c.size, d.free⟩, by simp, rfl⟩
    · exact absurd rfl hzc
    · exact ⟨d, by simp [hd], rfl⟩
  obtain ⟨hl, ho⟩ := unlinkBlock_spec links h.spaced
  rw [hm1] at hl ho fields
  rw [hL']
  exact ⟨h.owner, h.base, h.bound, tiles,
    fun d hd => (fields d hd).offLinks tiles hd nodes ho, hl, nodes⟩

end LibZenit.Arena
