import LibZenit.ArenaRuns

/-!
# Requests of every size

`align_up` tells a size that cannot be rounded, but header and footer are added without a test. A
sum that wraps asks the free list for a few bytes, and the first block on it is taken.
-/
namespace LibZenit.Arena
open ByteMemory LinkedChain

variable {w w' : World} {uaPtr lo hi size fuel : ℕ} {ua : UsableArena} {buf : UsableBuffer}

/-- A usable arena with its handle, whose region is laid out as it should be. -/
structure UsableArena.WellFormed (w : World) (uaPtr : ℕ) (ua : UsableArena) : Prop where
  pointer : uaPtr ≠ 0
  handle : w.handles uaPtr = some ua
  layout : ∃ blocks chain,
    Layout w.mem uaPtr ua.memory (ua.memory + ua.size) ua.freeList blocks chain

theorem Consistent.wellFormed {live : List UsableBuffer} (hpointer : uaPtr ≠ 0)
    (h : Consistent uaPtr lo hi ⟨w, live⟩) : ∃ ua, UsableArena.WellFormed w uaPtr ua := by
  obtain ⟨ua, blocks, chain, h⟩ := h
  refine ⟨ua, hpointer, h.handle, blocks, chain, ?_⟩
  rw [h.stop, h.memory]
  exact h.layout

/-- No buffer, or one of the requested size at least, in a block of the region that has room for
header, reported size and footer. -/
def Served (w : World) (ua : UsableArena) (size : ℕ) (buf : UsableBuffer) : Prop :=
  buf.data = 0 ∨ ∃ h, buf.data = h + headerSize ∧ size ≤ buf.size ∧
    headerSize + buf.size + footerSize ≤ hSize w.mem h ∧
    ua.memory ≤ h ∧ h + hSize w.mem h ≤ ua.memory + ua.size

/-- The request is refused as too large, or its block size does not wrap. -/
def SumFits (size : ℕ) : Prop :=
  alignUp size = sizeMax ∨ headerSize + alignUp size + footerSize ≤ sizeMax

theorem sumFits_zero : SumFits 0 := .inr (by decide)

theorem alignUp_le (size : ℕ) : alignUp size ≤ sizeMax := by
  by_cases hle : size ≤ sizeMax - 7
  · rw [alignUp_eq hle]
    unfold sizeMax at hle ⊢
    omega
  · unfold alignUp alignment
    rw [if_pos (by omega)]

/-- What is left of a sum that wraps is less than any block. -/
theorem wrapped_lt (h : ¬SumFits size) :
    wrap (headerSize + alignUp size + footerSize) < minSplitTotal := by
  have hle := alignUp_le size
  simp only [SumFits, not_or] at h
  unfold wrap minSplitTotal headerSize footerSize alignment sizeMax at *
  omega

/-! ## A request that does not wrap stays in its region -/

section Accesses

variable {m : Memory} {fl : ℕ} {blocks L R : List Block} {chain xs ys : List ℕ} {b : Block}

theorem UsableArena.holds_block {a s : ℕ}
    (h : Tiles ua.memory (ua.memory + ua.size) blocks) (hb : b ∈ blocks) (hlow : b.addr ≤ a)
    (hhigh : a + s ≤ b.addr + b.size) : ua.Holds (a, s) := by
  obtain ⟨hfirst, hlast, -⟩ := h.mem b hb
  exact ⟨by dsimp only; omega, by dsimp only; omega⟩

theorem Core.holds_node (h : Core m uaPtr ua.memory (ua.memory + ua.size) fl blocks chain)
    {z : ℕ} (hz : z ∈ chain) : ua.Holds (z, headerSize) := by
  obtain ⟨b, hb, rfl⟩ := h.nodes z hz
  have hsize := (h.tiles.mem b hb).2.2
  simp only [minSplitTotal, headerSize, alignment, footerSize] at hsize
  exact UsableArena.holds_block h.tiles hb le_rfl (by simp only [headerSize]; omega)

theorem mem_nodeAccess {link : ℕ} {a : Access} (h : a ∈ nodeAccess link) :
    link ≠ 0 ∧ a = (link, headerSize) := by
  unfold nodeAccess at h
  split_ifs at h with hnull
  · simp at h
  · exact ⟨hnull, List.mem_singleton.mp h⟩

theorem Core.unlink_holds
    (h : Core m uaPtr ua.memory (ua.memory + ua.size) fl blocks (xs ++ b.addr :: ys)) :
    ∀ a ∈ unlinkAccesses m b.addr, ua.Holds a := by
  have hprev : hPrev m b.addr ≠ 0 → hPrev m b.addr ∈ xs := fun hne => by
    rw [h.links.prev_eq] at hne ⊢
    exact getLastD_mem hne
  have hnext : hNext m b.addr ≠ 0 → hNext m b.addr ∈ ys := fun hne => by
    rw [h.links.next_eq] at hne ⊢
    exact headD_mem hne
  -- the store into the node before `b` does not move the link of `b`
  have hkept : hNext (if hPrev m b.addr ≠ 0 then setNext m (hPrev m b.addr) (hNext m b.addr) else m)
      b.addr = hNext m b.addr := by
    split_ifs with hne
    · obtain ⟨-, -, hbx, -⟩ := h.links.append_facts
      have hmem := hprev hne
      exact hNext_setNext_apart (h.spaced _ (by simp [hmem]) _ (by simp)
        fun he => hbx (he ▸ hmem))
    · rfl
  intro a ha
  unfold unlinkAccesses at ha
  rw [hkept] at ha
  rcases List.mem_append.mp ha with ha | ha
  · obtain ⟨hne, rfl⟩ := mem_nodeAccess ha
    exact h.holds_node (by simp [hprev hne])
  · obtain ⟨hne, rfl⟩ := mem_nodeAccess ha
    exact h.holds_node (by simp [hnext hne])

/-- The last footer is that of the claimed block, whose size the unlinking leaves alone. -/
theorem Core.claimed_footer
    (h : Core m uaPtr ua.memory (ua.memory + ua.size) fl (L ++ b :: R) (xs ++ b.addr :: ys)) :
    ua.Holds (footerOf (setState (setNext (setPrev (unlinkBlock m fl b.addr).1 b.addr 0) b.addr 0)
      b.addr bufInUse) b.addr, footerSize) := by
  obtain ⟨-, -, hbx, hby, -⟩ := h.links.append_facts
  have hnot : b.addr ∉ xs ++ ys := by simp [hbx, hby]
  have hclear := (h.unlink).clearLinks (b := b) (by simp) hnot
  have hsize : hSize (setState (setNext (setPrev (unlinkBlock m fl b.addr).1 b.addr 0) b.addr 0)
      b.addr bufInUse) b.addr = b.size := by
    rw [← (hclear.fields b (by simp)).size]
    exact read_write_of_disjoint _ (by omega)
  have hroom := (h.tiles.mem b (by simp)).2.2
  simp only [minSplitTotal, headerSize, alignment, footerSize] at hroom
  unfold footerOf
  rw [hsize]
  exact UsableArena.holds_block h.tiles (by simp : b ∈ L ++ b :: R)
    (by simp only [footerSize]; omega) (by simp only [footerSize]; omega)

theorem Core.split_holds {k : ℕ}
    (h : Core m uaPtr ua.memory (ua.memory + ua.size) fl (L ++ b :: R) (xs ++ b.addr :: ys))
    (hf : b.free = true) (hk : minSplitTotal ≤ k) (hr : k + minSplitTotal ≤ b.size) :
    ∀ a ∈ splitAccesses m uaPtr b.addr k (b.size - k), ua.Holds a := by
  obtain ⟨-, -, hoff⟩ := splitTags_spec (h.fields b (by simp)) h.owner hf hk hr
  have hb : b ∈ L ++ b :: R := by simp
  have hnext : hNext m b.addr ≠ 0 → hNext m b.addr ∈ ys := fun hne => by
    rw [h.links.next_eq] at hne ⊢
    exact headD_mem hne
  simp only [minSplitTotal, headerSize, alignment, footerSize] at hk hr
  have hkept : hNext (setPrev (setNext (splitTags m uaPtr b.addr k (b.size - k)) (b.addr + k)
      (hNext (splitTags m uaPtr b.addr k (b.size - k)) b.addr)) (b.addr + k) b.addr) b.addr =
      hNext m b.addr := by
    rw [hNext_setPrev (.inr (.inr (by omega))), hNext_setNext_apart (.inr (by omega))]
    exact read_congr fun x hl hh => hoff x (by omega) (by omega) (by omega)
  intro a ha
  unfold splitAccesses at ha
  dsimp only at ha
  rw [hkept] at ha
  rcases List.mem_append.mp ha with ha | ha
  · simp only [List.mem_cons, List.not_mem_nil, or_false, headerSize, footerSize] at ha
    rcases ha with rfl | rfl | rfl
    · exact UsableArena.holds_block h.tiles hb (by omega) (by omega)
    · exact UsableArena.holds_block h.tiles hb (by omega) (by omega)
    · exact UsableArena.holds_block h.tiles hb (by omega) (by omega)
  · obtain ⟨hne, rfl⟩ := mem_nodeAccess ha
    exact h.holds_node (by simp [hnext hne])

/-- A block with room for what it is claimed for is claimed without an access outside the region. -/
theorem Layout.claim_holds {k walk : ℕ}
    (h : Layout m uaPtr ua.memory (ua.memory + ua.size) fl blocks chain) (hw : walk ∈ chain)
    (hfit : k ≤ hSize m walk) (hk : minSplitTotal ≤ k) :
    ∀ a ∈ claimAccesses m uaPtr fl walk k, ua.Holds a := by
  have hhead := h.holds_node hw
  obtain ⟨b, hb, rfl⟩ := h.nodes walk hw
  obtain ⟨xs, ys, rfl⟩ := List.append_of_mem hw
  obtain ⟨L, R, rfl⟩ := List.append_of_mem hb
  have hf : b.free = true := (h.free b (by simp)).mp (by simp)
  have hsize := (h.fields b (by simp)).size
  rw [hsize] at hfit
  intro a ha
  unfold claimAccesses at ha
  rw [hsize] at ha
  dsimp only at ha
  by_cases hr : b.size - k ≥ minSplitTotal
  · have hroom : k + minSplitTotal ≤ b.size := by omega
    have hcore := h.toCore.split hf hk hroom
    rw [if_pos hr, if_pos hr] at ha
    simp only [List.cons_append, List.mem_cons, List.mem_append, List.not_mem_nil, or_false] at ha
    rcases ha with rfl | (ha | ha) | rfl
    · exact hhead
    · exact h.toCore.split_holds hf hk hroom a ha
    · exact hcore.unlink_holds (b := ⟨b.addr, k, true⟩) a ha
    · exact hcore.claimed_footer (b := ⟨b.addr, k, true⟩)
  · rw [if_neg hr, if_neg hr] at ha
    simp only [List.cons_append, List.mem_cons, List.mem_append, List.not_mem_nil, or_false,
      false_or] at ha
    rcases ha with rfl | ha | rfl
    · exact hhead
    · exact h.toCore.unlink_holds a ha
    · exact h.toCore.claimed_footer

theorem findFitAccesses_mem {k walk : ℕ} (hs : Seg (hNext m) walk chain 0)
    (h0 : ∀ z ∈ chain, z ≠ 0) :
    ∀ a ∈ findFitAccesses m k fuel walk, ∃ z ∈ chain, a = (z, headerSize) := by
  induction fuel generalizing walk chain with
  | zero => simp [findFitAccesses]
  | succ fuel ih =>
    cases chain with
    | nil =>
      obtain rfl : walk = 0 := hs
      simp [findFitAccesses]
    | cons z chain =>
      obtain ⟨rfl, hrest⟩ := hs
      intro a ha
      rw [findFitAccesses, if_neg (h0 walk (by simp))] at ha
      split_ifs at ha
      · exact ⟨walk, by simp, List.mem_singleton.mp ha⟩
      · rcases List.mem_cons.mp ha with rfl | ha
        · exact ⟨walk, by simp, rfl⟩
        · obtain ⟨y, hy, rfl⟩ := ih hrest (fun y hy => h0 y (by simp [hy])) a ha
          exact ⟨y, by simp [hy], rfl⟩

/-- On a region that is laid out as it should be, no request whose sum does not wrap faults. -/
theorem guardedAllocate_eq (hwf : ua.WellFormed w uaPtr) (hsum : SumFits size) (fuel : ℕ) :
    guardedAllocate fuel w uaPtr size = usableArenaAllocate fuel w uaPtr size := by
  obtain ⟨-, hhandle, blocks, chain, hlay⟩ := hwf
  unfold guardedAllocate
  rw [hhandle]
  refine if_pos fun a ha => ?_
  unfold allocateAccesses at ha
  split_ifs at ha with hnone
  · simp at ha
  · obtain ⟨-, hsize, hmax⟩ : uaPtr ≠ 0 ∧ size ≠ 0 ∧ alignUp size ≠ sizeMax := by
      simpa only [not_or] using hnone
    have hroom := hsum.resolve_left hmax
    have hge := (alignUp_ge hsize hmax).2
    rw [wrap_of_lt (by unfold sizeMax at hroom; omega)] at ha
    rcases List.mem_append.mp ha with ha | ha
    · obtain ⟨z, hz, rfl⟩ := findFitAccesses_mem hlay.links.seg hlay.links.nonnull a ha
      exact hlay.holds_node hz
    · split at ha
      · rename_i walk hfind
        obtain ⟨hmem, hfit⟩ := findFit_mem hlay.links.seg hlay.links.nonnull hfind
        exact hlay.claim_holds hmem hfit (by unfold minSplitTotal; omega) a ha
      · simp at ha

/-- So no step of a run on an acquired region faults: its allocations are those of the machine. -/
theorem Consistent.guardedAllocate_eq {live : List UsableBuffer} (hpointer : uaPtr ≠ 0)
    (h : Consistent uaPtr lo hi ⟨w, live⟩) (hmet : NoWrap ⟨w, live⟩ (.allocate size)) (fuel : ℕ) :
    guardedAllocate fuel w uaPtr size = usableArenaAllocate fuel w uaPtr size := by
  obtain ⟨ua, hwf⟩ := h.wellFormed hpointer
  exact Arena.guardedAllocate_eq hwf hmet fuel

end Accesses

/-! ## What a request is given -/

theorem findFit_null (m : Memory) (k fuel walk : ℕ) :
    findFit m k fuel 0 ≠ some (some walk) := by
  cases fuel <;> simp [findFit]

/-- A request for less than a block takes the first one on the list. -/
theorem findFit_first {m : Memory} {k : ℕ} {blocks : List Block} {chain : List ℕ}
    (h : Layout m uaPtr lo hi ua.freeList blocks chain) (hne : ua.freeList ≠ 0)
    (hk : k ≤ minSplitTotal) : findFit m k (fuel + 1) ua.freeList = some (some ua.freeList) := by
  have hhead := h.links.head_eq
  have hmem : ua.freeList ∈ chain := by
    rw [hhead] at hne ⊢
    exact headD_mem hne
  obtain ⟨b, hb, hz⟩ := h.nodes ua.freeList hmem
  have hfree : b.free = true := (h.free b hb).mp (hz ▸ hmem)
  have hfields := h.fields b hb
  have hsize := (h.tiles.mem b hb).2.2
  have hstate : hState m ua.freeList = bufFree := by
    rw [← hz, hfields.state, Block.tag, if_pos hfree]
  have hfit : k ≤ hSize m ua.freeList := by
    rw [← hz, hfields.size]
    exact hk.trans hsize
  rw [findFit, if_neg hne, if_pos ⟨hstate, hfit⟩]

/-- A block that is claimed for a sum that does not wrap is what the client may count on. -/
theorem claim_served {blocks : List Block} {chain : List ℕ} {walk : ℕ}
    {r : Memory × ℕ × UsableBuffer}
    (h : Layout w.mem uaPtr ua.memory (ua.memory + ua.size) ua.freeList blocks chain)
    (hsize : size ≠ 0) (hmax : alignUp size ≠ sizeMax) (hmem : walk ∈ chain)
    (hfit : headerSize + alignUp size + footerSize ≤ hSize w.mem walk)
    (hr : claimBlock w.mem uaPtr ua.freeList walk (headerSize + alignUp size + footerSize)
      (alignUp size) = r) (hw : w'.mem = r.1) :
    Served w' ua size ⟨walk + headerSize, alignUp size⟩ := by
  obtain ⟨hge, halign⟩ := alignUp_ge hsize hmax
  obtain ⟨blocks', chain', n, hn, hlay, -, htakes⟩ := h.claim hmem hfit
    (by unfold minSplitTotal; omega) hr
  have hb : (⟨walk, n, false⟩ : Block) ∈ blocks' := (htakes _ rfl).mpr (.inr rfl)
  have hblock : hSize w'.mem walk = n := by
    rw [hw]
    exact (hlay.fields _ hb).size
  obtain ⟨hlow, hhigh, -⟩ := hlay.tiles.mem _ hb
  refine .inr ⟨walk, rfl, hge, ?_, hlow, ?_⟩
  · rw [hblock]
    exact hn
  · rw [hblock]
    exact hhigh

/-- No block has room for a payload whose size with header and footer wraps. -/
theorem not_served_of_wrap (h : ¬SumFits size) (walk : ℕ) :
    ¬Served w' ua size ⟨walk + headerSize, alignUp size⟩ := by
  rintro (hnull | ⟨b, -, -, hroom, -⟩)
  · simp [headerSize] at hnull
  · have hlt : hSize w'.mem b < 256 ^ 8 := read_lt _ _ _
    simp only [SumFits, not_or, sizeMax] at h
    dsimp only at hroom
    omega

/-- A buffer that a request returns has its block exactly if the sum does not wrap or there is no
free block to be had. -/
theorem served_iff_of_allocate (hwf : ua.WellFormed w uaPtr)
    (he : usableArenaAllocate fuel w uaPtr size = some (w', buf)) :
    Served w' ua size buf ↔ SumFits size ∨ ua.freeList = 0 := by
  obtain ⟨hpointer, hhandle, blocks, chain, hlay⟩ := hwf
  unfold usableArenaAllocate at he
  dsimp only at he
  split_ifs at he with h0 hmax
  · obtain rfl : size = 0 := h0.resolve_left hpointer
    cases he
    exact ⟨fun _ => .inl sumFits_zero, fun _ => .inl rfl⟩
  · cases he
    exact ⟨fun _ => .inl (.inl hmax), fun _ => .inl rfl⟩
  · have hsize : size ≠ 0 := fun h => h0 (.inr h)
    rw [hhandle] at he
    dsimp only at he
    cases hfind : findFit w.mem (wrap (headerSize + alignUp size + footerSize)) fuel ua.freeList with
    | none => simp [hfind] at he
    | some found =>
      rw [hfind] at he
      cases found with
      | none =>
        cases he
        refine ⟨fun _ => ?_, fun _ => .inl rfl⟩
        by_contra hno
        obtain ⟨hwrap, hne⟩ := not_or.mp hno
        cases fuel with
        | zero => simp [findFit] at hfind
        | succ fuel =>
          rw [findFit_first hlay hne (wrapped_lt hwrap).le] at hfind
          cases hfind
      | some walk =>
        cases he
        have hne : ua.freeList ≠ 0 := by
          intro hnull
          rw [hnull] at hfind
          exact findFit_null _ _ _ _ hfind
        have hbuf : (claimBlock w.mem uaPtr ua.freeList walk
            (wrap (headerSize + alignUp size + footerSize)) (alignUp size)).2.2 =
            ⟨walk + headerSize, alignUp size⟩ := rfl
        rw [hbuf]
        constructor
        · intro hserved
          by_contra hno
          exact not_served_of_wrap (fun h => hno (.inl h)) walk hserved
        · intro hsum
          have hsum := (hsum.resolve_right hne).resolve_left hmax
          have hwrap : wrap (headerSize + alignUp size + footerSize) =
              headerSize + alignUp size + footerSize :=
            wrap_of_lt (by unfold sizeMax at hsum; omega)
          rw [hwrap] at hfind
          obtain ⟨hmem, hfit⟩ := findFit_mem hlay.links.seg hlay.links.nonnull hfind
          exact claim_served hlay hsize hmax hmem hfit rfl (by rw [hwrap])

theorem allocate_of_guarded {r : World × UsableBuffer}
    (h : guardedAllocate fuel w uaPtr size = some r) :
    usableArenaAllocate fuel w uaPtr size = some r := by
  unfold guardedAllocate at h
  split at h
  · exact h
  · split_ifs at h
    exact h

/-- Without a free block nothing is accessed. -/
theorem guardedAllocate_empty (hhandle : w.handles uaPtr = some ua) (hempty : ua.freeList = 0)
    (fuel : ℕ) : guardedAllocate fuel w uaPtr size = usableArenaAllocate fuel w uaPtr size := by
  unfold guardedAllocate
  rw [hhandle]
  refine if_pos fun a ha => ?_
  unfold allocateAccesses at ha
  rw [hempty] at ha
  split_ifs at ha
  · simp at ha
  · cases fuel <;> simp [findFitAccesses, findFit] at ha

/-- A request ends with a buffer that has its block, or with none, exactly if the sum does not wrap
or there is no free block to be had; and no other request returns such a buffer. -/
theorem allocate_served_iff (hwf : ua.WellFormed w uaPtr) :
    ((∃ fuel w' buf, guardedAllocate fuel w uaPtr size = some (w', buf) ∧ Served w' ua size buf) ↔
      SumFits size ∨ ua.freeList = 0) ∧
    ∀ fuel w' buf, guardedAllocate fuel w uaPtr size = some (w', buf) →
      (Served w' ua size buf ↔ SumFits size ∨ ua.freeList = 0) := by
  have hreturned : ∀ fuel w' buf, guardedAllocate fuel w uaPtr size = some (w', buf) →
      (Served w' ua size buf ↔ SumFits size ∨ ua.freeList = 0) := fun fuel w' buf he =>
    served_iff_of_allocate hwf (allocate_of_guarded he)
  refine ⟨⟨?_, fun hcond => ?_⟩, hreturned⟩
  · rintro ⟨fuel, w', buf, he, hserved⟩
    exact (hreturned fuel w' buf he).mp hserved
  · obtain ⟨-, hhandle, blocks, chain, hlay⟩ := id hwf
    obtain ⟨fuel, r, hr⟩ := allocate_terminates hhandle hlay.links size
    have hguarded : guardedAllocate fuel w uaPtr size = some (r.1, r.2) := by
      rw [← hr]
      rcases hcond with hsum | hempty
      · exact guardedAllocate_eq hwf hsum fuel
      · exact guardedAllocate_empty hhandle hempty fuel
    exact ⟨fuel, r.1, r.2, hguarded, (hreturned fuel r.1 r.2 hguarded).mpr hcond⟩

theorem demo_wellFormed : ∃ ua, UsableArena.WellFormed demoStart.world 8 ua := by
  obtain ⟨lo, h⟩ := acquire_consistent demo_valid (by norm_num) (by decide) demo_acquired
  exact h.wellFormed (by norm_num)

theorem allocate_served_eight : ∃ ua fuel w' buf,
    guardedAllocate fuel demoStart.world 8 8 = some (w', buf) ∧ Served w' ua 8 buf := by
  obtain ⟨ua, hwf⟩ := demo_wellFormed
  obtain ⟨hiff, -⟩ := @allocate_served_iff demoStart.world 8 8 ua hwf
  obtain ⟨fuel, w', buf, hr, hserved⟩ := hiff.mpr (.inl (.inr (by decide)))
  exact ⟨ua, fuel, w', buf, hr, hserved⟩

-- The footer of the claimed block lies on its own header here, so the fields have to be followed
-- byte by byte.
unseal ByteMemory.read ByteMemory.write in
/-- The block of 32 bytes that is left of the sum is cut off without leaving the region. -/
theorem demo_wrapped_holds : ∀ a ∈ allocateAccesses 1 demoStart.world.mem (demoArena 4096) 8
    (2 ^ 64 - 24), (demoArena 4096).Holds a := by
  decide

/-- Almost `2 ^ 64` bytes are handed out in a region of 192 bytes. -/
theorem wrapped_request_granted : ∃ ua w' buf, ua.WellFormed demoStart.world 8 ∧
    guardedAllocate 1 demoStart.world 8 (2 ^ 64 - 24) = some (w', buf) ∧
    buf.data ≠ 0 ∧ buf.size = 2 ^ 64 - 24 ∧ ¬Served w' ua (2 ^ 64 - 24) buf := by
  obtain ⟨ua, hwf⟩ := demo_wellFormed
  have hwrap : ¬SumFits (2 ^ 64 - 24) := by
    rintro (h | h)
    · exact absurd h (by decide)
    · exact absurd h (by decide)
  have halign : alignUp (2 ^ 64 - 24) = 2 ^ 64 - 24 := by decide
  have hua : demoStart.world.handles 8 = some (demoArena 4096) := by decide
  obtain rfl : ua = demoArena 4096 := Option.some.inj (hwf.handle.symm.trans hua)
  obtain ⟨blocks, chain, hlay⟩ := hwf.layout
  have hfind : findFit demoStart.world.mem (wrap (headerSize + alignUp (2 ^ 64 - 24) + footerSize))
      1 (demoArena 4096).freeList = some (some (demoArena 4096).freeList) :=
    findFit_first hlay (by decide) (wrapped_lt hwrap).le
  have hgrant : ∃ w', guardedAllocate 1 demoStart.world 8 (2 ^ 64 - 24) =
      some (w', ⟨4096 + headerSize, alignUp (2 ^ 64 - 24)⟩) := by
    unfold guardedAllocate
    rw [hua]
    dsimp only
    rw [if_pos demo_wrapped_holds]
    unfold usableArenaAllocate
    rw [if_neg (by decide)]
    dsimp only
    rw [if_neg (by decide), hua]
    dsimp only
    rw [hfind]
    exact ⟨_, rfl⟩
  obtain ⟨w', hw'⟩ := hgrant
  exact ⟨_, w', _, hwf, hw', by decide, halign, not_served_of_wrap hwrap 4096⟩

end LibZenit.Arena
