import LibZenit.ArenaSafety

/-!
# Whole runs on an acquired region

Live blocks stay inside the region and apart, and the free list stays exact, in every run that
never frees a buffer right behind a free block. Such a free re-inserts a block that is already on
the list; the runs below show what follows.
-/
namespace LibZenit.Arena
open ByteMemory LinkedChain

/-! ## The state after `zenit_arena_acquire` -/

/-- What creation guarantees: the blocks make up the pool, and the pool is a range of addresses. -/
structure ArenaHandle.Valid (a : ArenaHandle) : Prop where
  block : 0 < a.blockSize
  total : a.blockCount * a.blockSize = a.totalSize
  base : 0 < a.memory
  bound : a.memory + a.totalSize ≤ 2 ^ 64

theorem arenaCreate_valid {mem : Memory} {totalSize blockSize memory : ℕ} {handle bitmap : Bool}
    {w : World} (hbase : 0 < memory) (hbound : memory + totalSize ≤ 2 ^ 64)
    (h : arenaCreateWithAllocator mem totalSize blockSize handle (some memory) bitmap = some w) :
    w.arena.Valid := by
  unfold arenaCreateWithAllocator at h
  dsimp only at h
  split_ifs at h with hbad
  obtain rfl := by simpa using h
  simp only [not_or, not_not] at hbad
  exact ⟨Nat.pos_of_ne_zero hbad.2.1, Nat.div_mul_cancel (Nat.dvd_of_mod_eq_zero hbad.2.2),
    hbase, hbound⟩

theorem bitmapFindFrom_bound {bitmap : List UInt8} {needed left i run start : ℕ} (hrun : run ≤ i)
    (h : bitmapFindFrom bitmap needed left i run = some start) : start + needed ≤ i + left := by
  induction left generalizing i run with
  | zero => simp [bitmapFindFrom] at h
  | succ left ih =>
    rw [bitmapFindFrom] at h
    split_ifs at h with hbit hfull
    · obtain rfl := by simpa using h
      omega
    · have := ih (by omega) h
      omega
    · have := ih (by omega) h
      omega

theorem initRegion_layout {m : Memory} {uaPtr a size : ℕ} (hu : uaPtr < 2 ^ 64) (ha : 0 < a)
    (hb : a + size ≤ 2 ^ 64) (hs : minSplitTotal ≤ size) :
    Layout (initRegion m uaPtr a size) uaPtr a (a + size) a [⟨a, size, true⟩] [a] := by
  have hs' := hs
  simp only [minSplitTotal, headerSize, alignment, footerSize] at hs'
  obtain ⟨n, hn⟩ : ∃ n, n = setPrev (setNext (setSize (setUa (setState m a bufFree) a uaPtr) a
    size) a 0) a 0 := ⟨_, rfl⟩
  have hsize : hSize n a = size := by
    rw [hn]
    unfold hSize setPrev setNext setSize
    rw [read_write_of_disjoint _ (by omega), read_write_of_disjoint _ (by omega),
      read_write_of_lt _ (show size < 2 ^ 64 by omega)]
  have hblock : BlockAt (footerSync n a) uaPtr ⟨a, size, true⟩ := by
    apply blockAt_footerSync (b := ⟨a, size, true⟩) hs
    · rw [hn]
      unfold hState setPrev setNext setSize setUa setState
      dsimp only
      rw [read_write_of_disjoint _ (by omega), read_write_of_disjoint _ (by omega),
        read_write_of_disjoint _ (by omega), read_write_of_disjoint _ (by omega)]
      exact read_write_of_lt _ (by decide)
    · rw [hn]
      unfold hUa setPrev setNext setSize setUa
      dsimp only
      rw [read_write_of_disjoint _ (by omega), read_write_of_disjoint _ (by omega),
        read_write_of_disjoint _ (by omega)]
      exact read_write_of_lt _ hu
    · exact hsize
  have hlink : ∀ x, x < a + size - 16 ∨ a + size ≤ x → footerSync n a x = n x := fun x hx =>
    footerSync_off hsize (by omega) hx
  have hnext : hNext (footerSync n a) a = 0 := by
    have : hNext n a = 0 := by
      rw [hn, hNext_setPrev (Or.inl rfl), hNext_setNext_same (by norm_num)]
    rw [← this]
    exact read_congr fun x hl hr => hlink x (by omega)
  have hprev : hPrev (footerSync n a) a = 0 := by
    have : hPrev n a = 0 := by rw [hn, hPrev_setPrev_same (by norm_num)]
    rw [← this]
    exact read_congr fun x hl hr => hlink x (by omega)
  have heq : initRegion m uaPtr a size = footerSync n a := by rw [hn]; rfl
  rw [heq]
  refine ⟨⟨hu, ha, hb, ⟨rfl, hs, rfl⟩, by simpa using hblock, ?_, by simp⟩, by simp, ?_⟩
  · exact ⟨⟨rfl, hnext⟩, ⟨hprev, trivial⟩, by simp, by simp; omega⟩
  · exact List.isChain_singleton _

theorem acquire_consistent {w w' : World} {size uaPtr : ℕ} (hv : w.arena.Valid)
    (hu : uaPtr < 2 ^ 64) (hs : minSplitTotal ≤ size)
    (h : arenaAcquire w size (some uaPtr) = (w', some uaPtr)) :
    ∃ lo, Consistent uaPtr lo (lo + size) ⟨w', []⟩ := by
  unfold arenaAcquire at h
  dsimp only at h
  split_ifs at h with hbad
  · simp at h
  · split at h
    · simp at h
    · rename_i start hfind
      simp only [not_or, not_not] at hbad
      have hstart := bitmapFindFrom_bound le_rfl hfind
      have hsize : size / w.arena.blockSize * w.arena.blockSize = size :=
        Nat.div_mul_cancel (Nat.dvd_of_mod_eq_zero hbad.2)
      have hfit : start * w.arena.blockSize + size ≤ w.arena.totalSize := by
        have := Nat.mul_le_mul_right w.arena.blockSize hstart
        rw [Nat.add_mul, hsize, zero_add, hv.total] at this
        exact this
      have hbase := hv.base
      have hbound := hv.bound
      obtain ⟨rfl, -⟩ := Prod.mk.inj h
      have hlay := initRegion_layout (m := w.mem) (a := w.arena.memory + start * w.arena.blockSize)
        hu (by omega) (by omega) hs
      exact ⟨w.arena.memory + start * w.arena.blockSize, _, _, _, Function.update_self _ _ _,
        rfl, rfl, hlay, by simp, by simp, by simp⟩

/-! ## A run on a small region

Three blocks of 64 bytes fill a region of 192 bytes. Freeing the middle one and then the last one
takes the backward merge. -/

theorem run_of_execAll {uaPtr fuel : ℕ} {cond : Session → Op → Prop} {ops : List Op}
    (hc : ∀ op ∈ ops, ∀ t, cond t op) {s u : Session}
    (h : execAll uaPtr fuel s ops = some u) : Run uaPtr cond s u := by
  have key : ∀ r, Run uaPtr cond r s → Run uaPtr cond r u := by
    induction ops generalizing s with
    | nil =>
      obtain rfl : s = u := by simpa [execAll] using h
      exact fun r hr => hr
    | cons op ops ih =>
      simp only [execAll, List.foldlM_cons] at h
      obtain ⟨t, hop, hrest⟩ := Option.bind_eq_some_iff.mp h
      intro r hr
      exact ih (fun o ho => hc o (by simp [ho])) hrest r (hr.step (hc op (by simp) s) hop)
  exact key s (Run.refl s)

theorem execAll_append {uaPtr fuel : ℕ} {s t u : Session} {xs ys : List Op}
    (hx : execAll uaPtr fuel s xs = some t) (hy : execAll uaPtr fuel t ys = some u) :
    execAll uaPtr fuel s (xs ++ ys) = some u := by
  unfold execAll at *
  rw [List.foldlM_append, hx]
  exact hy

def demoWorld : World :=
  ⟨fun _ => 0, ⟨192, 192, 1, 4096, [0], 1⟩, fun _ => none⟩

def demoStart : Session := ⟨(arenaAcquire demoWorld 192 (some 8)).1, []⟩

def demoArena (freeList : ℕ) : UsableArena := ⟨0, 1, 4096, 192, freeList⟩

/-- Field values, each given by address, width and content. -/
def Reads (m : Memory) (fields : List (ℕ × ℕ × ℕ)) : Prop :=
  ∀ f ∈ fields, ByteMemory.read m f.1 f.2.1 = f.2.2

theorem demo_created :
    arenaCreateWithAllocator (fun _ => 0) 192 192 true (some 4096) true = some demoWorld := by
  simp [arenaCreateWithAllocator, demoWorld]

theorem demo_valid : demoWorld.arena.Valid :=
  arenaCreate_valid (by norm_num) (by norm_num) demo_created

theorem demo_acquired :
    arenaAcquire demoWorld 192 (some 8) = (demoStart.world, some 8) := by
  simp [arenaAcquire, demoStart, demoWorld, bitmapFindContiguous, bitmapFindFrom, bitmapGet]

def demoFill : List Op := [.allocate 8, .allocate 8, .allocate 8]

theorem demo_filled : ∃ s, execAll 8 5 demoStart demoFill = some s ∧
    s.live = [⟨4264, 8⟩, ⟨4200, 8⟩, ⟨4136, 8⟩] ∧ s.world.handles 8 = some (demoArena 0) ∧
    Reads s.world.mem [(4096, 4, 1), (4104, 8, 8), (4112, 8, 64), (4144, 8, 64), (4152, 4, 1),
      (4160, 4, 1), (4168, 8, 8), (4176, 8, 64), (4208, 8, 64), (4216, 4, 1),
      (4224, 4, 1), (4232, 8, 8), (4240, 8, 64)] := by
  simp [demoStart, demoWorld, demoArena, demoFill, Reads, execAll, arenaAcquire,
    bitmapFindContiguous, bitmapFindFrom, bitmapGet, exec, usableArenaAllocate, initRegion,
    findFit, claimBlock, splitBlock, splitTags, linkAfter, unlinkBlock, footerSync, footerOf,
    setState, setSize, setUa, setNext, setPrev, hState, hSize, hNext, hPrev, headerSize,
    footerSize, alignment, minSplitTotal, bufFree, bufInUse, wrap, alignUp, sizeMax,
    read_write_of_disjoint, read_write_of_lt]

/-- The last buffer is freed again; the block before it is in use. -/
theorem demo_freed : ∃ s, Run 8 (fun t op => NoWrap t op ∧ NoBackwardMerge 8 t op) demoStart s ∧
    s.live = [⟨4200, 8⟩, ⟨4136, 8⟩] := by
  obtain ⟨s, hs, hl, hh, hm⟩ := demo_filled
  have hfilled : Run 8 (fun t op => NoWrap t op ∧ NoBackwardMerge 8 t op) demoStart s :=
    run_of_execAll (by simp [demoFill, NoWrap, NoBackwardMerge, alignUp, alignment, headerSize,
      footerSize, sizeMax]) hs
  simp only [Reads, List.mem_cons, List.not_mem_nil, or_false, forall_eq_or_imp, forall_eq] at hm
  have hmet : NoWrap s (.free ⟨4264, 8⟩) ∧ NoBackwardMerge 8 s (.free ⟨4264, 8⟩) := by
    refine ⟨trivial, fun ua hua => ?_⟩
    obtain rfl : ua = demoArena 0 := by simpa [hh] using hua.symm
    simp [PrecededByFree, fState, headerSize, footerSize, bufFree, hm]
  obtain ⟨u, hu, hlive⟩ : ∃ u, exec 8 5 s (.free ⟨4264, 8⟩) = some u ∧
      u.live = [⟨4200, 8⟩, ⟨4136, 8⟩] := by
    simp [exec, hl, hh, hm, demoArena, usableBufferFree, coalesceNext, coalescePrev, footerSync,
      footerOf, setState, hState, hSize, hUa, fState, headerSize, footerSize, bufFree, bufInUse,
      read_write_of_disjoint, read_write_of_lt]
  exact ⟨u, hfilled.step hmet hu, hlive⟩

def demoMerge : List Op := [.free ⟨4200, 8⟩, .free ⟨4264, 8⟩]

/-- The merged block at 4160 is now its own successor and predecessor. -/
theorem demo_merged {s : Session} (hl : s.live = [⟨4264, 8⟩, ⟨4200, 8⟩, ⟨4136, 8⟩])
    (hh : s.world.handles 8 = some (demoArena 0))
    (hm : Reads s.world.mem [(4096, 4, 1), (4104, 8, 8), (4112, 8, 64), (4144, 8, 64),
      (4152, 4, 1), (4160, 4, 1), (4168, 8, 8), (4176, 8, 64), (4208, 8, 64), (4216, 4, 1),
      (4224, 4, 1), (4232, 8, 8), (4240, 8, 64)]) :
    ∃ t, execAll 8 5 s demoMerge = some t ∧ t.live = [⟨4136, 8⟩] ∧
      t.world.handles 8 = some (demoArena 4160) ∧
      Reads t.world.mem [(4096, 4, 1), (4104, 8, 8), (4112, 8, 64),
        (4160, 4, 0), (4176, 8, 128), (4184, 8, 4160), (4192, 8, 4160)] := by
  simp only [Reads, List.mem_cons, List.not_mem_nil, or_false, forall_eq_or_imp, forall_eq] at hm
  simp [demoMerge, Reads, execAll, exec, hl, hh, hm, demoArena, usableBufferFree, coalesceNext,
    coalescePrev, pushFree, unlinkBlock, footerSync, footerOf, setState, setSize, setNext,
    setPrev, hState, hSize, hUa, hNext, hPrev, fState, fSize, headerSize, footerSize, bufFree,
    bufInUse, read_write_of_disjoint, read_write_of_lt]

/-! ## Live blocks -/

/-- Every live block, header to footer, lies in the region and holds its payload; different live
blocks share no byte. -/
def LiveBlocksApart (uaPtr : ℕ) (s : Session) : Prop :=
  ∃ ua, s.world.handles uaPtr = some ua ∧
    (∀ buf ∈ s.live, ua.memory ≤ blockStart buf ∧
      buf.data + buf.size + footerSize ≤ blockEnd s.world.mem buf ∧
      blockEnd s.world.mem buf ≤ ua.memory + ua.size) ∧
    s.live.Pairwise (Apart s.world.mem)

theorem Consistent.liveBlocksApart {uaPtr lo hi : ℕ} {s : Session}
    (h : Consistent uaPtr lo hi s) : LiveBlocksApart uaPtr s := by
  obtain ⟨ua, blocks, chain, h⟩ := h
  have hstart : ∀ b ∈ blocks, ∀ buf : UsableBuffer, buf.data = b.addr + headerSize →
      blockStart buf = b.addr ∧ blockEnd s.world.mem buf = b.addr + b.size := by
    intro b hb buf hd
    have h1 : blockStart buf = b.addr := by unfold blockStart; omega
    exact ⟨h1, by unfold blockEnd; rw [h1, (h.layout.fields b hb).size]⟩
  refine ⟨ua, h.handle, fun buf hbuf => ?_, ?_⟩
  · obtain ⟨b, hb, -, hbd, hbs⟩ := h.owned buf hbuf
    obtain ⟨h1, h2⟩ := hstart b hb buf hbd
    have hm := h.layout.tiles.mem b hb
    rw [h1, h2, h.stop, h.memory]
    exact ⟨hm.1, by omega, hm.2.1⟩
  · have hnd := List.pairwise_map.mp (List.nodup_iff_pairwise_ne.mp h.distinct)
    refine List.Pairwise.imp_of_mem ?_ hnd
    intro x y hx hy hne
    obtain ⟨b, hb, -, hbd, -⟩ := h.owned x hx
    obtain ⟨c, hc, -, hcd, -⟩ := h.owned y hy
    obtain ⟨h1, h2⟩ := hstart b hb x hbd
    obtain ⟨h3, h4⟩ := hstart c hc y hcd
    unfold Apart
    rw [h1, h2, h3, h4]
    exact h.layout.tiles.apart hb hc fun he => hne (by rw [hbd, hcd, he])

theorem live_blocks_apart {w w' : World} {size uaPtr : ℕ} (hv : w.arena.Valid)
    (hu : uaPtr < 2 ^ 64) (hs : minSplitTotal ≤ size)
    (hacq : arenaAcquire w size (some uaPtr) = (w', some uaPtr)) {s : Session}
    (hrun : Run uaPtr (fun t op => NoWrap t op ∧ NoBackwardMerge uaPtr t op) ⟨w', []⟩ s) :
    LiveBlocksApart uaPtr s := by
  obtain ⟨lo, h⟩ := acquire_consistent hv hu hs hacq
  exact (h.run hrun).liveBlocksApart

/-- Three buffers are allocated and one of them is freed. -/
theorem live_blocks_apart_filled : ∃ s,
    Run 8 (fun t op => NoWrap t op ∧ NoBackwardMerge 8 t op) demoStart s ∧
    s.live.length = 2 ∧ LiveBlocksApart 8 s := by
  obtain ⟨s, hrun, hl⟩ := demo_freed
  exact ⟨s, hrun, by simp [hl],
    live_blocks_apart demo_valid (by norm_num) (by decide) demo_acquired hrun⟩

def demoReuse : List Op := [.free ⟨4136, 8⟩, .allocate 136, .allocate 8]

/-- The first block takes in the whole region, but the block at 4160 stays on the list and is
handed out although its bytes belong to the buffer just allocated. -/
theorem demo_reused {s : Session} (hl : s.live = [⟨4136, 8⟩])
    (hh : s.world.handles 8 = some (demoArena 4160))
    (hm : Reads s.world.mem [(4096, 4, 1), (4104, 8, 8), (4112, 8, 64),
        (4160, 4, 0), (4176, 8, 128), (4184, 8, 4160), (4192, 8, 4160)]) :
    ∃ t, execAll 8 5 s demoReuse = some t ∧ t.live = [⟨4200, 8⟩, ⟨4136, 136⟩] ∧
      Reads t.world.mem [(4112, 8, 192), (4176, 8, 64)] := by
  simp only [Reads, List.mem_cons, List.not_mem_nil, or_false, forall_eq_or_imp, forall_eq] at hm
  simp [demoReuse, Reads, execAll, exec, hl, hh, hm, demoArena, usableBufferFree, coalesceNext,
    coalescePrev, pushFree, usableArenaAllocate, findFit, claimBlock, splitBlock, splitTags,
    linkAfter, unlinkBlock, footerSync, footerOf, setState, setSize, setUa, setNext, setPrev,
    hState, hSize, hUa, hNext, hPrev, headerSize, footerSize, bufFree, bufInUse, alignment,
    minSplitTotal, wrap, alignUp, sizeMax, read_write_of_disjoint, read_write_of_lt]

theorem live_blocks_overlap :
    arenaCreateWithAllocator (fun _ => 0) 192 192 true (some 4096) true = some demoWorld ∧
    arenaAcquire demoWorld 192 (some 8) = (demoStart.world, some 8) ∧
    ∃ s, execAll 8 5 demoStart (demoFill ++ demoMerge ++ demoReuse) = some s ∧
      Run 8 NoWrap demoStart s ∧ s.live = [⟨4200, 8⟩, ⟨4136, 136⟩] ∧
      ¬LiveBlocksApart 8 s := by
  refine ⟨demo_created, demo_acquired, ?_⟩
  obtain ⟨s1, hs1, hl1, hh1, hm1⟩ := demo_filled
  obtain ⟨s2, hs2, hl2, hh2, hm2⟩ := demo_merged hl1 hh1 hm1
  obtain ⟨s3, hs3, hl3, hm3⟩ := demo_reused hl2 hh2 hm2
  have hall := execAll_append (execAll_append hs1 hs2) hs3
  refine ⟨s3, hall, run_of_execAll ?_ hall, hl3, ?_⟩
  · simp [demoFill, demoMerge, demoReuse, NoWrap, alignUp, alignment, headerSize, footerSize,
      sizeMax]
  · rintro ⟨ua, -, -, hp⟩
    simp only [Reads, List.mem_cons, List.not_mem_nil, or_false, forall_eq_or_imp,
      forall_eq] at hm3
    simp [hl3, Apart, blockEnd, blockStart, headerSize, hSize, hm3] at hp

/-! ## The free list -/

/-- The headers met from `pos` on, each found by adding the size of the one before. -/
def HeaderWalk (m : Memory) (stop : ℕ) : ℕ → List ℕ → Prop
  | pos, [] => stop ≤ pos
  | pos, h :: hs => pos < stop ∧ h = pos ∧ HeaderWalk m stop (pos + hSize m pos) hs

/-- The list from `free_list` is finite, duplicate-free and inverted by `prev`; it holds exactly
the free blocks of the region; every request ends; and without live buffers one free block spans
the region. -/
def FreeListExact (uaPtr : ℕ) (s : Session) : Prop :=
  ∃ ua headers chain, s.world.handles uaPtr = some ua ∧
    HeaderWalk s.world.mem (ua.memory + ua.size) ua.memory headers ∧
    DList (hNext s.world.mem) (hPrev s.world.mem) 0 ua.freeList chain ∧
    (∀ a, a ∈ chain ↔ a ∈ headers ∧ hState s.world.mem a = bufFree) ∧
    (∀ size ≤ sizeMax, ∃ fuel r, usableArenaAllocate fuel s.world uaPtr size = some r) ∧
    (s.live = [] → headers = [ua.memory] ∧ hState s.world.mem ua.memory = bufFree ∧
      hSize s.world.mem ua.memory = ua.size)

theorem Tiles.headerWalk {m : Memory} {uaPtr lo hi : ℕ} {blocks : List Block}
    (h : Tiles lo hi blocks) (hf : ∀ b ∈ blocks, BlockAt m uaPtr b) :
    HeaderWalk m hi lo (blocks.map Block.addr) := by
  induction blocks generalizing lo with
  | nil => exact Nat.le_of_eq (Eq.symm h)
  | cons b bs ih =>
    obtain ⟨hb, hs, ht⟩ := h
    have hle := ht.le
    have hsize := (hf b (by simp)).size
    simp only [minSplitTotal, headerSize, alignment, footerSize] at hs
    refine ⟨by omega, hb, ?_⟩
    rw [← hb, hsize, hb]
    exact ih ht fun c hc => hf c (by simp [hc])

theorem allocate_terminates {w : World} {uaPtr : ℕ} {ua : UsableArena} {chain : List ℕ}
    (hh : w.handles uaPtr = some ua) (hd : DList (hNext w.mem) (hPrev w.mem) 0 ua.freeList chain)
    (size : ℕ) : ∃ fuel r, usableArenaAllocate fuel w uaPtr size = some r := by
  obtain ⟨r, hr⟩ := findFit_terminates hd.seg hd.nonnull
    (wrap (headerSize + alignUp size + footerSize))
  refine ⟨chain.length + 1, ?_⟩
  unfold usableArenaAllocate
  dsimp only
  split_ifs
  · exact ⟨_, rfl⟩
  · exact ⟨_, rfl⟩
  · rw [hh]
    dsimp only
    rw [hr]
    cases r with
    | none => exact ⟨_, rfl⟩
    | some walk => exact ⟨_, rfl⟩

/-- A tiling without free neighbours and without blocks in use is a single block. -/
theorem Coalesced.single {blocks : List Block} (h : Coalesced blocks)
    (hall : ∀ b ∈ blocks, b.free = true) : blocks.length ≤ 1 := by
  match blocks with
  | [] => simp
  | [b] => simp
  | b :: c :: bs =>
    have := (List.isChain_cons.mp h).1 c (by simp)
    simp [hall b (by simp), hall c (by simp)] at this

theorem Consistent.freeListExact {uaPtr lo hi : ℕ} {s : Session} (hlt : lo < hi)
    (h : Consistent uaPtr lo hi s) : FreeListExact uaPtr s := by
  obtain ⟨ua, blocks, chain, h⟩ := h
  have hwalk := h.layout.tiles.headerWalk h.layout.fields
  refine ⟨ua, blocks.map Block.addr, chain, h.handle, ?_, h.layout.links, ?_, ?_, ?_⟩
  · rw [h.stop, h.memory]
    exact hwalk
  · have hstate : ∀ b ∈ blocks, hState s.world.mem b.addr = bufFree ↔ b.free = true := by
      intro b hb
      rw [(h.layout.fields b hb).state]
      cases hf : b.free <;> simp [Block.tag, hf, bufFree, bufInUse]
    intro a
    constructor
    · intro ha
      obtain ⟨b, hb, rfl⟩ := h.layout.nodes a ha
      exact ⟨List.mem_map.mpr ⟨b, hb, rfl⟩, (hstate b hb).mpr ((h.layout.free b hb).mp ha)⟩
    · rintro ⟨ha, hf⟩
      obtain ⟨b, hb, rfl⟩ := List.mem_map.mp ha
      exact (h.layout.free b hb).mpr ((hstate b hb).mp hf)
  · intro size _
    exact allocate_terminates h.handle h.layout.links size
  · intro hlive
    have hall : ∀ b ∈ blocks, b.free = true := by
      intro b hb
      cases hf : b.free with
      | true => rfl
      | false =>
        obtain ⟨buf, hbuf, -⟩ := h.held b hb hf
        simp [hlive] at hbuf
    have hone := h.layout.coalesced.single hall
    have htiles := h.layout.tiles
    rcases blocks with _ | ⟨b, _ | ⟨c, rest⟩⟩
    · simp only [Tiles] at htiles
      omega
    · obtain ⟨hb, -, hend⟩ := htiles
      have hfld := h.layout.fields b (by simp)
      have hmem := h.memory
      have hstop := h.stop
      rw [h.memory, ← hb]
      refine ⟨rfl, ?_, ?_⟩
      · rw [hfld.state]
        simp [Block.tag, hall b (by simp)]
      · rw [hfld.size]
        simp only [Tiles] at hend
        omega
    · simp at hone

theorem free_list_exact {w w' : World} {size uaPtr : ℕ} (hv : w.arena.Valid)
    (hu : uaPtr < 2 ^ 64) (hs : minSplitTotal ≤ size)
    (hacq : arenaAcquire w size (some uaPtr) = (w', some uaPtr)) {s : Session}
    (hrun : Run uaPtr (fun t op => NoWrap t op ∧ NoBackwardMerge uaPtr t op) ⟨w', []⟩ s) :
    FreeListExact uaPtr s := by
  obtain ⟨lo, h⟩ := acquire_consistent hv hu hs hacq
  apply (h.run hrun).freeListExact
  simp only [minSplitTotal, headerSize, alignment, footerSize] at hs
  omega

theorem free_list_exact_filled : ∃ s,
    Run 8 (fun t op => NoWrap t op ∧ NoBackwardMerge 8 t op) demoStart s ∧
    s.live.length = 2 ∧ FreeListExact 8 s := by
  obtain ⟨s, hrun, hl⟩ := demo_freed
  exact ⟨s, hrun, by simp [hl],
    free_list_exact demo_valid (by norm_num) (by decide) demo_acquired hrun⟩

theorem free_list_cyclic :
    arenaCreateWithAllocator (fun _ => 0) 192 192 true (some 4096) true = some demoWorld ∧
    arenaAcquire demoWorld 192 (some 8) = (demoStart.world, some 8) ∧
    ∃ s, execAll 8 5 demoStart (demoFill ++ demoMerge) = some s ∧
      Run 8 (fun _ _ => True) demoStart s ∧ ¬FreeListExact 8 s := by
  refine ⟨demo_created, demo_acquired, ?_⟩
  obtain ⟨s1, hs1, hl1, hh1, hm1⟩ := demo_filled
  obtain ⟨s2, hs2, hl2, hh2, hm2⟩ := demo_merged hl1 hh1 hm1
  have hall := execAll_append hs1 hs2
  refine ⟨s2, hall, run_of_execAll (by simp) hall, ?_⟩
  rintro ⟨ua, headers, chain, hua, -, hd, -⟩
  simp only [Reads, List.mem_cons, List.not_mem_nil, or_false, forall_eq_or_imp, forall_eq] at hm2
  have hnext : hNext s2.world.mem 4160 = 4160 := by simp [hNext, hm2]
  obtain rfl : ua = demoArena 4160 := by simpa [hh2] using hua.symm
  -- the head is its own successor, so a list that starts there meets it twice
  have hseg := hd.seg
  have hnd := hd.nodup
  cases chain with
  | nil => simp [Seg, demoArena] at hseg
  | cons a chain =>
    obtain ⟨rfl, hseg⟩ := hseg
    simp only [demoArena, hnext] at hseg
    cases chain with
    | nil => simp [Seg] at hseg
    | cons b chain =>
      obtain ⟨rfl, -⟩ := hseg
      simp [demoArena] at hnd

end LibZenit.Arena
