import LibZenit.ArenaBlockMap
import LibZenit.ArenaSteps

/-!
# What an acquisition writes

`zenit_arena_acquire` writes a header at the start of the region and a footer at its end, whatever
the size of the region. They stay inside exactly if the region has room for the header.
-/
namespace LibZenit.Arena
open ByteMemory

variable {w w' : World} {size p : ℕ} {ua : UsableArena}

/-! ## The region's header and footer -/

theorem hSize_initRegion (m : Memory) (uaPtr lo : ℕ) (hsize : size < 2 ^ 64) :
    hSize (setPrev (setNext (setSize (setUa (setState m lo bufFree) lo uaPtr) lo size) lo 0) lo 0)
      lo = size := by
  unfold hSize setPrev setNext setSize
  rw [read_write_of_disjoint _ (by omega), read_write_of_disjoint _ (by omega),
    read_write_of_lt _ hsize]

/-- A region with room for the header keeps both records inside. -/
theorem initRegion_off {m : Memory} {uaPtr lo x : ℕ} (hroom : headerSize ≤ size)
    (hsize : size < 2 ^ 64) (hx : x < lo ∨ lo + size ≤ x) : initRegion m uaPtr lo size x = m x := by
  unfold headerSize at hroom
  unfold initRegion
  rw [footerSync_off (hSize_initRegion m uaPtr lo hsize) (by omega) (by omega)]
  unfold setPrev setNext setSize setUa setState
  rw [write_apply_of_outside _ (by omega), write_apply_of_outside _ (by omega),
    write_apply_of_outside _ (by omega), write_apply_of_outside _ (by omega),
    write_apply_of_outside _ (by omega)]

/-- Without that room the last byte of the header is behind the region. -/
theorem initRegion_touches {uaPtr lo : ℕ} (hroom : size < headerSize) :
    Touches (fun m => initRegion m uaPtr lo size) (lo + 39) := by
  unfold headerSize at hroom
  refine ⟨fun _ => 1, ?_⟩
  have hbyte : initRegion (fun _ => 1) uaPtr lo size (lo + 39) = 0 := by
    unfold initRegion footerSync footerOf footerSize
    rw [hSize_initRegion _ uaPtr lo (by omega), write_apply_of_outside _ (by omega),
      write_apply_of_outside _ (by omega), setPrev, write_apply_of_inside _ (by omega) (by omega)]
    simp
  change initRegion (fun _ => 1) uaPtr lo size (lo + 39) ≠ 1
  rw [hbyte]
  decide

/-! ## Where the regions are -/

/-- What the client may call, with acquisitions of any size that the code accepts. -/
inductive Call : World → World → Prop
  | acquire {w : World} {size : ℕ} {handle : Option ℕ}
      (fresh : ∀ p, handle = some p → p ≠ 0 ∧ w.handles p = none) :
      Call w (arenaAcquire w size handle).1
  | other {w w' : World} (step : Step w w') : Call w w'

/-- The region of a handle is the blocks that the handle names. -/
def Sited (a : ArenaHandle) (ua : UsableArena) : Prop :=
  ua.memory = a.memory + ua.blockOffset * a.blockSize ∧ ua.size = ua.blockCount * a.blockSize

structure World.Placed (w : World) : Prop where
  mapped : w.Mapped
  block : 0 < w.arena.blockSize
  total : w.arena.blockCount * w.arena.blockSize = w.arena.totalSize
  bound : w.arena.totalSize ≤ sizeMax
  sited : ∀ p ua, w.handles p = some ua → Sited w.arena ua

/-- Apart from the lists of free buffers, no handle is new. -/
def Keeps (w w' : World) : Prop :=
  ∀ q ua', w'.handles q = some ua' →
    ∃ ua, w.handles q = some ua ∧ ua' = { ua with freeList := ua'.freeList }

theorem keeps_refl (w : World) : Keeps w w := fun _ ua hq => ⟨ua, hq, rfl⟩

theorem keeps_relist (hp : w.handles p = some ua) {fl : ℕ}
    (hw : w'.handles = Function.update w.handles p (some { ua with freeList := fl })) :
    Keeps w w' := by
  intro q ua' hq
  rw [hw] at hq
  by_cases hqp : q = p
  · subst hqp
    rw [Function.update_self] at hq
    obtain rfl := Option.some.inj hq
    exact ⟨ua, hp, rfl⟩
  · rw [Function.update_of_ne hqp] at hq
    exact ⟨ua', hq, rfl⟩

theorem allocate_keeps {fuel : ℕ} {buf : UsableBuffer}
    (h : usableArenaAllocate fuel w p size = some (w', buf)) : Keeps w w' := by
  simp only [usableArenaAllocate] at h
  split_ifs at h with hnull hbig
  · cases h
    exact keeps_refl _
  · cases h
    exact keeps_refl _
  · split at h
    · cases h
    · rename_i ua hua
      split at h
      · cases h
      · cases h
        exact keeps_refl _
      · cases h
        exact keeps_relist hua rfl

theorem free_keeps {buf : Option UsableBuffer} {code : ZenitError}
    (h : usableBufferFree w buf = some (w', code)) : Keeps w w' := by
  simp only [usableBufferFree] at h
  split at h
  · cases h
    exact keeps_refl _
  · split_ifs at h with hnull hstate
    · cases h
      exact keeps_refl _
    · cases h
      exact keeps_refl _
    · split at h
      · cases h
      · rename_i ua hua
        cases h
        exact keeps_relist hua rfl

theorem release_keeps {fuel : ℕ} {code : ZenitError}
    (h : arenaRelease fuel w p = some (w', code)) : Keeps w w' := by
  unfold arenaRelease at h
  split_ifs at h with hnull
  · cases h
    exact keeps_refl _
  · split at h
    · cases h
    · split at h
      · cases h
      · cases h
        intro q ua' hq
        by_cases hqp : q = p
        · subst hqp
          simp at hq
        · exact ⟨ua', by simpa [Function.update_of_ne hqp] using hq, rfl⟩
      · cases h
        exact keeps_refl _

/-- An acquisition that succeeds, from any memory. -/
theorem acquire_some (hblock : 0 < w.arena.blockSize)
    (hacq : (arenaAcquire w size (some p)).2 = some p) :
    ∃ start, FreeRun w.arena.bitmap w.arena.blockCount (size / w.arena.blockSize) start ∧
      size / w.arena.blockSize * w.arena.blockSize = size ∧
      ∀ m, (arenaAcquire { w with mem := m } size (some p)).1 =
        { mem := initRegion m p (w.arena.memory + start * w.arena.blockSize) size
          arena := { w.arena with
            bitmap := bitmapFill w.arena.bitmap start (size / w.arena.blockSize) true }
          handles := Function.update w.handles p
            (some ⟨start, size / w.arena.blockSize, w.arena.memory + start * w.arena.blockSize,
              size, w.arena.memory + start * w.arena.blockSize⟩) } := by
  simp only [arenaAcquire] at hacq
  split_ifs at hacq with hsize
  push Not at hsize
  have hmul := Nat.div_mul_cancel (Nat.dvd_of_mod_eq_zero hsize.2)
  have hneeded : 0 < size / w.arena.blockSize :=
    Nat.div_pos (Nat.le_of_dvd (by omega) (Nat.dvd_of_mod_eq_zero hsize.2)) hblock
  obtain ⟨hfound, -⟩ := bitmapFindContiguous_spec w.arena.bitmap w.arena.blockCount hneeded
  cases hscan : bitmapFindContiguous w.arena.bitmap w.arena.blockCount
      (size / w.arena.blockSize) with
  | none =>
    rw [hscan] at hacq
    cases hacq
  | some start =>
    refine ⟨start, (hfound start hscan).1, hmul, fun m => ?_⟩
    simp only [arenaAcquire, hscan]
    rw [if_neg (by push Not; exact hsize)]

/-- Without success no handle is written. -/
theorem acquire_handles (w : World) (size : ℕ) (handle : Option ℕ) :
    (arenaAcquire w size handle).1.handles = w.handles ∨
      ∃ q, handle = some q ∧ (arenaAcquire w size handle).2 = some q := by
  unfold arenaAcquire
  dsimp only
  split_ifs
  · exact .inl rfl
  · split
    · exact .inl rfl
    · cases handle with
      | none => exact .inl rfl
      | some q => exact .inr ⟨q, rfl, rfl⟩

theorem acquire_arena (h : w.Mapped) (hblock : 0 < w.arena.blockSize) (handle : Option ℕ) :
    ∃ bitmap, (arenaAcquire w size handle).1.arena = { w.arena with bitmap := bitmap } := by
  rcases arenaAcquire_cases h hblock (Prod.mk.eta (p := arenaAcquire w size handle)).symm with
    ⟨-, harena, -⟩ | ⟨q, start, -, -, -, harena, -⟩
  · exact ⟨w.arena.bitmap, harena⟩
  · exact ⟨_, harena⟩

/-- Handles that are kept stay where they are. -/
theorem World.Placed.keep (h : w.Placed) (hmapped : w'.Mapped)
    (harena : ∃ bitmap, w'.arena = { w.arena with bitmap := bitmap }) (hkeeps : Keeps w w') :
    w'.Placed := by
  obtain ⟨bitmap, harena⟩ := harena
  refine ⟨hmapped, ?_, ?_, ?_, fun q ua' hq => ?_⟩
  · rw [harena]
    exact h.block
  · rw [harena]
    exact h.total
  · rw [harena]
    exact h.bound
  · obtain ⟨ua, hua, hsame⟩ := hkeeps q ua' hq
    rw [hsame, harena]
    exact h.sited q ua hua

theorem acquire_placed (h : w.Placed) {handle : Option ℕ}
    (fresh : ∀ p, handle = some p → p ≠ 0 ∧ w.handles p = none) :
    (arenaAcquire w size handle).1.Placed := by
  have hmapped : (arenaAcquire w size handle).1.Mapped :=
    (acquire_mapped h.mapped h.block fresh).1
  have harena : ∃ bitmap, (arenaAcquire w size handle).1.arena =
      { w.arena with bitmap := bitmap } := acquire_arena h.mapped h.block handle
  rcases acquire_handles w size handle with hsame | ⟨q, rfl, hacq⟩
  · refine h.keep hmapped harena fun q ua hq => ?_
    rw [hsame] at hq
    exact ⟨ua, hq, rfl⟩
  · obtain ⟨start, -, hmul, hall⟩ := acquire_some h.block hacq
    have hworld := hall w.mem
    rw [hworld] at hmapped ⊢
    refine ⟨hmapped, h.block, h.total, h.bound, fun q' ua hq => ?_⟩
    by_cases hqq : q' = q
    · subst hqq
      dsimp only at hq
      rw [Function.update_self] at hq
      obtain rfl := Option.some.inj hq
      exact ⟨rfl, hmul.symm⟩
    · dsimp only at hq
      rw [Function.update_of_ne hqq] at hq
      exact h.sited q' ua hq

theorem step_placed (h : w.Placed) (hstep : Step w w') : w'.Placed := by
  have hmapped := (step_mapped h.mapped h.block hstep).1
  cases hstep with
  | acquire fresh room => exact acquire_placed h fresh
  | release done =>
    refine h.keep hmapped ?_ (release_keeps done)
    rcases arenaRelease_cases done with ⟨-, rfl⟩ | ⟨-, r, -, harena, -⟩
    · exact ⟨w'.arena.bitmap, rfl⟩
    · exact ⟨_, harena⟩
  | allocate done =>
    exact h.keep hmapped ⟨_, (usableArenaAllocate_regions done).1⟩ (allocate_keeps done)
  | free done => exact h.keep hmapped ⟨_, (usableBufferFree_regions done).1⟩ (free_keeps done)
  | store => exact h.keep hmapped ⟨_, rfl⟩ (keeps_refl w)

theorem call_placed (h : w.Placed) (hcall : Call w w') : w'.Placed := by
  cases hcall with
  | acquire fresh => exact acquire_placed h fresh
  | other step => exact step_placed h step

theorem run_placed (h : w.Placed) (hrun : Relation.ReflTransGen Call w w') : w'.Placed := by
  induction hrun with
  | refl => exact h
  | tail _ hcall ih => exact call_placed ih hcall

theorem create_placed {mem : Memory} {totalSize blockSize : ℕ} {handle bitmap : Bool}
    {pool : Option ℕ} (htotal : totalSize ≤ sizeMax)
    (hcreate : arenaCreateWithAllocator mem totalSize blockSize handle pool bitmap = some w) :
    w.Placed := by
  obtain ⟨hmapped, hsize, hcount, hpos⟩ := create_mapped hcreate
  unfold arenaCreateWithAllocator at hcreate
  cases pool with
  | none => split_ifs at hcreate
  | some memory =>
    simp only at hcreate
    split_ifs at hcreate with hbad
    cases hcreate
    simp only [not_or, not_not] at hbad
    refine ⟨hmapped, hpos, ?_, htotal, fun q ua hq => ?_⟩
    · exact Nat.div_mul_cancel (Nat.dvd_of_mod_eq_zero hbad.2.2)
    · cases hq

/-! ## What an acquisition reaches -/

/-- The bytes of the blocks of a region. -/
def InRegion (ua : UsableArena) (x : ℕ) : Prop := ua.memory ≤ x ∧ x < ua.memory + ua.size

/-- The bytes around a region: outside the memory of the arena, or in another live region. -/
def Around (w : World) (p x : ℕ) : Prop :=
  (x < w.arena.memory ∨ w.arena.memory + w.arena.totalSize ≤ x) ∨
    ∃ q ua, q ≠ p ∧ w.handles q = some ua ∧ InRegion ua x

/-- The memory that an acquisition leaves, whatever it finds. -/
def acquireMem (w : World) (size p : ℕ) (m : Memory) : Memory :=
  (arenaAcquire { w with mem := m } size (some p)).1.mem

/-- The block that a byte of the arena is in. -/
theorem covers_of_byte {a : ArenaHandle} (hblock : 0 < a.blockSize) {start count x : ℕ}
    (hlow : a.memory + start * a.blockSize ≤ x)
    (hhigh : x < a.memory + start * a.blockSize + count * a.blockSize) :
    Covers (start, count) ((x - a.memory) / a.blockSize) := by
  have hstart : start * a.blockSize ≤ x - a.memory := by omega
  have hend : x - a.memory < (start + count) * a.blockSize := by
    rw [Nat.add_mul]
    omega
  exact ⟨(Nat.le_div_iff_mul_le hblock).mpr hstart, (Nat.div_lt_iff_lt_mul hblock).mpr hend⟩

/-- A run of free blocks has no byte around it. -/
theorem World.Placed.free_apart (h : w.Placed) {start needed x : ℕ}
    (hfree : FreeRun w.arena.bitmap w.arena.blockCount needed start) (hx : Around w p x) :
    x < w.arena.memory + start * w.arena.blockSize ∨
      w.arena.memory + start * w.arena.blockSize + needed * w.arena.blockSize ≤ x := by
  by_contra hin
  push Not at hin
  have hcovers := covers_of_byte h.block hin.1 hin.2
  rcases hx with hout | ⟨q, ua, -, hq, hlow, hhigh⟩
  · have hend := Nat.mul_le_mul_right w.arena.blockSize hfree.1
    rw [Nat.add_mul, h.total] at hend
    omega
  · obtain ⟨hmem, hsize⟩ := h.sited q ua hq
    rw [hmem] at hlow hhigh
    rw [hsize] at hhigh
    have hregion : regions w.handles q = some (ua.blockOffset, ua.blockCount) := by
      simp [regions, hq]
    exact h.mapped.free_run_apart hfree hregion hcovers (covers_of_byte h.block hlow hhigh)

/-- In every state of every run, an acquisition that succeeds writes inside its own blocks exactly
if the header fits into them, and then all bytes around the region are left alone. -/
theorem acquire_inside_iff {mem : Memory} {totalSize blockSize : ℕ} {handle bitmap : Bool}
    {pool : Option ℕ} {w₀ : World} (htotal : totalSize ≤ sizeMax)
    (hcreate : arenaCreateWithAllocator mem totalSize blockSize handle pool bitmap = some w₀)
    (hrun : Relation.ReflTransGen Call w₀ w)
    (hacq : (arenaAcquire w size (some p)).2 = some p) :
    ∃ ua, (arenaAcquire w size (some p)).1.handles p = some ua ∧ ua.size = size ∧
      ((∀ x, Touches (acquireMem w size p) x → InRegion ua x) ↔ headerSize ≤ size) ∧
      (headerSize ≤ size → ∀ x, Around w p x →
        (arenaAcquire w size (some p)).1.mem x = w.mem x) := by
  have h := run_placed (create_placed htotal hcreate) hrun
  obtain ⟨start, hfree, hmul, hall⟩ := acquire_some h.block hacq
  have hmem (m : Memory) : acquireMem w size p m =
      initRegion m p (w.arena.memory + start * w.arena.blockSize) size :=
    congrArg World.mem (hall m)
  have hsize : size < 2 ^ 64 := by
    have hend := Nat.mul_le_mul_right w.arena.blockSize hfree.1
    have hbound := h.bound
    rw [Nat.add_mul, hmul, h.total] at hend
    unfold sizeMax at hbound
    omega
  refine ⟨_, by rw [hall w.mem]; exact Function.update_self .., rfl, ⟨?_, ?_⟩, ?_⟩
  · intro hinside
    by_contra hroom
    have htouch : Touches (acquireMem w size p)
        (w.arena.memory + start * w.arena.blockSize + 39) := by
      rw [funext hmem]
      exact initRegion_touches (not_le.mp hroom)
    have hlast := (hinside _ htouch).2
    unfold headerSize at hroom
    dsimp only at hlast
    omega
  · rintro hroom x ⟨m, hm⟩
    by_contra hout
    refine hm ?_
    rw [hmem]
    refine initRegion_off hroom hsize ?_
    rw [InRegion] at hout
    dsimp only at hout
    omega
  · intro hroom x hx
    have hworld : (arenaAcquire w size (some p)).1.mem = acquireMem w size p w.mem := rfl
    rw [hworld, hmem]
    have hapart := h.free_apart hfree hx
    rw [hmul] at hapart
    exact initRegion_off hroom hsize hapart

theorem acquire_inside_first : ∃ w₀ ua,
    arenaCreateWithAllocator (fun _ => 0) 192 64 true (some 4096) true = some w₀ ∧
    (arenaAcquire w₀ 64 (some 8)).1.handles 8 = some ua ∧
    ∀ x, Touches (acquireMem w₀ 64 8) x → InRegion ua x := by
  obtain ⟨w₀, hcreate⟩ : ∃ w₀,
      arenaCreateWithAllocator (fun _ => 0) 192 64 true (some 4096) true = some w₀ := ⟨_, rfl⟩
  have hacq : (arenaAcquire w₀ 64 (some 8)).2 = some 8 := by
    cases hcreate
    decide
  obtain ⟨ua, hua, -, hinside, -⟩ := acquire_inside_iff (by decide) hcreate .refl hacq
  exact ⟨w₀, ua, hcreate, hua, hinside.mpr (by decide)⟩

/-- The footer of a region of one small block lands in the region before it. -/
theorem small_region_overwrites : ∃ w₀ w,
    arenaCreateWithAllocator (fun _ => 0) 80 8 true (some 4096) true = some w₀ ∧
    Relation.ReflTransGen Call w₀ w ∧ (arenaAcquire w 8 (some 16)).2 = some 16 ∧
    ∃ x, Around w 16 x ∧ (arenaAcquire w 8 (some 16)).1.mem x ≠ w.mem x := by
  obtain ⟨w₀, hcreate⟩ : ∃ w₀,
      arenaCreateWithAllocator (fun _ => 0) 80 8 true (some 4096) true = some w₀ := ⟨_, rfl⟩
  have hfirst : Call w₀ (arenaAcquire w₀ 72 (some 8)).1 := by
    cases hcreate
    exact .acquire (by rintro p ⟨⟩; exact ⟨by decide, rfl⟩)
  refine ⟨w₀, _, hcreate, .single hfirst, ?_, 4096 + 64, .inr ⟨8, ⟨0, 9, 4096, 72, 4096⟩, ?_⟩, ?_⟩
  · cases hcreate
    decide
  · cases hcreate
    exact ⟨by decide, by decide, by decide, by decide⟩
  · cases hcreate
    decide +kernel

end LibZenit.Arena
