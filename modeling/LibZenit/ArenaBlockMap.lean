import LibZenit.ArenaModel
import LibZenit.PackedBits
import Mathlib.Logic.Relation

/-!
# The block map of the arena

A bit of the bitmap is set exactly for the blocks of a live region, in every run of acquisitions,
releases and whatever else is done with the regions in between. The scan finds the lowest run of
free blocks that is long enough, and a call that fails leaves the bitmap as it was.
-/
namespace LibZenit.Arena
open ByteMemory PackedBits

/-! ## Bits -/

section Bits

variable {bitmap : List UInt8} {start needed : ℕ}

theorem bitmapGet_eq_zero (bitmap : List UInt8) (i : ℕ) :
    bitmapGet bitmap i = 0 ↔ bit bitmap i = false :=
  shift_and_one_eq_zero _ (Nat.mod_lt i (by norm_num))

theorem length_bitmapSet (bitmap : List UInt8) (i : ℕ) (value : Bool) :
    (bitmapSet bitmap i value).length = bitmap.length := List.length_modify _ _ _

theorem bit_bitmapSet {i : ℕ} (hi : i < 8 * bitmap.length) (value : Bool) (j : ℕ) :
    bit (bitmapSet bitmap i value) j = if j = i then value else bit bitmap j := by
  refine bit_update (by omega) (fun b k hk => ?_) j
  have hmod : i % 8 < 8 := Nat.mod_lt i (by norm_num)
  cases value with
  | true => exact byteBit_or_shift b hmod k
  | false => exact byteBit_and_not_shift b hmod hk

theorem length_bitmapFill (bitmap : List UInt8) (start needed : ℕ) (value : Bool) :
    (bitmapFill bitmap start needed value).length = bitmap.length := by
  induction needed generalizing bitmap start with
  | zero => rfl
  | succ needed ih =>
    rw [bitmapFill, List.range'_succ, List.foldl_cons]
    exact (ih _ _).trans (length_bitmapSet _ _ _)

theorem bit_bitmapFill (h : start + needed ≤ 8 * bitmap.length) (value : Bool) (j : ℕ) :
    bit (bitmapFill bitmap start needed value) j =
      if start ≤ j ∧ j < start + needed then value else bit bitmap j := by
  induction needed generalizing bitmap start with
  | zero =>
    rw [if_neg (by omega)]
    rfl
  | succ needed ih =>
    have hfill : bitmapFill bitmap start (needed + 1) value =
        bitmapFill (bitmapSet bitmap start value) (start + 1) needed value := by
      rw [bitmapFill, List.range'_succ, List.foldl_cons]
      rfl
    rw [hfill, ih (by rw [length_bitmapSet]; omega), bit_bitmapSet (by omega)]
    by_cases hj : j = start
    · rw [if_neg (by omega), if_pos hj, if_pos (by omega)]
    · rw [if_neg hj]
      exact if_congr (by omega) rfl rfl

/-- `needed` consecutive free blocks from `start` on. -/
def FreeRun (bitmap : List UInt8) (blockCount needed start : ℕ) : Prop :=
  start + needed ≤ blockCount ∧ ∀ i, start ≤ i → i < start + needed → bitmapGet bitmap i = 0

/-- The rollback restores every byte. -/
theorem bitmapFill_undo {blockCount : ℕ} (hfree : FreeRun bitmap blockCount needed start)
    (hcover : blockCount ≤ 8 * bitmap.length) :
    bitmapFill (bitmapFill bitmap start needed true) start needed false = bitmap := by
  obtain ⟨hbound, hzero⟩ := hfree
  refine bit_ext (by rw [length_bitmapFill, length_bitmapFill]) fun i => ?_
  rw [bit_bitmapFill (by rw [length_bitmapFill]; omega), bit_bitmapFill (by omega)]
  by_cases hi : start ≤ i ∧ i < start + needed
  · rw [if_pos hi, (bitmapGet_eq_zero bitmap i).mp (hzero i hi.1 hi.2)]
  · rw [if_neg hi, if_neg hi]

/-! ## The scan -/

/-- The scan at block `i`: the last `run` blocks are free, and no run that is long enough starts
before them. -/
theorem bitmapFindFrom_spec {left i run : ℕ} (hrun : run < needed) (hi : run ≤ i)
    (hzero : ∀ j, i - run ≤ j → j < i → bitmapGet bitmap j = 0)
    (hbelow : ∀ s, FreeRun bitmap (i + left) needed s → i - run ≤ s) :
    (∀ s, bitmapFindFrom bitmap needed left i run = some s →
      IsLeast {s | FreeRun bitmap (i + left) needed s} s) ∧
    (bitmapFindFrom bitmap needed left i run = none →
      ∀ s, ¬FreeRun bitmap (i + left) needed s) := by
  induction left generalizing i run with
  | zero =>
    refine ⟨fun s h => (by cases h), fun _ s hs => ?_⟩
    have hle := hbelow s hs
    have hend := hs.1
    omega
  | succ left ih =>
    have hnext : i + (left + 1) = i + 1 + left := by omega
    rw [hnext] at hbelow ⊢
    rw [bitmapFindFrom]
    split_ifs with hfree hfull
    · refine ⟨fun s hs => ?_, fun hs => by cases hs⟩
      cases hs
      have hstart : i + 1 - needed = i - run := by omega
      refine ⟨⟨by omega, fun j hlo hhi => ?_⟩, fun s' hs' => ?_⟩
      · by_cases hj : j = i
        · rw [hj]
          exact hfree
        · exact hzero j (by omega) (by omega)
      · rw [hstart]
        exact hbelow s' hs'
    · refine ih (by omega) (by omega) (fun j hlo hhi => ?_) (fun s hs => ?_)
      · by_cases hj : j = i
        · rw [hj]
          exact hfree
        · exact hzero j (by omega) (by omega)
      · have hle := hbelow s hs
        omega
    · refine ih (by omega) (by omega) (fun j hlo hhi => by omega) (fun s hs => ?_)
      -- a run that starts at or before `i` and is long enough contains `i`
      have hle := hbelow s hs
      by_contra hlt
      exact hfree (hs.2 i (by omega) (by omega))

theorem bitmapFindContiguous_spec (bitmap : List UInt8) (blockCount : ℕ) (hneeded : 0 < needed) :
    (∀ s, bitmapFindContiguous bitmap blockCount needed = some s →
      IsLeast {s | FreeRun bitmap blockCount needed s} s) ∧
    (bitmapFindContiguous bitmap blockCount needed = none →
      ∀ s, ¬FreeRun bitmap blockCount needed s) := by
  have hscan : (∀ s, bitmapFindFrom bitmap needed blockCount 0 0 = some s →
        IsLeast {s | FreeRun bitmap (0 + blockCount) needed s} s) ∧
      (bitmapFindFrom bitmap needed blockCount 0 0 = none →
        ∀ s, ¬FreeRun bitmap (0 + blockCount) needed s) :=
    bitmapFindFrom_spec hneeded le_rfl (fun j _ hj => by omega) (fun s _ => by omega)
  rw [Nat.zero_add] at hscan
  exact hscan

end Bits

/-! ## Regions -/

/-- First block and number of blocks of every live region. -/
def regions (handles : ℕ → Option UsableArena) (p : ℕ) : Option (ℕ × ℕ) :=
  (handles p).map fun ua => (ua.blockOffset, ua.blockCount)

def Covers (r : ℕ × ℕ) (i : ℕ) : Prop := r.1 ≤ i ∧ i < r.1 + r.2

/-- The bitmap shows which blocks belong to a live region, and to one only. -/
structure Mapped (bitmap : List UInt8) (blockCount : ℕ) (regions : ℕ → Option (ℕ × ℕ)) : Prop where
  bytes : blockCount ≤ 8 * bitmap.length
  bits : ∀ i < blockCount, bit bitmap i = true ↔ ∃ p r, regions p = some r ∧ Covers r i
  within : ∀ p r, regions p = some r → r.1 + r.2 ≤ blockCount
  apart : ∀ p q r r', p ≠ q → regions p = some r → regions q = some r' →
    ∀ i, Covers r i → ¬Covers r' i

section Regions

variable {bitmap : List UInt8} {blockCount needed start p : ℕ} {live : ℕ → Option (ℕ × ℕ)}

theorem Mapped.free_run_apart (h : Mapped bitmap blockCount live)
    (hfree : FreeRun bitmap blockCount needed start) {q : ℕ} {r : ℕ × ℕ} (hq : live q = some r)
    {i : ℕ} (hi : Covers (start, needed) i) : ¬Covers r i := by
  intro hr
  have hset := (h.bits i (hi.2.trans_le hfree.1)).mpr ⟨q, r, hq, hr⟩
  rw [(bitmapGet_eq_zero bitmap i).mp (hfree.2 i hi.1 hi.2)] at hset
  cases hset

/-- A free run becomes a region. -/
theorem Mapped.take (h : Mapped bitmap blockCount live)
    (hfree : FreeRun bitmap blockCount needed start) (hp : live p = none) :
    Mapped (bitmapFill bitmap start needed true) blockCount
      (Function.update live p (some (start, needed))) where
  bytes := by rw [length_bitmapFill]; exact h.bytes
  bits := by
    intro i hi
    rw [bit_bitmapFill (hfree.1.trans h.bytes)]
    constructor
    · intro hset
      split_ifs at hset with hin
      · exact ⟨p, (start, needed), Function.update_self _ _ _, hin⟩
      · obtain ⟨q, r, hq, hr⟩ := (h.bits i hi).mp hset
        refine ⟨q, r, ?_, hr⟩
        rw [Function.update_of_ne (by rintro rfl; simp [hp] at hq), hq]
    · rintro ⟨q, r, hq, hr⟩
      split_ifs with hin
      · rfl
      · refine (h.bits i hi).mpr ⟨q, r, ?_, hr⟩
        rwa [Function.update_of_ne] at hq
        rintro rfl
        rw [Function.update_self] at hq
        cases hq
        exact hin hr
  within := by
    intro q r hq
    by_cases hqp : q = p
    · subst hqp
      rw [Function.update_self] at hq
      cases hq
      exact hfree.1
    · rw [Function.update_of_ne hqp] at hq
      exact h.within q r hq
  apart := by
    intro q q' r r' hne hq hq' i hr hr'
    by_cases hqp : q = p
    · subst hqp
      rw [Function.update_self] at hq
      rw [Function.update_of_ne (Ne.symm hne)] at hq'
      cases hq
      exact h.free_run_apart hfree hq' hr hr'
    · rw [Function.update_of_ne hqp] at hq
      by_cases hqp' : q' = p
      · subst hqp'
        rw [Function.update_self] at hq'
        cases hq'
        exact h.free_run_apart hfree hq hr' hr
      · rw [Function.update_of_ne hqp'] at hq'
        exact h.apart q q' r r' hne hq hq' i hr hr'

/-- A region becomes free blocks. -/
theorem Mapped.give (h : Mapped bitmap blockCount live) {r : ℕ × ℕ} (hp : live p = some r) :
    Mapped (bitmapFill bitmap r.1 r.2 false) blockCount (Function.update live p none) := by
  have hother : ∀ q r', Function.update live p none q = some r' → q ≠ p ∧ live q = some r' := by
    intro q r' hq
    by_cases hqp : q = p
    · subst hqp
      rw [Function.update_self] at hq
      cases hq
    · rw [Function.update_of_ne hqp] at hq
      exact ⟨hqp, hq⟩
  refine ⟨by rw [length_bitmapFill]; exact h.bytes, fun i hi => ?_, fun q r' hq => ?_,
    fun q q' s s' hne hq hq' => ?_⟩
  · rw [bit_bitmapFill ((h.within p r hp).trans h.bytes)]
    constructor
    · intro hset
      split_ifs at hset with hin
      obtain ⟨q, r', hq, hr'⟩ := (h.bits i hi).mp hset
      refine ⟨q, r', ?_, hr'⟩
      rw [Function.update_of_ne, hq]
      rintro rfl
      rw [hp] at hq
      cases hq
      exact hin hr'
    · rintro ⟨q, r', hq, hr'⟩
      obtain ⟨hqp, hlive⟩ := hother q r' hq
      have hout : ¬(r.1 ≤ i ∧ i < r.1 + r.2) := fun hin =>
        h.apart p q r r' (Ne.symm hqp) hp hlive i hin hr'
      rw [if_neg hout]
      exact (h.bits i hi).mpr ⟨q, r', hlive, hr'⟩
  · exact h.within q r' (hother q r' hq).2
  · exact h.apart q q' s s' hne (hother q s hq).2 (hother q' s' hq').2

end Regions

/-! ## Runs -/

/-- Calls that the client may make, and stores into the pool. Handles are fresh, and a region has
room for the header and the footer that are written into it. -/
inductive Step : World → World → Prop
  | acquire {w : World} {size : ℕ} {handle : Option ℕ}
      (fresh : ∀ p, handle = some p → p ≠ 0 ∧ w.handles p = none)
      (room : size = 0 ∨ size % w.arena.blockSize ≠ 0 ∨ headerSize + footerSize ≤ size) :
      Step w (arenaAcquire w size handle).1
  | release {w w' : World} {p fuel : ℕ} {code : ZenitError}
      (done : arenaRelease fuel w p = some (w', code)) : Step w w'
  | allocate {w w' : World} {p size fuel : ℕ} {buf : UsableBuffer}
      (done : usableArenaAllocate fuel w p size = some (w', buf)) : Step w w'
  | free {w w' : World} {buf : Option UsableBuffer} {code : ZenitError}
      (done : usableBufferFree w buf = some (w', code)) : Step w w'
  | store {w : World} {addr : ℕ} {byte : UInt8} :
      Step w { w with mem := Function.update w.mem addr byte }

def World.Mapped (w : World) : Prop :=
  Arena.Mapped w.arena.bitmap w.arena.blockCount (regions w.handles)

section Runs

variable {w w' : World} {size p fuel : ℕ}

theorem regions_update (handles : ℕ → Option UsableArena) (p : ℕ) (o : Option UsableArena) :
    regions (Function.update handles p o) =
      Function.update (regions handles) p (o.map fun ua => (ua.blockOffset, ua.blockCount)) := by
  funext q
  by_cases hq : q = p
  · subst hq
    simp [regions]
  · simp [regions, Function.update_of_ne hq]

/-- Another list of free buffers does not move a region. -/
theorem regions_relist {handles : ℕ → Option UsableArena} {ua : UsableArena}
    (hp : handles p = some ua) (fl : ℕ) :
    regions (Function.update handles p (some { ua with freeList := fl })) = regions handles := by
  rw [regions_update]
  refine Function.update_eq_self_iff.mpr ?_
  simp [regions, hp]

theorem create_mapped {mem : Memory} {totalSize blockSize : ℕ} {handle bitmap : Bool}
    {pool : Option ℕ}
    (hcreate : arenaCreateWithAllocator mem totalSize blockSize handle pool bitmap = some w) :
    w.Mapped ∧ w.arena.blockSize = blockSize ∧ w.arena.blockCount = totalSize / blockSize ∧
      0 < blockSize := by
  unfold arenaCreateWithAllocator at hcreate
  cases pool with
  | none => split_ifs at hcreate
  | some memory =>
    simp only at hcreate
    split_ifs at hcreate with hbad
    cases hcreate
    refine ⟨⟨?_, fun i _ => ?_, fun p r hp => ?_, fun p q r r' _ hp => ?_⟩, rfl, rfl, by omega⟩
    · simp only [List.length_replicate]
      omega
    · rw [bit_replicate_zero]
      simp [regions]
    · cases hp
    · cases hp

theorem usableArenaAllocate_regions {buf : UsableBuffer}
    (h : usableArenaAllocate fuel w p size = some (w', buf)) :
    w'.arena = w.arena ∧ regions w'.handles = regions w.handles := by
  simp only [usableArenaAllocate] at h
  split_ifs at h with hnull hbig
  · cases h
    exact ⟨rfl, rfl⟩
  · cases h
    exact ⟨rfl, rfl⟩
  · split at h
    · cases h
    · rename_i ua hua
      split at h
      · cases h
      · cases h
        exact ⟨rfl, rfl⟩
      · cases h
        exact ⟨rfl, regions_relist hua _⟩

theorem usableBufferFree_regions {buf : Option UsableBuffer} {code : ZenitError}
    (h : usableBufferFree w buf = some (w', code)) :
    w'.arena = w.arena ∧ regions w'.handles = regions w.handles := by
  simp only [usableBufferFree] at h
  split at h
  · cases h
    exact ⟨rfl, rfl⟩
  · split_ifs at h with hnull hstate
    · cases h
      exact ⟨rfl, rfl⟩
    · cases h
      exact ⟨rfl, rfl⟩
    · split at h
      · cases h
      · rename_i ua hua
        cases h
        exact ⟨rfl, regions_relist hua _⟩

/-- A release changes nothing, or gives back the region. -/
theorem arenaRelease_cases {code : ZenitError} (h : arenaRelease fuel w p = some (w', code)) :
    (code ≠ .ok ∧ w' = w) ∨
    (code = .ok ∧ ∃ r, regions w.handles p = some r ∧
      w'.arena = { w.arena with bitmap := bitmapFill w.arena.bitmap r.1 r.2 false } ∧
      regions w'.handles = Function.update (regions w.handles) p none) := by
  unfold arenaRelease at h
  split_ifs at h with hnull
  · cases h
    exact .inl ⟨by simp, rfl⟩
  · split at h
    · cases h
    · rename_i ua hua
      split at h
      · cases h
      · cases h
        refine .inr ⟨rfl, (ua.blockOffset, ua.blockCount), by simp [regions, hua], rfl, ?_⟩
        simp only [regions_update, Option.map_none]
      · rename_i e hne _
        cases h
        exact .inl ⟨fun he => hne he, rfl⟩

/-- An acquisition leaves bitmap and regions alone, or turns the lowest run that is long enough
into a region. With a handle it does the latter whenever there is such a run. -/
theorem arenaAcquire_cases (h : w.Mapped) (hblock : 0 < w.arena.blockSize) {handle o : Option ℕ}
    (he : arenaAcquire w size handle = (w', o)) :
    (o = none ∧ w'.arena = w.arena ∧ regions w'.handles = regions w.handles ∧
      (handle ≠ none → size ≠ 0 → size % w.arena.blockSize = 0 → ∀ s,
        ¬FreeRun w.arena.bitmap w.arena.blockCount (size / w.arena.blockSize) s)) ∨
    (∃ p start, handle = some p ∧ o = some p ∧
      IsLeast {s | FreeRun w.arena.bitmap w.arena.blockCount (size / w.arena.blockSize) s} start ∧
      w'.arena = { w.arena with
        bitmap := bitmapFill w.arena.bitmap start (size / w.arena.blockSize) true } ∧
      regions w'.handles =
        Function.update (regions w.handles) p (some (start, size / w.arena.blockSize))) := by
  simp only [arenaAcquire] at he
  split_ifs at he with hsize
  · cases he
    refine .inl ⟨rfl, rfl, rfl, fun _ hpos hmod => ?_⟩
    rcases hsize with hzero | hne
    · exact absurd hzero hpos
    · exact absurd hmod hne
  · push Not at hsize
    have hneeded : 0 < size / w.arena.blockSize :=
      Nat.div_pos (Nat.le_of_dvd (by omega) (Nat.dvd_of_mod_eq_zero hsize.2)) hblock
    obtain ⟨hfound, hnone⟩ :=
      bitmapFindContiguous_spec w.arena.bitmap w.arena.blockCount hneeded
    split at he
    · rename_i hscan
      cases he
      exact .inl ⟨rfl, rfl, rfl, fun _ _ _ => hnone hscan⟩
    · rename_i start hscan
      have hleast := hfound start hscan
      cases handle with
      | none =>
        cases he
        refine .inl ⟨rfl, ?_, rfl, fun hno => absurd rfl hno⟩
        simp only [bitmapFill_undo hleast.1 h.bytes]
      | some p =>
        cases he
        refine .inr ⟨p, start, rfl, rfl, hleast, rfl, ?_⟩
        simp only [regions_update, Option.map_some]

theorem acquire_mapped (h : w.Mapped) (hblock : 0 < w.arena.blockSize) {handle : Option ℕ}
    (fresh : ∀ p, handle = some p → p ≠ 0 ∧ w.handles p = none) :
    (arenaAcquire w size handle).1.Mapped ∧
      (arenaAcquire w size handle).1.arena.blockSize = w.arena.blockSize ∧
      (arenaAcquire w size handle).1.arena.blockCount = w.arena.blockCount := by
  rcases arenaAcquire_cases h hblock (Prod.mk.eta (p := arenaAcquire w size handle)).symm with
    ⟨-, harena, hregions, -⟩ | ⟨p, start, hhandle, -, hleast, harena, hregions⟩
  · rw [World.Mapped, harena, hregions]
    exact ⟨h, rfl, rfl⟩
  · rw [World.Mapped, harena, hregions]
    refine ⟨Mapped.take h hleast.1 ?_, rfl, rfl⟩
    simp [regions, (fresh p hhandle).2]

theorem step_mapped (h : w.Mapped) (hblock : 0 < w.arena.blockSize) (hstep : Step w w') :
    w'.Mapped ∧ w'.arena.blockSize = w.arena.blockSize ∧
      w'.arena.blockCount = w.arena.blockCount := by
  cases hstep with
  | acquire fresh room => exact acquire_mapped h hblock fresh
  | release done =>
    rcases arenaRelease_cases done with ⟨-, rfl⟩ | ⟨-, r, hr, harena, hregions⟩
    · exact ⟨h, rfl, rfl⟩
    · rw [World.Mapped, harena, hregions]
      exact ⟨Mapped.give h hr, rfl, rfl⟩
  | allocate done =>
    obtain ⟨harena, hregions⟩ := usableArenaAllocate_regions done
    rw [World.Mapped, harena, hregions]
    exact ⟨h, rfl, rfl⟩
  | free done =>
    obtain ⟨harena, hregions⟩ := usableBufferFree_regions done
    rw [World.Mapped, harena, hregions]
    exact ⟨h, rfl, rfl⟩
  | store => exact ⟨h, rfl, rfl⟩

end Runs

end LibZenit.Arena
