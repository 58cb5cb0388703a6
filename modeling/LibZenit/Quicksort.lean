import LibZenit.Comparators
import LibZenit.Partitioning
import LibZenit.Slots
import LibZenit.SortModel

/-!
# Quicksort sorts

Every function of the sort is described by what it does to the slots, as a function of the slot.
The scans end because the range holds an element they stop at: the pivot on the way up, and slot
`i` or `lo` on the way down.
-/
namespace LibZenit.Sorting
open Blocks Comparators Partitioning

variable {es : ℕ} {compare : CompareFn es} {xs ys zs : List (Element es)} {lo hi i j p : ℕ}

instance : Inhabited (Element es) := ⟨⟨List.replicate es 0, List.length_replicate⟩⟩

/-- The contents of an array. -/
abbrev contents (xs : List (Element es)) : ℕ → Element es := Slots.slot default xs

/-- `a` is not behind `b`. -/
abbrev NotAfter (compare : CompareFn es) (a b : Element es) : Prop := compare a b ≤ 0

/-- What a function of the sort leaves: the slots from `lo` to `hi`, rearranged. -/
structure Rearranges (lo hi : ℕ) (xs ys : List (Element es)) : Prop where
  length : ys.length = xs.length
  slots : Rearranged lo (hi + 1) (contents xs) (contents ys)

theorem Rearranges.refl (lo hi : ℕ) (xs : List (Element es)) : Rearranges lo hi xs xs :=
  ⟨rfl, Rearranged.refl _ _ _⟩

theorem Rearranges.trans (h : Rearranges lo hi xs ys) (h' : Rearranges lo hi ys zs) :
    Rearranges lo hi xs zs :=
  ⟨h'.length.trans h.length, h.slots.trans h'.slots⟩

theorem Rearranges.widen {lo' hi' : ℕ} (h : Rearranges lo hi xs ys) (hlo : lo' ≤ lo)
    (hhi : hi ≤ hi') : Rearranges lo' hi' xs ys :=
  ⟨h.length, h.slots.mono hlo (by omega)⟩

theorem map_contents (xs : List (Element es)) :
    (List.range xs.length).map (contents xs) = xs := by
  refine List.ext_getElem? fun k => ?_
  by_cases hk : k < xs.length
  · rw [List.getElem?_map, List.getElem?_range hk, Slots.getElem?_eq_slot default hk]
    rfl
  · rw [List.getElem?_eq_none (by simpa using hk), List.getElem?_eq_none (by simpa using hk)]

theorem Rearranges.perm (h : Rearranges lo hi xs ys) (hhi : hi < xs.length) : ys.Perm xs := by
  have hslots := (h.slots.mono (Nat.zero_le lo) hhi).perm
  rw [map_contents] at hslots
  rwa [← h.length, map_contents] at hslots

theorem pairwise_of_sortedOn {n : ℕ} (h : SortedOn (NotAfter compare) 0 n (contents xs))
    (hn : xs.length ≤ n) : xs.Pairwise (NotAfter compare) := by
  rw [← map_contents xs, List.pairwise_map]
  refine List.pairwise_lt_range.imp_of_mem fun {i j} _ hj hij => ?_
  exact h i j (Nat.zero_le i) hij ((List.mem_range.mp hj).trans_le hn)

/-! ## Single accesses -/

theorem swapContents_eq (a b : Element es) : swapContents a b = (b, a) := by
  unfold swapContents
  split_ifs
  · rfl
  · refine Prod.ext (Subtype.ext ?_) (Subtype.ext ?_) <;>
      simp only [swapBytes_eq (a.2.trans b.2.symm)]

theorem readIn_eq (hlo : lo ≤ i) (hi' : i ≤ hi) (hhi : hi < xs.length) :
    readIn lo hi xs i = .ok (contents xs i) := by
  rw [readIn, if_pos ⟨hlo, hi'⟩]
  exact readSlot_eq (Slots.getElem?_eq_slot default (by omega))

theorem compareSlots_eq (hi₁ : lo ≤ i) (hi₂ : i ≤ hi) (hj₁ : lo ≤ j) (hj₂ : j ≤ hi)
    (hhi : hi < xs.length) :
    compareSlots compare lo hi xs i j = .ok (compare (contents xs i) (contents xs j)) := by
  rw [compareSlots, readIn_eq hi₁ hi₂ hhi, readIn_eq hj₁ hj₂ hhi]
  rfl

theorem swapElements_eq (hi₁ : lo ≤ i) (hi₂ : i ≤ hi) (hj₁ : lo ≤ j) (hj₂ : j ≤ hi)
    (hhi : hi < xs.length) :
    ∃ ys, swapElements lo hi xs i j = .ok ys ∧ ys.length = xs.length ∧
      contents ys = fun k => contents xs (Equiv.swap i j k) := by
  refine ⟨(xs.set i (contents xs j)).set j (contents xs i), ?_, by simp, ?_⟩
  · have hlen : hi < (xs.set i (contents xs j)).length := by simpa using hhi
    rw [swapElements, readIn_eq hi₁ hi₂ hhi, readIn_eq hj₁ hj₂ hhi]
    simp only [Except.bind, swapContents_eq, writeIn, if_pos (And.intro hi₁ hi₂),
      if_pos (And.intro hj₁ hj₂)]
    rw [writeSlot_eq (by omega)]
    exact writeSlot_eq (by omega) _
  · funext k
    rw [contents, Slots.slot_set (by simp; omega), Slots.slot_set (by omega)]
    by_cases hkj : k = j
    · rw [if_pos hkj, hkj, Equiv.swap_apply_right]
    rw [if_neg hkj]
    by_cases hki : k = i
    · rw [if_pos hki, hki, Equiv.swap_apply_left]
    · rw [if_neg hki, Equiv.swap_apply_of_ne_of_ne hki hkj]

theorem swapElements_rearranges (hi₁ : lo ≤ i) (hi₂ : i ≤ hi) (hj₁ : lo ≤ j) (hj₂ : j ≤ hi)
    (hhi : hi < xs.length) :
    ∃ ys, swapElements lo hi xs i j = .ok ys ∧ Rearranges lo hi xs ys ∧
      contents ys = fun k => contents xs (Equiv.swap i j k) := by
  obtain ⟨ys, hswap, hlen, hslots⟩ := swapElements_eq hi₁ hi₂ hj₁ hj₂ hhi
  refine ⟨ys, hswap, ⟨hlen, ?_⟩, hslots⟩
  rw [hslots]
  exact rearranged_swap hi₁ (Nat.lt_succ_of_le hi₂) hj₁ (Nat.lt_succ_of_le hj₂)

theorem orderSlots_rearranges (compare : CompareFn es) (hi₁ : lo ≤ i) (hi₂ : i ≤ hi)
    (hj₁ : lo ≤ j) (hj₂ : j ≤ hi) (hhi : hi < xs.length) :
    ∃ ys, orderSlots compare lo hi xs i j = .ok ys ∧ Rearranges lo hi xs ys := by
  rw [orderSlots, compareSlots_eq hi₁ hi₂ hj₁ hj₂ hhi]
  by_cases hc : compare (contents xs i) (contents xs j) > 0
  · obtain ⟨ys, hswap, hre, -⟩ := swapElements_rearranges hi₁ hi₂ hj₁ hj₂ hhi
    exact ⟨ys, by simpa only [Except.bind, if_pos hc] using hswap, hre⟩
  · exact ⟨xs, by simp only [Except.bind, if_neg hc], Rearranges.refl _ _ _⟩

theorem medianOfThree_rearranges (compare : CompareFn es) (h : lo ≤ hi) (hhi : hi < xs.length)
    (hlen : xs.length < 2 ^ 64) :
    ∃ ys mid, medianOfThree compare lo hi xs = .ok (ys, mid) ∧ lo ≤ mid ∧ mid ≤ hi ∧
      Rearranges lo hi xs ys := by
  have hmid : midpoint lo hi = lo + (hi - lo) / 2 := midpoint_eq h (by omega)
  have hmid₁ : lo ≤ midpoint lo hi := by omega
  have hmid₂ : midpoint lo hi ≤ hi := by omega
  obtain ⟨ys₁, hys₁, hre₁⟩ := orderSlots_rearranges compare le_rfl h hmid₁ hmid₂ hhi
  obtain ⟨ys₂, hys₂, hre₂⟩ := orderSlots_rearranges compare le_rfl h h le_rfl
    (hhi.trans_eq hre₁.length.symm)
  have hre₁₂ := hre₁.trans hre₂
  obtain ⟨ys₃, hys₃, hre₃⟩ := orderSlots_rearranges compare hmid₁ hmid₂ h le_rfl
    (hhi.trans_eq hre₁₂.length.symm)
  refine ⟨ys₃, midpoint lo hi, ?_, hmid₁, hmid₂, hre₁₂.trans hre₃⟩
  rw [medianOfThree, hys₁]
  simp only [Except.bind]
  rw [hys₂]
  simp only [hys₃]
  rfl

/-! ## Scanning -/

/-- The scan up stops at the first slot from `s` on that is not below the pivot. -/
theorem scanUp_stops {s m : ℕ} (compare : CompareFn es) (fuel : ℕ) (hhi : hi < xs.length)
    (hlen : xs.length < 2 ^ 64) (hs : wrap (i + 1) = s) (hlo : lo ≤ s) (hsm : s ≤ m) (hm : m ≤ hi)
    (hfuel : m - s < fuel)
    (hstop : 0 ≤ compare (contents xs m) (contents xs lo)) :
    ∃ i', scanUp compare lo hi xs fuel i = .ok i' ∧ s ≤ i' ∧ i' ≤ m ∧
      (∀ k, s ≤ k → k < i' → compare (contents xs k) (contents xs lo) < 0) ∧
      0 ≤ compare (contents xs i') (contents xs lo) := by
  induction fuel generalizing i s with
  | zero => omega
  | succ fuel ih =>
    have hread : compareSlots compare lo hi xs s lo =
        .ok (compare (contents xs s) (contents xs lo)) :=
      compareSlots_eq hlo (hsm.trans hm) le_rfl (by omega) hhi
    rw [scanUp]
    simp only [hs, hread, Except.bind]
    by_cases hc : compare (contents xs s) (contents xs lo) < 0
    · have hne : s ≠ m := by
        rintro rfl
        omega
      have hnext : wrap (s + 1) = s + 1 := wrap_of_lt (by omega)
      obtain ⟨i', hscan, hle, hle', hpass, hend⟩ := ih hnext (by omega) (by omega) (by omega)
      refine ⟨i', by rw [if_pos hc, hscan], by omega, hle', fun k hk hki => ?_, hend⟩
      rcases hk.eq_or_lt with rfl | hlt
      · exact hc
      · exact hpass k hlt hki
    · exact ⟨s, by rw [if_neg hc], le_rfl, hsm, fun k hk hks => by omega, not_lt.mp hc⟩

/-- The scan down stops at the last slot before `j` that is not above the pivot. -/
theorem scanDown_stops {m : ℕ} (compare : CompareFn es) (fuel : ℕ) (hhi : hi < xs.length)
    (hlen : xs.length < 2 ^ 64)
    (hj : j ≤ hi + 1) (hlo : lo ≤ m) (hm : m < j) (hfuel : j - m ≤ fuel)
    (hstop : compare (contents xs m) (contents xs lo) ≤ 0) :
    ∃ j', scanDown compare lo hi xs fuel j = .ok j' ∧ m ≤ j' ∧ j' < j ∧
      (∀ k, j' < k → k < j → 0 < compare (contents xs k) (contents xs lo)) ∧
      compare (contents xs j') (contents xs lo) ≤ 0 := by
  induction fuel generalizing j with
  | zero => omega
  | succ fuel ih =>
    have hsub : subSize j 1 = j - 1 := subSize_of_le (by omega) (by omega)
    have hread : compareSlots compare lo hi xs (j - 1) lo =
        .ok (compare (contents xs (j - 1)) (contents xs lo)) :=
      compareSlots_eq (by omega) (by omega) le_rfl (by omega) hhi
    rw [scanDown]
    simp only [hsub, hread, Except.bind]
    by_cases hc : compare (contents xs (j - 1)) (contents xs lo) > 0
    · have hne : j - 1 ≠ m := by
        intro he
        rw [he] at hc
        omega
      obtain ⟨j', hscan, hle, hlt, hpass, hend⟩ := @ih (j - 1) (by omega) (by omega) (by omega)
      refine ⟨j', by rw [if_pos hc, hscan], hle, by omega, fun k hk hkj => ?_, hend⟩
      by_cases he : k = j - 1
      · rw [he]
        exact hc
      · exact hpass k hk (by omega)
    · exact ⟨j - 1, by rw [if_neg hc], by omega, by omega, fun k hk hkj => by omega, not_lt.mp hc⟩

/-! ## Partitioning -/

/-- What the partition leaves: the lower part ends in front of `hi`. -/
structure Partitioned (compare : CompareFn es) (lo hi p : ℕ) (xs ys : List (Element es)) :
    Prop where
  rearranges : Rearranges lo hi xs ys
  lo_le : lo ≤ p
  lt_hi : p < hi
  below : Below (NotAfter compare) lo (p + 1) (hi + 1) (contents ys)

theorem Partitioned.of_rearranges (h : Partitioned compare lo hi p ys zs)
    (hre : Rearranges lo hi xs ys) : Partitioned compare lo hi p xs zs :=
  ⟨hre.trans h.rearranges, h.lo_le, h.lt_hi, h.below⟩

section Lawful

variable (hc : LawfulOn compare Set.univ)

include hc

theorem notAfter_refl (a : Element es) : NotAfter compare a a := (hc.cmp_self trivial).le

theorem notAfter_trans (a b c : Element es) (hab : NotAfter compare a b)
    (hbc : NotAfter compare b c) : NotAfter compare a c :=
  hc.trans a trivial b trivial c trivial hab hbc

theorem notAfter_of_nonneg {a b : Element es} (h : 0 ≤ compare a b) : NotAfter compare b a :=
  (hc.nonpos_iff trivial trivial).mpr h

/-- The rounds after the first one. -/
theorem partitionLoop_halfway {fuel : ℕ} (hhi : hi < xs.length) (hlen : xs.length < 2 ^ 64)
    (h : Halfway (NotAfter compare) lo hi i j (contents xs)) (hfuel : j - i < fuel) :
    ∃ ys p, partitionLoop compare lo hi fuel i j xs = .ok (ys, p) ∧
      Partitioned compare lo hi p xs ys := by
  induction fuel generalizing i j xs with
  | zero => omega
  | succ fuel ih =>
    have hlo := h.lo_le
    have hij := h.lt
    have hjhi := h.le_hi
    -- slot `j` stops the scan up, slot `i` the scan down
    obtain ⟨i', hup, hi₁, hi₂, hpass, hstop⟩ := scanUp_stops compare (hi - lo + 2) hhi hlen
      (wrap_of_lt (by omega) : wrap (i + 1) = i + 1) (by omega) hij
      hjhi (by omega) ((hc.nonpos_iff trivial trivial).mp (h.high j le_rfl hjhi))
    obtain ⟨j', hdown, hj₁, hj₂, hpass', hstop'⟩ := scanDown_stops compare (hi - lo + 2) hhi
      hlen (by omega) hlo hij (by omega) (h.low i hlo le_rfl)
    have hbelow : ∀ k, i < k → k < i' → NotAfter compare (contents xs k) (contents xs lo) :=
      fun k hk hki => (hpass k hk hki).le
    have habove : ∀ k, j' < k → k < j → NotAfter compare (contents xs lo) (contents xs k) :=
      fun k hk hkj => notAfter_of_nonneg hc (hpass' k hk hkj).le
    rw [partitionLoop, hup]
    simp only [Except.bind]
    rw [hdown]
    by_cases hmet : i' ≥ j'
    · exact ⟨xs, j', by simp only [if_pos hmet], Rearranges.refl _ _ _, by omega, by omega,
        h.finish (notAfter_trans hc) hmet hbelow habove hstop'⟩
    · obtain ⟨ys, hswap, hre, hslots⟩ := swapElements_rearranges (by omega : lo ≤ i')
        (by omega : i' ≤ hi) (by omega : lo ≤ j') (by omega) hhi
      have hnext := h.exchange hi₁ (not_le.mp hmet) hj₂ hbelow (notAfter_of_nonneg hc hstop) habove
        hstop'
      rw [← hslots] at hnext
      obtain ⟨zs, p, hloop, hpart⟩ := ih (by rw [hre.length]; exact hhi)
        (by rw [hre.length]; exact hlen) hnext (by omega)
      refine ⟨zs, p, ?_, hpart.of_rearranges hre⟩
      simp only [if_neg hmet]
      rw [hswap]
      exact hloop

/-- The first round, whose scan up stops at the pivot itself. -/
theorem partitionLoop_first (fuel : ℕ) (hlt : lo < hi) (hhi : hi < xs.length)
    (hlen : xs.length < 2 ^ 64) (hfuel : hi - lo + 1 < fuel) :
    ∃ ys p, partitionLoop compare lo hi fuel (subSize lo 1) (wrap (hi + 1)) xs = .ok (ys, p) ∧
      Partitioned compare lo hi p xs ys := by
  cases fuel with
  | zero => omega
  | succ fuel =>
    have hself : compare (contents xs lo) (contents xs lo) = 0 := hc.cmp_self trivial
    have hstart : wrap (subSize lo 1 + 1) = lo := by
      unfold subSize wrap
      omega
    obtain ⟨i', hup, hi₁, hi₂, -⟩ := scanUp_stops compare (hi - lo + 2) hhi hlen hstart
      le_rfl (le_refl lo) hlt.le (by omega) hself.ge
    obtain rfl : i' = lo := by omega
    obtain ⟨j', hdown, hj₁, hj₂, hpass, hstop⟩ := scanDown_stops compare (hi - i' + 2) hhi hlen
      (le_refl (hi + 1)) (le_refl i') (by omega) (by omega)
      hself.le
    rw [wrap_of_lt (by omega), partitionLoop, hup]
    simp only [Except.bind]
    rw [hdown]
    have habove : ∀ k, j' < k → k ≤ hi → NotAfter compare (contents xs i') (contents xs k) :=
      fun k hk hkh => notAfter_of_nonneg hc (hpass k hk (by omega)).le
    by_cases hmet : i' ≥ j'
    · obtain rfl : j' = i' := by omega
      refine ⟨xs, j', by simp only [if_pos hmet], Rearranges.refl _ _ _, le_rfl, hlt, ?_⟩
      intro k l hk hkj hl hlh
      obtain rfl : k = j' := by omega
      exact habove l (by omega) (by omega)
    · obtain ⟨ys, hswap, hre, hslots⟩ := swapElements_rearranges
        (le_refl i') hlt.le hj₁ (by omega) hhi
      have hnext := halfway_first (notAfter_refl hc) (notAfter_trans hc) (not_le.mp hmet)
        (by omega : j' ≤ hi) hstop habove
      rw [← hslots] at hnext
      obtain ⟨zs, p, hloop, hpart⟩ := partitionLoop_halfway hc (by rw [hre.length]; exact hhi)
        (by rw [hre.length]; exact hlen) hnext (by omega : j' - i' < fuel)
      refine ⟨zs, p, ?_, hpart.of_rearranges hre⟩
      simp only [if_neg hmet]
      rw [hswap]
      exact hloop

theorem partition_partitions (hlt : lo < hi) (hhi : hi < xs.length) (hlen : xs.length < 2 ^ 64) :
    ∃ ys p, partition compare lo hi xs = .ok (ys, p) ∧ Partitioned compare lo hi p xs ys := by
  obtain ⟨ys₁, mid, hmed, hmid₁, hmid₂, hre₁⟩ :=
    medianOfThree_rearranges compare hlt.le hhi hlen
  have hlen₁ := hre₁.length
  obtain ⟨ys₂, hswap, hre₂, -⟩ := swapElements_rearranges le_rfl hlt.le hmid₁ hmid₂
    (by omega : hi < ys₁.length)
  have hre := hre₁.trans hre₂
  have hlen₂ := hre.length
  obtain ⟨zs, p, hloop, hpart⟩ := partitionLoop_first hc (hi - lo + 2) hlt
    (by omega : hi < ys₂.length) (by omega) (by omega)
  refine ⟨zs, p, ?_, hpart.of_rearranges hre⟩
  rw [partition, hmed]
  simp only [Except.bind]
  rw [hswap]
  exact hloop

/-! ## The whole sort -/

theorem quicksort_sorts {fuel : ℕ} (lo : ℕ) (hhi : hi < xs.length) (hlen : xs.length < 2 ^ 64)
    (hfuel : hi - lo < fuel) :
    ∃ ys, quicksort compare fuel lo hi xs = .ok ys ∧ Rearranges lo hi xs ys ∧
      SortedOn (NotAfter compare) lo (hi + 1) (contents ys) := by
  induction fuel generalizing lo hi xs with
  | zero => omega
  | succ fuel ih =>
    by_cases hlt : lo < hi
    · obtain ⟨ys, p, hpartition, ⟨hre, hlop, hphi, hbelow⟩⟩ := partition_partitions hc hlt hhi hlen
      have hlen' := hre.length
      have hnext : wrap (p + 1) = p + 1 := wrap_of_lt (by omega)
      rw [quicksort, if_pos hlt, hpartition]
      simp only [Except.bind, hnext]
      split_ifs
      · -- the lower part first
        obtain ⟨zs, hl, hrel, hsortl⟩ := @ih ys p lo (by omega) (by omega)
          (by omega)
        have hlenl := hrel.length
        obtain ⟨ws, hr, hrer, hsortr⟩ := @ih zs hi (p + 1) (by omega)
          (by omega) (by omega)
        refine ⟨ws, by rw [hl]; exact hr,
          hre.trans ((hrel.widen le_rfl hphi.le).trans (hrer.widen (by omega) le_rfl)), ?_⟩
        exact (hsortl.congr fun k _ hk => hrer.slots.outside (.inl hk)).join hsortr
          ((hbelow.rearranged_left hrel.slots).rearranged_right hrer.slots)
      · obtain ⟨zs, hr, hrer, hsortr⟩ := @ih ys hi (p + 1) (by omega)
          (by omega) (by omega)
        have hlenr := hrer.length
        obtain ⟨ws, hl, hrel, hsortl⟩ := @ih zs p lo (by omega) (by omega)
          (by omega)
        refine ⟨ws, by rw [hr]; exact hl,
          hre.trans ((hrer.widen (by omega) le_rfl).trans (hrel.widen le_rfl hphi.le)), ?_⟩
        exact hsortl.join (hsortr.congr fun k hk _ => hrel.slots.outside (.inr hk))
          ((hbelow.rearranged_right hrer.slots).rearranged_left hrel.slots)
    · refine ⟨xs, by rw [quicksort, if_neg hlt], Rearranges.refl _ _ _, fun i j hi hij hj => ?_⟩
      omega

/-- The early return: there is nothing to sort. -/
theorem pairwise_of_trivial (h : xs.length < 2 ∨ es = 0) : xs.Pairwise (NotAfter compare) := by
  rcases h with hshort | rfl
  · refine List.pairwise_iff_getElem.mpr fun i j _ hj hij => ?_
    omega
  · refine List.pairwise_of_forall fun a b => ?_
    rw [Subsingleton.elim a b]
    exact notAfter_refl hc b

end Lawful

theorem zenitSortQuick_sorts (hc : LawfulOn compare Set.univ) (base : Elements es) :
    ∃ ys, zenitSortQuick compare base = .ok ys ∧ ys.Perm base.slots ∧
      ys.Pairwise fun a b => compare a b ≤ 0 := by
  by_cases htrivial : base.slots.length < 2 ∨ es = 0
  · exact ⟨base.slots, by rw [zenitSortQuick, if_pos htrivial], List.Perm.refl _,
      pairwise_of_trivial hc htrivial⟩
  have hcount : 2 ≤ base.slots.length := by omega
  have hlast : base.slots.length - 1 < base.slots.length := by omega
  obtain ⟨ys, hsort, hre, hsorted⟩ := quicksort_sorts hc 0 hlast base.count_lt
    (by omega : base.slots.length - 1 - 0 < base.slots.length)
  have hlen := hre.length
  refine ⟨ys, ?_, hre.perm hlast, pairwise_of_sortedOn hsorted (by omega)⟩
  rw [zenitSortQuick, if_neg htrivial]
  exact hsort

theorem ranks_sorted :
    ∃ ys, zenitSortQuick (rankCmp fun e : Element 2 => ((e.1.headD 0).toNat : ℤ))
        ⟨[⟨[3, 0], rfl⟩, ⟨[1, 7], rfl⟩, ⟨[3, 1], rfl⟩, ⟨[2, 9], rfl⟩], by simp, by simp⟩ = .ok ys ∧
      ys.Perm [⟨[3, 0], rfl⟩, ⟨[1, 7], rfl⟩, ⟨[3, 1], rfl⟩, ⟨[2, 9], rfl⟩] ∧
      ys.Pairwise fun a b => rankCmp (fun e : Element 2 => ((e.1.headD 0).toNat : ℤ)) a b ≤ 0 :=
  zenitSortQuick_sorts (lawfulOn_rank _ _) _

end LibZenit.Sorting
