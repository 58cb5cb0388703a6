import LibZenit.SortModel
import LibZenit.StableSorting

/-!
# The merge sort is the stable sort

A call of the recursion sorts the slots of its range and leaves the others. The buffer is shared by
all of them; what a merge finds in it does not matter, since it reads back only what it has written.
-/
namespace LibZenit.Sorting
open Blocks Comparators StableSorting

variable {es : ℕ} {compare : CompareFn es} {xs ys zs buf : List (Element es)}
  {lo mid hi i j k stop fuel : ℕ}

/-- The slots of `[lo, hi)`. -/
def slice {α : Type} (xs : List α) (lo hi : ℕ) : List α := (xs.take hi).drop lo

section Slices

variable {α : Type} {xs ys data : List α} {a : α}

theorem length_slice (h : hi ≤ xs.length) : (slice xs lo hi).length = hi - lo := by
  rw [slice, List.length_drop, List.length_take, min_eq_left h]

theorem slice_eq_nil (h : hi ≤ lo) : slice xs lo hi = [] := by
  refine List.drop_eq_nil_of_le ?_
  rw [List.length_take]
  omega

theorem slice_full (xs : List α) : slice xs 0 xs.length = xs := by
  rw [slice, List.take_length, List.drop_zero]

theorem slice_cons (h : i < hi) (ha : xs[i]? = some a) :
    slice xs i hi = a :: slice xs (i + 1) hi := by
  obtain ⟨hlen, rfl⟩ := List.getElem?_eq_some_iff.mp ha
  rw [slice, List.drop_eq_getElem_cons (by rw [List.length_take]; omega), List.getElem_take]
  rfl

theorem slice_append (hlo : lo ≤ mid) (hmid : mid ≤ hi) (hhi : hi ≤ xs.length) :
    slice xs lo mid ++ slice xs mid hi = slice xs lo hi := by
  have htake : xs.take mid = (xs.take hi).take mid := by rw [List.take_take, min_eq_left hmid]
  have hlen : lo ≤ ((xs.take hi).take mid).length := by simp; omega
  rw [slice, slice, htake, ← List.drop_append_of_le_length hlen, List.take_append_drop]
  rfl

theorem slice_congr_take (h : ys.take mid = xs.take mid) (hhi : hi ≤ mid) :
    slice ys lo hi = slice xs lo hi := by
  have htake : ys.take hi = xs.take hi := by
    rw [← min_eq_left hhi, ← List.take_take, h, List.take_take]
  rw [slice, slice, htake]

theorem slice_congr_drop (h : ys.drop mid = xs.drop mid) (hlo : mid ≤ lo) :
    slice ys lo hi = slice xs lo hi := by
  have hdrop : ys.drop lo = xs.drop lo := by
    rw [← Nat.add_sub_cancel' hlo, ← List.drop_drop, h, List.drop_drop]
  rw [slice, slice, List.drop_take, List.drop_take, hdrop]

theorem take_patch (h : lo ≤ xs.length) : (patch xs lo data).take lo = xs.take lo := by
  have hlen : (xs.take lo).length = lo := by rw [List.length_take, min_eq_left h]
  rw [patch, List.append_assoc, List.take_left' hlen]

theorem drop_patch (h : lo ≤ xs.length) (hhi : lo + data.length = hi) :
    (patch xs lo data).drop hi = xs.drop hi := by
  have hlen : (xs.take lo ++ data).length = hi := by
    rw [List.length_append, List.length_take, min_eq_left h, hhi]
  rw [patch, List.drop_left' hlen, hhi]

theorem slice_patch (h : lo ≤ xs.length) (hhi : lo + data.length = hi) :
    slice (patch xs lo data) lo hi = data := by
  have hlen : (xs.take lo ++ data).length = hi := by
    rw [List.length_append, List.length_take, min_eq_left h, hhi]
  have hlo : (xs.take lo).length = lo := by rw [List.length_take, min_eq_left h]
  rw [slice, patch, List.take_left' hlen, List.drop_left' hlo]

end Slices

/-! ## Merging -/

/-- `k` slots of the buffer are filled, and the halves from `i` and `j` on still have to be merged
behind them. -/
def outcome (compare : CompareFn es) (xs : List (Element es)) (mid hi i j k : ℕ)
    (buf : List (Element es)) : List (Element es) :=
  buf.take k ++ mergeBy compare (slice xs i mid) (slice xs j hi)

/-- Where the loop of the merge stops: one of the halves is used up. -/
structure MergeStop (compare : CompareFn es) (xs : List (Element es)) (mid hi i j k : ℕ)
    (buf : List (Element es)) (i' j' k' : ℕ) (buf' : List (Element es)) : Prop where
  length : buf'.length = buf.length
  fits : k' + (mid - i') + (hi - j') = k + (mid - i) + (hi - j)
  left : i' ≤ mid
  right : j' ≤ hi
  done : i' = mid ∨ j' = hi
  same : outcome compare xs mid hi i' j' k' buf' = outcome compare xs mid hi i j k buf

theorem mergeLoop_stops (compare : CompareFn es) (k fuel : ℕ) (buf : List (Element es))
    (hmid : mid ≤ xs.length) (hhi : hi ≤ xs.length) (hi₁ : i ≤ mid) (hj₁ : j ≤ hi)
    (hfuel : (mid - i) + (hi - j) < fuel) (hbuf : k + (mid - i) + (hi - j) ≤ buf.length) :
    ∃ i' j' k' buf', mergeLoop compare xs mid hi fuel i j k buf = .ok (i', j', k', buf') ∧
      MergeStop compare xs mid hi i j k buf i' j' k' buf' := by
  induction fuel generalizing i j k buf with
  | zero => omega
  | succ fuel ih =>
    by_cases hmore : i < mid ∧ j < hi
    · have hi₂ : i < xs.length := by omega
      have hj₂ : j < xs.length := by omega
      have hk : k < buf.length := by omega
      have ha : xs[i]? = some xs[i] := List.getElem?_eq_getElem hi₂
      have hb : xs[j]? = some xs[j] := List.getElem?_eq_getElem hj₂
      rw [mergeLoop, if_pos hmore, readSlot_eq ha, readSlot_eq hb]
      simp only [Except.bind]
      by_cases hle : compare xs[i] xs[j] ≤ 0
      · obtain ⟨i', j', k', buf', hloop, ⟨hlen, hfits, hl, hr, hdone, hsame⟩⟩ :=
          @ih (i + 1) j (k + 1) (buf.set k xs[i]) (by omega) (by omega)
            (by omega) (by rw [List.length_set]; omega)
        refine ⟨i', j', k', buf', ?_, ⟨by simpa using hlen, by omega, hl, hr, hdone, ?_⟩⟩
        · rw [if_pos hle, writeSlot_eq hk]
          exact hloop
        · rw [hsame, outcome, outcome, take_succ_set hk, List.append_assoc, slice_cons hmore.1 ha,
            slice_cons hmore.2 hb, mergeBy_cons_cons, if_pos hle, List.singleton_append]
      · obtain ⟨i', j', k', buf', hloop, ⟨hlen, hfits, hl, hr, hdone, hsame⟩⟩ :=
          @ih i (j + 1) (k + 1) (buf.set k xs[j]) (by omega) (by omega)
            (by omega) (by rw [List.length_set]; omega)
        refine ⟨i', j', k', buf', ?_, ⟨by simpa using hlen, by omega, hl, hr, hdone, ?_⟩⟩
        · rw [if_neg hle, writeSlot_eq hk]
          exact hloop
        · rw [hsame, outcome, outcome, take_succ_set hk, List.append_assoc, slice_cons hmore.1 ha,
            slice_cons hmore.2 hb, mergeBy_cons_cons, if_neg hle, List.singleton_append]
    · exact ⟨i, j, k, buf, by rw [mergeLoop, if_neg hmore],
        ⟨rfl, rfl, hi₁, hj₁, by omega, rfl⟩⟩

theorem copyRest_copies (i k fuel : ℕ) (buf : List (Element es)) (hstop : stop ≤ xs.length)
    (hfuel : stop - i < fuel) (hbuf : k + (stop - i) ≤ buf.length) :
    ∃ buf', copyRest xs stop fuel i k buf = .ok (k + (stop - i), buf') ∧
      buf'.length = buf.length ∧ buf'.take (k + (stop - i)) = buf.take k ++ slice xs i stop := by
  induction fuel generalizing i k buf with
  | zero => omega
  | succ fuel ih =>
    by_cases hmore : i < stop
    · have hi₂ : i < xs.length := by omega
      have hk : k < buf.length := by omega
      have ha : xs[i]? = some xs[i] := List.getElem?_eq_getElem hi₂
      obtain ⟨buf', hloop, hlen, htake⟩ := @ih (i + 1) (k + 1) (buf.set k xs[i])
        (by omega) (by rw [List.length_set]; omega)
      have hcount : k + 1 + (stop - (i + 1)) = k + (stop - i) := by omega
      rw [hcount] at hloop htake
      refine ⟨buf', ?_, by simpa using hlen, ?_⟩
      · rw [copyRest, if_pos hmore, readSlot_eq ha]
        simp only [Except.bind]
        rw [writeSlot_eq hk]
        exact hloop
      · rw [htake, take_succ_set hk, slice_cons hmore ha, List.append_assoc, List.singleton_append]
    · have hzero : stop - i = 0 := by omega
      rw [hzero]
      exact ⟨buf, by rw [copyRest, if_neg hmore, Nat.add_zero], rfl,
        by rw [slice_eq_nil (by omega), List.append_nil, Nat.add_zero]⟩

theorem merge_eq (compare : CompareFn es) (buf : List (Element es)) (hlo : lo ≤ mid)
    (hmid : mid ≤ hi) (hhi : hi ≤ xs.length) (hbuf : hi - lo ≤ buf.length) :
    ∃ buf', merge compare lo mid hi xs buf =
        .ok (patch xs lo (mergeBy compare (slice xs lo mid) (slice xs mid hi)), buf') ∧
      buf'.length = buf.length := by
  obtain ⟨i, j, k, buf₁, hloop, ⟨hlen₁, hfits, hl, hr, hdone, hsame⟩⟩ :=
    mergeLoop_stops compare 0 (hi - lo + 1) buf (hmid.trans hhi) hhi hlo hmid (by omega) (by omega)
  obtain ⟨buf₂, hcopy₂, hlen₂, htake₂⟩ := copyRest_copies i k (mid - i + 1) buf₁
    (hmid.trans hhi) (by omega) (by omega)
  obtain ⟨buf₃, hcopy₃, hlen₃, htake₃⟩ := copyRest_copies j (k + (mid - i))
    (hi - j + 1) buf₂ hhi (by omega) (by omega)
  have hcount : k + (mid - i) + (hi - j) = hi - lo := by omega
  -- one of the two rests is empty, so copying both is merging them
  have hdata : buf₃.take (hi - lo) = mergeBy compare (slice xs lo mid) (slice xs mid hi) := by
    rw [← hcount, htake₃, htake₂]
    rw [outcome, outcome, List.take_zero, List.nil_append] at hsame
    rw [← hsame, List.append_assoc]
    rcases hdone with rfl | rfl
    · rw [slice_eq_nil le_rfl, List.nil_append, mergeBy_nil_left]
    · rw [slice_eq_nil (le_refl j), List.append_nil, mergeBy_nil_right]
  have hread : readSlots buf₃ 0 (hi - lo) = .ok (buf₃.take (hi - lo)) := by
    rw [readSlots, if_pos (by omega), List.drop_zero]
  have hfit : lo + (buf₃.take (hi - lo)).length ≤ xs.length := by
    rw [List.length_take]
    omega
  refine ⟨buf₃, ?_, by omega⟩
  rw [merge, hloop]
  simp only [Except.bind]
  rw [hcopy₂]
  simp only [hcopy₃, hcount, hread]
  rw [writeSlots, if_pos hfit, hdata]
  rfl

/-! ## The recursion -/

/-- What sorting the range `[lo, hi)` leaves. -/
structure SortsRange (compare : CompareFn es) (lo hi : ℕ) (xs ys : List (Element es)) : Prop where
  length : ys.length = xs.length
  before : ys.take lo = xs.take lo
  after : ys.drop hi = xs.drop hi
  sorted : StablySorted compare (slice xs lo hi) (slice ys lo hi)

theorem patch_sortsRange (hc : LawfulOn compare Set.univ) (hlo : lo ≤ mid) (hmid : mid ≤ hi)
    (hhi : hi ≤ xs.length) (hl : SortsRange compare lo mid xs ys)
    (hr : SortsRange compare mid hi ys zs) :
    SortsRange compare lo hi xs
      (patch zs lo (mergeBy compare (slice zs lo mid) (slice zs mid hi))) := by
  have hlenl := hl.length
  have hlenr := hr.length
  have hend : lo + (mergeBy compare (slice zs lo mid) (slice zs mid hi)).length = hi := by
    rw [length_mergeBy, length_slice (by omega), length_slice (by omega)]
    omega
  have hlow : StablySorted compare (slice xs lo mid) (slice zs lo mid) := by
    rw [slice_congr_take hr.before le_rfl]
    exact hl.sorted
  have hhigh : StablySorted compare (slice xs mid hi) (slice zs mid hi) := by
    rw [← slice_congr_drop hl.after le_rfl]
    exact hr.sorted
  refine ⟨?_, ?_, ?_, ?_⟩
  · rw [length_patch (by omega), hlenr, hlenl]
  · rw [take_patch (by omega), ← hl.before, ← min_eq_left hlo, ← List.take_take, hr.before,
      List.take_take]
  · rw [drop_patch (by omega) hend, hr.after, ← Nat.add_sub_cancel' hmid, ← List.drop_drop,
      hl.after, List.drop_drop]
  · rw [slice_patch (by omega) hend, ← slice_append hlo hmid hhi]
    exact hlow.merge hc hhigh

theorem mergesortImpl_sorts (lo fuel : ℕ) (buf : List (Element es))
    (hc : LawfulOn compare Set.univ) (hlo : lo ≤ hi) (hhi : hi ≤ xs.length)
    (hlen : xs.length < 2 ^ 64) (hpos : 0 < fuel) (hfuel : hi - lo ≤ fuel)
    (hbuf : hi - lo ≤ buf.length) :
    ∃ ys buf', mergesortImpl compare fuel lo hi xs buf = .ok (ys, buf') ∧
      buf'.length = buf.length ∧ SortsRange compare lo hi xs ys := by
  induction fuel generalizing lo hi xs buf with
  | zero => omega
  | succ fuel ih =>
    have hsub : subSize hi lo = hi - lo := subSize_of_le hlo (by omega)
    by_cases hshort : hi - lo < 2
    · refine ⟨xs, buf, by rw [mergesortImpl, hsub, if_pos hshort], rfl, rfl, rfl, rfl, ?_⟩
      exact stablySorted_of_short (by rw [length_slice hhi]; exact hshort)
    have hmid : midpoint lo hi = lo + (hi - lo) / 2 := midpoint_eq hlo (by omega)
    obtain ⟨ys, buf₁, hleft, hlen₁, hl⟩ := @ih xs (midpoint lo hi) lo buf
      (by omega) (by omega) (by omega) (by omega) (by omega) (by omega)
    have hlenl := hl.length
    obtain ⟨zs, buf₂, hright, hlen₂, hr⟩ := @ih ys hi (midpoint lo hi) buf₁
      (by omega) (by omega) (by omega) (by omega) (by omega) (by omega)
    have hlenr := hr.length
    obtain ⟨buf₃, hmerge, hlen₃⟩ := merge_eq compare buf₂
      (by omega : lo ≤ midpoint lo hi) (by omega : _ ≤ hi) (by omega : _ ≤ zs.length) (by omega)
    refine ⟨_, buf₃, ?_, by omega, patch_sortsRange hc (by omega) (by omega) hhi hl hr⟩
    rw [mergesortImpl, hsub, if_neg hshort]
    simp only [hleft, hright, Except.bind]
    exact hmerge

/-- The early return: all of the elements are one. -/
theorem stablySorted_of_trivial (hc : LawfulOn compare Set.univ) (h : xs.length < 2 ∨ es = 0) :
    StablySorted compare xs xs := by
  rcases h with hshort | rfl
  · exact stablySorted_of_short hshort
  · refine ⟨List.Perm.refl _, List.pairwise_of_forall fun a b => ?_, fun _ => rfl⟩
    rw [Subsingleton.elim a b]
    exact (hc.cmp_self trivial).le

theorem zenitSortStable_stable (hc : LawfulOn compare Set.univ) (ok : Bool)
    (fresh : ℕ → Element es) (base : Elements es) :
    ∃ ys code, zenitSortStable compare ok fresh base = .ok (ys, code) ∧
      (code = .ok ∧ StablySorted compare base.slots ys ∧
          (∀ zs, StablySorted compare base.slots zs → zs = ys) ∨
        code = .alloc ∧ granted ok (base.slots.length * es) = false ∧ ys = base.slots) := by
  by_cases htrivial : base.slots.length < 2 ∨ es = 0
  · have hsorted := stablySorted_of_trivial hc htrivial
    exact ⟨base.slots, .ok, by rw [zenitSortStable, if_pos htrivial],
      .inl ⟨rfl, hsorted, fun zs hzs => hzs.unique hc hsorted⟩⟩
  have hwrap : wrap (base.slots.length * es) = base.slots.length * es := wrap_of_lt base.size_lt
  cases hgrant : granted ok (base.slots.length * es) with
  | false =>
    refine ⟨base.slots, .alloc, ?_, .inr ⟨rfl, rfl, rfl⟩⟩
    rw [zenitSortStable, if_neg htrivial, hwrap, hgrant]
    rfl
  | true =>
    have hslots : slotsOf es base.slots.length = base.slots.length :=
      slotsOf_eq (by omega) base.size_lt
    obtain ⟨ys, buf', hsort, -, ⟨hlen, -, -, hsorted⟩⟩ := mergesortImpl_sorts 0
      base.slots.length ((List.range base.slots.length).map fresh) hc (Nat.zero_le _) le_rfl
      base.count_lt (by omega) (by omega) (by simp)
    rw [slice_full, ← hlen, slice_full] at hsorted
    refine ⟨ys, .ok, ?_, .inl ⟨rfl, hsorted, fun zs hzs => hzs.unique hc hsorted⟩⟩
    rw [zenitSortStable, if_neg htrivial, hwrap, hgrant, hslots, hsort]
    rfl

theorem ties_kept :
    ∃ ys code, zenitSortStable (rankCmp fun e : Element 2 => ((e.1.headD 0).toNat : ℤ)) true
        (fun _ => ⟨[0, 0], rfl⟩)
        ⟨[⟨[3, 0], rfl⟩, ⟨[1, 7], rfl⟩, ⟨[3, 1], rfl⟩], by simp, by simp⟩ = .ok (ys, code) ∧
      (code = .ok ∧ StablySorted (rankCmp fun e : Element 2 => ((e.1.headD 0).toNat : ℤ))
            [⟨[3, 0], rfl⟩, ⟨[1, 7], rfl⟩, ⟨[3, 1], rfl⟩] ys ∧
          (∀ zs, StablySorted (rankCmp fun e : Element 2 => ((e.1.headD 0).toNat : ℤ))
            [⟨[3, 0], rfl⟩, ⟨[1, 7], rfl⟩, ⟨[3, 1], rfl⟩] zs → zs = ys) ∨
        code = .alloc ∧ granted true (3 * 2) = false ∧
          ys = [⟨[3, 0], rfl⟩, ⟨[1, 7], rfl⟩, ⟨[3, 1], rfl⟩]) :=
  zenitSortStable_stable (lawfulOn_rank _ _) true _ _

end LibZenit.Sorting
