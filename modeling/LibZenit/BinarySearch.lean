import LibZenit.Comparators
import LibZenit.SortModel

/-!
# The binary searches agree

A bound is the position where a test turns true along the array. The test of the lower bound turns
true before that of the upper bound, and the ties of the key are what lies between.
-/
namespace LibZenit.Sorting
open Blocks Comparators

variable {es : ℕ} {compare : CompareFn es} {key : Element es} {xs : List (Element es)}
  {lo hi fuel r s : ℕ} {test : Element es → Bool}

/-- The test fails on the slots in front of `r` and holds on the others. -/
structure TurnsAt (test : Element es → Bool) (xs : List (Element es)) (r : ℕ) : Prop where
  le : r ≤ xs.length
  iff : ∀ k x, xs[k]? = some x → (test x = true ↔ r ≤ k)

theorem TurnsAt.findIdx? (h : TurnsAt test xs r) :
    (if r < xs.length then some r else none) = xs.findIdx? test := by
  symm
  by_cases hr : r < xs.length
  · rw [if_pos hr, List.findIdx?_eq_some_iff_getElem]
    refine ⟨hr, (h.iff r _ (List.getElem?_eq_getElem hr)).mpr le_rfl, fun k hk => ?_⟩
    rw [h.iff k _ (List.getElem?_eq_getElem (hk.trans hr))]
    omega
  · rw [if_neg hr, List.findIdx?_eq_none_iff]
    intro x hx
    obtain ⟨k, hk⟩ := List.mem_iff_getElem?.mp hx
    have hlt := (List.getElem?_eq_some_iff.mp hk).1
    rw [Bool.eq_false_iff, Ne, h.iff k x hk]
    omega

theorem TurnsAt.getD (h : TurnsAt test xs r) : (xs.findIdx? test).getD xs.length = r := by
  have hle := h.le
  rw [← h.findIdx?]
  split_ifs
  · rfl
  · rw [Option.getD_none]
    omega

theorem pairwise_getElem? {R : Element es → Element es → Prop} (h : xs.Pairwise R) {i j : ℕ}
    {x y : Element es} (hx : xs[i]? = some x) (hy : xs[j]? = some y) (hij : i < j) : R x y := by
  obtain ⟨hi, rfl⟩ := List.getElem?_eq_some_iff.mp hx
  obtain ⟨hj, rfl⟩ := List.getElem?_eq_some_iff.mp hy
  exact List.pairwise_iff_getElem.mp h i j hi hj hij

/-- A test that stays true does so from one position to every later one. -/
theorem test_of_le (ha : xs.Pairwise fun x y => test x = true → test y = true) {i j : ℕ}
    {x y : Element es} (hx : xs[i]? = some x) (hy : xs[j]? = some y) (hij : i ≤ j)
    (h : test x = true) : test y = true := by
  rcases hij.eq_or_lt with rfl | hlt
  · rwa [← Option.some.inj (hx.symm.trans hy)]
  · exact pairwise_getElem? ha hx hy hlt h

theorem boundLoop_turns {goLeft : ℤ → Bool} (hlen : xs.length < 2 ^ 64)
    (ha : xs.Pairwise fun x y => goLeft (compare key x) = true → goLeft (compare key y) = true)
    (hle : lo ≤ hi) (hhi : hi ≤ xs.length) (hfuel : hi - lo < fuel)
    (hlow : ∀ k x, xs[k]? = some x → k < lo → goLeft (compare key x) = false)
    (hhigh : ∀ k x, xs[k]? = some x → hi ≤ k → goLeft (compare key x) = true) :
    ∃ r, boundLoop goLeft compare key xs fuel lo hi = .ok r ∧
      TurnsAt (fun x => goLeft (compare key x)) xs r := by
  induction fuel generalizing lo hi with
  | zero => omega
  | succ fuel ih =>
    by_cases hlt : lo < hi
    · have hmid : midpoint lo hi = lo + (hi - lo) / 2 := midpoint_eq hle (by omega)
      have hmlen : midpoint lo hi < xs.length := by omega
      have hread : xs[midpoint lo hi]? = some xs[midpoint lo hi] := List.getElem?_eq_getElem hmlen
      rw [boundLoop, if_pos hlt]
      simp only [readSlot_eq hread, Except.bind]
      cases htest : goLeft (compare key xs[midpoint lo hi]) with
      | true =>
        exact @ih lo (midpoint lo hi) (by omega) (by omega) (by omega) hlow
          fun k x hx hk => test_of_le ha hread hx hk htest
      | false =>
        rw [wrap_of_lt (by omega)]
        refine @ih (midpoint lo hi + 1) hi (by omega) (by omega) (by omega) ?_ hhigh
        intro k x hx hk
        by_contra htrue
        have hlater := test_of_le ha hx hread (by omega) (by simpa using htrue)
        simp [htest] at hlater
    · refine ⟨lo, by rw [boundLoop, if_neg hlt], by omega, fun k x hx => ?_⟩
      constructor
      · intro htrue
        by_contra hk
        simp [hlow k x hx (by omega)] at htrue
      · intro hk
        exact hhigh k x hx (by omega)

theorem boundSearch_eq (compare : CompareFn es) (goLeft : ℤ → Bool) (key : Element es)
    (hes : 0 < es) (base : Elements es)
    (ha : base.slots.Pairwise fun x y =>
      goLeft (compare key x) = true → goLeft (compare key y) = true) :
    ∃ r, boundSearch goLeft compare key base =
        .ok (base.slots.findIdx? fun x => goLeft (compare key x)) ∧
      TurnsAt (fun x => goLeft (compare key x)) base.slots r := by
  obtain ⟨r, hloop, hturns⟩ := boundLoop_turns base.count_lt ha (Nat.zero_le _) le_rfl
    (by omega : base.slots.length - 0 < base.slots.length + 1) (fun k x _ hk => by omega)
    (fun k x hx hk => by
      have hlt := (List.getElem?_eq_some_iff.mp hx).1
      omega)
  refine ⟨r, ?_, hturns⟩
  rw [boundSearch, if_neg (by omega)]
  simp only [hloop, Except.map]
  rw [hturns.findIdx?]

/-- The search ends at a tie of the key, or there is none. -/
theorem searchLoop_ends (key : Element es) (hc : LawfulOn compare Set.univ)
    (hs : xs.Pairwise fun a b => compare a b ≤ 0) (hlen : xs.length < 2 ^ 64)
    (hle : lo ≤ hi) (hhi : hi ≤ xs.length) (hfuel : hi - lo < fuel)
    (hlow : ∀ k x, xs[k]? = some x → k < lo → 0 < compare key x)
    (hhigh : ∀ k x, xs[k]? = some x → hi ≤ k → compare key x < 0) :
    ∃ i, searchLoop compare key xs fuel lo hi = .ok i ∧
      ((∃ x, xs[i]? = some x ∧ compare key x = 0) ∨
        i = sizeMax ∧ ∀ x ∈ xs, compare key x ≠ 0) := by
  induction fuel generalizing lo hi with
  | zero => omega
  | succ fuel ih =>
    by_cases hlt : lo < hi
    · have hmid : midpoint lo hi = lo + (hi - lo) / 2 := midpoint_eq hle (by omega)
      have hmlen : midpoint lo hi < xs.length := by omega
      have hread : xs[midpoint lo hi]? = some xs[midpoint lo hi] := List.getElem?_eq_getElem hmlen
      rw [searchLoop, if_pos hlt]
      simp only [readSlot_eq hread, Except.bind]
      by_cases htie : compare key xs[midpoint lo hi] = 0
      · exact ⟨midpoint lo hi, by rw [if_pos htie], .inl ⟨_, hread, htie⟩⟩
      rw [if_neg htie]
      by_cases hneg : compare key xs[midpoint lo hi] < 0
      · rw [if_pos hneg]
        refine @ih lo (midpoint lo hi) (by omega) (by omega) (by omega) hlow ?_
        intro k x hx hk
        rcases hk.eq_or_lt with rfl | hlater
        · rwa [← Option.some.inj (hread.symm.trans hx)]
        · exact hc.lt_trans trivial trivial trivial hneg (pairwise_getElem? hs hread hx hlater)
      · rw [if_neg hneg, wrap_of_lt (by omega)]
        refine @ih (midpoint lo hi + 1) hi (by omega) (by omega) (by omega) ?_ hhigh
        intro k x hx hk
        have hpos : 0 < compare key xs[midpoint lo hi] := by omega
        rcases (Nat.lt_succ_iff.mp hk).eq_or_lt with rfl | hearlier
        · rwa [← Option.some.inj (hread.symm.trans hx)]
        · have hback : compare xs[midpoint lo hi] key < 0 :=
            (hc.flip _ trivial key trivial).mpr hpos
          have hfront := hc.lt_trans' trivial trivial trivial
            (pairwise_getElem? hs hx hread hearlier) hback
          exact (hc.flip x trivial key trivial).mp hfront
    · refine ⟨sizeMax, by rw [searchLoop, if_neg hlt], .inr ⟨rfl, fun x hx => ?_⟩⟩
      obtain ⟨k, hk⟩ := List.mem_iff_getElem?.mp hx
      by_cases hkl : k < lo
      · have hpos := hlow k x hk hkl
        omega
      · have hneg := hhigh k x hk (by omega)
        omega

theorem zenitBinarySearch_eq (hes : 0 < es) (hc : LawfulOn compare Set.univ) (base : Elements es)
    (hs : base.slots.Pairwise fun a b => compare a b ≤ 0) (key : Element es) :
    ∃ found, zenitBinarySearch compare key base = .ok found ∧
      (∀ k, found = some k → ∃ x, base.slots[k]? = some x ∧ compare key x = 0) ∧
      (found = none → ∀ x ∈ base.slots, compare key x ≠ 0) := by
  obtain ⟨i, hsearch, hend⟩ := searchLoop_ends key hc hs base.count_lt (Nat.zero_le _)
    le_rfl (by omega : base.slots.length - 0 < base.slots.length + 1) (fun k x _ hk => by omega)
    (fun k x hx hk => absurd (List.getElem?_eq_some_iff.mp hx).1 (not_lt.mpr hk))
  have hcount := base.count_lt
  have hrun : zenitBinarySearch compare key base = .ok (if i ≠ sizeMax then some i else none) := by
    rw [zenitBinarySearch, if_neg (by omega)]
    simp only [hsearch, Except.map]
  refine ⟨_, hrun, ?_⟩
  rcases hend with ⟨x, hx, htie⟩ | ⟨rfl, hnone⟩
  · have hlt := (List.getElem?_eq_some_iff.mp hx).1
    have hne : i ≠ sizeMax := by
      unfold sizeMax
      omega
    rw [if_pos hne]
    exact ⟨fun k hk => ⟨x, by rwa [← Option.some.inj hk], htie⟩, fun h => nomatch h⟩
  · rw [if_neg (not_not.mpr rfl)]
    exact ⟨fun k hk => (nomatch hk), fun _ => hnone⟩

/-- What the three searches say about one key; a bound that is null counts as the length. -/
structure Agree (compare : CompareFn es) (key : Element es) (xs : List (Element es))
    (lower upper found : Option ℕ) : Prop where
  first_not_less : lower = xs.findIdx? fun x => 0 ≤ compare x key
  first_greater : upper = xs.findIdx? fun x => 0 < compare x key
  lower_le_upper : lower.getD xs.length ≤ upper.getD xs.length
  ties : ∀ k x, xs[k]? = some x →
    (compare x key = 0 ↔ lower.getD xs.length ≤ k ∧ k < upper.getD xs.length)
  found_iff_exists : found.isSome ↔ ∃ x ∈ xs, compare x key = 0
  found_iff_lt : found.isSome ↔ lower.getD xs.length < upper.getD xs.length
  found_between : ∀ k, found = some k →
    lower.getD xs.length ≤ k ∧ k < upper.getD xs.length

theorem searches_agree (hes : 0 < es) (hc : LawfulOn compare Set.univ) (base : Elements es)
    (hs : base.slots.Pairwise fun a b => compare a b ≤ 0) (key : Element es) :
    ∃ lower upper found, zenitLowerBound compare key base = .ok lower ∧
      zenitUpperBound compare key base = .ok upper ∧
      zenitBinarySearch compare key base = .ok found ∧
      Agree compare key base.slots lower upper found := by
  obtain ⟨L, hlower, hL⟩ := boundSearch_eq compare (fun c => c ≤ 0) key hes base
    (hs.imp fun {x y} hxy hx => by
      rw [decide_eq_true_eq] at hx ⊢
      exact hc.trans key trivial x trivial y trivial hx hxy)
  obtain ⟨U, hupper, hU⟩ := boundSearch_eq compare (fun c => c < 0) key hes base
    (hs.imp fun {x y} hxy hx => by
      rw [decide_eq_true_eq] at hx ⊢
      exact hc.lt_trans trivial trivial trivial hx hxy)
  obtain ⟨found, hsearch, hsome, hnone⟩ := zenitBinarySearch_eq hes hc base hs key
  have hties : ∀ k x, base.slots[k]? = some x → (compare x key = 0 ↔ L ≤ k ∧ k < U) := by
    intro k x hx
    have hl := hL.iff k x hx
    have hu := hU.iff k x hx
    rw [decide_eq_true_eq] at hl hu
    rw [hc.eq_zero_comm trivial trivial]
    omega
  have hLU : L ≤ U := by
    by_contra hgt
    have hle := hL.le
    have hUlen : U < base.slots.length := by omega
    have hread : base.slots[U]? = some base.slots[U] := List.getElem?_eq_getElem hUlen
    have hl := hL.iff U _ hread
    have hu := hU.iff U _ hread
    rw [decide_eq_true_eq] at hl hu
    omega
  have hfound : ∀ k, found = some k → L ≤ k ∧ k < U := by
    intro k hk
    obtain ⟨x, hx, htie⟩ := hsome k hk
    exact (hties k x hx).mp ((hc.eq_zero_comm trivial trivial).mp htie)
  have hexists : found.isSome ↔ ∃ x ∈ base.slots, compare x key = 0 := by
    constructor
    · intro h
      obtain ⟨k, hk⟩ := Option.isSome_iff_exists.mp h
      obtain ⟨x, hx, htie⟩ := hsome k hk
      exact ⟨x, List.mem_of_getElem? hx, (hc.eq_zero_comm trivial trivial).mp htie⟩
    · rintro ⟨x, hx, htie⟩
      rw [Option.isSome_iff_ne_none]
      exact fun h => hnone h x hx ((hc.eq_zero_comm trivial trivial).mp htie)
  have hnonempty : (∃ x ∈ base.slots, compare x key = 0) ↔ L < U := by
    constructor
    · rintro ⟨x, hx, htie⟩
      obtain ⟨k, hk⟩ := List.mem_iff_getElem?.mp hx
      exact ((hties k x hk).mp htie).1.trans_lt ((hties k x hk).mp htie).2
    · intro hlt
      have hlen : L < base.slots.length := hlt.trans_le hU.le
      have hread : base.slots[L]? = some base.slots[L] := List.getElem?_eq_getElem hlen
      exact ⟨_, List.getElem_mem hlen, (hties L _ hread).mpr ⟨le_rfl, hlt⟩⟩
  refine ⟨_, _, found, hlower, hupper, hsearch, ?_⟩
  constructor
  · simp only [hc.nonpos_iff (Set.mem_univ key) (Set.mem_univ _)]
  · simp only [hc.flip key trivial _ trivial]
  · rwa [hL.getD, hU.getD]
  · simpa only [hL.getD, hU.getD] using hties
  · exact hexists
  · rw [hL.getD, hU.getD]
    exact hexists.trans hnonempty
  · simpa only [hL.getD, hU.getD] using hfound

theorem searches_agree_on_ties :
    ∃ lower upper found,
      zenitLowerBound (rankCmp fun e : Element 2 => ((e.1.headD 0).toNat : ℤ)) ⟨[3, 9], rfl⟩
        ⟨[⟨[1, 0], rfl⟩, ⟨[3, 7], rfl⟩, ⟨[3, 1], rfl⟩, ⟨[5, 1], rfl⟩], by simp, by simp⟩ =
          .ok lower ∧
      zenitUpperBound (rankCmp fun e : Element 2 => ((e.1.headD 0).toNat : ℤ)) ⟨[3, 9], rfl⟩
        ⟨[⟨[1, 0], rfl⟩, ⟨[3, 7], rfl⟩, ⟨[3, 1], rfl⟩, ⟨[5, 1], rfl⟩], by simp, by simp⟩ =
          .ok upper ∧
      zenitBinarySearch (rankCmp fun e : Element 2 => ((e.1.headD 0).toNat : ℤ)) ⟨[3, 9], rfl⟩
        ⟨[⟨[1, 0], rfl⟩, ⟨[3, 7], rfl⟩, ⟨[3, 1], rfl⟩, ⟨[5, 1], rfl⟩], by simp, by simp⟩ =
          .ok found ∧
      Agree (rankCmp fun e : Element 2 => ((e.1.headD 0).toNat : ℤ)) ⟨[3, 9], rfl⟩
        [⟨[1, 0], rfl⟩, ⟨[3, 7], rfl⟩, ⟨[3, 1], rfl⟩, ⟨[5, 1], rfl⟩] lower upper found :=
  searches_agree (by decide) (lawfulOn_rank _ _) _ (by simp [rankCmp]) _

end LibZenit.Sorting
