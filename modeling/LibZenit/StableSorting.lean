import LibZenit.Comparators

/-!
# Stable sorting

A stable sort of a list is fixed by its order and by the order of the ties: for every element, the
elements that compare equal to it stand in the order in which they came.
-/
namespace LibZenit.StableSorting
open Comparators

variable {α : Type*} {cmp : α → α → ℤ} {xs xs' ys ys' zs : List α} {a b : α}

/-- The elements that compare equal to `a`, in their order. -/
def ties (cmp : α → α → ℤ) (a : α) (xs : List α) : List α := xs.filter fun x => cmp a x = 0

structure StablySorted (cmp : α → α → ℤ) (xs ys : List α) : Prop where
  perm : ys.Perm xs
  sorted : ys.Pairwise fun a b => cmp a b ≤ 0
  stable : ∀ a, ties cmp a ys = ties cmp a xs

/-- Merging two sorted lists, where the first one goes first on a tie. -/
def mergeBy (cmp : α → α → ℤ) (xs ys : List α) : List α := xs.merge ys fun a b => cmp a b ≤ 0

@[simp] theorem mergeBy_nil_left (ys : List α) : mergeBy cmp [] ys = ys := List.nil_merge ys

@[simp] theorem mergeBy_nil_right (xs : List α) : mergeBy cmp xs [] = xs := List.merge_right xs

theorem mergeBy_cons_cons (a b : α) (xs ys : List α) :
    mergeBy cmp (a :: xs) (b :: ys) =
      if cmp a b ≤ 0 then a :: mergeBy cmp xs (b :: ys) else b :: mergeBy cmp (a :: xs) ys := by
  unfold mergeBy
  rw [List.cons_merge_cons]
  simp only [decide_eq_true_eq]

theorem mergeBy_perm (xs ys : List α) : (mergeBy cmp xs ys).Perm (xs ++ ys) :=
  List.merge_perm_append _

theorem length_mergeBy (xs ys : List α) : (mergeBy cmp xs ys).length = xs.length + ys.length :=
  List.length_merge _ xs ys

theorem stablySorted_of_short (h : xs.length < 2) : StablySorted cmp xs xs := by
  refine ⟨List.Perm.refl _, List.pairwise_iff_getElem.mpr fun i j _ hj hij => ?_, fun _ => rfl⟩
  omega

theorem ties_cons (a b : α) (xs : List α) :
    ties cmp a (b :: xs) = if cmp a b = 0 then b :: ties cmp a xs else ties cmp a xs := by
  unfold ties
  rw [List.filter_cons]
  simp only [decide_eq_true_eq]

section Lawful

variable (hc : LawfulOn cmp Set.univ)

include hc

theorem mem_ties_self : a ∈ ties cmp a xs ↔ a ∈ xs := by
  rw [ties, List.mem_filter, decide_eq_true_eq]
  exact and_iff_left (hc.cmp_self trivial)

theorem sorted_mergeBy (hxs : xs.Pairwise fun a b => cmp a b ≤ 0)
    (hys : ys.Pairwise fun a b => cmp a b ≤ 0) :
    (mergeBy cmp xs ys).Pairwise fun a b => cmp a b ≤ 0 := by
  have htrans : ∀ a b c : α, decide (cmp a b ≤ 0) = true → decide (cmp b c ≤ 0) = true →
      decide (cmp a c ≤ 0) = true := by
    intro a b c
    simp only [decide_eq_true_eq]
    exact hc.trans a trivial b trivial c trivial
  have htotal : ∀ a b : α, (decide (cmp a b ≤ 0) || decide (cmp b a ≤ 0)) = true := by
    intro a b
    have hflip := hc.flip a trivial b trivial
    have hflip' := hc.flip b trivial a trivial
    rw [Bool.or_eq_true, decide_eq_true_eq, decide_eq_true_eq]
    omega
  have hmerge := @List.pairwise_merge _ (fun a b => decide (cmp a b ≤ 0)) htrans htotal xs ys
    (hxs.imp decide_eq_true) (hys.imp decide_eq_true)
  exact hmerge.imp of_decide_eq_true

/-- An element of the second list that goes first is behind its ties: there are none ahead. -/
theorem ties_eq_nil (hxs : (b :: xs).Pairwise fun a b => cmp a b ≤ 0) {y : α} (hy : ¬cmp b y ≤ 0)
    (ha : cmp a y = 0) : ties cmp a (b :: xs) = [] := by
  rw [ties, List.filter_eq_nil_iff]
  intro z hz
  have hyb : cmp y b < 0 := (hc.flip y trivial b trivial).mpr (not_le.mp hy)
  have hbz : cmp b z ≤ 0 := by
    rcases List.mem_cons.mp hz with rfl | hz
    · exact (hc.cmp_self trivial).le
    · exact List.rel_of_pairwise_cons hxs hz
  have haz : cmp a z < 0 :=
    hc.lt_trans' trivial trivial trivial ha.le (hc.lt_trans trivial trivial trivial hyb hbz)
  rw [decide_eq_true_eq]
  omega

theorem ties_mergeBy (hxs : xs.Pairwise fun a b => cmp a b ≤ 0) (ys : List α) (a : α) :
    ties cmp a (mergeBy cmp xs ys) = ties cmp a xs ++ ties cmp a ys := by
  induction xs generalizing ys with
  | nil => simp [ties]
  | cons x xs ihx =>
    induction ys with
    | nil => simp [ties]
    | cons y ys ihy =>
      rw [mergeBy_cons_cons]
      by_cases hle : cmp x y ≤ 0
      · rw [if_pos hle, ties_cons, ihx hxs.tail, ties_cons a x]
        split_ifs
        · rw [List.cons_append]
        · rfl
      · rw [if_neg hle, ties_cons, ihy, ties_cons a y]
        by_cases htie : cmp a y = 0
        · rw [if_pos htie, if_pos htie, ties_eq_nil hc hxs hle htie, List.nil_append,
            List.nil_append]
        · rw [if_neg htie, if_neg htie]

theorem StablySorted.merge (hx : StablySorted cmp xs xs') (hy : StablySorted cmp ys ys') :
    StablySorted cmp (xs ++ ys) (mergeBy cmp xs' ys') := by
  refine ⟨(mergeBy_perm xs' ys').trans (hx.perm.append hy.perm),
    sorted_mergeBy hc hx.sorted hy.sorted, fun a => ?_⟩
  rw [ties_mergeBy hc hx.sorted, hx.stable, hy.stable]
  exact (List.filter_append _ _).symm

theorem mem_iff_of_ties (h : ∀ a, ties cmp a ys = ties cmp a zs) (a : α) : a ∈ ys ↔ a ∈ zs := by
  rw [← mem_ties_self hc, h a, mem_ties_self hc]

theorem eq_of_ties (hys : ys.Pairwise fun a b => cmp a b ≤ 0)
    (hzs : zs.Pairwise fun a b => cmp a b ≤ 0) (h : ∀ a, ties cmp a ys = ties cmp a zs) :
    ys = zs := by
  have hmem := mem_iff_of_ties hc h
  induction ys generalizing zs with
  | nil =>
    symm
    exact List.eq_nil_iff_forall_not_mem.mpr fun a ha => by simpa using (hmem a).mpr ha
  | cons y ys ih =>
    cases zs with
    | nil => simpa using (hmem y).mp (List.mem_cons_self ..)
    | cons z zs =>
      -- both heads are least elements, and each is the first of their ties
      have hyz : cmp y z ≤ 0 := by
        rcases List.mem_cons.mp ((hmem z).mpr (List.mem_cons_self ..)) with he | hz
        · rw [he]
          exact (hc.cmp_self trivial).le
        · exact List.rel_of_pairwise_cons hys hz
      have hzy : cmp z y ≤ 0 := by
        rcases List.mem_cons.mp ((hmem y).mp (List.mem_cons_self ..)) with he | hy
        · rw [he]
          exact (hc.cmp_self trivial).le
        · exact List.rel_of_pairwise_cons hzs hy
      have htie : cmp y z = 0 := by
        have hge := (hc.nonpos_iff trivial trivial).mp hzy
        omega
      have hheads := h y
      rw [ties_cons, if_pos (hc.cmp_self trivial), ties_cons, if_pos htie] at hheads
      obtain rfl : y = z := (List.cons.inj hheads).1
      have htails : ∀ a, ties cmp a ys = ties cmp a zs := by
        intro a
        have ha := h a
        rw [ties_cons, ties_cons] at ha
        split_ifs at ha
        · exact (List.cons.inj ha).2
        · exact ha
      rw [ih hys.of_cons hzs.of_cons htails (mem_iff_of_ties hc htails)]

/-- There is one stable sort of a list. -/
theorem StablySorted.unique (hy : StablySorted cmp xs ys) (hz : StablySorted cmp xs zs) :
    ys = zs :=
  eq_of_ties hc hy.sorted hz.sorted fun a => (hy.stable a).trans (hz.stable a).symm

end Lawful

end LibZenit.StableSorting
