import LibZenit.BinaryHeap
import LibZenit.HeapModel
import LibZenit.Slots

/-!
# The sifting loops restore the heap order

Each loop ends inside the rounds it has, and permutes the first `n` slots of the block.
-/
namespace LibZenit.Heaps
open Blocks BinaryHeap

/-- The comparator orders the elements, ties allowed. -/
structure TotalPreorder {α : Type} (compare : α → α → ℤ) : Prop where
  total : ∀ a b, compare a b ≤ 0 ∨ compare b a ≤ 0
  trans : ∀ a b c, compare a b ≤ 0 → compare b c ≤ 0 → compare a c ≤ 0

variable {α : Type} {compare : α → α → ℤ} {buf : List α} {n : ℕ}

theorem TotalPreorder.refl (hp : TotalPreorder compare) (a : α) : compare a a ≤ 0 :=
  or_self_iff.mp (hp.total a a)

theorem TotalPreorder.of_gt (hp : TotalPreorder compare) {a b : α} (h : ¬compare a b ≤ 0) :
    compare b a ≤ 0 := (hp.total a b).resolve_left h

/-- The heap order from `s` on, over the first `n` slots. -/
abbrev Ordered [Inhabited α] (compare : α → α → ℤ) (s n : ℕ) (buf : List α) : Prop :=
  OrderedFrom (fun a b => compare a b ≤ 0) s n (Slots.slot default buf)

/-- What a loop leaves: the elements of the first `n` slots in heap order. -/
structure Sifted [Inhabited α] (compare : α → α → ℤ) (s n : ℕ) (buf buf' : List α) : Prop where
  length : buf'.length = buf.length
  perm : (buf'.take n).Perm (buf.take n)
  ordered : Ordered compare s n buf'

variable [Inhabited α]

theorem readSlot_slot {i : ℕ} (h : i < buf.length) :
    readSlot buf i = .ok (Slots.slot default buf i) :=
  readSlot_eq (Slots.getElem?_eq_slot default h)

/-! ## Swapping -/

theorem swapElements_eq {i j : ℕ} (hn : n ≤ buf.length) (hi : i < n) (hj : j < n) :
    ∃ buf', swapElements buf i j = .ok buf' ∧ buf'.length = buf.length ∧
      (buf'.take n).Perm (buf.take n) ∧
      Slots.slot default buf' = fun m => Slots.slot default buf (Equiv.swap i j m) := by
  have hib : i < buf.length := by omega
  have hjb : j < buf.length := by omega
  refine ⟨(buf.set i (Slots.slot default buf j)).set j (Slots.slot default buf i), ?_, by simp,
    ?_, ?_⟩
  · rw [swapElements, readSlot_slot hib, readSlot_slot hjb]
    simp only [Except.bind]
    rw [writeSlot_eq hib]
    exact writeSlot_eq (by simpa using hjb) _
  · have hit : i < (buf.take n).length := by simp; omega
    have hjt : j < (buf.take n).length := by simp; omega
    have hget : ∀ m, (h : m < (buf.take n).length) →
        Slots.slot default buf m = (buf.take n)[m] := by
      intro m h
      apply Slots.slot_eq_of_getElem?
      rw [List.getElem_take]
      simp only [List.length_take] at h
      exact List.getElem?_eq_getElem (by omega)
    rw [List.take_set, List.take_set, hget i hit, hget j hjt]
    exact List.set_set_perm hit hjt
  · funext m
    rw [Slots.slot_set (by simpa using hjb), Slots.slot_set hib]
    by_cases hmj : m = j
    · rw [if_pos hmj, hmj, Equiv.swap_apply_right]
    rw [if_neg hmj]
    by_cases hmi : m = i
    · rw [if_pos hmi, hmi, Equiv.swap_apply_left]
    · rw [if_neg hmi, Equiv.swap_apply_of_ne_of_ne hmi hmj]

/-! ## Up -/

theorem siftUpLoop_sifted (hp : TotalPreorder compare) (hn : n ≤ buf.length) {fuel idx : ℕ}
    (hidx : idx < n) (hfuel : idx < fuel)
    (h : BrokenAbove (fun a b => compare a b ≤ 0) idx n (Slots.slot default buf)) :
    ∃ buf', siftUpLoop compare fuel buf idx = .ok buf' ∧ Sifted compare 0 n buf buf' := by
  induction fuel generalizing buf idx with
  | zero => omega
  | succ fuel ih =>
    by_cases hzero : idx = 0
    · exact ⟨buf, by rw [siftUpLoop, if_pos hzero], rfl, List.Perm.refl _, h.finish (.inl hzero)⟩
    have hlt : (idx - 1) / 2 < idx := by omega
    have hread : readSlot buf idx = .ok (Slots.slot default buf idx) := readSlot_slot (by omega)
    have hparent : readSlot buf ((idx - 1) / 2) = .ok (Slots.slot default buf ((idx - 1) / 2)) :=
      readSlot_slot (by omega)
    rw [siftUpLoop, if_neg hzero]
    simp only [hread, hparent, Except.bind]
    by_cases hle : compare (Slots.slot default buf idx) (Slots.slot default buf ((idx - 1) / 2)) ≤ 0
    · exact ⟨buf, by rw [if_pos hle], rfl, List.Perm.refl _, h.finish (.inr hle)⟩
    obtain ⟨buf₁, hswap, hlen, hperm, hslot⟩ :=
      swapElements_eq hn hidx (by omega : (idx - 1) / 2 < n)
    have hbroken := h.move hp.trans (by omega) hidx (hp.of_gt hle)
    rw [parent, ← hslot] at hbroken
    obtain ⟨buf', hloop, hsift⟩ := ih (by omega) (by omega) (by omega) hbroken
    refine ⟨buf', ?_, hsift.length.trans hlen, hsift.perm.trans hperm, hsift.ordered⟩
    rw [if_neg hle, hswap]
    exact hloop

/-! ## Down -/

theorem largerOf_cases (hp : TotalPreorder compare) (hn : n ≤ buf.length) (child : ℕ) {largest : ℕ}
    (hl : largest < n) : ∃ c, largerOf compare n buf child largest = .ok c ∧
      (c = largest ∨ c = child ∧ child < n) ∧
      compare (Slots.slot default buf largest) (Slots.slot default buf c) ≤ 0 ∧
      (child < n → compare (Slots.slot default buf child) (Slots.slot default buf c) ≤ 0) := by
  by_cases hc : child < n
  · have hchild : readSlot buf child = .ok (Slots.slot default buf child) :=
      readSlot_slot (by omega)
    have hlargest : readSlot buf largest = .ok (Slots.slot default buf largest) :=
      readSlot_slot (by omega)
    rw [largerOf, if_pos hc]
    simp only [hchild, hlargest, Except.bind, Except.map]
    by_cases hgt : compare (Slots.slot default buf child) (Slots.slot default buf largest) > 0
    · exact ⟨child, by rw [if_pos hgt], .inr ⟨rfl, hc⟩, hp.of_gt (by omega), fun _ => hp.refl _⟩
    · exact ⟨largest, by rw [if_neg hgt], .inl rfl, hp.refl _, fun _ => by omega⟩
  · exact ⟨largest, by rw [largerOf, if_neg hc], .inl rfl, hp.refl _, fun h => absurd h hc⟩

theorem siftDownLoop_sifted (hp : TotalPreorder compare) (hn : n ≤ buf.length) {s fuel idx : ℕ}
    (hidx : idx < n) (hs : s ≤ idx) (hfuel : n ≤ idx + fuel)
    (h : BrokenBelow (fun a b => compare a b ≤ 0) s idx n (Slots.slot default buf)) :
    ∃ buf', siftDownLoop compare n fuel buf idx = .ok buf' ∧ Sifted compare s n buf buf' := by
  induction fuel generalizing buf idx with
  | zero => omega
  | succ fuel ih =>
    obtain ⟨c₁, hc₁, hcases₁, hle₁, hleft⟩ :=
      largerOf_cases hp hn (2 * idx + 1) hidx
    have hc₁n : c₁ < n := by omega
    obtain ⟨c, hc, hcases, hle₂, hright⟩ := largerOf_cases hp hn (2 * idx + 2) hc₁n
    -- both children stay below the slot that has been picked
    have hmax : ∀ i, 0 < i → i < n → parent i = idx →
        compare (Slots.slot default buf i) (Slots.slot default buf c) ≤ 0 := by
      intro i hi hin hpar
      rcases (parent_eq_iff hi).mp hpar with rfl | rfl
      · exact hp.trans _ _ _ (hleft hin) hle₂
      · exact hright hin
    rw [siftDownLoop, hc₁]
    simp only [Except.bind]
    rw [hc]
    by_cases hstop : c = idx
    · rw [hstop] at hmax
      exact ⟨buf, by simp only [if_pos hstop], rfl, List.Perm.refl _, h.finish hmax⟩
    have hcn : c < n := by omega
    have hpos : 0 < c := by omega
    have hpar : parent c = idx := (parent_eq_iff hpos).mpr (by omega)
    obtain ⟨buf₁, hswap, hlen, hperm, hslot⟩ := swapElements_eq hn hidx hcn
    have hbroken := h.move hpos hcn hpar (hp.trans _ _ _ hle₁ hle₂)
      (fun i hi hin hpi _ => hmax i hi hin hpi) hs
    rw [← hslot] at hbroken
    obtain ⟨buf', hloop, hsift⟩ := ih (by omega) hcn (by omega) (by omega) hbroken
    refine ⟨buf', ?_, hsift.length.trans hlen, hsift.perm.trans hperm, hsift.ordered⟩
    simp only [if_neg hstop]
    rw [hswap]
    exact hloop

end LibZenit.Heaps
