import LibZenit.Blocks

/-!
# Lists in circular buffers

A buffer holds a list from `head` on, around its end. The lemmas say what the accesses at the two
ends of the list find and leave behind.
-/
namespace LibZenit.CircularBuffer
open Blocks

variable {α : Type} {buf l : List α} {head : ℕ} {x : α}

/-- `buf` holds `l` from index `head` on. -/
structure Holds (buf : List α) (head : ℕ) (l : List α) : Prop where
  fits : l.length ≤ buf.length
  slots : ∀ i < l.length, buf[(head + i) % buf.length]? = l[i]?

theorem holds_nil (buf : List α) (head : ℕ) : Holds buf head [] := ⟨by simp, by simp⟩

/-- The elements in order from the first slot on. -/
theorem holds_linear (l rest : List α) : Holds (l ++ rest) 0 l := by
  refine ⟨by simp, fun i hi => ?_⟩
  have hlen : i < (l ++ rest).length := by
    rw [List.length_append]
    omega
  rw [Nat.zero_add, Nat.mod_eq_of_lt hlen, List.getElem?_append_left hi]

theorem Holds.get (h : Holds buf head l) {i : ℕ} (hi : i < l.length) :
    buf[(head + i) % buf.length]? = some l[i] := by
  rw [h.slots i hi, List.getElem?_eq_getElem hi]

/-! ## Reading and dropping an end -/

theorem Holds.first (h : Holds buf head (x :: l)) (hhead : head < buf.length) :
    buf[head]? = some x := by
  have hget := h.slots 0 (by simp)
  rwa [Nat.add_zero, Nat.mod_eq_of_lt hhead] at hget

theorem Holds.tail (h : Holds buf head (x :: l)) : Holds buf ((head + 1) % buf.length) l := by
  have hfits := h.fits
  rw [List.length_cons] at hfits
  refine ⟨by omega, fun i hi => ?_⟩
  have hget := h.slots (i + 1) (by simpa using hi)
  rw [List.getElem?_cons_succ] at hget
  rw [← hget, Nat.mod_add_mod, Nat.add_right_comm, Nat.add_assoc]

theorem Holds.last (h : Holds buf head (l ++ [x])) :
    buf[(head + l.length) % buf.length]? = some x := by
  rw [h.slots l.length (by simp)]
  simp

theorem Holds.init (h : Holds buf head (l ++ [x])) : Holds buf head l := by
  have hfits := h.fits
  rw [List.length_append] at hfits
  refine ⟨by omega, fun i hi => ?_⟩
  rw [h.slots i (by simp; omega), List.getElem?_append_left hi]

/-! ## Writing behind or before the list -/

/-- Positions less than one round apart are different slots. -/
theorem index_ne (head : ℕ) {n i j : ℕ} (hij : i < j) (hj : j < i + n) :
    (head + i) % n ≠ (head + j) % n := by
  intro he
  have hsub : (head + j - (head + i)) % n = 0 := Nat.sub_mod_eq_zero_of_mod_eq he.symm
  rw [show head + j - (head + i) = j - i by omega, Nat.mod_eq_of_lt (by omega)] at hsub
  omega

theorem Holds.snoc (h : Holds buf head l) (hroom : l.length < buf.length) (x : α) :
    Holds (buf.set ((head + l.length) % buf.length) x) head (l ++ [x]) := by
  refine ⟨by simp; omega, fun i hi => ?_⟩
  rw [List.length_append, List.length_singleton] at hi
  rw [List.length_set]
  rcases Nat.lt_or_eq_of_le (Nat.lt_succ_iff.mp hi) with hlt | rfl
  · rw [List.getElem?_set_ne (index_ne head hlt (by omega)).symm, h.slots i hlt,
      List.getElem?_append_left hlt]
  · have hmod : (head + l.length) % buf.length < buf.length := Nat.mod_lt _ (by omega)
    rw [List.getElem?_set_self hmod]
    simp

/-- The slot before `head`. -/
def before (n head : ℕ) : ℕ := if head = 0 then n - 1 else head - 1

theorem before_lt {n : ℕ} (hhead : head < n) : before n head < n := by
  unfold before
  split_ifs <;> omega

theorem before_add {n i : ℕ} (hhead : head < n) :
    (before n head + (i + 1)) % n = (head + i) % n := by
  unfold before
  split_ifs with h
  · rw [h, show n - 1 + (i + 1) = i + n by omega, Nat.add_mod_right, Nat.zero_add]
  · rw [show head - 1 + (i + 1) = head + i by omega]

theorem Holds.cons (h : Holds buf head l) (hroom : l.length < buf.length)
    (hhead : head < buf.length) (x : α) :
    Holds (buf.set (before buf.length head) x) (before buf.length head) (x :: l) := by
  have hb := before_lt hhead
  refine ⟨by simp; omega, fun i hi => ?_⟩
  rw [List.length_set]
  cases i with
  | zero =>
    rw [Nat.add_zero, Nat.mod_eq_of_lt hb, List.getElem?_set_self hb]
    rfl
  | succ i =>
    rw [List.length_cons] at hi
    have hne : before buf.length head ≠ (before buf.length head + (i + 1)) % buf.length := by
      have hidx := index_ne (before buf.length head) (by omega : 0 < i + 1)
        (by omega : i + 1 < 0 + buf.length)
      rwa [Nat.add_zero, Nat.mod_eq_of_lt hb] at hidx
    rw [List.getElem?_set_ne hne, before_add hhead, h.slots i (by omega),
      List.getElem?_cons_succ]

/-! ## Bulk copies

A transfer that meets the end of the buffer goes on at its front. The position `head` may be the
end of the buffer itself, which stands for its front.
-/

/-- What the transfer of `n` slots does before it meets the end of a buffer of `cap` slots. -/
def chunk (cap head n : ℕ) : ℕ := min (cap - head) n

/-- The slots read by a transfer. -/
def gather (buf : List α) (head n : ℕ) : List α :=
  (buf.drop head).take (chunk buf.length head n) ++ buf.take (n - chunk buf.length head n)

/-- The buffer after a transfer into it. -/
def scatter (buf : List α) (head : ℕ) (data : List α) : List α :=
  patch (patch buf head (data.take (chunk buf.length head data.length))) 0
    (data.drop (chunk buf.length head data.length))

theorem Holds.drop (h : Holds buf head l) (n : ℕ) :
    Holds buf ((head + n) % buf.length) (l.drop n) := by
  have hfits := h.fits
  refine ⟨by rw [List.length_drop]; omega, fun i hi => ?_⟩
  rw [List.length_drop] at hi
  rw [List.getElem?_drop, ← h.slots (n + i) (by omega), Nat.mod_add_mod, Nat.add_assoc]

theorem Holds.gather_eq (h : Holds buf head l) (hhead : head < buf.length) {n : ℕ}
    (hn : n ≤ l.length) : gather buf head n = l.take n := by
  have hfits := h.fits
  have hchunk : chunk buf.length head n ≤ n := min_le_right _ _
  have hend : chunk buf.length head n ≤ buf.length - head := min_le_left _ _
  have hwrap : chunk buf.length head n = n ∨ chunk buf.length head n = buf.length - head := by
    unfold chunk
    omega
  have hfirst : ((buf.drop head).take (chunk buf.length head n)).length =
      chunk buf.length head n := by
    rw [List.length_take, List.length_drop]
    omega
  apply List.ext_getElem?
  intro i
  by_cases hi : i < n
  · rw [List.getElem?_take_of_lt hi, ← h.slots i (by omega), gather]
    by_cases hc : i < chunk buf.length head n
    · rw [List.getElem?_append_left (by omega), List.getElem?_take_of_lt hc, List.getElem?_drop,
        Nat.mod_eq_of_lt (by omega)]
    · have hmod : (head + i) % buf.length = i - chunk buf.length head n := by
        rw [Nat.mod_eq_sub_mod (by omega), Nat.mod_eq_of_lt (by omega)]
        omega
      rw [List.getElem?_append_right (by omega), hfirst, List.getElem?_take_of_lt (by omega), hmod]
  · rw [List.getElem?_eq_none, List.getElem?_eq_none]
    · rw [List.length_take]
      omega
    · rw [gather, List.length_append, hfirst, List.length_take]
      omega

theorem scatter_bounds {data : List α} (hhead : head ≤ buf.length)
    (hdata : data.length ≤ buf.length) :
    head + (data.take (chunk buf.length head data.length)).length ≤ buf.length ∧
      0 + (data.drop (chunk buf.length head data.length)).length ≤ buf.length := by
  unfold chunk
  rw [List.length_take, List.length_drop]
  omega

theorem length_scatter {data : List α} (hhead : head ≤ buf.length)
    (hdata : data.length ≤ buf.length) : (scatter buf head data).length = buf.length := by
  obtain ⟨hfirst, hsecond⟩ := scatter_bounds hhead hdata
  have hlen := length_patch hfirst
  rw [scatter, length_patch (by rw [hlen]; exact hsecond), hlen]

theorem getElem?_scatter_cases {data : List α} (hhead : head ≤ buf.length)
    (hdata : data.length ≤ buf.length) (j : ℕ) :
    (scatter buf head data)[j]? =
      if j < data.length - chunk buf.length head data.length then
        data[chunk buf.length head data.length + j]?
      else if head ≤ j ∧ j < head + chunk buf.length head data.length then data[j - head]?
      else buf[j]? := by
  obtain ⟨hfirst, hsecond⟩ := scatter_bounds hhead hdata
  have hchunk : chunk buf.length head data.length ≤ data.length := min_le_right _ _
  have htake : (data.take (chunk buf.length head data.length)).length =
      chunk buf.length head data.length := by
    rw [List.length_take]
    omega
  rw [scatter, getElem?_patch (by rw [length_patch hfirst]; exact hsecond), getElem?_patch hfirst,
    htake, List.length_drop]
  by_cases hlow : j < data.length - chunk buf.length head data.length
  · rw [if_pos hlow, if_pos (by omega), List.getElem?_drop, Nat.sub_zero]
  · rw [if_neg hlow, if_neg (by omega)]
    by_cases hin : head ≤ j ∧ j < head + chunk buf.length head data.length
    · rw [if_pos hin, if_pos hin, List.getElem?_take_of_lt (by omega)]
    · rw [if_neg hin, if_neg hin]

/-- The slots that a transfer writes are those around the end from `head` on. -/
theorem getElem?_scatter {data : List α} (hhead : head ≤ buf.length)
    (hdata : data.length ≤ buf.length) {i : ℕ} (hi : i < data.length) :
    (scatter buf head data)[(head + i) % buf.length]? = data[i]? := by
  rw [getElem?_scatter_cases hhead hdata]
  by_cases hc : i < chunk buf.length head data.length
  · have hlt : head + i < buf.length := by
      unfold chunk at hc
      omega
    have hmod : (head + i) % buf.length = head + i := Nat.mod_eq_of_lt hlt
    have hlow : ¬head + i < data.length - chunk buf.length head data.length := by
      unfold chunk at hc ⊢
      omega
    rw [hmod, if_neg hlow, if_pos ⟨by omega, by omega⟩, Nat.add_sub_cancel_left]
  · have hend : chunk buf.length head data.length = buf.length - head := by
      unfold chunk at hc ⊢
      omega
    have hmod : (head + i) % buf.length = i - chunk buf.length head data.length := by
      rw [Nat.mod_eq_sub_mod (by omega), Nat.mod_eq_of_lt (by omega)]
      omega
    rw [hmod, if_pos (by omega), Nat.add_sub_cancel' (by omega)]

theorem getElem?_scatter_ne {data : List α} (hhead : head ≤ buf.length)
    (hdata : data.length ≤ buf.length) {j : ℕ} (hj : j < buf.length)
    (hne : ∀ i < data.length, j ≠ (head + i) % buf.length) :
    (scatter buf head data)[j]? = buf[j]? := by
  rw [getElem?_scatter_cases hhead hdata]
  have hchunk : chunk buf.length head data.length ≤ data.length := min_le_right _ _
  rw [if_neg, if_neg]
  · rintro ⟨hle, hlt⟩
    refine hne (j - head) (by omega) ?_
    rw [Nat.add_sub_cancel' hle, Nat.mod_eq_of_lt hj]
  · intro hlow
    refine hne (chunk buf.length head data.length + j) (by omega) ?_
    have hend : chunk buf.length head data.length = buf.length - head := by
      unfold chunk at hlow ⊢
      omega
    rw [hend, ← Nat.add_assoc, Nat.add_sub_cancel' hhead, Nat.add_mod_left, Nat.mod_eq_of_lt hj]

/-- A transfer behind the list appends to it. -/
theorem Holds.scatter {front : ℕ} {data : List α} (h : Holds buf front l) (hhead : head ≤ buf.length)
    (hend : head % buf.length = (front + l.length) % buf.length)
    (hroom : l.length + data.length ≤ buf.length) :
    Holds (CircularBuffer.scatter buf head data) front (l ++ data) := by
  have hlen : (CircularBuffer.scatter buf head data).length = buf.length :=
    length_scatter hhead (by omega)
  refine ⟨by rw [hlen, List.length_append]; exact hroom, fun i hi => ?_⟩
  rw [List.length_append] at hi
  have hplace : ∀ k, (head + k) % buf.length = (front + (l.length + k)) % buf.length := by
    intro k
    rw [← Nat.add_assoc, ← Nat.mod_add_mod, hend, Nat.mod_add_mod]
  rw [hlen]
  by_cases hold : i < l.length
  · rw [List.getElem?_append_left hold, ← h.slots i hold]
    refine getElem?_scatter_ne hhead (by omega) (Nat.mod_lt _ (by omega)) fun k hk => ?_
    rw [hplace]
    exact index_ne front (by omega) (by omega)
  · have hnew := getElem?_scatter hhead (by omega) (by omega : i - l.length < data.length)
    rw [hplace, Nat.add_sub_cancel' (by omega)] at hnew
    rw [hnew, List.getElem?_append_right (by omega)]

end LibZenit.CircularBuffer
