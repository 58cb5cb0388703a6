import Mathlib.Tactic

/-!
# Association lists in recency order

The abstract bounded cache: pairs with distinct keys, most recently used first.
-/
namespace LibZenit.RecencyList

variable {κ ν : Type*} [DecidableEq κ]

def find (key : κ) (entries : List (κ × ν)) : Option (κ × ν) := entries.find? fun e => e.1 = key

def without (key : κ) (entries : List (κ × ν)) : List (κ × ν) := entries.filter fun e => e.1 ≠ key

/-- Move the pair of a present key to the front. -/
def touch (key : κ) (entries : List (κ × ν)) : List (κ × ν) :=
  match find key entries with
  | some e => e :: without key entries
  | none => entries

/-- Overwrite a present key or prepend an absent one. The second component is the dropped pair. -/
def put (capacity : ℕ) (key : κ) (value : ν) (entries : List (κ × ν)) :
    List (κ × ν) × Option (κ × ν) :=
  if (find key entries).isSome then ((key, value) :: without key entries, none)
  else if entries.length = capacity then ((key, value) :: entries.dropLast, entries.getLast?)
  else ((key, value) :: entries, none)

structure Bounded (capacity : ℕ) (entries : List (κ × ν)) : Prop where
  distinct : (entries.map Prod.fst).Nodup
  length_le : entries.length ≤ capacity

section Lookup

variable {key : κ} {value : ν} {entries xs ys : List (κ × ν)}

theorem find_eq_none (h : ∀ e ∈ entries, e.1 ≠ key) : find key entries = none := by
  simpa [find] using h

theorem without_eq_self (h : ∀ e ∈ entries, e.1 ≠ key) : without key entries = entries := by
  simpa [without] using h

omit [DecidableEq κ] in
theorem distinct_split (h : ((xs ++ (key, value) :: ys).map Prod.fst).Nodup) :
    (∀ e ∈ xs, e.1 ≠ key) ∧ (∀ e ∈ ys, e.1 ≠ key) ∧ ((xs ++ ys).map Prod.fst).Nodup := by
  simp only [List.map_append, List.map_cons, List.nodup_append, List.nodup_cons,
    List.mem_cons, List.mem_map] at h ⊢
  obtain ⟨hx, ⟨hky, hy⟩, hxy⟩ := h
  exact ⟨fun e he heq => hxy e.1 ⟨e, he, rfl⟩ key (Or.inl rfl) heq,
    fun e he heq => hky ⟨e, he, heq⟩, hx, hy, fun a ha b hb => hxy a ha b (Or.inr hb)⟩

theorem find_split (h : ((xs ++ (key, value) :: ys).map Prod.fst).Nodup) :
    find key (xs ++ (key, value) :: ys) = some (key, value) := by
  have hx := find_eq_none (distinct_split h).1
  unfold find at hx ⊢
  rw [List.find?_append, hx]
  simp

theorem without_split (h : ((xs ++ (key, value) :: ys).map Prod.fst).Nodup) :
    without key (xs ++ (key, value) :: ys) = xs ++ ys := by
  obtain ⟨hx, hy, -⟩ := distinct_split h
  have hx := without_eq_self hx
  have hy := without_eq_self hy
  unfold without at hx hy ⊢
  rw [List.filter_append, hx, List.filter_cons, hy]
  simp

theorem find_fst {e : κ × ν} (h : find key entries = some e) : e.1 = key := by
  simpa using List.find?_some h

theorem without_sublist : (without key entries).Sublist entries := List.filter_sublist

theorem without_fresh : key ∉ (without key entries).map Prod.fst := by
  simp [without]

theorem length_without_lt {e : κ × ν} (h : find key entries = some e) :
    (without key entries).length < entries.length :=
  List.length_filter_lt_length_iff_exists.mpr
    ⟨e, List.mem_of_find?_eq_some h, by simp [find_fst h]⟩

end Lookup

/-! ## The operations keep the bounds -/

variable {capacity : ℕ} {key : κ} {entries : List (κ × ν)}

omit [DecidableEq κ] in
theorem Bounded.empty : Bounded capacity ([] : List (κ × ν)) := ⟨by simp, by simp⟩

theorem Bounded.without (h : Bounded capacity entries) :
    Bounded capacity (RecencyList.without key entries) :=
  ⟨h.distinct.sublist (without_sublist.map _), without_sublist.length_le.trans h.length_le⟩

theorem Bounded.replace (h : Bounded capacity entries) {e : κ × ν} (he : find key entries = some e)
    (value : ν) : Bounded capacity ((key, value) :: RecencyList.without key entries) := by
  have hlt := length_without_lt he
  have hrest : Bounded capacity (RecencyList.without key entries) := h.without
  refine ⟨?_, by simpa using hlt.trans_le h.length_le⟩
  exact List.nodup_cons.mpr ⟨without_fresh, hrest.distinct⟩

theorem Bounded.touch (h : Bounded capacity entries) :
    Bounded capacity (RecencyList.touch key entries) := by
  unfold RecencyList.touch
  cases he : find key entries with
  | none => exact h
  | some e =>
    have hr := h.replace he e.2
    rwa [show (key, e.2) = e from Prod.ext (find_fst he).symm rfl] at hr

theorem Bounded.put (h : Bounded capacity entries) (hpos : 0 < capacity) (value : ν) :
    Bounded capacity (RecencyList.put capacity key value entries).1 := by
  unfold RecencyList.put
  cases he : find key entries with
  | some e => simpa using h.replace he value
  | none =>
    have hfresh : key ∉ entries.map Prod.fst := by
      intro hm
      obtain ⟨e, hmem, rfl⟩ := List.mem_map.mp hm
      simpa using List.find?_eq_none.mp he e hmem
    simp only [Option.isSome_none, Bool.false_eq_true, if_false]
    split_ifs with hfull
    · refine ⟨List.nodup_cons.mpr ⟨fun hm => hfresh ?_, ?_⟩, by simp; omega⟩
      · exact (entries.dropLast_sublist.map Prod.fst).subset hm
      · exact h.distinct.sublist (entries.dropLast_sublist.map Prod.fst)
    · have := h.length_le
      exact ⟨List.nodup_cons.mpr ⟨hfresh, h.distinct⟩, by simp; omega⟩

end LibZenit.RecencyList
