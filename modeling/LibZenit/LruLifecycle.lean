import LibZenit.LruRefinement

/-!
# Where the pairs of a cache go

A pair that has been put leaves the cache once: through the callback, when it makes room or the
cache is cleared or destroyed, or without a word, when its value is overwritten or its key removed.
-/
namespace LibZenit.RecencyList

variable {κ ν : Type*} [DecidableEq κ] {key : κ} {entries : List (κ × ν)}

theorem perm_without (h : (entries.map Prod.fst).Nodup) :
    entries.Perm ((find key entries).toList ++ without key entries) := by
  cases hf : find key entries with
  | none =>
    have habs : ∀ e ∈ entries, e.1 ≠ key := by simpa [find] using hf
    rw [without_eq_self habs]
    exact .refl _
  | some e =>
    obtain ⟨xs, ys, rfl⟩ := List.append_of_mem (List.mem_of_find?_eq_some hf)
    obtain ⟨k, v⟩ := e
    obtain rfl : k = key := find_fst hf
    rw [without_split h]
    exact List.perm_middle

theorem perm_touch (h : (entries.map Prod.fst).Nodup) : (touch key entries).Perm entries := by
  have hperm : entries.Perm ((find key entries).toList ++ without key entries) := perm_without h
  unfold touch
  cases hf : find key entries with
  | none => exact .refl _
  | some e =>
    rw [hf] at hperm
    exact hperm.symm

/-- A put loses nothing but the pair that it overwrites or drops. -/
theorem perm_put (capacity : ℕ) (h : (entries.map Prod.fst).Nodup) (value : ν) :
    ((key, value) :: entries).Perm ((put capacity key value entries).1 ++
      ((put capacity key value entries).2.toList ++ (find key entries).toList)) := by
  have hperm : entries.Perm ((find key entries).toList ++ without key entries) := perm_without h
  unfold put
  split_ifs with hsome hfull
  · refine (hperm.cons _).trans ?_
    simpa using List.perm_append_comm.cons (key, value)
  · have hnone : find key entries = none := by simpa using hsome
    rw [hnone, Option.toList_none, List.append_nil, List.cons_append]
    rcases List.eq_nil_or_concat entries with rfl | ⟨init, last, rfl⟩
    · exact .refl _
    · simp
  · have hnone : find key entries = none := by simpa using hsome
    simp [hnone]

end LibZenit.RecencyList

namespace LibZenit.Lru
open HashCommon RecencyList

variable {keySize valueSize capacity : ℕ} {c : Cache keySize valueSize}
  {entries : List (Bytes keySize × Bytes valueSize)} {evictFn : Bool}

/-- The calls of the callback; the memory of the cache goes back to the allocator. -/
def zenitLruDestroy (c : Cache keySize valueSize) :
    Option (List (Bytes keySize × Bytes valueSize)) := notifyAll c

def Op.stored : Op keySize valueSize → List (Bytes keySize × Bytes valueSize)
  | .put (some key) (some value) => [(key, value)]
  | _ => []

/-- The key whose pair an operation overwrites or takes out. -/
def Op.drops : Op keySize valueSize → Option (Bytes keySize)
  | .put (some key) (some _) => some key
  | .remove (some key) => some key
  | _ => none

/-- The pair of a key, as `zenit_lru_peek` shows it. -/
def peeked (c : Cache keySize valueSize) (key : Bytes keySize) :
    List (Bytes keySize × Bytes valueSize) :=
  (((zenitLruPeek c (some key) true).bind Prod.snd).map fun v => (key, v)).toList

/-- The pairs that a run loses without a word: those that the cache would have shown right before
the operation that overwrites them or takes them out. -/
def forgotten (c : Cache keySize valueSize) : List (Op keySize valueSize) →
    List (Bytes keySize × Bytes valueSize)
  | [] => []
  | op :: ops => op.drops.toList.flatMap (peeked c) ++
      ((exec c op).map fun r => forgotten r.2 ops).getD []

theorem Holds.peeked_eq (h : Holds capacity evictFn c entries) (key : Bytes keySize) :
    peeked c key = (find key entries).toList := by
  obtain ⟨-, -, order, frees, hr⟩ := h
  rw [peeked, hr.peek_spec key true]
  cases hf : find key entries with
  | none => rfl
  | some e =>
    obtain ⟨k, v⟩ := e
    obtain rfl : k = key := find_fst hf
    rfl

theorem Holds.destroy_eq (h : Holds capacity evictFn c entries) :
    zenitLruDestroy c = some (if evictFn then entries else []) := by
  obtain ⟨-, rfl, order, frees, hr⟩ := h
  obtain ⟨c', hrun, -, -⟩ := hr.clear
  unfold zenitLruDestroy
  cases hn : notifyAll c with
  | none => simp [zenitLruClear, hn] at hrun
  | some evicted =>
    simp only [zenitLruClear, hn, Option.bind_eq_bind, Option.bind_some] at hrun
    obtain ⟨c₁, -, hrun⟩ := Option.bind_eq_some_iff.mp hrun
    obtain ⟨c₂, -, hrun⟩ := Option.bind_eq_some_iff.mp hrun
    rw [← (Prod.mk.inj (Option.some.inj hrun)).1]

/-- One operation. -/
theorem perm_specExec (h : Bounded capacity entries) (hc : Holds capacity evictFn c entries)
    (op : Op keySize valueSize) :
    (op.stored ++ entries).Perm ((specExec capacity entries op).2.1 ++
      ((specExec capacity entries op).2.2 ++ op.drops.toList.flatMap (peeked c))) := by
  match op with
  | .put (some key) (some value) =>
    simp only [specExec, Op.stored, Op.drops, Option.toList_some, List.flatMap_cons,
      List.flatMap_nil, List.append_nil, hc.peeked_eq]
    exact (perm_put capacity h.distinct value).trans (List.perm_append_comm_assoc _ _ _)
  | .put none _ => simp [specExec, Op.stored, Op.drops]
  | .put (some _) none => simp [specExec, Op.stored, Op.drops]
  | .get (some key) _ => simpa [specExec, Op.stored, Op.drops] using (perm_touch h.distinct).symm
  | .get none _ => simp [specExec, Op.stored, Op.drops]
  | .peek (some _) _ => simp [specExec, Op.stored, Op.drops]
  | .peek none _ => simp [specExec, Op.stored, Op.drops]
  | .contains (some _) => simp [specExec, Op.stored, Op.drops]
  | .contains none => simp [specExec, Op.stored, Op.drops]
  | .remove (some key) =>
    simp only [specExec, Op.stored, Op.drops, Option.toList_some, List.flatMap_cons,
      List.flatMap_nil, List.append_nil, List.nil_append, hc.peeked_eq]
    exact (perm_without h.distinct).trans List.perm_append_comm
  | .remove none => simp [specExec, Op.stored, Op.drops]
  | .clear => simp [specExec, Op.stored, Op.drops]

theorem perm_specAll (hpos : 0 < capacity) (h : Bounded capacity entries)
    (hc : Holds capacity true c entries) (ops : List (Op keySize valueSize)) :
    (ops.flatMap Op.stored ++ entries).Perm
      ((specAll capacity true entries ops).1.flatMap Output.evicted ++
        ((specAll capacity true entries ops).2 ++ forgotten c ops)) := by
  induction ops generalizing c entries with
  | nil => simp [specAll, forgotten]
  | cons op ops ih =>
    obtain ⟨c', hrun, hc'⟩ := hc.exec op
    have hone := perm_specExec h hc op
    have hrest := ih (specExec_bounded h hpos op) hc'
    simp only [List.flatMap_cons, specAll, specOutput, if_true, forgotten, hrun, Option.map_some,
      Option.getD_some]
    refine List.perm_iff_count.mpr fun e => ?_
    have h₁ := List.perm_iff_count.mp hone e
    have h₂ := List.perm_iff_count.mp hrest e
    simp only [List.count_append] at h₁ h₂ ⊢
    omega

theorem specAll_silent (entries : List (Bytes keySize × Bytes valueSize))
    (ops : List (Op keySize valueSize)) :
    (specAll capacity false entries ops).1.flatMap Output.evicted = [] := by
  induction ops generalizing entries with
  | nil => rfl
  | cons op ops ih => simpa [specAll, specOutput] using ih _

/-- From its creation to its destruction a cache with a callback hands every pair that was put to
the callback exactly once, apart from those that a put overwrote or a remove took out; and a cache
without one makes no call. -/
theorem pairs_leave_once (granted : ℕ → Bool) (evictFn : Bool) (hk : 0 < keySize)
    (hv : 0 < valueSize) (hpos : 0 < capacity) (h2 : 2 * capacity ≤ 2 ^ 63)
    (hkb : capacity * keySize < 2 ^ 64) (hvb : capacity * valueSize < 2 ^ 64)
    (htb : roundPow2 (2 * capacity) * sizeofSizeT < 2 ^ 64) {c : Cache keySize valueSize}
    (hcreate : lruCreateImpl keySize valueSize granted capacity evictFn = some (some c))
    (ops : List (Op keySize valueSize)) :
    ∃ outs c' last, execAll c ops = some (outs, c') ∧ zenitLruDestroy c' = some last ∧
      if evictFn then
        (ops.flatMap Op.stored).Perm (outs.flatMap Output.evicted ++ (last ++ forgotten c ops))
      else outs.flatMap Output.evicted ++ last = [] := by
  obtain ⟨r, hr, -, hholds⟩ := lruCreateImpl_spec granted evictFn hk hv hpos h2 hkb hvb htb
  rw [hcreate] at hr
  have hc := hholds c (Option.some.inj hr).symm
  obtain ⟨c', hrun, hc'⟩ := hc.execAll ops
  refine ⟨_, c', _, hrun, hc'.destroy_eq, ?_⟩
  cases evictFn with
  | false => simpa using specAll_silent [] ops
  | true => simpa using perm_specAll hpos Bounded.empty hc ops

/-- The second put overwrites the first, the third makes room. -/
def crowding : List (Op 1 1) :=
  [.put (some ⟨[1], rfl⟩) (some ⟨[5], rfl⟩), .put (some ⟨[1], rfl⟩) (some ⟨[6], rfl⟩),
    .put (some ⟨[2], rfl⟩) (some ⟨[7], rfl⟩)]

theorem crowding_pairs_leave_once : ∃ (c : Cache 1 1) (outs : List (Output 1 1)) (c' : Cache 1 1)
    (last : List (Bytes 1 × Bytes 1)),
    lruCreateImpl 1 1 (fun _ => true) 1 true = some (some c) ∧ zenitLruDestroy c' = some last ∧
    (crowding.flatMap Op.stored).Perm
      (outs.flatMap Output.evicted ++ (last ++ forgotten c crowding)) ∧
    forgotten c crowding = [(⟨[1], rfl⟩, ⟨[5], rfl⟩)] := by
  obtain ⟨outs, c', last, -, hlast, hperm⟩ := pairs_leave_once (fun _ => true) true
    (by decide : 0 < 1) (by decide : 0 < 1) (by decide : 0 < 1) (by decide) (by decide) (by decide)
    (by decide) rfl crowding
  exact ⟨_, outs, c', last, rfl, hlast, hperm, by decide⟩

end LibZenit.Lru
