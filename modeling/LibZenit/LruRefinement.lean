import LibZenit.LruOperations

/-!
# The cache refines a list in recency order

A run applies operations one after another and records for each what the caller can observe: the
returned code, flag and value, the calls of the eviction callback and the count afterwards.
-/
namespace LibZenit.Lru
open HashCommon LinkedChain RecencyList Slots

inductive Op (keySize valueSize : ℕ) where
  | put (key : Option (Bytes keySize)) (value : Option (Bytes valueSize))
  | get (key : Option (Bytes keySize)) (wanted : Bool)
  | peek (key : Option (Bytes keySize)) (wanted : Bool)
  | contains (key : Option (Bytes keySize))
  | remove (key : Option (Bytes keySize))
  | clear

inductive Reply (valueSize : ℕ) where
  | status (code : ZenitError)
  | flag (found : Bool) (value : Option (Bytes valueSize))
  | nothing
  deriving DecidableEq

structure Output (keySize valueSize : ℕ) where
  reply : Reply valueSize
  evicted : List (Bytes keySize × Bytes valueSize)
  count : ℕ
  deriving DecidableEq

variable {keySize valueSize : ℕ}

def exec (c : Cache keySize valueSize) :
    Op keySize valueSize → Option (Output keySize valueSize × Cache keySize valueSize)
  | .put key value => do
    let (code, evicted, c) ← zenitLruPut c key value
    some (⟨.status code, evicted, zenitLruCount c⟩, c)
  | .get key wanted => do
    let (found, value, c) ← zenitLruGet c key wanted
    some (⟨.flag found value, [], zenitLruCount c⟩, c)
  | .peek key wanted => do
    let (found, value) ← zenitLruPeek c key wanted
    some (⟨.flag found value, [], zenitLruCount c⟩, c)
  | .contains key => do
    let found ← zenitLruContains c key
    some (⟨.flag found none, [], zenitLruCount c⟩, c)
  | .remove key => do
    let (code, c) ← zenitLruRemove c key
    some (⟨.status code, [], zenitLruCount c⟩, c)
  | .clear => do
    let (evicted, c) ← zenitLruClear c
    some (⟨.nothing, evicted, zenitLruCount c⟩, c)

def execAll (c : Cache keySize valueSize) : List (Op keySize valueSize) →
    Option (List (Output keySize valueSize) × Cache keySize valueSize)
  | [] => some ([], c)
  | op :: ops => do
    let (out, c) ← exec c op
    let (outs, c) ← execAll c ops
    some (out :: outs, c)

/-! ## The abstract cache -/

/-- The answer to a lookup. -/
def answer (entry : Option (Bytes keySize × Bytes valueSize)) (wanted : Bool) : Reply valueSize :=
  .flag entry.isSome (if wanted then entry.map Prod.snd else none)

/-- The reply, the dropped pairs and the list after one operation. -/
def specExec (capacity : ℕ) (entries : List (Bytes keySize × Bytes valueSize)) :
    Op keySize valueSize → Reply valueSize × List (Bytes keySize × Bytes valueSize) ×
      List (Bytes keySize × Bytes valueSize)
  | .put (some key) (some value) =>
    (.status .ok, (put capacity key value entries).2.toList, (put capacity key value entries).1)
  | .put _ _ => (.status .null, [], entries)
  | .get (some key) wanted => (answer (find key entries) wanted, [], touch key entries)
  | .get none _ => (.flag false none, [], entries)
  | .peek (some key) wanted => (answer (find key entries) wanted, [], entries)
  | .peek none _ => (.flag false none, [], entries)
  | .contains (some key) => (answer (find key entries) false, [], entries)
  | .contains none => (.flag false none, [], entries)
  | .remove (some key) =>
    (.status (if (find key entries).isSome then .ok else .notFound), [], without key entries)
  | .remove none => (.status .null, [], entries)
  | .clear => (.nothing, entries, [])

/-- What a caller observes of the abstract cache. Dropped pairs reach the callback if there is
one. -/
def specOutput (evictFn : Bool) (r : Reply valueSize × List (Bytes keySize × Bytes valueSize) ×
    List (Bytes keySize × Bytes valueSize)) : Output keySize valueSize :=
  ⟨r.1, if evictFn then r.2.1 else [], r.2.2.length⟩

def specAll (capacity : ℕ) (evictFn : Bool) (entries : List (Bytes keySize × Bytes valueSize)) :
    List (Op keySize valueSize) →
      List (Output keySize valueSize) × List (Bytes keySize × Bytes valueSize)
  | [] => ([], entries)
  | op :: ops =>
    let r := specExec capacity entries op
    let rest := specAll capacity evictFn r.2.2 ops
    (specOutput evictFn r :: rest.1, rest.2)

theorem specExec_bounded {capacity : ℕ} {entries : List (Bytes keySize × Bytes valueSize)}
    (h : Bounded capacity entries) (hpos : 0 < capacity) (op : Op keySize valueSize) :
    Bounded capacity (specExec capacity entries op).2.2 := by
  match op with
  | .put (some _) (some value) => exact h.put hpos value
  | .put none _ => exact h
  | .put (some _) none => exact h
  | .get (some _) _ => exact h.touch
  | .get none _ => exact h
  | .peek (some _) _ => exact h
  | .peek none _ => exact h
  | .contains (some _) => exact h
  | .contains none => exact h
  | .remove (some _) => exact h.without
  | .remove none => exact h
  | .clear => exact Bounded.empty

theorem specAll_bounded {capacity : ℕ} (evictFn : Bool)
    {entries : List (Bytes keySize × Bytes valueSize)} (h : Bounded capacity entries)
    (hpos : 0 < capacity) (ops : List (Op keySize valueSize)) :
    Bounded capacity (specAll capacity evictFn entries ops).2 := by
  induction ops generalizing entries with
  | nil => exact h
  | cons op ops ih => exact ih (specExec_bounded h hpos op)

/-! ## One operation -/

variable {c : Cache keySize valueSize} {order frees : List ℕ}
  {entries : List (Bytes keySize × Bytes valueSize)}

/-- The configuration is fixed and the cache holds the pairs in this order. -/
def Holds (capacity : ℕ) (evictFn : Bool) (c : Cache keySize valueSize)
    (entries : List (Bytes keySize × Bytes valueSize)) : Prop :=
  c.capacity = capacity ∧ c.evictFn = evictFn ∧ ∃ order frees, Represents c order frees entries

theorem Represents.holds {c' : Cache keySize valueSize} (h : Represents c' order frees entries)
    (s : SameConfig c c') : Holds c.capacity c.evictFn c' entries :=
  ⟨s.capacity, s.evictFn, order, frees, h⟩

theorem Represents.count_eq (h : Represents c order frees entries) :
    zenitLruCount c = entries.length := h.count.trans h.length_eq.symm

theorem Holds.count_eq {capacity : ℕ} {evictFn : Bool} (h : Holds capacity evictFn c entries) :
    zenitLruCount c = entries.length := by
  obtain ⟨-, -, order, frees, hr⟩ := h
  exact hr.count_eq

theorem Represents.put_spec (h : Represents c order frees entries) (key : Bytes keySize)
    (value : Bytes valueSize) :
    ∃ c', zenitLruPut c (some key) (some value) = some (.ok,
        if c.evictFn then (put c.capacity key value entries).2.toList else [], c') ∧
      Holds c.capacity c.evictFn c' (put c.capacity key value entries).1 := by
  rcases h.lookup key with ⟨slot, node, xs, ys, exs, eys, old, hfind, hslot, rfl, rfl, hx, hy, hk, -⟩ |
      ⟨⟨slot, hfind⟩, habs, hkeys⟩
  · obtain ⟨c', hrun, s, hr⟩ := h.overwrite hx hy hk value
    have hput : put c.capacity key value (exs ++ (key, old) :: eys) =
        ((key, value) :: (exs ++ eys), none) := by
      simp only [put, find_split h.distinct, without_split h.distinct, Option.isSome_some, if_true]
    refine ⟨c', ?_, hput ▸ hr.holds s⟩
    simp only [Option.bind_eq_bind] at hrun
    simp [zenitLruPut, hfind, hslot, hput, ← Option.bind_assoc, hrun]
  · have hnone : (find key entries).isSome = false := by rw [find_eq_none habs]; rfl
    by_cases hfull : c.count = c.capacity
    · obtain ⟨c', order', frees', hrun, s, hr⟩ := h.insertFull hkeys hfull value
      have hput : put c.capacity key value entries =
          ((key, value) :: entries.dropLast, entries.getLast?) := by
        have hlen : entries.length = c.capacity := h.count_eq.symm.trans hfull
        simp [put, hnone, hlen]
      refine ⟨c', ?_, hput ▸ hr.holds s⟩
      simp [zenitLruPut, hfind, hrun, hput]
    · obtain ⟨c', order', frees', hrun, s, hr⟩ := h.insertFree hkeys hfull value
      have hput : put c.capacity key value entries = ((key, value) :: entries, none) := by
        have hlen : entries.length ≠ c.capacity := fun he => hfull (h.count_eq.trans he)
        simp [put, hnone, hlen]
      refine ⟨c', ?_, hput ▸ hr.holds s⟩
      simp [zenitLruPut, hfind, hrun, hput]

theorem Represents.get_spec (h : Represents c order frees entries) (key : Bytes keySize)
    (wanted : Bool) :
    ∃ c', zenitLruGet c (some key) wanted = some ((find key entries).isSome,
        if wanted then (find key entries).map Prod.snd else none, c') ∧
      Holds c.capacity c.evictFn c' (touch key entries) := by
  rcases h.lookup key with ⟨slot, node, xs, ys, exs, eys, v, hfind, hslot, rfl, rfl, hx, hy, hk, hv⟩ |
      ⟨⟨slot, hfind⟩, habs, -⟩
  · have hentry : entryAt c node = some (key, v) := entryAt_eq_some.mpr ⟨hk, hv⟩
    obtain ⟨c', hrun, s, hr⟩ := h.promote hx hy hentry
    have htouch : touch key (exs ++ (key, v) :: eys) = (key, v) :: (exs ++ eys) := by
      simp only [touch, find_split h.distinct, without_split h.distinct]
    refine ⟨c', ?_, htouch ▸ hr.holds s⟩
    simp [zenitLruGet, hfind, hslot, hv, hrun, find_split h.distinct]
  · refine ⟨c, ?_, ?_⟩
    · simp [zenitLruGet, hfind, find_eq_none habs]
    · rw [touch, find_eq_none habs]
      exact h.holds ⟨rfl, rfl⟩

theorem Represents.peek_spec (h : Represents c order frees entries) (key : Bytes keySize)
    (wanted : Bool) :
    zenitLruPeek c (some key) wanted = some ((find key entries).isSome,
      if wanted then (find key entries).map Prod.snd else none) := by
  rcases h.lookup key with ⟨slot, node, xs, ys, exs, eys, v, hfind, hslot, rfl, rfl, -, -, -, hv⟩ |
      ⟨⟨slot, hfind⟩, habs, -⟩
  · simp [zenitLruPeek, hfind, hslot, hv, find_split h.distinct]
  · simp [zenitLruPeek, hfind, find_eq_none habs]

theorem Represents.contains_spec (h : Represents c order frees entries) (key : Bytes keySize) :
    zenitLruContains c (some key) = some (find key entries).isSome := by
  rcases h.lookup key with ⟨slot, node, xs, ys, exs, eys, v, hfind, -, rfl, rfl, -⟩ |
      ⟨⟨slot, hfind⟩, habs, -⟩
  · simp [zenitLruContains, hfind, find_split h.distinct]
  · simp [zenitLruContains, hfind, find_eq_none habs]

theorem Represents.remove_spec (h : Represents c order frees entries) (key : Bytes keySize) :
    ∃ c', zenitLruRemove c (some key) =
        some (if (find key entries).isSome then .ok else .notFound, c') ∧
      Holds c.capacity c.evictFn c' (without key entries) := by
  rcases h.lookup key with ⟨slot, node, xs, ys, exs, eys, v, hfind, hslot, rfl, rfl, hx, hy, -, -⟩ |
      ⟨⟨slot, hfind⟩, habs, -⟩
  · obtain ⟨c', hrun, s, hr⟩ := h.drop hx hy
    refine ⟨c', ?_, without_split h.distinct ▸ hr.holds s⟩
    simp only [Option.bind_eq_bind] at hrun
    simp only [zenitLruRemove, hfind, hslot, find_split h.distinct, Option.bind_eq_bind,
      Option.bind_some, if_true, Option.isSome_some]
    rw [← Option.bind_assoc, ← Option.bind_assoc]
    simp [Option.bind_assoc, hrun]
  · refine ⟨c, ?_, ?_⟩
    · simp [zenitLruRemove, hfind, find_eq_none habs]
    · rw [without_eq_self habs]
      exact h.holds ⟨rfl, rfl⟩

/-- Step lemma of the simulation. -/
theorem Holds.exec {capacity : ℕ} {evictFn : Bool} (h : Holds capacity evictFn c entries)
    (op : Op keySize valueSize) :
    ∃ c', Lru.exec c op = some (specOutput evictFn (specExec capacity entries op), c') ∧
      Holds capacity evictFn c' (specExec capacity entries op).2.2 := by
  obtain ⟨rfl, rfl, order, frees, hr⟩ := h
  have hcount := hr.count_eq
  have hself : Holds c.capacity c.evictFn c entries := hr.holds ⟨rfl, rfl⟩
  match op with
  | .put (some key) (some value) =>
    obtain ⟨c', hrun, hh⟩ := hr.put_spec key value
    exact ⟨c', by simp [Lru.exec, hrun, specExec, specOutput, hh.count_eq], hh⟩
  | .put none _ => exact ⟨c, by simp [Lru.exec, zenitLruPut, specExec, specOutput, hcount], hself⟩
  | .put (some _) none =>
    exact ⟨c, by simp [Lru.exec, zenitLruPut, specExec, specOutput, hcount], hself⟩
  | .get (some key) wanted =>
    obtain ⟨c', hrun, hh⟩ := hr.get_spec key wanted
    exact ⟨c', by simp [Lru.exec, hrun, specExec, specOutput, answer, hh.count_eq], hh⟩
  | .get none _ => exact ⟨c, by simp [Lru.exec, zenitLruGet, specExec, specOutput, hcount], hself⟩
  | .peek (some key) wanted =>
    have hrun := hr.peek_spec key wanted
    exact ⟨c, by simp [Lru.exec, hrun, specExec, specOutput, answer, hcount], hself⟩
  | .peek none _ => exact ⟨c, by simp [Lru.exec, zenitLruPeek, specExec, specOutput, hcount], hself⟩
  | .contains (some key) =>
    have hrun := hr.contains_spec key
    exact ⟨c, by simp [Lru.exec, hrun, specExec, specOutput, answer, hcount], hself⟩
  | .contains none =>
    exact ⟨c, by simp [Lru.exec, zenitLruContains, specExec, specOutput, hcount], hself⟩
  | .remove (some key) =>
    obtain ⟨c', hrun, hh⟩ := hr.remove_spec key
    exact ⟨c', by simp [Lru.exec, hrun, specExec, specOutput, hh.count_eq], hh⟩
  | .remove none =>
    exact ⟨c, by simp [Lru.exec, zenitLruRemove, specExec, specOutput, hcount], hself⟩
  | .clear =>
    obtain ⟨c', hrun, s, hr'⟩ := hr.clear
    have hh := hr'.holds s
    exact ⟨c', by simp [Lru.exec, hrun, specExec, specOutput, hh.count_eq], hh⟩

theorem Holds.execAll {capacity : ℕ} {evictFn : Bool} (h : Holds capacity evictFn c entries)
    (ops : List (Op keySize valueSize)) :
    ∃ c', Lru.execAll c ops = some ((specAll capacity evictFn entries ops).1, c') ∧
      Holds capacity evictFn c' (specAll capacity evictFn entries ops).2 := by
  induction ops generalizing c entries with
  | nil => exact ⟨c, rfl, h⟩
  | cons op ops ih =>
    obtain ⟨c₁, hstep, h₁⟩ := h.exec op
    obtain ⟨c₂, hrest, h₂⟩ := ih h₁
    exact ⟨c₂, by simp [Lru.execAll, hstep, hrest, specAll], h₂⟩

/-! ## Creation -/

theorem allocArray_eq {α : Type} {nmemb elemSize : ℕ} (hn : 0 < nmemb) (he : 0 < elemSize)
    (hw : nmemb * elemSize < 2 ^ 64) (granted : Bool) (zero : α) :
    allocArray granted nmemb elemSize zero =
      if granted then some (List.replicate nmemb zero) else none := by
  unfold allocArray
  rw [if_neg (by omega), wrap_of_lt hw, Nat.mul_div_cancel _ he]

/-- Creation gives a cache exactly when every allocation succeeds, and the cache is empty. -/
theorem lruCreateImpl_spec {capacity : ℕ} (granted : ℕ → Bool) (evictFn : Bool)
    (hk : 0 < keySize) (hv : 0 < valueSize) (hc : 0 < capacity) (h2 : 2 * capacity ≤ 2 ^ 63)
    (hkb : capacity * keySize < 2 ^ 64) (hvb : capacity * valueSize < 2 ^ 64)
    (htb : roundPow2 (2 * capacity) * sizeofSizeT < 2 ^ 64) :
    ∃ r, lruCreateImpl keySize valueSize granted capacity evictFn = some r ∧
      (r.isSome ↔ ∀ i < 7, granted i = true) ∧ ∀ c, r = some c → Holds capacity evictFn c [] := by
  have hpow : roundPow2 (2 * capacity) = 2 ^ (2 * capacity - 1).size := roundPow2_eq (by omega) h2
  have hle : 2 * capacity ≤ roundPow2 (2 * capacity) := le_roundPow2 (by omega) h2
  have hwrap : wrap (capacity * 2) = 2 * capacity := by
    rw [Nat.mul_comm]
    exact wrap_of_lt (by omega)
  obtain ⟨hashCapacity, hhc⟩ : ∃ n, n = roundPow2 (2 * capacity) := ⟨_, rfl⟩
  have hsize : (2 * capacity - 1).size ≤ 63 := Nat.size_le.mpr (by omega)
  have h8 : capacity * sizeofSizeT < 2 ^ 64 := by
    unfold sizeofSizeT at htb ⊢
    omega
  have hall : (∀ i < 7, granted i = true) ↔ (granted 0 = true ∧ granted 1 = true ∧
      granted 2 = true ∧ granted 3 = true ∧ granted 4 = true ∧ granted 5 = true ∧
      granted 6 = true) := by
    constructor
    · intro h
      exact ⟨h 0 (by omega), h 1 (by omega), h 2 (by omega), h 3 (by omega), h 4 (by omega),
        h 5 (by omega), h 6 (by omega)⟩
    · intro h i hi
      interval_cases i <;> simp [h]
  unfold lruCreateImpl
  rw [if_neg (by omega), hwrap, ← hhc]
  simp only [allocArray_eq hc hk hkb, allocArray_eq hc hv hvb,
    allocArray_eq hc (by decide : 0 < sizeofSizeT) h8,
    allocArray_eq (by omega : 0 < hashCapacity) (by decide : 0 < sizeofSizeT) (hhc ▸ htb)]
  by_cases hg : ∀ i < 7, granted i = true
  · obtain ⟨g0, g1, g2, g3, g4, g5, g6⟩ := hall.mp hg
    simp only [g0, g1, g2, g3, g4, g5, g6, Bool.not_true, Bool.false_eq_true, if_false, if_true]
    obtain ⟨c₀, hc₀⟩ : ∃ c₀ : Cache keySize valueSize, c₀ =
        { capacity, count := 0, keys := List.replicate capacity (List.Vector.replicate keySize 0),
          values := List.replicate capacity (List.Vector.replicate valueSize 0),
          prev := List.replicate capacity 0, next := List.replicate capacity 0,
          hashIndex := List.replicate capacity 0, head := lruNone, tail := lruNone, freeHead := 0,
          hashTable := List.replicate hashCapacity 0, hashCapacity, evictFn } := ⟨_, rfl⟩
    rw [← hc₀]
    have hsized : Sized c₀ := by
      subst hc₀
      refine ⟨by simp, by simp, by simp, by simp, ⟨_, hsize, hhc.trans hpow⟩, hc, ?_⟩
      change capacity < hashCapacity
      omega
    have hsmall : c₀.capacity ≤ lruNone := by
      subst hc₀
      unfold lruNone sizeMax
      change capacity ≤ _
      omega
    obtain ⟨c, hrun, s, hr, hcount⟩ := represents_reset hsized (by simp [hc₀]) (by simp [hc₀])
      hsmall (by simp [hc₀]) (by simp [hc₀])
    have hzero : { c with count := 0 } = c := by
      rw [show (0 : ℕ) = c.count by rw [hcount, hc₀]]
    rw [hzero] at hr
    refine ⟨some c, ?_, by simpa using hg, fun c' hc' => ?_⟩
    · simp only [Option.bind_eq_bind] at hrun ⊢
      rw [← Option.bind_assoc, hrun]
      rfl
    · obtain rfl : c = c' := by simpa using hc'
      exact ⟨s.capacity.trans (by rw [hc₀]), s.evictFn.trans (by rw [hc₀]), _, _, hr⟩
  · refine ⟨none, ?_, by simpa using hg, by simp⟩
    rw [hall] at hg
    rcases g0 : granted 0 with _ | _
    · simp
    rcases g1 : granted 1 with _ | _
    · simp
    rcases g2 : granted 2 with _ | _
    · simp
    rcases g3 : granted 3 with _ | _
    · simp
    rcases g4 : granted 4 with _ | _
    · simp
    rcases g5 : granted 5 with _ | _
    · simp
    rcases g6 : granted 6 with _ | _
    · simp
    exact absurd ⟨g0, g1, g2, g3, g4, g5, g6⟩ hg

/-- Every run of a created cache shows exactly what the list of at most `capacity` pairs with
distinct keys shows. -/
theorem cache_refines_recency_list (keySize valueSize capacity : ℕ) (granted : ℕ → Bool)
    (evictFn : Bool) (hk : 0 < keySize) (hv : 0 < valueSize) (hc : 0 < capacity)
    (h2 : 2 * capacity ≤ 2 ^ 63) (hkb : capacity * keySize < 2 ^ 64)
    (hvb : capacity * valueSize < 2 ^ 64)
    (htb : roundPow2 (2 * capacity) * sizeofSizeT < 2 ^ 64) :
    ∃ r, lruCreateImpl keySize valueSize granted capacity evictFn = some r ∧
      (r.isSome ↔ ∀ i < 7, granted i = true) ∧
      ∀ c, r = some c → ∀ ops : List (Op keySize valueSize),
        (∃ c', execAll c ops = some ((specAll capacity evictFn [] ops).1, c')) ∧
        Bounded capacity (specAll capacity evictFn [] ops).2 := by
  obtain ⟨r, hr, hsome, hholds⟩ := lruCreateImpl_spec granted evictFn hk hv hc h2 hkb hvb htb
  refine ⟨r, hr, hsome, fun c hrc ops => ⟨?_, specAll_bounded evictFn Bounded.empty hc ops⟩⟩
  obtain ⟨c', hrun, -⟩ := (hholds c hrc).execAll ops
  exact ⟨c', hrun⟩

theorem cache_of_two_refines_recency_list :
    ∃ r, lruCreateImpl 1 1 (fun _ => true) 2 true = some r ∧
      (r.isSome ↔ ∀ i < 7, (fun _ => true) i = true) ∧
      ∀ c, r = some c → ∀ ops : List (Op 1 1),
        (∃ c', execAll c ops = some ((specAll 2 true [] ops).1, c')) ∧
        Bounded 2 (specAll 2 true [] ops).2 :=
  cache_refines_recency_list 1 1 2 (fun _ => true) true (by decide) (by decide) (by decide)
    (by decide) (by decide) (by decide) (by decide)

end LibZenit.Lru
