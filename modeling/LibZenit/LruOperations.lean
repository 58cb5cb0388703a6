import LibZenit.LruIndex
import LibZenit.RecencyList

/-!
# What each operation does to the represented list

`Represents` ties a cache to its pairs in recency order. The lemmas below follow the public
operations; each says that the operation has a result and which list it represents.
-/
namespace LibZenit.Lru
open HashCommon LinkedChain RecencyList Slots

variable {keySize valueSize : ℕ}

section Frames

variable {c c' : Cache keySize valueSize} {order frees loose nodes : List ℕ}

/-- The two lists are the same. -/
structure SameLists (c c' : Cache keySize valueSize) : Prop where
  capacity : c'.capacity = c.capacity
  prev : c'.prev = c.prev
  next : c'.next = c.next
  head : c'.head = c.head
  tail : c'.tail = c.tail
  freeHead : c'.freeHead = c.freeHead

theorem Linked.congr (h : Linked c order frees loose) (s : SameLists c c') :
    Linked c' order frees loose := by
  obtain ⟨e1, e2, e3, e4, e5, e6⟩ := s
  refine ⟨?_, ?_, ?_, ?_, ?_, ?_, ?_⟩
  all_goals simp only [e1, e2, e3, e4, e5, e6]
  exacts [h.nextLen, h.prevLen, h.small, h.chain, h.tailEq, h.free, h.cells]

theorem Indexed.congr (h : Indexed c nodes) (ht : c'.hashTable = c.hashTable)
    (hc : c'.hashCapacity = c.hashCapacity) (hl : c'.keys.length = c.keys.length)
    (hk : ∀ n ∈ nodes, c'.keys[n]? = c.keys[n]?) : Indexed c' nodes := by
  have huse : ∀ i, InUse c' i ↔ InUse c i := fun i => by
    unfold InUse
    rw [ht]
  refine ⟨by rw [hc]; exact h.pow, by rw [ht, hc]; exact h.tableLen, ?_, ?_, ?_, ?_⟩
  · intro n hn
    rw [hl]
    exact h.keyed n hn
  · rw [hc]
    refine h.probed.mono (fun i hi k hocc => ?_) fun i _ hu => (huse i).mpr hu
    unfold occ at hocc ⊢
    rw [ht] at hocc
    split_ifs at hocc ⊢ with he
    rwa [hk _ (h.live i hi he)] at hocc
  · intro i hi hu
    rw [ht]
    exact h.live i (hc ▸ hi) ((huse i).mp hu)
  · intro n hn
    rw [ht, hc]
    exact h.found n hn

theorem Indexed.of_sameData (h : Indexed c nodes) (s : SameData c c') : Indexed c' nodes :=
  h.congr s.hashTable s.hashCapacity (by rw [s.keys]) fun n _ => by rw [s.keys]

theorem entryAt_congr (hk : c'.keys = c.keys) (hv : c'.values = c.values) (n : ℕ) :
    entryAt c' n = entryAt c n := by
  unfold entryAt
  rw [hk, hv]

theorem entryAt_eq_some {n : ℕ} {e : Bytes keySize × Bytes valueSize} :
    entryAt c n = some e ↔ c.keys[n]? = some e.1 ∧ c.values[n]? = some e.2 := by
  unfold entryAt
  cases hk : c.keys[n]? with
  | none => simp
  | some k =>
    cases hv : c.values[n]? with
    | none => simp
    | some v => simp [Prod.ext_iff]

end Frames

/-- The arrays have the sizes they were created with. -/
structure Sized (c : Cache keySize valueSize) : Prop where
  keysLen : c.keys.length = c.capacity
  valuesLen : c.values.length = c.capacity
  indexLen : c.hashIndex.length = c.capacity
  tableLen : c.hashTable.length = c.hashCapacity
  pow : ∃ k ≤ 63, c.hashCapacity = 2 ^ k
  pos : 0 < c.capacity
  room : c.capacity < c.hashCapacity

/-- The cache `c` holds the given pairs, most recent first. -/
structure Represents (c : Cache keySize valueSize) (order frees : List ℕ)
    (entries : List (Bytes keySize × Bytes valueSize)) : Prop where
  linked : Linked c order frees []
  indexed : Indexed c order
  sized : Sized c
  count : c.count = order.length
  contents : order.map (entryAt c) = entries.map some

variable {c c' : Cache keySize valueSize} {order frees : List ℕ} {node : ℕ}
  {key : Bytes keySize} {value : Bytes valueSize}
  {entries : List (Bytes keySize × Bytes valueSize)}

theorem Sized.of_sameData (h : Sized c) (s : SameData c c') : Sized c' := by
  obtain ⟨e1, -, e3, e4, e5, e6, e7, -⟩ := s
  refine ⟨?_, ?_, ?_, ?_, ?_, ?_, ?_⟩
  all_goals simp only [e1, e3, e4, e5, e6, e7]
  exacts [h.keysLen, h.valuesLen, h.indexLen, h.tableLen, h.pow, h.pos, h.room]

theorem Represents.length_eq (h : Represents c order frees entries) :
    entries.length = order.length := by
  simpa using (congrArg List.length h.contents).symm

theorem Represents.order_lt (h : Represents c order frees entries) :
    order.length < c.hashCapacity := h.linked.length_order_le.trans_lt h.sized.room

/-- The nodes of a list of nodes whose entries are known. -/
theorem mem_of_entry {order : List ℕ} (h : order.map (entryAt c) = entries.map some)
    {e : Bytes keySize × Bytes valueSize} (he : e ∈ entries) :
    ∃ n ∈ order, entryAt c n = some e := by
  have hm : some e ∈ order.map (entryAt c) := by
    rw [h]
    exact List.mem_map_of_mem he
  exact List.mem_map.mp hm

theorem Represents.distinct (h : Represents c order frees entries) :
    (entries.map Prod.fst).Nodup := by
  have hkeys : order.map (fun n => c.keys[n]?) = (entries.map Prod.fst).map some := by
    have hfst := congrArg (List.map (Option.map Prod.fst)) h.contents
    simp only [List.map_map] at hfst ⊢
    refine Eq.trans (List.map_congr_left fun n hn => ?_) hfst
    obtain ⟨e, -, he⟩ : ∃ e ∈ entries, some e = entryAt c n := by
      have hm : entryAt c n ∈ order.map (entryAt c) := List.mem_map_of_mem hn
      rw [h.contents] at hm
      simpa using hm
    simp [← he, (entryAt_eq_some.mp he.symm).1]
  have hnodup : (order.map (fun n => c.keys[n]?)).Nodup :=
    List.Nodup.map_on (fun m hm n hn => h.indexed.eq_of_key hm hn) h.linked.chain.nodup
  rw [hkeys] at hnodup
  exact hnodup.of_map

theorem Represents.bounded (h : Represents c order frees entries) : Bounded c.capacity entries :=
  ⟨h.distinct, h.length_eq.trans_le h.linked.length_order_le⟩

/-- The outcome of a lookup, in terms of the represented list. -/
theorem Represents.lookup (h : Represents c order frees entries) (key : Bytes keySize) :
    (∃ slot node xs ys exs eys value, hashFindSlot c key = some (slot, true) ∧
      c.hashTable[slot]? = some node ∧ order = xs ++ node :: ys ∧
      entries = exs ++ (key, value) :: eys ∧ xs.map (entryAt c) = exs.map some ∧
      ys.map (entryAt c) = eys.map some ∧ c.keys[node]? = some key ∧
      c.values[node]? = some value) ∨
    ((∃ slot, hashFindSlot c key = some (slot, false)) ∧ (∀ e ∈ entries, e.1 ≠ key) ∧
      ∀ n ∈ order, c.keys[n]? ≠ some key) := by
  have hf := h.indexed.hashFindSlot h.order_lt key
  match hfound : hashFindSlot c key with
  | none =>
    rw [hfound] at hf
    exact hf.elim
  | some (slot, true) =>
    rw [hfound] at hf
    obtain ⟨node, hn, hslot, hkey⟩ := hf
    obtain ⟨xs, ys, rfl⟩ := List.append_of_mem hn
    have hc := h.contents
    rw [List.map_append, List.map_cons] at hc
    obtain ⟨exs, rest, rfl, hx, hr⟩ := List.map_eq_append_iff.mp hc.symm
    obtain ⟨e, eys, rfl, he, hy⟩ := List.map_eq_cons_iff.mp hr
    obtain ⟨hk, hv⟩ := entryAt_eq_some.mp he.symm
    obtain ⟨k, v⟩ := e
    obtain rfl : key = k := Option.some.inj (hkey.symm.trans hk)
    exact Or.inl ⟨slot, node, xs, ys, exs, eys, v, rfl, hslot, rfl, rfl, hx.symm, hy.symm, hk, hv⟩
  | some (slot, false) =>
    rw [hfound] at hf
    refine Or.inr ⟨⟨slot, rfl⟩, fun e he heq => ?_, hf⟩
    obtain ⟨n, hn, hentry⟩ := mem_of_entry h.contents he
    exact hf n hn (heq ▸ (entryAt_eq_some.mp hentry).1)

/-! ## Entries of changed arrays -/

/-- Overwrite the key and the value of one node. -/
def written (c : Cache keySize valueSize) (node : ℕ) (key : Bytes keySize)
    (value : Bytes valueSize) : Cache keySize valueSize :=
  { c with keys := c.keys.set node key, values := c.values.set node value }

theorem entryAt_written_same (hk : node < c.keys.length) (hv : node < c.values.length) :
    entryAt (written c node key value) node = some (key, value) :=
  entryAt_eq_some.mpr ⟨List.getElem?_set_self hk, List.getElem?_set_self hv⟩

theorem entryAt_written_ne {n : ℕ} (hn : n ≠ node) :
    entryAt (written c node key value) n = entryAt c n := by
  unfold entryAt written
  rw [List.getElem?_set_ne hn.symm, List.getElem?_set_ne hn.symm]

theorem Sized.written (h : Sized c) : Sized (Lru.written c node key value) :=
  ⟨by simpa [Lru.written] using h.keysLen, by simpa [Lru.written] using h.valuesLen, h.indexLen,
    h.tableLen, h.pow, h.pos, h.room⟩

theorem map_entryAt_congr {nodes : List ℕ} (h : ∀ n ∈ nodes, entryAt c' n = entryAt c n)
    (hc : nodes.map (entryAt c) = entries.map some) :
    nodes.map (entryAt c') = entries.map some := by
  rw [← hc]
  exact List.map_congr_left h

/-- A pair written in a new node comes first. -/
theorem map_entryAt_written {nodes : List ℕ} (hk : node < c.keys.length)
    (hv : node < c.values.length) (hnew : ∀ n ∈ nodes, n ≠ node)
    (hc : nodes.map (entryAt c) = entries.map some) :
    (node :: nodes).map (entryAt (written c node key value)) =
      ((key, value) :: entries).map some := by
  have hold : nodes.map (entryAt (written c node key value)) = entries.map some :=
    map_entryAt_congr (fun n hn => entryAt_written_ne (hnew n hn)) hc
  rw [List.map_cons, List.map_cons, hold, entryAt_written_same hk hv]

/-- Fields that no operation changes. -/
structure SameConfig (c c' : Cache keySize valueSize) : Prop where
  capacity : c'.capacity = c.capacity
  evictFn : c'.evictFn = c.evictFn

theorem SameData.config (s : SameData c c') : SameConfig c c' := ⟨s.capacity, s.evictFn⟩

/-- A rebuilt table completes the representation of linked nodes with distinct keys. -/
theorem Linked.rebuilt (h : Linked c order frees []) (hs : Sized c)
    (hdistinct : ∀ m ∈ order, ∀ n ∈ order, c.keys[m]? = c.keys[n]? → m = n)
    (hcount : c.count = order.length) (hcontents : order.map (entryAt c) = entries.map some) :
    ∃ c', hashRebuild c = some c' ∧ SameConfig c c' ∧ Represents c' order frees entries := by
  have hd : DistinctKeys c order := by
    refine ⟨h.chain.nodup, fun n hn => ?_, hdistinct⟩
    have hlt := h.lt_of_order hn
    rw [hs.keysLen, hs.indexLen]
    exact ⟨hlt, hlt, h.ne_none hlt⟩
  obtain ⟨table, index, hrun, hilen, hi⟩ :=
    h.rebuild hs.pow hs.tableLen hd (h.length_order_le.trans_lt hs.room)
  exact ⟨_, hrun, ⟨rfl, rfl⟩, h.congr ⟨rfl, rfl, rfl, rfl, rfl, rfl⟩, hi,
    ⟨hs.keysLen, hs.valuesLen, hilen.trans hs.indexLen, hi.tableLen, hs.pow, hs.pos, hs.room⟩,
    hcount, hcontents⟩

/-! ## Promotion, overwriting and removal -/

section Present

variable {xs ys : List ℕ} {exs eys : List (Bytes keySize × Bytes valueSize)}
  {e : Bytes keySize × Bytes valueSize}

theorem Represents.promote (h : Represents c (xs ++ node :: ys) frees entries)
    (hx : xs.map (entryAt c) = exs.map some) (hy : ys.map (entryAt c) = eys.map some)
    (he : entryAt c node = some e) :
    ∃ c', lruMoveToFront c node = some c' ∧ SameConfig c c' ∧
      Represents c' (node :: (xs ++ ys)) frees (e :: (exs ++ eys)) := by
  obtain ⟨c', hrun, s, hl⟩ := h.linked.moveToFront
  refine ⟨c', hrun, s.config, hl, ?_, h.sized.of_sameData s, ?_, ?_⟩
  · refine (h.indexed.congr_mem fun n => ?_).of_sameData s
    simp only [List.mem_cons, List.mem_append]
    tauto
  · rw [s.count, h.count]
    simp only [List.length_append, List.length_cons]
    omega
  · refine map_entryAt_congr (fun n _ => entryAt_congr s.keys s.values n) ?_
    simp [hx, hy, he]

/-- Overwriting the value of a present key. -/
theorem Represents.overwrite (h : Represents c (xs ++ node :: ys) frees entries)
    (hx : xs.map (entryAt c) = exs.map some) (hy : ys.map (entryAt c) = eys.map some)
    (hkey : c.keys[node]? = some key) (value : Bytes valueSize) :
    ∃ c', (do
        let values ← store c.values node value
        lruMoveToFront { c with values := values } node) = some c' ∧ SameConfig c c' ∧
      Represents c' (node :: (xs ++ ys)) frees ((key, value) :: (exs ++ eys)) := by
  have hnode : node < c.capacity := h.linked.lt_of_order (by simp)
  obtain ⟨-, -, hnx, hny, -⟩ := h.linked.chain.append_facts
  have hself : c.keys.set node key = c.keys := by
    obtain ⟨hlt, hget⟩ := List.getElem?_eq_some_iff.mp hkey
    rw [← hget, List.set_getElem_self]
  have hkl : node < c.keys.length := h.sized.keysLen.symm ▸ hnode
  have hvl : node < c.values.length := h.sized.valuesLen.symm ▸ hnode
  have hrecord : { c with values := c.values.set node value } = written c node key value := by
    unfold written
    rw [hself]
  have hkeep : ∀ n ≠ node, entryAt (written c node key value) n = entryAt c n :=
    fun n hn => entryAt_written_ne hn
  have hx' := map_entryAt_congr (fun n hn => hkeep n (by rintro rfl; exact hnx hn)) hx
  have hy' := map_entryAt_congr (fun n hn => hkeep n (by rintro rfl; exact hny hn)) hy
  have he' : entryAt (written c node key value) node = some (key, value) :=
    entryAt_written_same hkl hvl
  have hw : Represents (written c node key value) (xs ++ node :: ys) frees
      (exs ++ (key, value) :: eys) := by
    refine ⟨h.linked.congr ⟨rfl, rfl, rfl, rfl, rfl, rfl⟩,
      h.indexed.congr rfl rfl (by simp [written]) (fun n _ => by simp only [written, hself]),
      h.sized.written, h.count, ?_⟩
    simp [hx', hy', he']
  obtain ⟨c', hrun, s, hr⟩ := hw.promote hx' hy' he'
  refine ⟨c', ?_, ⟨s.capacity, s.evictFn⟩, hr⟩
  simp only [store_eq hvl, Option.bind_eq_bind, Option.bind_some, hrecord, hrun]

/-- Removing a present key. -/
theorem Represents.drop (h : Represents c (xs ++ node :: ys) frees entries)
    (hx : xs.map (entryAt c) = exs.map some) (hy : ys.map (entryAt c) = eys.map some) :
    ∃ c', (do
        let c ← lruUnlink c node
        let c ← freelistPush c node
        hashRebuild { c with count := wrap (c.count + sizeMax) }) = some c' ∧ SameConfig c c' ∧
      Represents c' (xs ++ ys) (node :: frees) (exs ++ eys) := by
  obtain ⟨c₁, e₁, s₁, h₁⟩ := h.linked.unlink
  obtain ⟨c₂, e₂, s₂, h₂⟩ := h₁.push
  have s := s₁.trans s₂
  have hcount : wrap (c₂.count + sizeMax) = (xs ++ ys).length := by
    have hle := h.linked.length_order_le
    have hsmall := h.linked.small
    rw [s.count, h.count]
    unfold lruNone sizeMax at hsmall
    unfold wrap sizeMax
    simp only [List.length_append, List.length_cons] at hle ⊢
    omega
  have hsized := h.sized.of_sameData s
  have hdistinct : ∀ m ∈ xs ++ ys, ∀ n ∈ xs ++ ys, c₂.keys[m]? = c₂.keys[n]? → m = n := by
    intro m hm n hn hk
    rw [s.keys] at hk
    have hsub : ∀ n ∈ xs ++ ys, n ∈ xs ++ node :: ys := fun n hn => by
      rcases List.mem_append.mp hn with hn | hn <;> simp [hn]
    exact h.indexed.eq_of_key (hsub m hm) (hsub n hn) hk
  have hold : (xs ++ ys).map (entryAt c) = (exs ++ eys).map some := by simp [hx, hy]
  obtain ⟨m, hm⟩ : ∃ m, m = wrap (c₂.count + sizeMax) := ⟨_, rfl⟩
  rw [← hm] at hcount
  have hl : Linked { c₂ with count := m } (xs ++ ys) (node :: frees) [] :=
    h₂.congr ⟨rfl, rfl, rfl, rfl, rfl, rfl⟩
  obtain ⟨c', hrun, s', hr⟩ := hl.rebuilt
    ⟨hsized.keysLen, hsized.valuesLen, hsized.indexLen, hsized.tableLen, hsized.pow, hsized.pos,
      hsized.room⟩ hdistinct hcount
    (map_entryAt_congr (fun n _ => entryAt_congr s.keys s.values n) hold)
  refine ⟨c', ?_, ⟨s'.capacity.trans s.capacity, s'.evictFn.trans s.evictFn⟩, hr⟩
  simp only [e₁, e₂, Option.bind_eq_bind, Option.bind_some, ← hm, hrun]

end Present

/-! ## Insertion of an absent key -/

theorem Represents.insertFree (h : Represents c order frees entries)
    (habs : ∀ n ∈ order, c.keys[n]? ≠ some key) (hfull : c.count ≠ c.capacity)
    (value : Bytes valueSize) :
    ∃ c' order' frees', putFresh c key value = some ([], c') ∧ SameConfig c c' ∧
      Represents c' order' frees' ((key, value) :: entries) := by
  obtain ⟨node, frees, rfl⟩ : ∃ n fs, frees = n :: fs := by
    cases frees with
    | nil =>
      have hlen := h.linked.cells.length_eq
      simp only [List.append_nil, List.length_range] at hlen
      exact absurd (h.count.trans hlen) hfull
    | cons n fs => exact ⟨n, fs, rfl⟩
  obtain ⟨hpop, h₁⟩ := h.linked.pop
  have hnode : node < c.capacity := h.linked.lt (by simp)
  have hkl : node < c.keys.length := h.sized.keysLen.symm ▸ hnode
  have hvl : node < c.values.length := h.sized.valuesLen.symm ▸ hnode
  have hnew : node ∉ order := h₁.loose_not_listed.1
  have hkeep : ∀ n ∈ order, n ≠ node := fun n hn he => hnew (he ▸ hn)
  -- the cache with the popped node written and not yet linked
  obtain ⟨c₂, hc₂⟩ : ∃ c₂, c₂ = written { c with
      freeHead := link c.next node, count := wrap (c.count + 1) } node key value := ⟨_, rfl⟩
  have h₂ : Linked c₂ order frees [node] := by
    subst hc₂
    exact h₁.congr ⟨rfl, rfl, rfl, rfl, rfl, rfl⟩
  have hsized : Sized c₂ := by
    subst hc₂
    exact Sized.written ⟨h.sized.keysLen, h.sized.valuesLen, h.sized.indexLen, h.sized.tableLen,
      h.sized.pow, h.sized.pos, h.sized.room⟩
  have hkeys : ∀ n ∈ order, c₂.keys[n]? = c.keys[n]? := fun n hn => by
    subst hc₂
    exact List.getElem?_set_ne (hkeep n hn).symm
  have hi₂ : Indexed c₂ order := by
    refine h.indexed.congr ?_ ?_ ?_ hkeys
    all_goals
      subst hc₂
      simp [written]
  have hcount : c₂.count = order.length + 1 := by
    have hle := h.linked.length_order_le
    have hsmall := h.linked.small
    unfold lruNone sizeMax at hsmall
    subst hc₂
    refine (wrap_of_lt ?_).trans (by rw [h.count])
    have := h.count
    omega
  have hcontents : (node :: order).map (entryAt c₂) = ((key, value) :: entries).map some := by
    subst hc₂
    exact map_entryAt_written hkl hvl hkeep h.contents
  obtain ⟨c₃, e₃, s₃, h₃⟩ := h₂.pushFront
  have hkey₃ : c₃.keys[node]? = some key := by
    rw [s₃.keys]
    subst hc₂
    exact List.getElem?_set_self hkl
  have hsized₃ := hsized.of_sameData s₃
  obtain ⟨table, index, e₄, hilen, hi₄⟩ := (hi₂.of_sameData s₃).enter
    ((h₃.length_order_le.trans_lt hsized₃.room).trans' (by simp))
    (by rw [hsized₃.indexLen]; exact h₃.lt (by simp)) (h₃.ne_none (h₃.lt (by simp))) hkey₃
    (fun n hn => by rw [s₃.keys, hkeys n hn]; exact habs n hn)
  refine ⟨{ c₃ with hashTable := table, hashIndex := index }, node :: order, frees, ?_,
    ⟨s₃.capacity.trans (by simp [hc₂, written]), s₃.evictFn.trans (by simp [hc₂, written])⟩,
    h₃.congr ⟨rfl, rfl, rfl, rfl, rfl, rfl⟩, hi₄,
    ⟨hsized₃.keysLen, hsized₃.valuesLen, hilen.trans hsized₃.indexLen, hi₄.tableLen, hsized₃.pow,
      hsized₃.pos, hsized₃.room⟩, ?_, ?_⟩
  · unfold putFresh
    subst hc₂
    simp only [if_neg hfull, hpop, Option.bind_eq_bind, Option.bind_some, store_eq hkl,
      store_eq hvl]
    simp only [written] at e₃
    simp [e₃, e₄]
  · exact s₃.count.trans hcount
  · refine map_entryAt_congr (fun n _ => ?_) hcontents
    exact entryAt_congr s₃.keys s₃.values n

/-- The callback sees the dropped pair, if there is a callback. -/
theorem Represents.insertFull (h : Represents c order frees entries)
    (habs : ∀ n ∈ order, c.keys[n]? ≠ some key) (hfull : c.count = c.capacity)
    (value : Bytes valueSize) :
    ∃ c' order' frees', putFresh c key value =
        some (if c.evictFn then entries.getLast?.toList else [], c') ∧ SameConfig c c' ∧
      Represents c' order' frees' ((key, value) :: entries.dropLast) := by
  have hpos := h.sized.pos
  obtain ⟨xs, node, rfl⟩ : ∃ xs n, order = xs ++ [n] := by
    rcases List.eq_nil_or_concat order with rfl | ⟨xs, n, rfl⟩
    · have := h.count
      simp at this
      omega
    · exact ⟨xs, n, by simp⟩
  have htail : c.tail = node := by simpa using h.linked.tailEq
  -- the last pair is the one of the tail node
  obtain ⟨exs, e, rfl, hx, he⟩ : ∃ exs e, entries = exs ++ [e] ∧ xs.map (entryAt c) = exs.map some ∧
      entryAt c node = some e := by
    have hc := h.contents
    rw [List.map_append] at hc
    obtain ⟨exs, rest, rfl, hx, hr⟩ := List.map_eq_append_iff.mp hc.symm
    obtain ⟨e, eys, rfl, he, hy⟩ := List.map_eq_cons_iff.mp hr
    obtain rfl : eys = [] := by simpa using hy
    exact ⟨exs, e, rfl, hx.symm, he.symm⟩
  have hnode : node < c.capacity := h.linked.lt_of_order (by simp)
  have hkl : node < c.keys.length := h.sized.keysLen.symm ▸ hnode
  have hvl : node < c.values.length := h.sized.valuesLen.symm ▸ hnode
  obtain ⟨-, -, hnx, -, -⟩ := h.linked.chain.append_facts
  have hkeep : ∀ n ∈ xs, n ≠ node := fun n hn he => hnx (he ▸ hn)
  obtain ⟨c₁, e₁, s₁, h₁⟩ := h.linked.unlink
  rw [List.append_nil] at h₁
  obtain ⟨c₂, hc₂⟩ : ∃ c₂, c₂ = written c₁ node key value := ⟨_, rfl⟩
  have hkl₁ : node < c₁.keys.length := by rwa [s₁.keys]
  have hvl₁ : node < c₁.values.length := by rwa [s₁.values]
  have h₂ : Linked c₂ xs frees [node] := by
    subst hc₂
    exact h₁.congr ⟨rfl, rfl, rfl, rfl, rfl, rfl⟩
  have hsized : Sized c₂ := by
    subst hc₂
    exact (h.sized.of_sameData s₁).written
  have hkeys : ∀ n ∈ xs, c₂.keys[n]? = c.keys[n]? := fun n hn => by
    subst hc₂
    exact (List.getElem?_set_ne (hkeep n hn).symm).trans (by rw [s₁.keys])
  have hself : c₂.keys[node]? = some key := by
    subst hc₂
    exact List.getElem?_set_self hkl₁
  have hcontents : (node :: xs).map (entryAt c₂) = ((key, value) :: exs).map some := by
    subst hc₂
    exact map_entryAt_written hkl₁ hvl₁ hkeep
      (map_entryAt_congr (fun n _ => entryAt_congr s₁.keys s₁.values n) hx)
  obtain ⟨c₃, e₃, s₃, h₃⟩ := h₂.pushFront
  have hdistinct : ∀ m ∈ node :: xs, ∀ n ∈ node :: xs, c₃.keys[m]? = c₃.keys[n]? → m = n := by
    have hne : ∀ n ∈ xs, c₂.keys[n]? ≠ some key := fun n hn => by
      rw [hkeys n hn]
      exact habs n (by simp [hn])
    rw [s₃.keys]
    intro m hm n hn hk
    rcases List.mem_cons.mp hm with rfl | hmx
    · rcases List.mem_cons.mp hn with rfl | hnx
      · rfl
      · exact absurd (hk.symm.trans hself) (hne n hnx)
    · rcases List.mem_cons.mp hn with rfl | hnx
      · exact absurd (hk.trans hself) (hne m hmx)
      · rw [hkeys m hmx, hkeys n hnx] at hk
        exact h.indexed.eq_of_key (by simp [hmx]) (by simp [hnx]) hk
  have hcount : c₃.count = (node :: xs).length := by
    rw [s₃.count]
    subst hc₂
    refine s₁.count.trans (h.count.trans ?_)
    simp
  obtain ⟨c₄, e₄, s₄, hr⟩ := h₃.rebuilt (hsized.of_sameData s₃) hdistinct hcount
    (map_entryAt_congr (fun n _ => entryAt_congr s₃.keys s₃.values n) hcontents)
  have hcap : c₂.capacity = c.capacity := by
    subst hc₂
    exact s₁.capacity
  have hfn : c₂.evictFn = c.evictFn := by
    subst hc₂
    exact s₁.evictFn
  refine ⟨c₄, node :: xs, frees, ?_, ⟨s₄.capacity.trans (s₃.capacity.trans hcap),
    s₄.evictFn.trans (s₃.evictFn.trans hfn)⟩, by simpa using hr⟩
  have hnotify : notifyOne c node = some (if c.evictFn then [e] else []) := by
    unfold notifyOne
    split_ifs <;> simp [he]
  unfold putFresh
  rw [hc₂] at e₃
  simp only [written] at e₃
  simp [hfull, htail, hnotify, e₁, store_eq hkl₁, store_eq hvl₁, e₃, e₄]

/-! ## Clearing -/

theorem notifyFrom_eq {n : ℕ} (fuel : ℕ) (hs : Seg (link c.next) n order lruNone)
    (hne : ∀ m ∈ order, m ≠ lruNone ∧ m < c.next.length)
    (hc : order.map (entryAt c) = entries.map some) (hf : order.length ≤ fuel) :
    notifyFrom c fuel n = some entries := by
  induction order generalizing n fuel entries with
  | nil =>
    obtain rfl : n = lruNone := hs
    obtain rfl : entries = [] := by simpa using hc.symm
    cases fuel <;> simp [notifyFrom]
  | cons m order ih =>
    obtain ⟨rfl, hs⟩ := hs
    obtain ⟨e, rest, rfl, he, hr⟩ := List.map_eq_cons_iff.mp hc.symm
    obtain ⟨fuel, rfl⟩ : ∃ f, fuel = f + 1 := ⟨fuel - 1, by simp at hf; omega⟩
    obtain ⟨hn, hlt⟩ := hne n (by simp)
    have hrest := ih fuel hs (fun m hm => hne m (by simp [hm])) hr.symm (by simpa using hf)
    rw [notifyFrom, if_neg hn]
    simp only [← he, getElem?_eq_slot lruNone hlt, Option.bind_eq_bind, Option.bind_some]
    simp [hrest]

/-- Consecutive nodes linked up to a last one. -/
theorem seg_range' {f : ℕ → ℕ} {t : ℕ} (n i : ℕ) (hstep : ∀ j, i ≤ j → j + 1 < i + n → f j = j + 1)
    (hlast : 0 < n → f (i + n - 1) = t) (hnil : n = 0 → i = t) :
    Seg f i (List.range' i n) t := by
  induction n generalizing i with
  | zero => exact hnil rfl
  | succ n ih =>
    refine ⟨rfl, ?_⟩
    by_cases hn : n = 0
    · subst hn
      simpa [Seg] using hlast (by omega)
    · rw [hstep i le_rfl (by omega)]
      refine ih (i + 1) (fun j hj hlt => hstep j (by omega) (by omega)) (fun _ => ?_) (by omega)
      rw [← hlast (by omega)]
      congr 1
      omega

/-- All nodes are free after the free list has been laid out. -/
theorem freelistReset_spec (hnl : c.next.length = c.capacity) (hpl : c.prev.length = c.capacity)
    (hsmall : c.capacity ≤ lruNone) (hpos : 0 < c.capacity) (hh : c.head = lruNone)
    (ht : c.tail = lruNone) :
    ∃ next, freelistReset c = some { c with next := next, freeHead := 0 } ∧
      Linked { c with next := next, freeHead := 0 } [] (List.range c.capacity) [] := by
  obtain ⟨next, hnext⟩ : ∃ next, next =
      ((List.range c.capacity).map fun i => wrap (i + 1)).set (c.capacity - 1) lruNone := ⟨_, rfl⟩
  have hlink : ∀ i < c.capacity, link next i =
      if i = c.capacity - 1 then lruNone else i + 1 := fun i hi => by
    rw [hnext, link, slot_set (by simp; omega), slot_map_range _ hi]
    congr 1
    apply wrap_of_lt
    unfold lruNone sizeMax at hsmall
    omega
  refine ⟨next, ?_, by simp [hnext], hpl, hsmall, hh ▸ DList.nil, by simpa using ht, ?_, by simp⟩
  · simp only [freelistReset, storeAll_eq _ hnl, Option.bind_eq_bind, Option.bind_some, hnext]
    rw [store_eq (by simp; omega)]
    rfl
  · rw [List.range_eq_range']
    refine seg_range' c.capacity 0 (fun j _ hj => ?_) (fun _ => ?_) (by omega)
    · exact (hlink j (by omega)).trans (if_neg (by omega))
    · exact (hlink _ (by omega)).trans (if_pos (by omega))

/-- An empty table and a full free list represent the empty list. -/
theorem represents_reset (hs : Sized c) (hnl : c.next.length = c.capacity)
    (hpl : c.prev.length = c.capacity) (hsmall : c.capacity ≤ lruNone) (hh : c.head = lruNone)
    (ht : c.tail = lruNone) :
    ∃ c', (do
        let c ← hashReset c
        freelistReset c) = some c' ∧ SameConfig c c' ∧
      Represents { c' with count := 0 } [] (List.range c.capacity) [] ∧ c'.count = c.count := by
  obtain ⟨next, hrun, hl⟩ :=
    freelistReset_spec (c := emptied c) hnl hpl hsmall hs.pos hh ht
  have hi := indexed_emptied hs.pow
  refine ⟨{ emptied c with next := next, freeHead := 0 }, ?_, ⟨rfl, rfl⟩,
    ⟨hl.congr ⟨rfl, rfl, rfl, rfl, rfl, rfl⟩, hi.congr rfl rfl rfl fun _ _ => rfl,
      ⟨hs.keysLen, hs.valuesLen, hs.indexLen, hi.tableLen, hs.pow, hs.pos, hs.room⟩, rfl, rfl⟩, rfl⟩
  simp only [hashReset_eq hs.tableLen, Option.bind_eq_bind, Option.bind_some]
  exact hrun

theorem Represents.clear (h : Represents c order frees entries) :
    ∃ c', zenitLruClear c = some (if c.evictFn then entries else [], c') ∧ SameConfig c c' ∧
      Represents c' [] (List.range c.capacity) [] := by
  have hnotify : notifyAll c = some (if c.evictFn then entries else []) := by
    unfold notifyAll
    split_ifs
    · refine notifyFrom_eq c.capacity h.linked.chain.seg (fun m hm => ?_) h.contents
        h.linked.length_order_le
      have hlt := h.linked.lt_of_order hm
      exact ⟨h.linked.ne_none hlt, h.linked.nextLen.symm ▸ hlt⟩
    · rfl
  obtain ⟨c', hrun, s, hr, -⟩ := represents_reset (c := { c with head := lruNone, tail := lruNone })
    ⟨h.sized.keysLen, h.sized.valuesLen, h.sized.indexLen, h.sized.tableLen, h.sized.pow,
      h.sized.pos, h.sized.room⟩ h.linked.nextLen h.linked.prevLen h.linked.small rfl rfl
  refine ⟨{ c' with count := 0 }, ?_, ⟨s.capacity, s.evictFn⟩, hr⟩
  simp only [Option.bind_eq_bind, Option.bind_some, hashReset,
    storeAll_eq _ h.sized.tableLen] at hrun
  simp only [zenitLruClear, hnotify, hashReset, storeAll_eq _ h.sized.tableLen,
    Option.bind_eq_bind, Option.bind_some, hrun]

end LibZenit.Lru
