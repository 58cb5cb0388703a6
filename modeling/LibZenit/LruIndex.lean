import LibZenit.LinearProbe
import LibZenit.LruList

/-!
# The hash table of the cache

`Indexed` says that the table holds exactly the given nodes, each reachable under its key.
-/
namespace LibZenit.Lru
open HashCommon LinearProbe LinkedChain Slots

variable {keySize valueSize : ℕ} {c : Cache keySize valueSize} {key : Bytes keySize} {node : ℕ}
  {nodes order frees : List ℕ}

/-- The key behind a table entry. -/
def occ (c : Cache keySize valueSize) (i : ℕ) : Option (Bytes keySize) :=
  if link c.hashTable i = hashEmpty then none else c.keys[link c.hashTable i]?

def InUse (c : Cache keySize valueSize) (i : ℕ) : Prop := link c.hashTable i ≠ hashEmpty

structure Indexed (c : Cache keySize valueSize) (nodes : List ℕ) : Prop where
  pow : ∃ k ≤ 63, c.hashCapacity = 2 ^ k
  tableLen : c.hashTable.length = c.hashCapacity
  keyed : ∀ n ∈ nodes, n < c.keys.length ∧ n ≠ hashEmpty
  probed : Probed c.hashCapacity (home c.hashCapacity) (occ c) (InUse c)
  live : ∀ i < c.hashCapacity, InUse c i → link c.hashTable i ∈ nodes
  found : ∀ n ∈ nodes, ∃ i < c.hashCapacity, link c.hashTable i = n

theorem Indexed.congr_mem {nodes' : List ℕ} (h : Indexed c nodes)
    (hm : ∀ n, n ∈ nodes' ↔ n ∈ nodes) : Indexed c nodes' :=
  ⟨h.pow, h.tableLen, fun n hn => h.keyed n ((hm n).mp hn), h.probed,
    fun i hi hu => (hm _).mpr (h.live i hi hu), fun n hn => h.found n ((hm n).mp hn)⟩

theorem Indexed.occ_of_link (h : Indexed c nodes) {i : ℕ} (hn : node ∈ nodes)
    (hl : link c.hashTable i = node) : occ c i = c.keys[node]? := by
  unfold occ
  rw [hl, if_neg (h.keyed node hn).2]

/-- Different nodes hold different keys. -/
theorem Indexed.eq_of_key (h : Indexed c nodes) {m n : ℕ} (hm : m ∈ nodes) (hn : n ∈ nodes)
    (hk : c.keys[m]? = c.keys[n]?) : m = n := by
  obtain ⟨i, hi, him⟩ := h.found m hm
  obtain ⟨l, hl, hln⟩ := h.found n hn
  have hkey := List.getElem?_eq_getElem (h.keyed m hm).1
  have heq := h.probed.unique i hi l hl _ ((h.occ_of_link hm him).trans hkey)
    ((h.occ_of_link hn hln).trans (hk ▸ hkey))
  rw [← him, ← hln, heq]

theorem Indexed.link_inj (h : Indexed c nodes) {i l : ℕ} (hi : i < c.hashCapacity)
    (hl : l < c.hashCapacity) (hu : InUse c i) (he : link c.hashTable i = link c.hashTable l) :
    i = l := by
  have hn := h.live i hi hu
  have hkey := List.getElem?_eq_getElem (h.keyed _ hn).1
  exact h.probed.unique i hi l hl _ ((h.occ_of_link hn rfl).trans hkey)
    ((h.occ_of_link hn he.symm).trans hkey)

theorem Indexed.exists_empty (h : Indexed c nodes) (hlen : nodes.length < c.hashCapacity) :
    ∃ i < c.hashCapacity, ¬InUse c i := by
  by_contra hall
  push Not at hall
  have hcard : (Finset.range c.hashCapacity).card ≤ nodes.toFinset.card := by
    apply Finset.card_le_card_of_injOn (link c.hashTable)
    · intro i hi
      have hi' := Finset.mem_range.mp hi
      exact List.mem_toFinset.mpr (h.live i hi' (hall i hi'))
    · intro i hi l hl he
      have hi' := Finset.mem_range.mp hi
      exact h.link_inj hi' (Finset.mem_range.mp hl) (hall i hi') he
  rw [Finset.card_range] at hcard
  have := nodes.toFinset_card_le
  omega

/-! ## The two probe loops -/

theorem probeEmpty_eq {table : List ℕ} {k start e : ℕ} (hlen : table.length = 2 ^ k)
    (he : link table ((start + e) % 2 ^ k) = hashEmpty)
    (hmin : ∀ l < e, link table ((start + l) % 2 ^ k) ≠ hashEmpty) (fuel : ℕ) {j : ℕ} (hj : j ≤ e)
    (hf : e < j + fuel) :
    probeEmpty table (2 ^ k - 1) fuel ((start + j) % 2 ^ k) = some ((start + e) % 2 ^ k) := by
  have hpos : 0 < 2 ^ k := by positivity
  induction fuel generalizing j with
  | zero => omega
  | succ fuel ih =>
    have hlt : (start + j) % 2 ^ k < table.length := by
      rw [hlen]
      exact Nat.mod_lt _ hpos
    have hread := getElem?_eq_slot lruNone hlt
    rw [probeEmpty, hread]
    by_cases hje : j = e
    · subst hje
      simp [he]
    · have hne := hmin j (by omega)
      simp only [Option.bind_eq_bind, Option.bind_some, if_neg hne]
      rw [mask_step]
      exact ih (by omega) (by omega)

/-- What `hash_find_slot` reports: the slot of the node with this key, or that there is none. -/
def Finds (c : Cache keySize valueSize) (nodes : List ℕ) (key : Bytes keySize) :
    Option (ℕ × Bool) → Prop
  | some (slot, true) => ∃ n ∈ nodes, c.hashTable[slot]? = some n ∧ c.keys[n]? = some key
  | some (_, false) => ∀ n ∈ nodes, c.keys[n]? ≠ some key
  | none => False

theorem hashFindSlotFrom_finds (h : Indexed c nodes) {k e : ℕ} (hk : k ≤ 63)
    (hcap : c.hashCapacity = 2 ^ k) (he : ¬InUse c ((home (2 ^ k) key + e) % 2 ^ k))
    (hmin : ∀ l < e, InUse c ((home (2 ^ k) key + l) % 2 ^ k)) (left : ℕ) {j : ℕ} (hj : j ≤ e)
    (hf : e < j + left) (hmiss : ∀ l < j, occ c ((home (2 ^ k) key + l) % 2 ^ k) ≠ some key) :
    Finds c nodes key (hashFindSlotFrom c key left ((home (2 ^ k) key + j) % 2 ^ k)) := by
  have hpos : 0 < 2 ^ k := by positivity
  have hlen : c.hashTable.length = 2 ^ k := h.tableLen.trans hcap
  have hprobed := h.probed
  rw [hcap] at hprobed
  induction left generalizing j with
  | zero => omega
  | succ left ih =>
    have hlt := Nat.mod_lt (home (2 ^ k) key + j) hpos
    have hread := getElem?_eq_slot lruNone (hlt.trans_eq hlen.symm)
    rw [hashFindSlotFrom, hread]
    simp only [Option.bind_eq_bind, Option.bind_some]
    by_cases hje : j = e
    · -- the end of the probe path: the key is absent
      subst hje
      rw [if_pos (not_not.mp he)]
      intro n hn hkey
      obtain ⟨i, hi, hin⟩ := h.found n hn
      exact hprobed.absent he hmiss i (hi.trans_eq hcap) ((h.occ_of_link hn hin).trans hkey)
    · have hu := hmin j (by omega)
      have hn := h.live _ (hlt.trans_eq hcap.symm) hu
      obtain ⟨stored, hstored⟩ : ∃ stored,
          c.keys[link c.hashTable ((home (2 ^ k) key + j) % 2 ^ k)]? = some stored :=
        ⟨_, List.getElem?_eq_getElem (h.keyed _ hn).1⟩
      rw [if_neg hu, hstored]
      simp only [Option.bind_some]
      by_cases heq : stored = key
      · rw [if_pos heq]
        exact ⟨_, hn, hread, by rw [hstored, heq]⟩
      · rw [if_neg heq, hcap, mask_two_pow hk, mask_step]
        refine ih (by omega) (by omega) fun l hl => ?_
        by_cases hlj : l < j
        · exact hmiss l hlj
        · obtain rfl : l = j := by omega
          rw [h.occ_of_link hn rfl, hstored]
          simpa using heq

theorem Indexed.hashFindSlot (h : Indexed c nodes) (hlen : nodes.length < c.hashCapacity)
    (key : Bytes keySize) : Finds c nodes key (Lru.hashFindSlot c key) := by
  obtain ⟨k, hk, hcap⟩ := h.pow
  obtain ⟨i, hi, hempty⟩ := h.exists_empty hlen
  rw [hcap] at hi
  obtain ⟨e, hlt, he, hmin⟩ := exists_first (home (2 ^ k) key) hi hempty
  have hfind := hashFindSlotFrom_finds h hk hcap he hmin (2 ^ k) (Nat.zero_le e) (by omega)
    (by simp)
  rw [Nat.add_zero, Nat.mod_eq_of_lt (home_lt hk key), ← hcap] at hfind
  exact hfind

/-! ## Entering nodes -/

theorem Indexed.enter (h : Indexed c nodes) (hlen : nodes.length < c.hashCapacity)
    (hnode : node < c.hashIndex.length) (hne : node ≠ hashEmpty) (hkey : c.keys[node]? = some key)
    (habs : ∀ n ∈ nodes, c.keys[n]? ≠ some key) :
    ∃ table index, hashEnter c key node = some { c with hashTable := table, hashIndex := index } ∧
      index.length = c.hashIndex.length ∧
      Indexed { c with hashTable := table, hashIndex := index } (node :: nodes) := by
  obtain ⟨k, hk, hcap⟩ := h.pow
  obtain ⟨i, hi, hempty⟩ := h.exists_empty hlen
  rw [hcap] at hi
  obtain ⟨e, hlt, he, hmin⟩ := exists_first (home (2 ^ k) key) hi hempty
  have htab : c.hashTable.length = 2 ^ k := h.tableLen.trans hcap
  have hidx : (home (2 ^ k) key + e) % 2 ^ k < 2 ^ k := Nat.mod_lt _ (by positivity)
  have hprobe := probeEmpty_eq htab (not_not.mp he) hmin (2 ^ k) (Nat.zero_le e) (by omega)
  rw [Nat.add_zero, Nat.mod_eq_of_lt (home_lt hk key)] at hprobe
  obtain ⟨idx, hidx_eq⟩ : ∃ idx, idx = (home (2 ^ k) key + e) % 2 ^ k := ⟨_, rfl⟩
  rw [← hidx_eq] at hprobe hidx he
  have hset : ∀ j, link (c.hashTable.set idx node) j =
      if j = idx then node else link c.hashTable j := fun j => slot_set (hidx.trans_eq htab.symm) j
  refine ⟨c.hashTable.set idx node, c.hashIndex.set node idx, ?_, by simp, ?_⟩
  · simp only [hashEnter, hcap, mask_two_pow hk, hprobe, Option.bind_eq_bind, Option.bind_some,
      store_eq (hidx.trans_eq htab.symm), store_eq hnode]
  · have hkeylt : node < c.keys.length := (List.getElem?_eq_some_iff.mp hkey).1
    refine ⟨⟨k, hk, hcap⟩, by simpa using h.tableLen, ?_, ?_, ?_, ?_⟩
    · intro n hn
      rcases List.mem_cons.mp hn with rfl | hn
      · exact ⟨hkeylt, hne⟩
      · exact h.keyed n hn
    · refine h.probed.insert (k := key) (r := idx) ?_ ?_ (fun j _ => ?_) (fun j _ hu => ?_) ?_
      · intro j hj hocc
        by_cases hu : link c.hashTable j = hashEmpty
        · simp [occ, hu] at hocc
        · have hn := h.live j hj hu
          exact habs _ hn ((h.occ_of_link hn rfl).symm.trans hocc)
      · rw [hcap]
        exact ⟨e, hlt, hidx_eq, hmin⟩
      · simp only [occ, hset]
        by_cases hj : j = idx
        · simp [hj, hne, hkey]
        · simp [hj]
      · simp only [InUse, hset]
        split_ifs
        · exact hne
        · exact hu
      · simpa [InUse, hset] using hne
    · intro j hj hu
      simp only [InUse, hset] at hu ⊢
      split_ifs at hu ⊢ with heq
      · simp
      · exact List.mem_cons_of_mem _ (h.live j hj hu)
    · intro n hn
      rcases List.mem_cons.mp hn with rfl | hn
      · exact ⟨idx, hidx.trans_eq hcap.symm, by simp [hset]⟩
      · obtain ⟨j, hj, hjn⟩ := h.found n hn
        refine ⟨j, hj, ?_⟩
        rw [hset, if_neg, hjn]
        rintro rfl
        exact he (hjn.trans_ne (h.keyed n hn).2)

/-! ## Rebuilding -/

/-- The cache with all table slots empty. -/
def emptied (c : Cache keySize valueSize) : Cache keySize valueSize :=
  { c with hashTable := (List.range c.hashCapacity).map fun _ => hashEmpty }

theorem hashReset_eq (hlen : c.hashTable.length = c.hashCapacity) :
    hashReset c = some (emptied c) := by
  simp [hashReset, storeAll_eq _ hlen, emptied]

theorem indexed_emptied (hpow : ∃ k ≤ 63, c.hashCapacity = 2 ^ k) : Indexed (emptied c) [] := by
  have hslot : ∀ i < c.hashCapacity, link (emptied c).hashTable i = hashEmpty :=
    fun i hi => slot_map_range _ hi
  refine ⟨hpow, by simp [emptied], by simp, Probed.empty fun i hi => ?_, fun i hi hu => ?_, by simp⟩
  · simp [occ, hslot i hi]
  · exact absurd (hslot i hi) hu

/-- The keys of the listed nodes exist and are pairwise different. -/
structure DistinctKeys (c : Cache keySize valueSize) (nodes : List ℕ) : Prop where
  nodup : nodes.Nodup
  bound : ∀ n ∈ nodes, n < c.keys.length ∧ n < c.hashIndex.length ∧ n ≠ hashEmpty
  distinct : ∀ m ∈ nodes, ∀ n ∈ nodes, c.keys[m]? = c.keys[n]? → m = n

theorem hashRebuildFrom_spec {n : ℕ} {done rest : List ℕ} (fuel : ℕ) (hi : Indexed c done)
    (hs : Seg (link c.next) n rest lruNone) (hd : DistinctKeys c (done ++ rest))
    (hnext : ∀ m ∈ rest, m < c.next.length) (hlen : (done ++ rest).length < c.hashCapacity)
    (hf : rest.length ≤ fuel) :
    ∃ table index, hashRebuildFrom fuel c n =
        some { c with hashTable := table, hashIndex := index } ∧
      index.length = c.hashIndex.length ∧
      Indexed { c with hashTable := table, hashIndex := index } (done ++ rest) := by
  -- along the list still to be entered; the entered part stays indexed
  induction rest generalizing c n done fuel with
  | nil =>
    obtain rfl : n = lruNone := hs
    refine ⟨c.hashTable, c.hashIndex, ?_, rfl, by simpa using hi⟩
    cases fuel <;> simp [hashRebuildFrom]
  | cons m rest ih =>
    obtain ⟨rfl, hs⟩ := hs
    obtain ⟨fuel, rfl⟩ : ∃ f, fuel = f + 1 := ⟨fuel - 1, by simp at hf; omega⟩
    obtain ⟨hkl, hil, hne⟩ := hd.bound n (by simp)
    obtain ⟨key, hkey⟩ : ∃ key, c.keys[n]? = some key := ⟨_, List.getElem?_eq_getElem hkl⟩
    have hfresh : n ∉ done := fun hm =>
      (List.nodup_append.mp hd.nodup).2.2 n hm n (by simp) rfl
    have habs : ∀ l ∈ done, c.keys[l]? ≠ some key := fun l hl he =>
      hfresh (hd.distinct l (by simp [hl]) n (by simp) (he.trans hkey.symm) ▸ hl)
    simp only [List.length_append, List.length_cons] at hlen hf
    obtain ⟨table, index, henter, hilen, hidx⟩ := hi.enter (by omega) hil hne hkey habs
    have hperm : (n :: done ++ rest).Perm (done ++ n :: rest) := by simpa using List.perm_middle.symm
    have hd' : DistinctKeys { c with hashTable := table, hashIndex := index }
        (n :: done ++ rest) := by
      refine ⟨hperm.nodup_iff.mpr hd.nodup, fun l hl => ?_, fun l hl k hk => ?_⟩
      · simpa [hilen] using hd.bound l (hperm.mem_iff.mp hl)
      · exact hd.distinct l (hperm.mem_iff.mp hl) k (hperm.mem_iff.mp hk)
    obtain ⟨table', index', hrun, hilen', hidx'⟩ := ih fuel hidx hs hd'
      (fun l hl => hnext l (by simp [hl])) (by simp; omega) (by omega)
    refine ⟨table', index', ?_, hilen'.trans hilen,
      hidx'.congr_mem fun l => hperm.symm.mem_iff⟩
    rw [hashRebuildFrom, if_neg (show n ≠ lruNone from hne)]
    simp only [hkey, henter, getElem?_eq_slot lruNone (hnext n (by simp)), Option.bind_eq_bind,
      Option.bind_some]
    exact hrun

theorem Linked.rebuild {loose : List ℕ} (h : Linked c order frees loose)
    (hpow : ∃ k ≤ 63, c.hashCapacity = 2 ^ k) (htab : c.hashTable.length = c.hashCapacity)
    (hd : DistinctKeys c order) (hlen : order.length < c.hashCapacity) :
    ∃ table index, hashRebuild c = some { c with hashTable := table, hashIndex := index } ∧
      index.length = c.hashIndex.length ∧
      Indexed { c with hashTable := table, hashIndex := index } order := by
  have hnext : ∀ m ∈ order, m < c.next.length := fun m hm => by
    rw [h.nextLen]
    exact h.lt_of_order hm
  have hd' : DistinctKeys (emptied c) ([] ++ order) := ⟨hd.nodup, hd.bound, hd.distinct⟩
  obtain ⟨table, index, hrun, hi⟩ := hashRebuildFrom_spec c.capacity (indexed_emptied hpow)
    h.chain.seg hd' hnext hlen h.length_order_le
  refine ⟨table, index, ?_, hi⟩
  simp only [hashRebuild, hashReset_eq htab, Option.bind_eq_bind, Option.bind_some]
  exact hrun

end LibZenit.Lru
