import LibZenit.TrieModel
import LibZenit.Refinement
import LibZenit.FiniteMaps

/-!
# The trie is a finite map of folded keys

Keys that fold to the same word share a node. Nodes that an insertion has left behind without
binding its key, or that a deletion has left without a key, are not seen by a search.
-/
namespace LibZenit.Tries
open DigitalTree FiniteMaps

/-! ## The abstraction -/

inductive Call where
  | insert (key : Option Text) (value : ℤ) (grants : ℕ → Bool)
  | delete (key : Option Text)
  | search (key : Option Text)

inductive Answer where
  | result (code : ZenitError)
  | found (value : Option ℤ)

def step (trie : Trie) : Call → Exec (Trie × Answer)
  | .insert key value grants =>
    .ok ((zenitTrieInsert trie key value grants).1,
      .result (zenitTrieInsert trie key value grants).2)
  | .delete key => .ok ((zenitTrieDelete trie key).1, .result (zenitTrieDelete trie key).2)
  | .search key => .ok (trie, .found (zenitTrieSearch trie key))

/-- What the calls promise, in terms of a map of folded keys. -/
def Conforms (m : Text → Option ℤ) : Call → Answer → (Text → Option ℤ) → Prop
  | .insert (some key) value grants, .result code, m' =>
    (code = .ok ∧ m' = Function.update m (fold key) (some value)) ∨
    (code = .alloc ∧ m' = m ∧ ∃ n, grants n = false)
  | .delete (some key), .result code, m' =>
    (m (fold key) ≠ none ∧ code = .ok ∧ m' = Function.update m (fold key) none) ∨
    (m (fold key) = none ∧ code = .notFound ∧ m' = m)
  | .search (some key), .found value, m' => value = m (fold key) ∧ m' = m
  | .insert none _ _, .result code, m' => code = .null ∧ m' = m
  | .delete none, .result code, m' => code = .null ∧ m' = m
  | .search none, .found value, m' => value = none ∧ m' = m
  | _, _, _ => False

/-- The map that a trie stores; the count is that of its keys, as a `size_t`. -/
structure Denotes (trie : Trie) (m : Text → Option ℤ) : Prop where
  bound : ∀ word, trie.root.lookup word = m (spell word)
  words : ∀ w ∈ domain m, ∃ word, w = spell word
  finite : (domain m).Finite
  count : trie.count = wrap (domain m).ncard

variable {trie : Trie} {m : Text → Option ℤ}

theorem create_denotes {handle root : Bool} (h : zenitTrieCreate handle root = some trie) :
    Denotes trie fun _ => none := by
  obtain rfl := create_eq h
  refine ⟨fun word => Tree.lookup_blank 0 word, ?_, ?_, ?_⟩
  · simp [domain_empty]
  · simp [domain_empty]
  · rw [domain_empty, Set.ncard_empty]
    rfl

theorem Denotes.lookup_update (h : Denotes trie m) (key : Text) (v : Option ℤ)
    (word : List Letter) :
    (if word = letters key then v else trie.root.lookup word) =
      Function.update m (fold key) v (spell word) := by
  rw [fold_eq_spell]
  by_cases hword : word = letters key
  · rw [if_pos hword, hword, Function.update_self]
  · rw [if_neg hword, Function.update_of_ne (spell_injective.ne hword), h.bound]

theorem search_eq_lookup (trie : Trie) (key : Text) :
    zenitTrieSearch trie (some key) = trie.root.lookup (letters key) := by
  simp only [zenitTrieSearch, Option.bind_some, walk_eq, Tree.lookup]
  congr 1
  funext node
  cases node.isEnd <;> rfl

theorem Denotes.search (h : Denotes trie m) (key : Text) :
    zenitTrieSearch trie (some key) = m (fold key) := by
  rw [search_eq_lookup, h.bound, fold_eq_spell]

/-! ## The operations -/

theorem Denotes.bind (h : Denotes trie m) {key : Text} {value : ℤ} {grants : ℕ → Bool}
    {root : Node} {counted : Bool}
    (hput : insertFrom value grants trie.root key = (root, some counted)) :
    Denotes ⟨root, if counted then wrap (trie.count + 1) else trie.count⟩
      (Function.update m (fold key) (some value)) := by
  rw [insertFrom_eq] at hput
  have hanswer : (Tree.put 0 value grants trie.root (letters key)).2 = some counted := by rw [hput]
  have hlook := Tree.lookup_put hanswer
  rw [hput] at hlook
  have hcounted : counted = (m (fold key)).isNone := by
    rw [Tree.put_fresh hanswer, h.bound, fold_eq_spell]
  refine ⟨fun word => ?_, fun w hw => ?_, ?_, ?_⟩
  · rw [hlook, h.lookup_update]
  · rw [domain_update_some] at hw
    rcases hw with rfl | hw
    · exact ⟨letters key, fold_eq_spell key⟩
    · exact h.words w hw
  · rw [domain_update_some]
    exact h.finite.insert _
  · rw [domain_update_some]
    cases hbound : m (fold key) with
    | none =>
      have hnew : fold key ∉ domain m := by simp [domain, hbound]
      rw [Set.ncard_insert_of_notMem hnew h.finite, hcounted, hbound, h.count]
      simp only [Option.isNone_none, if_true, wrap]
      omega
    | some v =>
      have hold : fold key ∈ domain m := by simp [domain, hbound]
      rw [Set.insert_eq_of_mem hold, hcounted, hbound]
      exact h.count

theorem Denotes.unbind (h : Denotes trie m) {key : Text} {root : Node}
    (hdel : deleteFrom trie.root key = some root) :
    m (fold key) ≠ none ∧
      Denotes ⟨root, wrap (trie.count + sizeMax)⟩ (Function.update m (fold key) none) := by
  rw [deleteFrom_eq] at hdel
  have hlook := Tree.lookup_unmark hdel
  have hbound : (m (fold key)).isSome = true := by
    rw [fold_eq_spell, ← h.bound, ← Tree.unmark_isSome_iff, hdel]
    rfl
  have hmem : fold key ∈ domain m := hbound
  have hcard := Set.ncard_sdiff_singleton_add_one hmem h.finite
  refine ⟨Option.isSome_iff_ne_none.mp hbound, fun word => ?_, fun w hw => ?_, ?_, ?_⟩
  · rw [hlook, h.lookup_update]
  · rw [domain_update_none] at hw
    exact h.words w hw.1
  · rw [domain_update_none]
    exact h.finite.sdiff
  · rw [domain_update_none, h.count]
    simp only [wrap, sizeMax]
    omega

theorem step_conforms (h : Denotes trie m) (call : Call) :
    ∃ trie' answer m', step trie call = .ok (trie', answer) ∧ Conforms m call answer m' ∧
      Denotes trie' m' := by
  match call with
  | .insert none value grants => exact ⟨trie, _, m, rfl, ⟨rfl, rfl⟩, h⟩
  | .insert (some key) value grants =>
    cases hput : insertFrom value grants trie.root key with
    | mk root answer =>
      cases answer with
      | some counted =>
        refine ⟨_, _, _, rfl, .inl ⟨by simp [zenitTrieInsert, hput], rfl⟩, ?_⟩
        simp only [zenitTrieInsert, hput]
        exact h.bind hput
      | none =>
        have hrefused : (Tree.put 0 value grants trie.root (letters key)).2 = none := by
          rw [← insertFrom_eq, hput]
        have hlook := Tree.lookup_put_refused hrefused
        rw [← insertFrom_eq, hput] at hlook
        have hfail : ∃ n, grants n = false := by
          by_contra hall
          push Not at hall
          have hsome : (Tree.put 0 value grants trie.root (letters key)).2.isSome = true :=
            Tree.put_isSome_iff.mpr fun n _ => by simpa using hall n
          rw [hrefused] at hsome
          cases hsome
        refine ⟨_, _, m, rfl, .inr ⟨by simp [zenitTrieInsert, hput], rfl, hfail⟩, ?_⟩
        simp only [zenitTrieInsert, hput]
        exact { h with bound := fun word => (hlook word).trans (h.bound word) }
  | .delete none => exact ⟨trie, _, m, rfl, ⟨rfl, rfl⟩, h⟩
  | .delete (some key) =>
    cases hdel : deleteFrom trie.root key with
    | some root =>
      obtain ⟨hbound, hnew⟩ := h.unbind hdel
      refine ⟨_, _, _, rfl, .inl ⟨hbound, by simp [zenitTrieDelete, hdel], rfl⟩, ?_⟩
      simp only [zenitTrieDelete, hdel]
      exact hnew
    | none =>
      have hunbound : m (fold key) = none := by
        rw [fold_eq_spell, ← h.bound, ← Option.not_isSome_iff_eq_none, ← Tree.unmark_isSome_iff,
          ← deleteFrom_eq, hdel]
        simp
      refine ⟨_, _, m, rfl, .inr ⟨hunbound, by simp [zenitTrieDelete, hdel], rfl⟩, ?_⟩
      simp only [zenitTrieDelete, hdel]
      exact h
  | .search none => exact ⟨trie, _, m, rfl, ⟨rfl, rfl⟩, h⟩
  | .search (some key) => exact ⟨trie, _, m, rfl, ⟨h.search key, rfl⟩, h⟩

/-! ## Runs -/

theorem runs_denote (h : Denotes trie m) (calls : List Call) :
    ∃ trie' answers m', Refinement.run step trie calls = .ok (trie', answers) ∧
      Refinement.Conforming Conforms m calls answers m' ∧ Denotes trie' m' := by
  have hstep : ∀ trie m call, Denotes trie m → True → ∃ trie' answer m',
      step trie call = .ok (trie', answer) ∧ Conforms m call answer m' ∧ Denotes trie' m' :=
    fun trie m call h _ => step_conforms h call
  exact Refinement.run_refines hstep h (Refinement.along_of_forall (fun _ _ => trivial) trie)

/-- Every run of insertions, deletions and searches answers as a finite map of folded keys, which
is what the trie then stores, and the count is the number of its keys. -/
theorem trie_runs_as_map {handle root : Bool} {trie₀ : Trie}
    (hcreate : zenitTrieCreate handle root = some trie₀) (calls : List Call) :
    ∃ trie answers m, Refinement.run step trie₀ calls = .ok (trie, answers) ∧
      Refinement.Conforming Conforms (fun _ => none) calls answers m ∧
      (domain m).Finite ∧ zenitTrieCount trie = wrap (domain m).ncard ∧
      ∀ key, zenitTrieSearch trie (some key) = m (fold key) := by
  obtain ⟨trie, answers, m, hrun, hconf, h⟩ := runs_denote (create_denotes hcreate) calls
  exact ⟨trie, answers, m, hrun, hconf, h.finite, h.count, h.search⟩

theorem case_folded_key_runs : ∃ trie answers m,
    Refinement.run step ⟨.blank 0, 0⟩ [.insert (some [65, 49]) 7 fun _ => true,
      .search (some [97]), .delete (some [45, 97])] = .ok (trie, answers) ∧
    Refinement.Conforming Conforms (fun _ => none) [.insert (some [65, 49]) 7 fun _ => true,
      .search (some [97]), .delete (some [45, 97])] answers m ∧
    (domain m).Finite ∧ zenitTrieCount trie = wrap (domain m).ncard ∧
    ∀ key, zenitTrieSearch trie (some key) = m (fold key) := by
  have hcreate : zenitTrieCreate true true = some ⟨.blank 0, 0⟩ := rfl
  exact trie_runs_as_map hcreate _

end LibZenit.Tries
