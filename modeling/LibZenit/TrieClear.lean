import LibZenit.TrieRefinement

/-!
# A cleared trie

Clearing destroys the nodes below the root. What the root itself stores stays, although the count
says that nothing is stored. A key without letters ends at the root.
-/
namespace LibZenit.Tries
open DigitalTree FiniteMaps

variable {trie t u : Trie} {m : Text → Option ℤ}

/-- The folded keys that a search finds. -/
def stored (trie : Trie) : Set Text :=
  { word | ∃ key, fold key = word ∧ (zenitTrieSearch trie (some key)).isSome = true }

/-- No search, and no run of insertions, deletions and searches, tells the trie from a new one. -/
structure AsNew (trie : Trie) : Prop where
  misses : ∀ key, zenitTrieSearch trie key = none
  alike : ∀ {handle root : Bool} {fresh : Trie}, zenitTrieCreate handle root = some fresh →
    ∀ calls, ∃ t u answers, Refinement.run step trie calls = .ok (t, answers) ∧
      Refinement.run step fresh calls = .ok (u, answers) ∧ zenitTrieCount t = zenitTrieCount u
  counts : ∀ {calls : List Call} {t : Trie} {answers : List Answer},
    Refinement.run step trie calls = .ok (t, answers) →
    (stored t).Finite ∧ zenitTrieCount t = wrap (stored t).ncard
  /-- The count does not underflow. -/
  deletes : ∀ {calls : List Call} {t : Trie} {answers : List Answer} (key : Option Text),
    Refinement.run step trie calls = .ok (t, answers) → (stored t).ncard < 2 ^ 64 →
    (zenitTrieDelete t key).2 = .ok →
    zenitTrieCount (zenitTrieDelete t key).1 + 1 = zenitTrieCount t

/-! ## Stored keys -/

theorem Denotes.stored_eq (h : Denotes trie m) : stored trie = domain m := by
  ext word
  constructor
  · rintro ⟨key, rfl, hfound⟩
    rw [h.search key] at hfound
    exact hfound
  · intro hword
    obtain ⟨path, rfl⟩ := h.words word hword
    refine ⟨spell path, fold_spell path, ?_⟩
    rw [h.search, fold_spell]
    exact hword

theorem Denotes.delete_count (h : Denotes trie m) {key : Option Text}
    (hlt : (stored trie).ncard < 2 ^ 64) (hdone : (zenitTrieDelete trie key).2 = .ok) :
    zenitTrieCount (zenitTrieDelete trie key).1 + 1 = zenitTrieCount trie := by
  cases key with
  | none => simp [zenitTrieDelete] at hdone
  | some key =>
    cases hdel : deleteFrom trie.root key with
    | none => simp [zenitTrieDelete, hdel] at hdone
    | some root =>
      have hcount : (zenitTrieDelete trie (some key)).1.count = wrap (trie.count + sizeMax) := by
        simp only [zenitTrieDelete, hdel]
      have hbound : fold key ∈ domain m := Option.isSome_iff_ne_none.mpr (h.unbind hdel).1
      have hpos : 0 < (domain m).ncard := (Set.ncard_pos h.finite).mpr ⟨_, hbound⟩
      rw [h.stored_eq] at hlt
      rw [zenitTrieCount, zenitTrieCount, hcount, h.count]
      unfold wrap sizeMax
      omega

/-! ## Tries that a run cannot tell apart -/

structure Twins (t u : Trie) : Prop where
  roots : t.root.Like u.root
  counts : t.count = u.count

theorem Twins.insert (h : Twins t u) (key : Option Text) (value : ℤ) (grants : ℕ → Bool) :
    Twins (zenitTrieInsert t key value grants).1 (zenitTrieInsert u key value grants).1 ∧
      (zenitTrieInsert t key value grants).2 = (zenitTrieInsert u key value grants).2 := by
  cases key with
  | none => exact ⟨h, rfl⟩
  | some key =>
    obtain ⟨hroots, hsame⟩ := h.roots.put 0 value grants (letters key)
    rw [zenitTrieInsert, zenitTrieInsert, insertFrom_eq, insertFrom_eq]
    generalize Tree.put 0 value grants t.root (letters key) = r at *
    generalize Tree.put 0 value grants u.root (letters key) = r' at *
    obtain ⟨root, answer⟩ := r
    obtain ⟨root', answer'⟩ := r'
    obtain rfl : answer = answer' := hsame
    cases answer with
    | none => exact ⟨⟨hroots, h.counts⟩, rfl⟩
    | some counted => exact ⟨⟨hroots, by simp only [h.counts]⟩, rfl⟩

theorem Twins.delete (h : Twins t u) (key : Option Text) :
    Twins (zenitTrieDelete t key).1 (zenitTrieDelete u key).1 ∧
      (zenitTrieDelete t key).2 = (zenitTrieDelete u key).2 := by
  cases key with
  | none => exact ⟨h, rfl⟩
  | some key =>
    have hroots := h.roots.unmark (letters key)
    rw [zenitTrieDelete, zenitTrieDelete, deleteFrom_eq, deleteFrom_eq]
    generalize Tree.unmark t.root (letters key) = r at *
    generalize Tree.unmark u.root (letters key) = r' at *
    cases hroots with
    | none => exact ⟨h, rfl⟩
    | some hroots => exact ⟨⟨hroots, by simp only [h.counts]⟩, rfl⟩

theorem Twins.search (h : Twins t u) (key : Option Text) :
    zenitTrieSearch t key = zenitTrieSearch u key := by
  cases key with
  | none => rfl
  | some key => rw [search_eq_lookup, search_eq_lookup, h.roots.lookup]

theorem Twins.step (h : Twins t u) (call : Call) :
    Refinement.SameOutcome Twins (Tries.step t call) (Tries.step u call) := by
  cases call with
  | insert key value grants =>
    obtain ⟨hnext, hcode⟩ := h.insert key value grants
    exact ⟨hnext, congrArg Answer.result hcode⟩
  | delete key =>
    obtain ⟨hnext, hcode⟩ := h.delete key
    exact ⟨hnext, congrArg Answer.result hcode⟩
  | search key => exact ⟨h, congrArg Answer.found (h.search key)⟩

/-! ## Clearing -/

theorem search_clear_nil (trie : Trie) :
    zenitTrieSearch (zenitTrieClear trie) (some []) = zenitTrieSearch trie (some []) := rfl

theorem search_nil_eq_none_iff :
    zenitTrieSearch trie (some []) = none ↔ trie.root.isEnd = false := by
  cases hend : trie.root.isEnd <;> simp [zenitTrieSearch, walk, hend]

theorem clear_twins (h : trie.root.isEnd = false) : Twins (zenitTrieClear trie) ⟨.blank 0, 0⟩ where
  roots := ⟨h, rfl, fun hend => absurd (h.symm.trans hend) (by decide)⟩
  counts := rfl

theorem clear_denotes (h : trie.root.isEnd = false) :
    Denotes (zenitTrieClear trie) fun _ => none := by
  have hcreate : zenitTrieCreate true true = some ⟨.blank 0, 0⟩ := rfl
  have hfresh := create_denotes hcreate
  exact { hfresh with bound := fun word =>
    ((clear_twins h).roots.lookup word).trans (hfresh.bound word) }

/-- A cleared trie is as a new one exactly if it stored no key without letters. -/
theorem clear_asNew_iff (trie : Trie) :
    AsNew (zenitTrieClear trie) ↔ zenitTrieSearch trie (some []) = none := by
  constructor
  · intro h
    rw [← search_clear_nil]
    exact h.misses _
  · intro h
    have hend := search_nil_eq_none_iff.mp h
    have hden := clear_denotes hend
    have hruns : ∀ {calls t answers}, Refinement.run step (zenitTrieClear trie) calls =
        .ok (t, answers) → ∃ m, Denotes t m := by
      intro calls t answers hrun
      obtain ⟨t', answers', m, hrun', -, hden'⟩ := runs_denote hden calls
      rw [hrun] at hrun'
      cases hrun'
      exact ⟨m, hden'⟩
    refine ⟨fun key => ?_, fun hcreate calls => ?_, fun hrun => ?_, fun key hrun hlt hdone => ?_⟩
    · cases key with
      | none => rfl
      | some key => exact hden.search key
    · obtain rfl := create_eq hcreate
      have hsame : Refinement.SameOutcome Twins (Refinement.run step (zenitTrieClear trie) calls)
          (Refinement.run step ⟨.blank 0, 0⟩ calls) :=
        Refinement.run_alike (fun t u call hpair => hpair.step call) (clear_twins hend)
      obtain ⟨t, answers, m, hrun, -, -⟩ := runs_denote hden calls
      obtain ⟨e, hfault, -⟩ | ⟨p, q, hp, hq, hpair, hanswers⟩ := hsame.cases
      · rw [hrun] at hfault
        cases hfault
      · exact ⟨p.1, q.1, p.2, hp, by rw [hq, hanswers], hpair.counts⟩
    · obtain ⟨m, hden'⟩ := hruns hrun
      rw [hden'.stored_eq]
      exact ⟨hden'.finite, hden'.count⟩
    · obtain ⟨m, hden'⟩ := hruns hrun
      exact hden'.delete_count hlt hdone

/-- A key without letters is found after the clearing, and its deletion takes the count below
zero. -/
theorem letterless_key_survives : ∃ fresh, zenitTrieCreate true true = some fresh ∧
    zenitTrieSearch (zenitTrieClear (zenitTrieInsert fresh (some [49]) 7 fun _ => true).1)
      (some [50]) = some 7 ∧
    zenitTrieCount (zenitTrieClear (zenitTrieInsert fresh (some [49]) 7 fun _ => true).1) = 0 ∧
    zenitTrieCount (zenitTrieDelete
      (zenitTrieClear (zenitTrieInsert fresh (some [49]) 7 fun _ => true).1)
        (some [49])).1 = 2 ^ 64 - 1 ∧
    ¬AsNew (zenitTrieClear (zenitTrieInsert fresh (some [49]) 7 fun _ => true).1) := by
  refine ⟨⟨.blank 0, 0⟩, rfl, rfl, rfl, ?_, fun h => ?_⟩
  · exact (by norm_num [wrap, sizeMax] : wrap (0 + sizeMax) = 2 ^ 64 - 1)
  · have hmiss := h.misses (some [50])
    cases hmiss

end LibZenit.Tries
