import LibZenit.TrieModel

/-!
# Prefix queries

`zenit_trie_starts_with` only looks whether a node exists. Its answer is right where every node
below the root lies on the path of a stored key: then the trie is live. A deletion keeps all the
nodes of its key, and an insertion that runs out of memory those that it has created.
-/
namespace LibZenit.Tries
open DigitalTree

/-! ## Runs -/

inductive Update where
  | insert (key : Option Text) (value : ℤ) (grants : ℕ → Bool)
  | delete (key : Option Text)
  | clear

/-- A trie together with the folded keys that the answers of its calls account for. -/
structure Session where
  trie : Trie
  stored : Finset Text

def apply (s : Session) : Update → Session
  | .insert key value grants =>
    let r := zenitTrieInsert s.trie key value grants
    ⟨r.1, if r.2 = .ok then (key.map fold).elim s.stored (insert · s.stored) else s.stored⟩
  | .delete key =>
    let r := zenitTrieDelete s.trie key
    ⟨r.1, if r.2 = .ok then (key.map fold).elim s.stored s.stored.erase else s.stored⟩
  | .clear => ⟨zenitTrieClear s.trie, ∅⟩

/-- The query for a prefix is right. -/
def Exact (s : Session) (p : Text) : Prop :=
  zenitTrieStartsWith s.trie (some p) = true ↔ ∃ w ∈ s.stored, fold p <+: w

/-- The call leaves no node behind that is of no use: an insertion gets all the nodes that it
lacks or not even the first, and a key that is deleted goes on in another one. -/
def Clean (s : Session) : Update → Prop
  | .insert (some key) _ grants =>
    (∀ n < s.trie.root.missing (letters key), grants n = true) ∨ grants 0 = false
  | .delete (some key) =>
    fold key = [] ∨ fold key ∉ s.stored ∨ ∃ w ∈ s.stored, w ≠ fold key ∧ fold key <+: w
  | _ => True

def CleanRun (s : Session) : List Update → Prop
  | [] => True
  | call :: calls => Clean s call ∧ CleanRun (apply s call) calls

variable {s : Session} {key : Text}

/-! ## Stored keys -/

/-- The stored keys with a letter are those that the trie binds. The root is not told apart: a
clearing does not unmark it. -/
structure Tracks (s : Session) : Prop where
  bound : ∀ word ≠ [], (s.trie.root.lookup word).isSome = true ↔ spell word ∈ s.stored
  words : ∀ w ∈ s.stored, ∃ word, w = spell word

/-- Every node below the root lies on the path of a stored key. -/
def Live (s : Session) : Prop :=
  ∀ q ≠ [], s.trie.root.Has q → ∃ w ∈ s.stored, spell q <+: w

theorem fold_eq_nil : fold key = [] ↔ letters key = [] := by
  rw [fold_eq_spell]
  exact List.map_eq_nil_iff

theorem spell_prefix_iff {q word : List Letter} : spell q <+: spell word ↔ q <+: word :=
  List.prefix_map_iff_of_injective letterByte_injective

theorem startsWith_iff (trie : Trie) (p : Text) :
    zenitTrieStartsWith trie (some p) = true ↔ trie.root.Has (letters p) := by
  rw [zenitTrieStartsWith, Option.bind_some, walk_eq]
  rfl

theorem Tracks.has (h : Tracks s) {q : List Letter} {w : Text} (hq : q ≠ []) (hw : w ∈ s.stored)
    (hpre : spell q <+: w) : s.trie.root.Has q := by
  obtain ⟨word, rfl⟩ := h.words w hw
  rw [spell_prefix_iff] at hpre
  have hword : word ≠ [] := by
    rintro rfl
    exact hq (List.prefix_nil.mp hpre)
  obtain ⟨v, hv⟩ := Option.isSome_iff_exists.mp ((h.bound word hword).mpr hw)
  exact Tree.has_of_lookup hv hpre

/-- In a live trie, and in no other, all the queries for a prefix with a letter are right. -/
theorem Tracks.exact_iff_live (h : Tracks s) : (∀ p, fold p ≠ [] → Exact s p) ↔ Live s := by
  constructor
  · intro hexact q hq hhas
    have hp : fold (spell q) ≠ [] := by rwa [Ne, fold_eq_nil, letters_spell]
    have hquery := hexact (spell q) hp
    rw [Exact, startsWith_iff, letters_spell, fold_spell] at hquery
    exact hquery.mp hhas
  · intro hlive p hp
    rw [Ne, fold_eq_nil] at hp
    rw [Exact, startsWith_iff, fold_eq_spell]
    constructor
    · exact hlive (letters p) hp
    · rintro ⟨w, hw, hpre⟩
      exact h.has hp hw hpre

/-! ## The calls -/

section Insert

variable {value : ℤ} {grants : ℕ → Bool}

theorem root_insert (s : Session) (key : Text) (value : ℤ) (grants : ℕ → Bool) :
    (apply s (.insert (some key) value grants)).trie.root =
      (Tree.put 0 value grants s.trie.root (letters key)).1 := by
  rw [← insertFrom_eq, apply, zenitTrieInsert]
  cases insertFrom value grants s.trie.root key with
  | mk root answer => cases answer <;> rfl

theorem stored_insert (s : Session) (key : Text) (value : ℤ) (grants : ℕ → Bool) :
    (apply s (.insert (some key) value grants)).stored =
      if (Tree.put 0 value grants s.trie.root (letters key)).2.isSome then
        insert (fold key) s.stored else s.stored := by
  rw [← insertFrom_eq, apply, zenitTrieInsert]
  cases insertFrom value grants s.trie.root key with
  | mk root answer => cases answer <;> rfl

theorem Tracks.insert (h : Tracks s) : Tracks (apply s (.insert (some key) value grants)) := by
  refine ⟨fun word hword => ?_, fun w hw => ?_⟩
  · rw [root_insert, stored_insert]
    cases hput : (Tree.put 0 value grants s.trie.root (letters key)).2 with
    | none =>
      rw [Tree.lookup_put_refused hput]
      exact h.bound word hword
    | some fresh =>
      rw [Tree.lookup_put hput]
      by_cases hkey : word = letters key
      · simp [hkey, fold_eq_spell]
      · rw [if_neg hkey, h.bound word hword]
        simp [fold_eq_spell, spell_injective.eq_iff, hkey]
  · rw [stored_insert] at hw
    split_ifs at hw
    · rcases Finset.mem_insert.mp hw with rfl | hw
      · exact ⟨letters key, fold_eq_spell key⟩
      · exact h.words w hw
    · exact h.words w hw

theorem Tracks.live_insert (h : Tracks s) (hlive : Live s) :
    Live (apply s (.insert (some key) value grants)) ↔
      Clean s (.insert (some key) value grants) := by
  rw [Live, root_insert, stored_insert, Clean, ← Tree.put_isSome_iff]
  cases hput : (Tree.put 0 value grants s.trie.root (letters key)).2 with
  | some fresh =>
    -- all the new nodes are on the path of the key
    refine iff_of_true (fun q hq hhas => ?_) (.inl rfl)
    rcases (Tree.has_put hput q).mp hhas with hhas | hpre
    · obtain ⟨w, hw, hpre⟩ := hlive q hq hhas
      exact ⟨w, Finset.mem_insert_of_mem hw, hpre⟩
    · refine ⟨fold key, Finset.mem_insert_self _ _, ?_⟩
      rw [fold_eq_spell]
      exact spell_prefix_iff.mpr hpre
  | none =>
    have hmissing : s.trie.root.missing (letters key) ≠ 0 := by
      intro hzero
      have hsome : (Tree.put 0 value grants s.trie.root (letters key)).2.isSome = true :=
        Tree.put_isSome_iff.mpr (by simp [hzero])
      rw [hput] at hsome
      cases hsome
    cases hgrant : grants 0 with
    | false =>
      rw [Tree.put_eq_self hmissing hgrant]
      exact iff_of_true hlive (.inr rfl)
    | true =>
      -- the first node has been created, and no stored key needed it before
      refine iff_of_false (fun hafter => ?_) (by simp)
      obtain ⟨q, hq, hnot, hhas⟩ := Tree.put_creates hmissing hgrant
      obtain ⟨w, hw, hpre⟩ := hafter q hq hhas
      exact hnot (h.has hq hw hpre)

end Insert

section Delete

theorem root_delete (s : Session) (key : Text) :
    (apply s (.delete (some key))).trie.root =
      (s.trie.root.unmark (letters key)).getD s.trie.root := by
  rw [← deleteFrom_eq, apply, zenitTrieDelete]
  cases deleteFrom s.trie.root key <;> rfl

theorem stored_delete (s : Session) (key : Text) :
    (apply s (.delete (some key))).stored =
      if (s.trie.root.unmark (letters key)).isSome then s.stored.erase (fold key)
      else s.stored := by
  rw [← deleteFrom_eq, apply, zenitTrieDelete]
  cases deleteFrom s.trie.root key <;> rfl

theorem Tracks.delete (h : Tracks s) : Tracks (apply s (.delete (some key))) := by
  refine ⟨fun word hword => ?_, fun w hw => ?_⟩
  · rw [root_delete, stored_delete]
    cases hunmark : s.trie.root.unmark (letters key) with
    | none => exact h.bound word hword
    | some root =>
      rw [Option.getD_some, Tree.lookup_unmark hunmark]
      by_cases hkey : word = letters key
      · simp [hkey, fold_eq_spell]
      · rw [if_neg hkey, h.bound word hword]
        simp [fold_eq_spell, spell_injective.eq_iff, hkey]
  · rw [stored_delete] at hw
    split_ifs at hw
    · exact h.words w (Finset.mem_of_mem_erase hw)
    · exact h.words w hw

theorem Tracks.live_delete (h : Tracks s) (hlive : Live s) :
    Live (apply s (.delete (some key))) ↔ Clean s (.delete (some key)) := by
  rw [Live, root_delete, stored_delete, Clean]
  cases hunmark : s.trie.root.unmark (letters key) with
  | none =>
    refine iff_of_true hlive ?_
    by_cases hkey : letters key = []
    · exact .inl (fold_eq_nil.mpr hkey)
    · refine .inr (.inl ?_)
      rw [fold_eq_spell, ← h.bound _ hkey, ← Tree.unmark_isSome_iff, hunmark]
      simp
  | some root =>
    have hbound : (s.trie.root.lookup (letters key)).isSome = true := by
      rw [← Tree.unmark_isSome_iff, hunmark]
      rfl
    simp only [Option.getD_some, Option.isSome_some, if_true, Tree.has_unmark hunmark]
    by_cases hkey : letters key = []
    · -- the root is on no path that matters
      refine iff_of_true (fun q hq hhas => ?_) (.inl (fold_eq_nil.mpr hkey))
      obtain ⟨w, hw, hpre⟩ := hlive q hq hhas
      refine ⟨w, Finset.mem_erase.mpr ⟨?_, hw⟩, hpre⟩
      rintro rfl
      rw [fold_eq_spell, hkey, spell_prefix_iff] at hpre
      exact hq (List.prefix_nil.mp hpre)
    · have hfold : fold key ≠ [] := mt fold_eq_nil.mp hkey
      have hstored : fold key ∈ s.stored := by rw [fold_eq_spell, ← h.bound _ hkey, hbound]
      constructor
      · intro hafter
        obtain ⟨v, hv⟩ := Option.isSome_iff_exists.mp hbound
        obtain ⟨w, hw, hpre⟩ := hafter _ hkey (Tree.has_of_lookup hv (List.prefix_refl _))
        rw [← fold_eq_spell] at hpre
        exact .inr (.inr ⟨w, Finset.mem_of_mem_erase hw, Finset.ne_of_mem_erase hw, hpre⟩)
      · rintro (hnil | hnot | ⟨w', hw', hne, hlonger⟩)
        · exact absurd hnil hfold
        · exact absurd hstored hnot
        · intro q hq hhas
          obtain ⟨w, hw, hpre⟩ := hlive q hq hhas
          by_cases hw_eq : w = fold key
          · rw [hw_eq] at hpre
            exact ⟨w', Finset.mem_erase.mpr ⟨hne, hw'⟩, hpre.trans hlonger⟩
          · exact ⟨w, Finset.mem_erase.mpr ⟨hw_eq, hw⟩, hpre⟩

end Delete

theorem has_clear {q : List Letter} (hq : q ≠ []) : ¬(apply s .clear).trie.root.Has q := by
  cases q with
  | nil => exact absurd rfl hq
  | cons i q =>
    rw [Tree.has_cons]
    rintro ⟨child, hchild, -⟩
    cases hchild

theorem tracks_clear (s : Session) : Tracks (apply s .clear) := by
  refine ⟨fun word hword => ?_, fun w hw => by simp [apply] at hw⟩
  refine iff_of_false (fun hbound => ?_) (by simp [apply])
  obtain ⟨v, hv⟩ := Option.isSome_iff_exists.mp hbound
  exact has_clear hword (Tree.has_of_lookup hv (List.prefix_refl _))

theorem Tracks.apply (h : Tracks s) (call : Update) : Tracks (apply s call) := by
  match call with
  | .insert none _ _ => exact h
  | .insert (some _) _ _ => exact h.insert
  | .delete none => exact h
  | .delete (some _) => exact h.delete
  | .clear => exact tracks_clear s

/-- A live trie stays live under the clean calls and under no others. -/
theorem Tracks.live_apply (h : Tracks s) (hlive : Live s) (call : Update) :
    Live (Tries.apply s call) ↔ Clean s call := by
  match call with
  | .insert none _ _ => exact iff_of_true hlive trivial
  | .insert (some _) _ _ => exact h.live_insert hlive
  | .delete none => exact iff_of_true hlive trivial
  | .delete (some _) => exact h.live_delete hlive
  | .clear => exact iff_of_true (fun q hq hhas => absurd hhas (has_clear hq)) trivial

/-! ## Every state of a run -/

theorem tracks_fresh : Tracks ⟨⟨.blank 0, 0⟩, ∅⟩ := by
  refine ⟨fun word _ => ?_, fun w hw => by simp at hw⟩
  rw [Tree.lookup_blank]
  simp

theorem live_fresh : Live ⟨⟨.blank 0, 0⟩, ∅⟩ := by
  intro q hq hhas
  rw [Tree.has_blank] at hhas
  exact absurd hhas hq

theorem Tracks.run (h : Tracks s) (calls : List Update) : Tracks (calls.foldl Tries.apply s) := by
  induction calls generalizing s with
  | nil => exact h
  | cons call calls ih => exact ih (h.apply call)

theorem Tracks.live_run (h : Tracks s) (hlive : Live s) (calls : List Update) :
    (∀ before, before <+: calls → Live (before.foldl Tries.apply s)) ↔ CleanRun s calls := by
  induction calls generalizing s with
  | nil =>
    refine iff_of_true (fun before hbefore => ?_) trivial
    rw [List.prefix_nil.mp hbefore]
    exact hlive
  | cons call calls ih =>
    rw [CleanRun, ← h.live_apply hlive call]
    constructor
    · intro hall
      have hnext : Live (Tries.apply s call) := hall [call] (by simp)
      refine ⟨hnext, (ih (h.apply call) hnext).mp fun before hbefore => ?_⟩
      exact hall (call :: before) (List.cons_prefix_cons.mpr ⟨rfl, hbefore⟩)
    · rintro ⟨hnext, hclean⟩ before hbefore
      cases before with
      | nil => exact hlive
      | cons first before =>
        obtain ⟨rfl, hrest⟩ := List.cons_prefix_cons.mp hbefore
        exact (ih (h.apply first) hnext).mpr hclean before hrest

/-- A query for a prefix without a letter is right if and only if a key is stored. All the queries
for prefixes with a letter, in all the states of a run, are right if and only if no call of the
run leaves a useless node behind. -/
theorem prefix_queries_exact_iff {handle root : Bool} {trie₀ : Trie}
    (hcreate : zenitTrieCreate handle root = some trie₀) (calls : List Update) :
    (∀ p, fold p = [] → (Exact (calls.foldl apply ⟨trie₀, ∅⟩) p ↔
      (calls.foldl apply ⟨trie₀, ∅⟩).stored.Nonempty)) ∧
    ((∀ before, before <+: calls → ∀ p, fold p ≠ [] → Exact (before.foldl apply ⟨trie₀, ∅⟩) p) ↔
      CleanRun ⟨trie₀, ∅⟩ calls) := by
  obtain rfl := create_eq hcreate
  constructor
  · intro p hp
    have hnode :
        zenitTrieStartsWith (calls.foldl apply ⟨⟨.blank 0, 0⟩, ∅⟩).trie (some p) = true := by
      rw [startsWith_iff, fold_eq_nil.mp hp]
      exact Tree.has_nil _
    simp [Exact, hnode, hp, Finset.Nonempty]
  · rw [← tracks_fresh.live_run live_fresh calls]
    exact forall₂_congr fun before _ => (tracks_fresh.run before).exact_iff_live

theorem inserted_key_queries_exact :
    CleanRun ⟨⟨.blank 0, 0⟩, ∅⟩ [.insert (some [65, 98]) 7 fun _ => true] ∧
    Exact (apply ⟨⟨.blank 0, 0⟩, ∅⟩ (.insert (some [65, 98]) 7 fun _ => true)) [97] := by
  have hcreate : zenitTrieCreate true true = some ⟨.blank 0, 0⟩ := rfl
  have hclean : CleanRun ⟨⟨.blank 0, 0⟩, ∅⟩ [.insert (some [65, 98]) 7 fun _ => true] :=
    ⟨.inl fun _ _ => rfl, trivial⟩
  exact ⟨hclean, (prefix_queries_exact_iff hcreate _).2.mpr hclean _ (List.prefix_refl _) [97]
    (by decide)⟩

/-- The only key, `a`, is deleted, and the query for `a` still finds its node. -/
theorem deleted_key_query_not_exact :
    ¬Exact ([Update.insert (some [97]) 1 fun _ => true, .delete (some [97])].foldl apply
      ⟨⟨.blank 0, 0⟩, ∅⟩) [97] := by
  intro hexact
  obtain ⟨w, hw, -⟩ := hexact.mp rfl
  have hempty : ([Update.insert (some [97]) 1 fun _ => true, .delete (some [97])].foldl apply
      ⟨⟨.blank 0, 0⟩, ∅⟩).stored = ∅ := by decide
  rw [hempty] at hw
  simp at hw

end LibZenit.Tries
