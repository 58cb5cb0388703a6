import LibZenit.Basics
import LibZenit.DigitalTree

/-!
# The trie of `trie.c`

Keys are the bytes of a C string before its terminator. The loops over a key skip everything that
is no letter. A node is allocated zeroed, so that it has no children and ends no key.
-/
namespace LibZenit.Tries
open DigitalTree

abbrev Text := List UInt8

/-- Indices below `TRIE_ALPHABET_SIZE`. -/
abbrev Letter := Fin 26

abbrev Node := Tree Letter ℤ

structure Trie where
  root : Node
  count : ℕ

/-- The answer `-1` is `none`. -/
def charToIndex (c : UInt8) : Option Letter :=
  if h : 65 ≤ c.toNat ∧ c.toNat ≤ 90 then some ⟨c.toNat - 65, by omega⟩
  else if h : 97 ≤ c.toNat ∧ c.toNat ≤ 122 then some ⟨c.toNat - 97, by omega⟩
  else none

def nodeCreate (granted : Bool) : Option Node := if granted then some (.blank 0) else none

/-- The two allocations are the handle and the root. -/
def zenitTrieCreate (handle root : Bool) : Option Trie :=
  if !handle then none else (nodeCreate root).map fun root => ⟨root, 0⟩

/-- The loop of `zenit_trie_insert` and what follows it. The answer is missing if an allocation
failed; otherwise it says whether the key is to be counted. -/
def insertFrom (value : ℤ) (grants : ℕ → Bool) (node : Node) : Text → Node × Option Bool
  | [] => (.mk value true node.children, some (!node.isEnd))
  | c :: key =>
    match charToIndex c with
    | none => insertFrom value grants node key
    | some idx =>
      match node.children idx with
      | some child =>
        let r := insertFrom value grants child key
        (node.graft idx r.1, r.2)
      | none =>
        match nodeCreate (grants 0) with
        | none => (node, none)
        | some child =>
          let r := insertFrom value (fun n => grants (n + 1)) child key
          (node.graft idx r.1, r.2)

/-- `grants` tells which of the nodes that the call allocates it gets. -/
def zenitTrieInsert (trie : Trie) (key : Option Text) (value : ℤ) (grants : ℕ → Bool) :
    Trie × ZenitError :=
  match key with
  | none => (trie, .null)
  | some key =>
    match insertFrom value grants trie.root key with
    | (root, none) => ({ trie with root := root }, .alloc)
    | (root, some counted) =>
      (⟨root, if counted then wrap (trie.count + 1) else trie.count⟩, .ok)

/-- The loop of `zenit_trie_search` and `zenit_trie_starts_with`. -/
def walk (node : Node) : Text → Option Node
  | [] => some node
  | c :: key =>
    match charToIndex c with
    | none => walk node key
    | some idx => (node.children idx).bind fun child => walk child key

/-- The value if the key is found. -/
def zenitTrieSearch (trie : Trie) (key : Option Text) : Option ℤ :=
  key.bind fun key => (walk trie.root key).bind fun node =>
    if !node.isEnd then none else some node.value

def zenitTrieStartsWith (trie : Trie) (key : Option Text) : Bool :=
  (key.bind (walk trie.root)).isSome

/-- The loop of `zenit_trie_delete` and what follows it, if the key is found. -/
def deleteFrom (node : Node) : Text → Option Node
  | [] => if !node.isEnd then none else some (.mk node.value false node.children)
  | c :: key =>
    match charToIndex c with
    | none => deleteFrom node key
    | some idx => (node.children idx).bind fun child =>
      (deleteFrom child key).map fun child => node.graft idx child

def zenitTrieDelete (trie : Trie) (key : Option Text) : Trie × ZenitError :=
  match key with
  | none => (trie, .null)
  | some key =>
    match deleteFrom trie.root key with
    | none => (trie, .notFound)
    | some root => (⟨root, wrap (trie.count + sizeMax)⟩, .ok)

def zenitTrieCount (trie : Trie) : ℕ := trie.count

/-- Every child of the root is destroyed; the root itself stays as it is. -/
def zenitTrieClear (trie : Trie) : Trie :=
  ⟨.mk trie.root.value trie.root.isEnd fun _ => none, 0⟩

theorem create_eq {handle root : Bool} {trie : Trie}
    (h : zenitTrieCreate handle root = some trie) : trie = ⟨.blank 0, 0⟩ := by
  unfold zenitTrieCreate at h
  cases root with
  | false =>
    split_ifs at h
    cases h
  | true =>
    split_ifs at h
    cases h
    rfl

/-! ## Letters -/

/-- The indices of the letters of a key. -/
def letters (key : Text) : List Letter := key.filterMap charToIndex

theorem letters_cons_skip {c : UInt8} (h : charToIndex c = none) (key : Text) :
    letters (c :: key) = letters key := List.filterMap_cons_none h

theorem letters_cons {c : UInt8} {idx : Letter} (h : charToIndex c = some idx) (key : Text) :
    letters (c :: key) = idx :: letters key := List.filterMap_cons_some h

theorem insertFrom_eq (value : ℤ) (grants : ℕ → Bool) (node : Node) (key : Text) :
    insertFrom value grants node key = node.put 0 value grants (letters key) := by
  induction key generalizing grants node with
  | nil => rfl
  | cons c key ih =>
    rw [insertFrom]
    cases hc : charToIndex c with
    | none => rw [letters_cons_skip hc, ← ih]
    | some idx =>
      rw [letters_cons hc, Tree.put]
      cases hchild : node.children idx with
      | some child => simp only [hchild, ih]
      | none => cases hgrant : grants 0 <;> simp [hchild, nodeCreate, ih]

theorem walk_eq (node : Node) (key : Text) : walk node key = node.find (letters key) := by
  induction key generalizing node with
  | nil => rfl
  | cons c key ih =>
    rw [walk]
    cases hc : charToIndex c with
    | none => rw [letters_cons_skip hc, ← ih]
    | some idx => simp only [letters_cons hc, Tree.find, ih]

theorem deleteFrom_eq (node : Node) (key : Text) :
    deleteFrom node key = node.unmark (letters key) := by
  induction key generalizing node with
  | nil => cases hend : node.isEnd <;> simp [deleteFrom, letters, Tree.unmark, hend]
  | cons c key ih =>
    rw [deleteFrom]
    cases hc : charToIndex c with
    | none => rw [letters_cons_skip hc, ← ih]
    | some idx => simp only [letters_cons hc, Tree.unmark, ih]

/-! ## Folding -/

def isLetter (c : UInt8) : Bool := (65 ≤ c && c ≤ 90) || (97 ≤ c && c ≤ 122)

def toLower (c : UInt8) : UInt8 := if 65 ≤ c && c ≤ 90 then c + 32 else c

/-- The letters of a key, in lower case. -/
def fold (key : Text) : Text := (key.filter isLetter).map toLower

/-- The lower case letter of an index. -/
def letterByte (idx : Letter) : UInt8 := UInt8.ofNat (97 + idx)

theorem letterByte_injective : Function.Injective letterByte := by decide

def spell (word : List Letter) : Text := word.map letterByte

theorem charToIndex_eq_none (c : UInt8) : charToIndex c = none ↔ isLetter c = false := by
  unfold charToIndex isLetter
  split_ifs with hupper hlower
  · simp [UInt8.le_iff_toNat_le, hupper.1, hupper.2]
  · simp [UInt8.le_iff_toNat_le, hlower.1, hlower.2]
  · simp [UInt8.le_iff_toNat_le]
    omega

theorem toLower_eq_letterByte {c : UInt8} {idx : Letter} (h : charToIndex c = some idx) :
    toLower c = letterByte idx := by
  unfold charToIndex at h
  unfold toLower letterByte
  split_ifs at h with hupper hlower
  · cases h
    rw [if_pos (by simp [UInt8.le_iff_toNat_le, hupper.1, hupper.2])]
    refine UInt8.toNat_inj.mp ?_
    simp
    omega
  · cases h
    rw [if_neg (by simp [UInt8.le_iff_toNat_le]; omega)]
    refine UInt8.toNat_inj.mp ?_
    simp
    omega

theorem fold_eq_spell (key : Text) : fold key = spell (letters key) := by
  induction key with
  | nil => rfl
  | cons c key ih =>
    cases hc : charToIndex c with
    | none =>
      rw [letters_cons_skip hc, ← ih, fold, fold,
        List.filter_cons_of_neg (by simp [(charToIndex_eq_none c).mp hc])]
    | some idx =>
      have hletter : isLetter c = true := by
        by_contra hno
        rw [(charToIndex_eq_none c).mpr (by simpa using hno)] at hc
        cases hc
      rw [letters_cons hc, fold, List.filter_cons_of_pos hletter, List.map_cons,
        toLower_eq_letterByte hc]
      exact congrArg (letterByte idx :: ·) ih

theorem spell_injective : Function.Injective spell :=
  List.map_injective_iff.mpr letterByte_injective

theorem letters_spell (word : List Letter) : letters (spell word) = word := by
  have hindex : ∀ idx : Letter, charToIndex (letterByte idx) = some idx := by decide
  induction word with
  | nil => rfl
  | cons idx word ih => exact (letters_cons (hindex idx) (spell word)).trans (congrArg _ ih)

theorem fold_spell (word : List Letter) : fold (spell word) = spell word := by
  rw [fold_eq_spell, letters_spell]

end LibZenit.Tries
