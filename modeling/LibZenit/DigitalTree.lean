import Mathlib.Tactic
import Mathlib.Logic.Function.Basic

/-!
# Digital search trees

A node has a value, a mark that says whether the value counts, and one optional child per letter.
`find` tells which nodes exist, `lookup` which words are bound. Inserting a word creates the nodes
that are missing on its path, as far as they are granted.
-/
namespace LibZenit.DigitalTree

variable {ι ν : Type}

inductive Tree (ι ν : Type) where
  | mk (value : ν) (isEnd : Bool) (children : ι → Option (Tree ι ν))

namespace Tree

def value : Tree ι ν → ν
  | mk value _ _ => value

def isEnd : Tree ι ν → Bool
  | mk _ isEnd _ => isEnd

def children : Tree ι ν → ι → Option (Tree ι ν)
  | mk _ _ children => children

/-- A node without children and without a word. -/
def blank (value : ν) : Tree ι ν := mk value false fun _ => none

/-- The node that a path leads to. -/
def find (t : Tree ι ν) : List ι → Option (Tree ι ν)
  | [] => some t
  | i :: path => (t.children i).bind fun child => child.find path

/-- The node exists. -/
def Has (t : Tree ι ν) (path : List ι) : Prop := (t.find path).isSome = true

/-- The value bound to a word. -/
def lookup (t : Tree ι ν) (path : List ι) : Option ν :=
  (t.find path).bind fun node => if node.isEnd then some node.value else none

variable [DecidableEq ι]

/-- Replace one child. -/
def graft (t : Tree ι ν) (i : ι) (child : Tree ι ν) : Tree ι ν :=
  mk t.value t.isEnd (Function.update t.children i (some child))

/-- Bind a word. `grants` tells which of the nodes to be created are granted; the answer says
whether the word was unbound before, and is missing if a node was not granted. -/
def put (zero value : ν) (grants : ℕ → Bool) (t : Tree ι ν) : List ι → Tree ι ν × Option Bool
  | [] => (mk value true t.children, some (!t.isEnd))
  | i :: path =>
    match t.children i with
    | some child =>
      let r := put zero value grants child path
      (t.graft i r.1, r.2)
    | none =>
      if grants 0 then
        let r := put zero value (fun n => grants (n + 1)) (blank zero) path
        (t.graft i r.1, r.2)
      else (t, none)

/-- Unbind a word; the nodes stay. -/
def unmark (t : Tree ι ν) : List ι → Option (Tree ι ν)
  | [] => if t.isEnd then some (mk t.value false t.children) else none
  | i :: path => (t.children i).bind fun child =>
    (child.unmark path).map fun child => t.graft i child

/-- How many nodes of a path do not exist. -/
def missing (t : Tree ι ν) : List ι → ℕ
  | [] => 0
  | i :: path =>
    match t.children i with
    | some child => child.missing path
    | none => path.length + 1

/-! ## Reading -/

section Reading

variable {t child : Tree ι ν} {i j : ι} {path q : List ι}

omit [DecidableEq ι] in
theorem lookup_cons (t : Tree ι ν) (i : ι) (q : List ι) :
    t.lookup (i :: q) = (t.children i).bind fun child => child.lookup q := by
  cases hchild : t.children i with
  | none => simp [lookup, find, hchild]
  | some child => simp [lookup, find, hchild]

omit [DecidableEq ι] in
theorem lookup_blank (zero : ν) (q : List ι) : (blank zero : Tree ι ν).lookup q = none := by
  cases q with
  | nil => rfl
  | cons i q => rfl

omit [DecidableEq ι] in
theorem has_nil (t : Tree ι ν) : t.Has [] := rfl

omit [DecidableEq ι] in
theorem has_cons : t.Has (i :: q) ↔ ∃ child, t.children i = some child ∧ child.Has q := by
  cases hchild : t.children i with
  | none => simp [Has, find, hchild]
  | some child => simp [Has, find, hchild]

omit [DecidableEq ι] in
theorem has_blank {zero : ν} : (blank zero : Tree ι ν).Has q ↔ q = [] := by
  cases q with
  | nil => exact iff_of_true rfl rfl
  | cons i q => simp [Has, find, children, blank]

omit [DecidableEq ι] in
/-- The nodes on the path of a bound word exist. -/
theorem has_of_lookup {word : List ι} {v : ν} (h : t.lookup word = some v) (hq : q <+: word) :
    t.Has q := by
  induction q generalizing t word with
  | nil => exact has_nil t
  | cons i q ih =>
    obtain ⟨rest, rfl⟩ := hq
    rw [List.cons_append, lookup_cons] at h
    obtain ⟨child, hchild, hlook⟩ := Option.bind_eq_some_iff.mp h
    exact has_cons.mpr ⟨child, hchild, ih hlook (List.prefix_append q rest)⟩

theorem lookup_graft_nil : (t.graft i child).lookup [] = t.lookup [] := rfl

theorem lookup_graft_cons (t : Tree ι ν) (i j : ι) (child : Tree ι ν) (q : List ι) :
    (t.graft i child).lookup (j :: q) = if j = i then child.lookup q else t.lookup (j :: q) := by
  rw [lookup_cons, graft, children]
  by_cases hj : j = i
  · subst hj
    rw [Function.update_self, if_pos rfl]
    rfl
  · rw [Function.update_of_ne hj, if_neg hj, lookup_cons]

theorem has_graft_cons (t : Tree ι ν) (i j : ι) (child : Tree ι ν) (q : List ι) :
    (t.graft i child).Has (j :: q) ↔ if j = i then child.Has q else t.Has (j :: q) := by
  rw [has_cons, graft, children]
  by_cases hj : j = i
  · subst hj
    rw [Function.update_self, if_pos rfl]
    simp
  · rw [Function.update_of_ne hj, if_neg hj, has_cons]

theorem graft_self (h : t.children i = some child) : t.graft i child = t := by
  cases t with
  | mk value isEnd children =>
    rw [graft, ← h]
    exact congrArg (mk value isEnd) (Function.update_eq_self i children)

end Reading

/-! ## Inserting -/

section Put

variable {zero value : ν} {grants : ℕ → Bool} {t : Tree ι ν} {path q : List ι} {fresh : Bool}

/-- The child that an insertion goes on with: the present one or a new one. -/
def next (zero : ν) (t : Tree ι ν) (i : ι) : Tree ι ν := (t.children i).getD (blank zero)

omit [DecidableEq ι] in
theorem lookup_next (zero : ν) (t : Tree ι ν) (i : ι) (q : List ι) :
    (t.next zero i).lookup q = t.lookup (i :: q) := by
  rw [lookup_cons, next]
  cases t.children i with
  | none => exact lookup_blank zero q
  | some child => rfl

theorem put_cons (zero value : ν) (grants : ℕ → Bool) (t : Tree ι ν) (i : ι) (path : List ι) :
    put zero value grants t (i :: path) = (t, none) ∨
    ∃ grants', put zero value grants t (i :: path) =
      (t.graft i (put zero value grants' (t.next zero i) path).1,
        (put zero value grants' (t.next zero i) path).2) := by
  rw [put, next]
  cases t.children i with
  | some child => exact .inr ⟨grants, rfl⟩
  | none =>
    cases hgrant : grants 0 with
    | true => exact .inr ⟨fun n => grants (n + 1), by simp⟩
    | false => exact .inl (by simp)

theorem lookup_put (h : (put zero value grants t path).2 = some fresh) (q : List ι) :
    (put zero value grants t path).1.lookup q = if q = path then some value else t.lookup q := by
  induction path generalizing t grants q with
  | nil =>
    cases q with
    | nil => rfl
    | cons j q =>
      rw [if_neg (List.cons_ne_nil j q), lookup_cons, lookup_cons]
      rfl
  | cons i path ih =>
    rcases put_cons zero value grants t i path with hput | ⟨grants', hput⟩
    · rw [hput] at h
      cases h
    · rw [hput] at h ⊢
      cases q with
      | nil => rw [if_neg (List.cons_ne_nil i path).symm, lookup_graft_nil]
      | cons j q =>
        rw [lookup_graft_cons, ih h q, lookup_next]
        by_cases hj : j = i
        · subst hj
          simp
        · rw [if_neg hj, if_neg (by simp [hj])]

theorem put_fresh (h : (put zero value grants t path).2 = some fresh) :
    fresh = (t.lookup path).isNone := by
  induction path generalizing t grants with
  | nil =>
    cases h
    cases hend : t.isEnd <;> simp [lookup, find, hend]
  | cons i path ih =>
    rcases put_cons zero value grants t i path with hput | ⟨grants', hput⟩
    · rw [hput] at h
      cases h
    · rw [hput] at h
      rw [ih h, lookup_next]

/-- An insertion that stops half way binds nothing. -/
theorem lookup_put_refused (h : (put zero value grants t path).2 = none) (q : List ι) :
    (put zero value grants t path).1.lookup q = t.lookup q := by
  induction path generalizing t grants q with
  | nil => cases h
  | cons i path ih =>
    rcases put_cons zero value grants t i path with hput | ⟨grants', hput⟩
    · rw [hput]
    · rw [hput] at h ⊢
      cases q with
      | nil => exact lookup_graft_nil
      | cons j q =>
        rw [lookup_graft_cons, ih h q, lookup_next]
        by_cases hj : j = i
        · rw [if_pos hj, hj]
        · rw [if_neg hj]

omit [DecidableEq ι] in
theorem has_next {i : ι} : (t.next zero i).Has q ↔ t.Has (i :: q) ∨ q = [] := by
  rw [has_cons, next]
  cases t.children i with
  | none => simp [has_blank]
  | some child =>
    constructor
    · intro h
      exact .inl ⟨child, rfl, h⟩
    · rintro (⟨_, ⟨⟩, h⟩ | rfl)
      · exact h
      · exact has_nil child

theorem has_put (h : (put zero value grants t path).2 = some fresh) (q : List ι) :
    (put zero value grants t path).1.Has q ↔ t.Has q ∨ q <+: path := by
  induction path generalizing t grants q with
  | nil =>
    cases q with
    | nil => exact iff_of_true rfl (.inl rfl)
    | cons j q =>
      rw [has_cons, has_cons]
      simp [put, children]
  | cons i path ih =>
    rcases put_cons zero value grants t i path with hput | ⟨grants', hput⟩
    · rw [hput] at h
      cases h
    · rw [hput] at h ⊢
      cases q with
      | nil => exact iff_of_true rfl (.inl rfl)
      | cons j q =>
        rw [has_graft_cons, List.cons_prefix_cons]
        by_cases hj : j = i
        · subst hj
          rw [if_pos rfl, ih h q, has_next]
          constructor
          · rintro ((hhas | rfl) | hpre)
            · exact .inl hhas
            · exact .inr ⟨rfl, List.nil_prefix⟩
            · exact .inr ⟨rfl, hpre⟩
          · rintro (hhas | ⟨-, hpre⟩)
            · exact .inl (.inl hhas)
            · exact .inr hpre
        · rw [if_neg hj]
          simp [hj]

omit [DecidableEq ι] in
theorem missing_blank (zero : ν) (path : List ι) :
    (blank zero : Tree ι ν).missing path = path.length := by
  cases path with
  | nil => rfl
  | cons i path => rfl

/-- A word is bound if and only if all the nodes that it needs are granted. -/
theorem put_isSome_iff :
    (put zero value grants t path).2.isSome = true ↔ ∀ n < t.missing path, grants n = true := by
  induction path generalizing t grants with
  | nil => simp [put, missing]
  | cons i path ih =>
    rw [put, missing]
    cases t.children i with
    | some child => exact ih
    | none =>
      cases hgrant : grants 0 with
      | false =>
        refine iff_of_false (by simp) fun h => ?_
        rw [h 0 (Nat.succ_pos _)] at hgrant
        cases hgrant
      | true =>
        simp only [if_true, ih, missing_blank]
        constructor
        · intro h n hn
          cases n with
          | zero => exact hgrant
          | succ n => exact h n (by omega)
        · intro h n hn
          exact h (n + 1) (by omega)

/-- If the first node is refused, nothing happens. -/
theorem put_eq_self (hmissing : t.missing path ≠ 0) (hgrant : grants 0 = false) :
    put zero value grants t path = (t, none) := by
  induction path generalizing t with
  | nil => exact absurd rfl hmissing
  | cons i path ih =>
    rw [missing] at hmissing
    rw [put]
    cases hchild : t.children i with
    | some child =>
      rw [hchild] at hmissing
      simp only [ih hmissing, graft_self hchild]
    | none => simp [hgrant]

/-- If the first node is granted, it is there afterwards whatever becomes of the others. -/
theorem put_creates (hmissing : t.missing path ≠ 0) (hgrant : grants 0 = true) :
    ∃ q, q ≠ [] ∧ ¬t.Has q ∧ (put zero value grants t path).1.Has q := by
  induction path generalizing t with
  | nil => exact absurd rfl hmissing
  | cons i path ih =>
    rw [missing] at hmissing
    rw [put]
    cases hchild : t.children i with
    | some child =>
      rw [hchild] at hmissing
      obtain ⟨q, -, hnot, hhas⟩ := ih hmissing
      refine ⟨i :: q, List.cons_ne_nil i q, ?_, ?_⟩
      · rw [has_cons]
        rintro ⟨c, hc, hq⟩
        rw [hchild] at hc
        cases hc
        exact hnot hq
      · exact (has_graft_cons t i i _ q).mpr (by rw [if_pos rfl]; exact hhas)
    | none =>
      refine ⟨[i], List.cons_ne_nil i [], ?_, ?_⟩
      · rw [has_cons]
        rintro ⟨c, hc, -⟩
        rw [hchild] at hc
        cases hc
      · simp only [hgrant, if_true]
        exact (has_graft_cons t i i _ []).mpr (by rw [if_pos rfl]; exact has_nil _)

end Put

/-! ## Deleting -/

section Unmark

variable {t t' : Tree ι ν} {path q : List ι}

theorem unmark_cons {i : ι} (h : t.unmark (i :: path) = some t') :
    ∃ child child', t.children i = some child ∧ child.unmark path = some child' ∧
      t' = t.graft i child' := by
  rw [unmark] at h
  obtain ⟨child, hchild, h⟩ := Option.bind_eq_some_iff.mp h
  obtain ⟨child', hchild', rfl⟩ := Option.map_eq_some_iff.mp h
  exact ⟨child, child', hchild, hchild', rfl⟩

theorem unmark_isSome_iff : (t.unmark path).isSome = true ↔ (t.lookup path).isSome = true := by
  induction path generalizing t with
  | nil => cases hend : t.isEnd <;> simp [unmark, lookup, find, hend]
  | cons i path ih =>
    rw [unmark, lookup_cons]
    cases t.children i with
    | none => exact Iff.rfl
    | some child => simpa using ih

theorem lookup_unmark (h : t.unmark path = some t') (q : List ι) :
    t'.lookup q = if q = path then none else t.lookup q := by
  induction path generalizing t t' q with
  | nil =>
    rw [unmark] at h
    split_ifs at h
    cases h
    cases q with
    | nil => rfl
    | cons j q =>
      rw [if_neg (List.cons_ne_nil j q), lookup_cons, lookup_cons]
      rfl
  | cons i path ih =>
    obtain ⟨child, child', hchild, hunmark, rfl⟩ := unmark_cons h
    cases q with
    | nil => rw [if_neg (List.cons_ne_nil i path).symm, lookup_graft_nil]
    | cons j q =>
      rw [lookup_graft_cons, ih hunmark q]
      by_cases hj : j = i
      · subst hj
        rw [if_pos rfl, lookup_cons, hchild]
        simp
      · rw [if_neg hj, if_neg (by simp [hj])]

theorem has_unmark (h : t.unmark path = some t') (q : List ι) : t'.Has q ↔ t.Has q := by
  induction path generalizing t t' q with
  | nil =>
    rw [unmark] at h
    split_ifs at h
    cases h
    cases q with
    | nil => exact Iff.rfl
    | cons j q =>
      rw [has_cons, has_cons]
      rfl
  | cons i path ih =>
    obtain ⟨child, child', hchild, hunmark, rfl⟩ := unmark_cons h
    cases q with
    | nil => exact Iff.rfl
    | cons j q =>
      rw [has_graft_cons]
      by_cases hj : j = i
      · subst hj
        rw [if_pos rfl, ih hunmark q, has_cons, hchild]
        simp
      · rw [if_neg hj]

end Unmark

/-! ## Likeness -/

section Likeness

variable {t u : Tree ι ν}

/-- The trees differ at most in the value of a root that ends no word. -/
structure Like (t u : Tree ι ν) : Prop where
  isEnd : t.isEnd = u.isEnd
  children : t.children = u.children
  value : t.isEnd = true → t.value = u.value

omit [DecidableEq ι] in
theorem Like.lookup (h : t.Like u) (q : List ι) : t.lookup q = u.lookup q := by
  cases q with
  | nil =>
    have hend := h.isEnd
    cases ht : t.isEnd with
    | false =>
      rw [ht] at hend
      simp [Tree.lookup, find, ht, ← hend]
    | true =>
      have hvalue := h.value ht
      rw [ht] at hend
      simp [Tree.lookup, find, ht, ← hend, hvalue]
  | cons i q => rw [lookup_cons, lookup_cons, h.children]

theorem Like.graft (h : t.Like u) (i : ι) (child : Tree ι ν) :
    (t.graft i child).Like (u.graft i child) where
  isEnd := h.isEnd
  children := by
    rw [Tree.graft, Tree.graft, Tree.children, Tree.children, h.children]
  value := h.value

theorem Like.put (h : t.Like u) (zero value : ν) (grants : ℕ → Bool) (path : List ι) :
    (put zero value grants t path).1.Like (put zero value grants u path).1 ∧
      (put zero value grants t path).2 = (put zero value grants u path).2 := by
  cases path with
  | nil => exact ⟨⟨rfl, h.children, fun _ => rfl⟩, by simp [Tree.put, h.isEnd]⟩
  | cons i path =>
    rw [Tree.put, Tree.put, ← h.children]
    cases t.children i with
    | some child => exact ⟨h.graft i _, rfl⟩
    | none =>
      cases grants 0 with
      | true => exact ⟨h.graft i _, rfl⟩
      | false => exact ⟨h, rfl⟩

/-- Unbinding a word is possible in both trees or in none. -/
theorem Like.unmark (h : t.Like u) (path : List ι) :
    Option.Rel Like (t.unmark path) (u.unmark path) := by
  cases path with
  | nil =>
    rw [Tree.unmark, Tree.unmark, ← h.isEnd]
    cases t.isEnd with
    | true => exact .some ⟨rfl, h.children, fun hend => Bool.noConfusion hend⟩
    | false => exact .none
  | cons i path =>
    rw [Tree.unmark, Tree.unmark, ← h.children]
    cases t.children i with
    | none => exact .none
    | some child =>
      rw [Option.bind_some, Option.bind_some]
      cases child.unmark path with
      | none => exact .none
      | some child' => exact .some (h.graft i child')

end Likeness

end Tree

end LibZenit.DigitalTree
