import Mathlib.Data.List.Infix
import Mathlib.Data.Set.Finite.Basic

/-!
# Trees of directories

A finite tree of directories and files is the map from the lists of names that lead from the root to
an entry. A path is walked component by component; a directory is made where a path leads to.
-/
namespace LibZenit.DirTree

inductive Entry (β : Type) where
  | dir
  | file (data : β)

/-- Whatever has an entry lies in a directory. -/
structure Tree (ν β : Type) where
  entry : List ν → Option (Entry β)
  root : entry [] = some .dir
  parent : ∀ {loc name}, (entry (loc ++ [name])).isSome → entry loc = some .dir
  finite : {loc | (entry loc).isSome}.Finite

inductive Component (ν : Type) where
  | here
  | up
  | name (n : ν)

inductive Errno where
  | exist
  | noEnt
  | notDir
  deriving DecidableEq

variable {ν β : Type} {t t' t'' : Tree ν β} {base loc : List ν} {cs ds : List (Component ν)}
  {c : Component ν}

/-- The root is above itself. -/
def Component.move (base : List ν) : Component ν → List ν
  | here => base
  | up => base.dropLast
  | name n => base ++ [n]

/-- Where the components lead to, whether anything is there or not. -/
def target (base : List ν) (cs : List (Component ν)) : List ν := cs.foldl Component.move base

/-- The location of the components, if they go through directories only. -/
def Tree.walk (t : Tree ν β) : List ν → List (Component ν) → Except Errno (List ν)
  | base, [] => .ok base
  | base, c :: cs =>
    match t.entry base with
    | none => .error .noEnt
    | some (.file _) => .error .notDir
    | some .dir => t.walk (c.move base) cs

/-- The location of an entry, and the entry. -/
def Tree.lookup (t : Tree ν β) (base : List ν) (cs : List (Component ν)) :
    Except Errno (List ν × Entry β) :=
  (t.walk base cs).bind fun loc => (t.entry loc).elim (.error .noEnt) fun e => .ok (loc, e)

/-- A directory where there is no entry, in one that there is. -/
def Tree.insertDir [DecidableEq ν] (t : Tree ν β) (loc : List ν)
    (h : t.entry loc.dropLast = some .dir) : Tree ν β where
  entry l := if l = loc ∧ t.entry l = none then some .dir else t.entry l
  root := by rw [if_neg (by simp [t.root]), t.root]
  parent {l name} hsome := by
    have hdir : t.entry l = some .dir := by
      split_ifs at hsome with hnew
      · rw [← hnew.1, List.dropLast_concat] at h
        exact h
      · exact t.parent hsome
    rw [if_neg (by simp [hdir]), hdir]
  finite := by
    refine (t.finite.insert loc).subset fun l hl => ?_
    rw [Set.mem_ofPred_eq] at hl
    split_ifs at hl with hnew
    · exact Set.mem_insert_iff.mpr (.inl hnew.1)
    · exact Set.mem_insert_of_mem _ hl

instance (e : Option (Entry β)) : Decidable (e = some .dir) :=
  match e with
  | some .dir => isTrue rfl
  | some (.file _) => isFalse (by simp)
  | none => isFalse (by simp)

/-- Making a directory fails where something is already there. -/
def Tree.mkdir [DecidableEq ν] (t : Tree ν β) (base : List ν) (cs : List (Component ν)) :
    Except Errno (Tree ν β) :=
  (t.walk base cs).bind fun loc =>
    if (t.entry loc).isSome then .error .exist
    else if h : t.entry loc.dropLast = some .dir then .ok (t.insertDir loc h)
    else .error .noEnt

/-- What lies above an entry is a directory. -/
theorem dir_above (h : (t.entry loc).isSome) : (t.entry loc.dropLast).isSome := by
  induction loc using List.reverseRecOn with
  | nil => exact h
  | append_singleton loc name _ =>
    rw [List.dropLast_concat, t.parent h]
    rfl

/-! ## Walking -/

@[simp] theorem target_nil (base : List ν) : target base [] = base := rfl

@[simp] theorem target_concat (base : List ν) (cs : List (Component ν)) (c : Component ν) :
    target base (cs ++ [c]) = c.move (target base cs) := by
  rw [target, List.foldl_append]
  rfl

theorem walk_append (base : List ν) (cs ds : List (Component ν)) :
    t.walk base (cs ++ ds) = (t.walk base cs).bind fun loc => t.walk loc ds := by
  induction cs generalizing base with
  | nil => rfl
  | cons c cs ih =>
    rw [List.cons_append, Tree.walk, Tree.walk]
    cases t.entry base with
    | none => rfl
    | some e =>
      cases e with
      | dir => exact ih _
      | file data => rfl

/-- A walk that succeeds ends where the components lead to. -/
theorem walk_eq_target (h : t.walk base cs = .ok loc) : loc = target base cs := by
  induction cs generalizing base with
  | nil => exact (Except.ok.inj h).symm
  | cons c cs ih =>
    rw [Tree.walk] at h
    cases hentry : t.entry base with
    | none =>
      rw [hentry] at h
      cases h
    | some e =>
      rw [hentry] at h
      cases e with
      | dir => exact ih h
      | file data => cases h

/-- Every location before the last is a directory. -/
theorem dir_of_walk (h : t.walk base cs = .ok loc) (hds : ds <+: cs) (hne : ds ≠ cs) :
    t.entry (target base ds) = some .dir := by
  induction cs using List.reverseRecOn generalizing loc with
  | nil => exact absurd (List.prefix_nil.mp hds) hne
  | append_singleton cs c ih =>
    rw [walk_append] at h
    cases hwalk : t.walk base cs with
    | error e =>
      rw [hwalk] at h
      cases h
    | ok l =>
      rw [hwalk] at h
      rcases List.prefix_concat_iff.mp hds with rfl | hds
      · exact absurd rfl hne
      · by_cases heq : ds = cs
        · rw [heq, ← walk_eq_target hwalk]
          simp only [Except.bind, Tree.walk] at h
          split at h
          · cases h
          · cases h
          · assumption
        · exact ih hwalk hds heq

theorem lookup_eq_ok {e : Entry β} :
    t.lookup base cs = .ok (loc, e) ↔ t.walk base cs = .ok loc ∧ t.entry loc = some e := by
  rw [Tree.lookup]
  cases hwalk : t.walk base cs with
  | error errno => simp [Except.bind]
  | ok l =>
    cases hentry : t.entry l with
    | none =>
      simp only [Except.bind, hentry, Option.elim_none, reduceCtorEq, Except.ok.injEq, false_iff]
      rintro ⟨rfl, he⟩
      rw [hentry] at he
      cases he
    | some e' =>
      simp only [Except.bind, hentry, Option.elim_some, Except.ok.injEq, Prod.mk.injEq]
      refine and_congr_right fun hl => ?_
      rw [← hl, hentry, Option.some.injEq]

/-! ## Growing trees -/

/-- A tree that has kept all entries of another. -/
instance : Preorder (Tree ν β) where
  le t t' := ∀ loc e, t.entry loc = some e → t'.entry loc = some e
  le_refl _ _ _ h := h
  le_trans _ _ _ h h' loc e he := h' loc e (h loc e he)

theorem walk_mono (h : t ≤ t') (hwalk : t.walk base cs = .ok loc) : t'.walk base cs = .ok loc := by
  induction cs generalizing base with
  | nil => exact hwalk
  | cons c cs ih =>
    rw [Tree.walk] at hwalk ⊢
    cases hentry : t.entry base with
    | none =>
      rw [hentry] at hwalk
      cases hwalk
    | some e =>
      rw [hentry] at hwalk
      rw [h base e hentry]
      cases e with
      | dir => exact ih hwalk
      | file data => cases hwalk

/-- The new entries are directories with the property. -/
structure Grows (P : List ν → Prop) (t t' : Tree ν β) : Prop where
  le : t ≤ t'
  new : ∀ loc, t.entry loc = none → (t'.entry loc).isSome → t'.entry loc = some .dir ∧ P loc

variable {P Q : List ν → Prop}

theorem Grows.refl (P : List ν → Prop) (t : Tree ν β) : Grows P t t :=
  ⟨le_rfl, fun loc hnone hsome => by simp [hnone] at hsome⟩

theorem Grows.mono (h : Grows P t t') (hPQ : ∀ loc, P loc → Q loc) : Grows Q t t' :=
  ⟨h.le, fun loc hnone hsome => (h.new loc hnone hsome).imp_right (hPQ loc)⟩

theorem Grows.trans (h : Grows P t t') (h' : Grows P t' t'') : Grows P t t'' := by
  refine ⟨h.le.trans h'.le, fun loc hnone hsome => ?_⟩
  cases hmid : t'.entry loc with
  | none => exact h'.new loc hmid hsome
  | some e =>
    obtain ⟨hdir, hP⟩ := h.new loc hnone (by rw [hmid]; rfl)
    exact ⟨h'.le loc _ hdir, hP⟩

/-- Growing makes no files. -/
theorem Grows.file (h : Grows P t t') {data : β} (hfile : t'.entry loc = some (.file data)) :
    t.entry loc = some (.file data) := by
  cases hentry : t.entry loc with
  | none =>
    have hdir := (h.new loc hentry (by rw [hfile]; rfl)).1
    rw [hfile] at hdir
    cases hdir
  | some e => rw [← h.le loc e hentry, hfile]

/-! ## Making a path -/

/-- The components lead to an entry. -/
def Reached (t : Tree ν β) (base : List ν) (cs : List (Component ν)) : Prop :=
  t.walk base cs = .ok (target base cs) ∧ (t.entry (target base cs)).isSome

theorem Reached.mono (h : t ≤ t') (hreached : Reached t base cs) : Reached t' base cs := by
  obtain ⟨hwalk, hsome⟩ := hreached
  obtain ⟨e, he⟩ := Option.isSome_iff_exists.mp hsome
  exact ⟨walk_mono h hwalk, by rw [h _ _ he]; rfl⟩

variable [DecidableEq ν]

theorem mkdir_reached (h : Reached t base cs) : t.mkdir base cs = .error .exist := by
  rw [Tree.mkdir, h.1]
  exact if_pos h.2

theorem grows_insertDir (h : t.entry loc.dropLast = some .dir) :
    Grows (· = loc) t (t.insertDir loc h) := by
  constructor
  · intro l e he
    rw [Tree.insertDir]
    dsimp only
    rw [if_neg (by simp [he]), he]
  · intro l hnone hsome
    rw [Tree.insertDir] at hsome ⊢
    dsimp only at hsome ⊢
    split_ifs at hsome ⊢ with hnew
    · exact ⟨rfl, hnew.1⟩
    · rw [hnone] at hsome
      cases hsome

/-- One component behind those that lead to an entry: behind a file there is nothing to make, and in
a directory there is an entry afterwards. -/
theorem mkdir_concat (h : Reached t base cs) (c : Component ν) :
    (∃ data, t.entry (target base cs) = some (.file data) ∧
      t.mkdir base (cs ++ [c]) = .error .notDir) ∨
    (t.mkdir base (cs ++ [c]) = .error .exist ∧ Reached t base (cs ++ [c])) ∨
    ∃ t', t.mkdir base (cs ++ [c]) = .ok t' ∧ Reached t' base (cs ++ [c]) ∧
      Grows (· = target base (cs ++ [c])) t t' := by
  obtain ⟨hwalk, hsome⟩ := h
  obtain ⟨e, he⟩ := Option.isSome_iff_exists.mp hsome
  cases e with
  | file data =>
    refine .inl ⟨data, he, ?_⟩
    rw [Tree.mkdir, walk_append, hwalk]
    simp only [Except.bind, Tree.walk, he]
  | dir =>
    have hnext : t.walk base (cs ++ [c]) = .ok (target base (cs ++ [c])) := by
      rw [walk_append, hwalk, target_concat]
      simp only [Except.bind, Tree.walk, he]
    by_cases hthere : (t.entry (target base (cs ++ [c]))).isSome
    · exact .inr (.inl ⟨mkdir_reached ⟨hnext, hthere⟩, hnext, hthere⟩)
    · have hparent : t.entry (target base (cs ++ [c])).dropLast = some .dir := by
        -- nothing is there, so the component is a name
        rw [target_concat] at hthere ⊢
        cases c with
        | here => exact absurd (by rw [Component.move, he]; rfl) hthere
        | up => exact absurd (dir_above (by rw [he]; rfl)) hthere
        | name n => rw [Component.move, List.dropLast_concat, he]
      refine .inr (.inr ⟨t.insertDir _ hparent, ?_, ?_, grows_insertDir hparent⟩)
      · rw [Tree.mkdir, hnext]
        simp only [Except.bind]
        rw [if_neg hthere, dif_pos hparent]
      · refine ⟨walk_mono (grows_insertDir hparent).le hnext, ?_⟩
        rw [Tree.insertDir]
        dsimp only
        rw [if_pos ⟨rfl, by simpa using hthere⟩]
        rfl

theorem le_of_mkdir (h : t.mkdir base cs = .ok t') : t ≤ t' := by
  rw [Tree.mkdir] at h
  cases hwalk : t.walk base cs with
  | error e =>
    rw [hwalk] at h
    cases h
  | ok loc =>
    rw [hwalk] at h
    simp only [Except.bind] at h
    split_ifs at h with hthere hparent
    cases h
    exact (grows_insertDir hparent).le

end LibZenit.DirTree
