import LibZenit.PathNormal

/-!
# Taking paths apart and joining them

Directory and name of a path, joined, are the path again up to normalisation, except directly under
the root: `join_impl` strips the slash of the root and then finds nothing to put a separator behind.
-/
namespace LibZenit.Paths

variable {path a b x y : Text} {c : UInt8}

/-! ## The last slash -/

theorem lastSlashFrom_none (i : ℕ) (p : Option ℕ) (h : ∀ c ∈ x, isSlash c = false) :
    lastSlashFrom i p x = p := by
  induction x generalizing i with
  | nil => rfl
  | cons c x ih =>
    obtain ⟨hc, h⟩ := List.forall_mem_cons.mp h
    rw [lastSlashFrom, if_neg (by simp [hc])]
    exact ih (i + 1) h

theorem lastSlashFrom_append (i : ℕ) (p : Option ℕ) (x : Text) (hc : isSlash c = true)
    (hb : ∀ c ∈ b, isSlash c = false) : lastSlashFrom i p (x ++ c :: b) = some (i + x.length) := by
  induction x generalizing i p with
  | nil =>
    rw [List.nil_append, lastSlashFrom, if_pos hc, lastSlashFrom_none _ _ hb]
    rfl
  | cons a x ih =>
    rw [List.cons_append, lastSlashFrom, ih, List.length_cons]
    congr 1
    omega

theorem lastSlash_append (x : Text) (hc : isSlash c = true) (hb : ∀ c ∈ b, isSlash c = false) :
    lastSlash (x ++ c :: b) = some x.length := by
  rw [lastSlash, lastSlashFrom_append 0 none x hc hb, Nat.zero_add]

/-- A path is a name, or a name behind its last slash. -/
theorem slash_cases (path : Text) : (∀ c ∈ path, isSlash c = false) ∨
    ∃ x c b, path = x ++ c :: b ∧ isSlash c = true ∧ ∀ c ∈ b, isSlash c = false := by
  induction path with
  | nil => exact .inl (by simp)
  | cons a path ih =>
    rcases ih with h | ⟨x, c, b, rfl, hc, hb⟩
    · cases ha : isSlash a with
      | true => exact .inr ⟨[], a, path, rfl, ha, h⟩
      | false => exact .inl (List.forall_mem_cons.mpr ⟨ha, h⟩)
    · exact .inr ⟨a :: x, c, b, rfl, hc, hb⟩

/-! ## Joining -/

def stripTrailing (a : Text) : Text := if a.getLast? = some chSlash then a.dropLast else a

def stripLeading (b : Text) : Text := if b.head? = some chSlash then b.tail else b

theorem take_stripTrailing (a : Text) : a.take (stripTrailing a).length = stripTrailing a := by
  unfold stripTrailing
  split_ifs
  · rw [List.length_dropLast, List.dropLast_eq_take]
  · exact List.take_length

theorem length_stripTrailing (a : Text) :
    (if a.getLast? = some chSlash then a.length - 1 else a.length) = (stripTrailing a).length := by
  unfold stripTrailing
  split_ifs
  · exact List.length_dropLast.symm
  · rfl

theorem drop_stripLeading (b : Text) :
    b.drop (if b.head? = some chSlash then 1 else 0) = stripLeading b := by
  unfold stripLeading
  split_ifs
  · exact List.drop_one
  · exact List.drop_zero

theorem join_eq (a b : Text) : zenitPathJoin true (some a) (some b) = some (stripTrailing a ++
    (if stripTrailing a ≠ [] ∧ stripLeading b ≠ [] then [chSlash] else []) ++ stripLeading b) := by
  have hlen : b.length - (if b.head? = some chSlash then 1 else 0) = (stripLeading b).length := by
    rw [← drop_stripLeading, List.length_drop]
  rw [zenitPathJoin, joinImpl, if_pos rfl]
  simp only [take_stripTrailing, length_stripTrailing, drop_stripLeading, hlen, List.take_length,
    List.length_pos_iff]

theorem stripTrailing_eq_nil_iff (a : Text) : stripTrailing a = [] ↔ a = [] ∨ a = [chSlash] := by
  unfold stripTrailing
  split_ifs with h
  · constructor
    · intro hnil
      obtain ⟨front, rfl⟩ := List.getLast?_eq_some_iff.mp h
      rw [List.dropLast_concat] at hnil
      exact .inr (by rw [hnil]; rfl)
    · rintro (rfl | rfl) <;> rfl
  · constructor
    · exact .inl
    · rintro (rfl | rfl)
      · rfl
      · exact absurd rfl h

theorem components_stripTrailing (a : Text) : components (stripTrailing a) = components a := by
  unfold stripTrailing
  split_ifs with h
  · obtain ⟨front, rfl⟩ := List.getLast?_eq_some_iff.mp h
    rw [List.dropLast_concat, components_append front [] (by decide), components_nil,
      List.append_nil]
  · rfl

theorem isAbsolute_append (hx : x ≠ []) (y : Text) : isAbsolute (x ++ y) = isAbsolute x := by
  cases x with
  | nil => exact absurd rfl hx
  | cons c x => rfl

theorem isAbsolute_stripTrailing (h : stripTrailing a ≠ []) :
    isAbsolute (stripTrailing a) = isAbsolute a := by
  unfold stripTrailing at h ⊢
  split_ifs at h ⊢ with hlast
  · obtain ⟨front, rfl⟩ := List.getLast?_eq_some_iff.mp hlast
    rw [List.dropLast_concat] at h ⊢
    rw [isAbsolute_append h]
  · rfl

theorem stripLeading_name (hb : ∀ c ∈ b, isSlash c = false) : stripLeading b = b := by
  cases b with
  | nil => rfl
  | cons c b =>
    have hc := hb c (List.mem_cons_self ..)
    rw [stripLeading, if_neg]
    intro he
    cases he
    exact absurd hc (by decide)

/-- A directory that is not the root and a name give a path of the components of both. -/
theorem join_components (ha : stripTrailing a ≠ []) (hb : ∀ c ∈ b, isSlash c = false) :
    ∃ out, zenitPathJoin true (some a) (some b) = some out ∧ out ≠ [] ∧
      isAbsolute out = isAbsolute a ∧ components out = components a ++ components b := by
  refine ⟨_, join_eq a b, by simp [ha], ?_, ?_⟩
  · rw [List.append_assoc, isAbsolute_append ha, isAbsolute_stripTrailing ha]
  · rw [stripLeading_name hb]
    by_cases hnil : b = []
    · rw [if_neg (fun h => h.2 hnil), hnil, components_nil, List.append_nil, List.append_nil,
        List.append_nil, components_stripTrailing]
    · rw [if_pos ⟨ha, hnil⟩, List.append_assoc, List.singleton_append,
        components_append _ _ (by decide), components_stripTrailing]

/-! ## Directory and name -/

theorem dirname_name (hne : path ≠ []) (h : ∀ c ∈ path, isSlash c = false) :
    zenitPathDirname true (some path) = some [chDot] ∧
      zenitPathBasename true (some path) = some path := by
  have hlast : lastSlash path = none := lastSlashFrom_none 0 none h
  have hlen : path.length ≠ 0 := List.length_eq_zero_iff.not.mpr hne
  simp [zenitPathDirname, zenitPathBasename, dirnameImpl, basenameImpl, hlast, hlen,
    strdupWithAllocator]

theorem dirname_append (x : Text) (hc : isSlash c = true) (hb : ∀ c ∈ b, isSlash c = false) :
    zenitPathDirname true (some (x ++ c :: b)) = some (if x = [] then [chSlash] else x) ∧
      zenitPathBasename true (some (x ++ c :: b)) = some b := by
  have hlast := lastSlash_append x hc hb
  have hlen : (x ++ c :: b).length ≠ 0 := by simp
  have hdrop : (x ++ c :: b).drop (x.length + 1) = b := by
    rw [List.drop_append, List.drop_of_length_le (by omega), Nat.add_sub_cancel_left]
    rfl
  constructor
  · simp only [zenitPathDirname, Option.bind_some, dirnameImpl, if_neg hlen, hlast]
    by_cases hx : x = []
    · rw [if_pos (List.length_eq_zero_iff.mpr hx), if_pos hx]
      rfl
    · rw [if_neg (List.length_eq_zero_iff.not.mpr hx), if_neg hx, if_pos trivial, List.take_left]
  · simp only [zenitPathBasename, Option.bind_some, basenameImpl, if_neg hlen, hlast, if_true, hdrop]

/-- A name right under the root, whose one slash may be doubled. -/
def UnderRoot (path : Text) : Prop :=
  ∃ b c, b ≠ [] ∧ (∀ c ∈ b, isSlash c = false) ∧ isSlash c = true ∧
    (path = c :: b ∨ path = chSlash :: c :: b)

theorem underRoot_append_iff (hc : isSlash c = true) (hb : ∀ c ∈ b, isSlash c = false) :
    UnderRoot (x ++ c :: b) ↔ b ≠ [] ∧ (x = [] ∨ x = [chSlash]) := by
  constructor
  · rintro ⟨b', c', hne, hb', hc', hpath⟩
    obtain ⟨x', hx', hpath⟩ : ∃ x', (x' = [] ∨ x' = [chSlash]) ∧ x ++ c :: b = x' ++ c' :: b' := by
      rcases hpath with hpath | hpath
      · exact ⟨[], .inl rfl, hpath⟩
      · exact ⟨[chSlash], .inr rfl, hpath⟩
    -- both are cut at the last slash
    have hlast := lastSlash_append x hc hb
    rw [hpath, lastSlash_append x' hc' hb'] at hlast
    obtain ⟨rfl, htail⟩ := List.append_inj hpath (Option.some.inj hlast).symm
    cases htail
    exact ⟨hne, hx'⟩
  · rintro ⟨hne, rfl | rfl⟩
    · exact ⟨b, c, hne, hb, hc, .inl rfl⟩
    · exact ⟨b, c, hne, hb, hc, .inr rfl⟩

theorem isAbsolute_normalForm (absolute : Bool) {comps : List Text} (h : ∀ s ∈ comps, IsName s) :
    isAbsolute (normalForm absolute comps) = absolute := by
  unfold normalForm
  cases comps with
  | nil => cases absolute <;> rfl
  | cons s comps =>
    rw [if_neg (List.cons_ne_nil _ _), render]
    cases absolute with
    | true => rfl
    | false =>
      obtain ⟨hne, hs⟩ := h s (List.mem_cons_self ..)
      obtain ⟨c, t, rfl⟩ := List.exists_cons_of_ne_nil hne
      rw [root, if_neg (by simp), List.nil_append, List.intercalate_cons_cons_left]
      exact hs c (List.mem_cons_self ..)

/-- Under a directory of its own, a path is put together again. -/
theorem rejoin_normal (ha : stripTrailing a ≠ []) (hb : ∀ c ∈ b, isSlash c = false)
    (hpath : path ≠ []) (habs : isAbsolute path = isAbsolute a)
    (hcomps : (components a ++ components b).foldl resolveStep [] = resolve path) :
    zenitPathNormalize true true (zenitPathJoin true (some a) (some b)) =
      zenitPathNormalize true true (some path) := by
  obtain ⟨out, hjoin, hout, habs', hcomps'⟩ := join_components ha hb
  rw [hjoin, normalize_eq hout, normalize_eq hpath, habs', habs, ← hcomps, resolve,
    hcomps']

/-- The root and a name give the bare name. -/
theorem join_root (hb : ∀ c ∈ b, isSlash c = false) :
    zenitPathJoin true (some [chSlash]) (some b) = some b := by
  rw [join_eq, stripLeading_name hb, if_neg (fun h => h.1 rfl)]
  rfl

theorem normalize_name_ne (hpath : path ≠ []) (habs : isAbsolute path = true) (hne : b ≠ [])
    (hb : ∀ c ∈ b, isSlash c = false) :
    zenitPathNormalize true true (some b) ≠ zenitPathNormalize true true (some path) := by
  have hrel : isAbsolute b = false := by
    obtain ⟨c, t, rfl⟩ := List.exists_cons_of_ne_nil hne
    exact hb c (List.mem_cons_self ..)
  rw [normalize_eq hne, normalize_eq hpath, habs, hrel]
  intro h
  have hform := Option.some.inj (Except.ok.inj h)
  have h' := isAbsolute_normalForm false (resolve_names b)
  rw [hform, isAbsolute_normalForm true (resolve_names path)] at h'
  cases h'

/-! ## Consistency -/

theorem name_consistent (hpath : path ≠ []) (h : ∀ c ∈ path, isSlash c = false) :
    zenitPathNormalize true true (zenitPathJoin true (zenitPathDirname true (some path))
      (zenitPathBasename true (some path))) = zenitPathNormalize true true (some path) := by
  obtain ⟨hdir, hbase⟩ := dirname_name hpath h
  have hrel : isAbsolute path = false := by
    obtain ⟨c, t, rfl⟩ := List.exists_cons_of_ne_nil hpath
    exact h c (List.mem_cons_self ..)
  have hdot : components [chDot] = [[chDot]] := by
    rw [components_name (by simp [isSlash, chDot, chSlash, chBackslash]), if_neg (by decide)]
  rw [hdir, hbase]
  refine rejoin_normal (by decide) h hpath hrel ?_
  rw [hdot, List.singleton_append, List.foldl_cons, resolveStep, if_pos rfl]
  rfl

/-- Cut at its last slash, a path is consistent unless it is a name under the root. -/
theorem append_consistent_iff (x : Text) (hc : isSlash c = true)
    (hb : ∀ c ∈ b, isSlash c = false) :
    zenitPathNormalize true true (zenitPathJoin true (zenitPathDirname true (some (x ++ c :: b)))
        (zenitPathBasename true (some (x ++ c :: b)))) =
      zenitPathNormalize true true (some (x ++ c :: b)) ↔
    ¬(b ≠ [] ∧ (x = [] ∨ x = [chSlash])) := by
  obtain ⟨hdir, hbase⟩ := dirname_append x hc hb
  have hpath : x ++ c :: b ≠ [] := by simp
  rw [hdir, hbase]
  by_cases hroot : x = [] ∨ x = [chSlash]
  · have hdir : (if x = [] then [chSlash] else x) = [chSlash] := by
      rcases hroot with rfl | rfl
      · rfl
      · rfl
    have habs : isAbsolute (x ++ c :: b) = true := by
      rcases hroot with rfl | rfl
      · exact hc
      · rfl
    rw [hdir, join_root hb]
    by_cases hnil : b = []
    · subst hnil
      refine iff_of_true ?_ (fun h => h.1 rfl)
      rw [normalize_nil, normalize_eq hpath, habs]
      have hcomps : resolve (x ++ [c]) = [] := by
        rw [resolve, components_append x [] hc]
        rcases hroot with rfl | rfl
        · rfl
        · rw [components_slash (by decide), components_nil]
          rfl
      rw [hcomps]
      rfl
    · exact iff_of_false (normalize_name_ne hpath habs hnil hb) (fun h => h ⟨hnil, hroot⟩)
  · refine iff_of_true ?_ (fun h => hroot h.2)
    obtain ⟨hx, hslash⟩ := not_or.mp hroot
    rw [if_neg hx]
    refine rejoin_normal ?_ hb hpath (isAbsolute_append hx _) ?_
    · intro hstrip
      exact hroot ((stripTrailing_eq_nil_iff x).mp hstrip)
    · rw [resolve, components_append x b hc]

theorem join_absolute_iff (ha : isAbsolute a = true) (b : Text) :
    (∃ out, zenitPathJoin true (some a) (some b) = some out ∧ isAbsolute out = true) ↔
      ¬(a = [chSlash] ∧ isAbsolute (stripLeading b) = false) := by
  rw [join_eq]
  simp only [Option.some.injEq, exists_eq_left']
  by_cases hroot : a = [chSlash]
  · subst hroot
    have hstrip : stripTrailing [chSlash] = [] := rfl
    rw [hstrip, if_neg (fun h => h.1 rfl), List.nil_append, List.nil_append]
    simp
  · have hne : stripTrailing a ≠ [] := by
      intro h
      rcases (stripTrailing_eq_nil_iff a).mp h with rfl | h
      · cases ha
      · exact hroot h
    rw [List.append_assoc, isAbsolute_append hne, isAbsolute_stripTrailing hne, ha]
    simp [hroot]

/-- A path is consistent with its directory and name if and only if it is no name right under the
root, and joining onto an absolute directory gives an absolute path if and only if the directory is
not the root or the path joined to it still has a slash in front. -/
theorem split_join_consistent_iff (path a b : Text) :
    (path ≠ [] →
      (zenitPathNormalize true true (zenitPathJoin true (zenitPathDirname true (some path))
          (zenitPathBasename true (some path))) = zenitPathNormalize true true (some path) ↔
        ¬UnderRoot path)) ∧
    (isAbsolute a = true →
      ((∃ out, zenitPathJoin true (some a) (some b) = some out ∧ isAbsolute out = true) ↔
        ¬(a = [chSlash] ∧ isAbsolute (stripLeading b) = false))) := by
  refine ⟨fun hpath => ?_, fun ha => join_absolute_iff ha b⟩
  rcases slash_cases path with h | ⟨x, c, b, rfl, hc, hb⟩
  · refine iff_of_true (name_consistent hpath h) ?_
    rintro ⟨b, c, -, -, hc, rfl | rfl⟩
    · exact absurd (h c (List.mem_cons_self ..)) (by simp [hc])
    · exact absurd (h chSlash (List.mem_cons_self ..)) (by decide)
  · rw [underRoot_append_iff hc hb]
    exact append_consistent_iff x hc hb

/-- `a/b` -/
theorem nested_name_consistent :
    zenitPathNormalize true true (zenitPathJoin true (zenitPathDirname true (some [97, 47, 98]))
      (zenitPathBasename true (some [97, 47, 98]))) =
        zenitPathNormalize true true (some [97, 47, 98]) ∧
    ∃ out, zenitPathJoin true (some [47, 97]) (some [98]) = some out ∧ isAbsolute out = true := by
  obtain ⟨hsplit, hjoin⟩ := split_join_consistent_iff [97, 47, 98] [47, 97] [98]
  refine ⟨(hsplit (by decide)).mpr ?_, (hjoin (by decide)).mpr (by decide)⟩
  rintro ⟨b, c, -, -, hc, h | h⟩
  · cases h
    exact absurd hc (by decide)
  · cases h

/-- `/foo` comes back as `foo`. -/
theorem root_name_loses_slash :
    zenitPathJoin true (zenitPathDirname true (some [47, 102, 111, 111]))
      (zenitPathBasename true (some [47, 102, 111, 111])) = some [102, 111, 111] ∧
    zenitPathNormalize true true (some [102, 111, 111]) ≠
      zenitPathNormalize true true (some [47, 102, 111, 111]) := by
  refine ⟨by decide, ?_⟩
  exact normalize_name_ne (by decide) (by decide) (by decide)
    (by simp [isSlash, chSlash, chBackslash])

end LibZenit.Paths
