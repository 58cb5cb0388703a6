import LibZenit.PathSplit

/-!
# What a normalised path names

The normal form is a fixed point of the normalisation. Seen from a directory it names what the path
names, as long as the path never climbs above its start.
-/
namespace LibZenit.Paths

variable {cap : ℕ} {absolute : Bool} {path : Text} {comps base : List Text} {c : UInt8}

/-! ## The scratch buffer -/

/-- The scratch buffer of `normalize_impl` when the loop is done. Where it is in `cap` bytes, the
index into it has at no time been behind them. -/
def scratch (cap : ℕ) (path : Text) : Exec Text :=
  (if isAbsolute path then put cap [] [chSlash] else .ok []).bind fun stack =>
    normalizeLoop cap (isAbsolute path) (path.length + 1) stack path

/-- What `normalize_impl` makes of the scratch buffer. -/
theorem normalizeImpl_scratch (hne : path ≠ []) (second : Bool) :
    normalizeImpl true second path = (scratch (path.length + 1) path).map fun stack =>
      strdupWithAllocator second (if stack.length = 0 then
        (if isAbsolute path then [chSlash] else [chDot]) else stack) := by
  have hpos := List.length_pos_of_ne_nil hne
  rw [normalizeImpl, if_neg (by omega), if_neg (by simp), scratch]
  dsimp only
  cases (if isAbsolute path then put (path.length + 1) [] [chSlash] else .ok []) <;> rfl

theorem normalizeLoop_skip (hc : isSlash c = true) (fuel : ℕ) (stack rest : Text) :
    normalizeLoop cap absolute (fuel + 1) stack (c :: rest) =
      normalizeLoop cap absolute (fuel + 1) stack rest := by
  rw [normalizeLoop, normalizeLoop, List.dropWhile_cons_of_pos hc]

/-- The scratch buffer needs no more bytes than the path has. -/
theorem scratch_eq (hcap : path.length ≤ cap) :
    scratch cap path = .ok (render (isAbsolute path) (resolve path)) := by
  unfold scratch
  cases habs : isAbsolute path with
  | false =>
    have hstart : render false [] = [] := rfl
    have hroom : (render false []).length + path.length ≤ cap := by
      rw [hstart, List.length_nil]
      omega
    exact normalizeLoop_room (by simp) hroom (fun hne => absurd rfl hne) (Nat.lt_succ_self _)
  | true =>
    cases path with
    | nil => cases habs
    | cons c path =>
      have hc : isSlash c = true := habs
      rw [List.length_cons] at hcap ⊢
      -- the slash on the stack stands for the slash the loop skips
      have hput : put cap [] [chSlash] = .ok (render true []) := put_eq (by simp; omega)
      have hroom : (render true []).length + path.length ≤ cap := by
        simp [render, root]
        omega
      rw [if_pos rfl, hput, resolve, components_slash hc]
      simp only [Except.bind]
      rw [normalizeLoop_skip hc]
      exact normalizeLoop_room (by simp) hroom (fun hne => absurd rfl hne) (by omega)

/-! ## The normal form -/

/-- A name that is neither `.` nor `..`. -/
structure IsPlain (s : Text) : Prop where
  name : IsName s
  dot : s ≠ [chDot]
  dots : s ≠ [chDot, chDot]

theorem resolveStep_plain {name : Text} (h : ∀ s ∈ comps, IsPlain s) (hname : IsName name) :
    ∀ s ∈ resolveStep comps name, IsPlain s := by
  unfold resolveStep
  intro s hs
  split_ifs at hs with hdot hdots
  · exact h s hs
  · exact h s (List.dropLast_subset _ hs)
  · rcases List.mem_append.mp hs with hs | hs
    · exact h s hs
    · rw [List.mem_singleton.mp hs]
      exact ⟨hname, hdot, hdots⟩

theorem components_names (path : Text) : ∀ s ∈ components path, IsName s := by
  intro s hs
  obtain ⟨hmem, hne⟩ := List.mem_filter.mp hs
  exact ⟨by simpa using hne, splitOnP_names path s hmem⟩

theorem resolve_plain (path : Text) : ∀ s ∈ resolve path, IsPlain s := by
  have hfold : ∀ (names comps : List Text), (∀ s ∈ names, IsName s) → (∀ s ∈ comps, IsPlain s) →
      ∀ s ∈ names.foldl resolveStep comps, IsPlain s := by
    intro names
    induction names with
    | nil => exact fun comps _ h => h
    | cons name names ih =>
      intro comps hnames h
      obtain ⟨hname, hnames⟩ := List.forall_mem_cons.mp hnames
      exact ih (resolveStep comps name) hnames (resolveStep_plain h hname)
  exact hfold _ [] (components_names path) (by simp)

theorem foldl_plain (h : ∀ s ∈ comps, IsPlain s) (base : List Text) :
    comps.foldl resolveStep base = base ++ comps := by
  induction comps generalizing base with
  | nil => simp
  | cons s comps ih =>
    obtain ⟨hs, hcomps⟩ := List.forall_mem_cons.mp h
    rw [List.foldl_cons, resolveStep, if_neg hs.dot, if_neg hs.dots, ih hcomps, List.append_assoc]
    rfl

theorem components_intercalate (h : ∀ s ∈ comps, IsName s) :
    components ([chSlash].intercalate comps) = comps := by
  induction comps with
  | nil => rw [List.intercalate_nil, components_nil]
  | cons s comps ih =>
    obtain ⟨hs, hcomps⟩ := List.forall_mem_cons.mp h
    cases comps with
    | nil => rw [List.intercalate_singleton, components_name hs.2, if_neg hs.1]
    | cons t comps =>
      have hslash : isSlash chSlash = true := rfl
      rw [List.intercalate_cons_cons, List.append_assoc, List.singleton_append,
        components_append _ _ hslash, ih hcomps, components_name hs.2, if_neg hs.1]
      rfl

theorem components_render (absolute : Bool) (h : ∀ s ∈ comps, IsName s) :
    components (render absolute comps) = comps := by
  cases absolute with
  | false => exact components_intercalate h
  | true =>
    have hslash : isSlash chSlash = true := rfl
    have hcons : render true comps = chSlash :: [chSlash].intercalate comps := rfl
    rw [hcons, components_slash hslash, components_intercalate h]

/-- Resolved on top of a directory, the normal form adds its components. -/
theorem foldl_normalForm (absolute : Bool) (h : ∀ s ∈ comps, IsPlain s) (base : List Text) :
    (components (normalForm absolute comps)).foldl resolveStep base = base ++ comps := by
  unfold normalForm
  by_cases hnil : comps = []
  · subst hnil
    rw [if_pos rfl, List.append_nil]
    cases absolute with
    | true => rw [if_pos rfl, components_slash (by decide), components_nil, List.foldl_nil]
    | false =>
      have hname : ∀ c ∈ [chDot], isSlash c = false := by
        intro c hc
        rw [List.mem_singleton.mp hc]
        rfl
      rw [if_neg (by simp), components_name hname, if_neg (by simp), List.foldl_cons,
        List.foldl_nil, resolveStep, if_pos rfl]
  · rw [if_neg hnil, components_render absolute fun s hs => (h s hs).name, foldl_plain h]

theorem resolve_normalForm (absolute : Bool) (h : ∀ s ∈ comps, IsPlain s) :
    resolve (normalForm absolute comps) = comps := by
  rw [resolve, foldl_normalForm absolute h, List.nil_append]

theorem normalForm_ne_nil (absolute : Bool) (h : ∀ s ∈ comps, IsName s) :
    normalForm absolute comps ≠ [] := by
  unfold normalForm
  split_ifs with hnil
  · simp
  · simp
  · have hpos := ((separator_iff absolute h).mpr hnil).1
    exact List.ne_nil_of_length_pos hpos

theorem normalize_normalForm (absolute : Bool) (h : ∀ s ∈ comps, IsPlain s) :
    zenitPathNormalize true true (some (normalForm absolute comps)) =
      .ok (some (normalForm absolute comps)) := by
  have hnames : ∀ s ∈ comps, IsName s := fun s hs => (h s hs).name
  rw [normalize_eq (normalForm_ne_nil absolute hnames), isAbsolute_normalForm absolute hnames,
    resolve_normalForm absolute h]

/-- A path has its normal form for result, within a scratch buffer of the bytes it has itself, and
normalising again changes nothing. -/
theorem normalize_reference (path : Text) :
    (path ≠ [] → zenitPathNormalize true true (some path) =
      .ok (some (normalForm (isAbsolute path) (resolve path)))) ∧
    (∃ stack, scratch path.length path = .ok stack ∧ scratch (path.length + 1) path = .ok stack ∧
      (path ≠ [] → ∀ second, normalizeImpl true second path =
        .ok (strdupWithAllocator second (if stack.length = 0 then
          (if isAbsolute path then [chSlash] else [chDot]) else stack)))) ∧
    ∃ out, zenitPathNormalize true true (some path) = .ok (some out) ∧
      zenitPathNormalize true true (some out) = .ok (some out) := by
  refine ⟨normalize_eq, ⟨_, scratch_eq le_rfl, scratch_eq (Nat.le_succ _), fun hne second => ?_⟩,
    ?_⟩
  · rw [normalizeImpl_scratch hne, scratch_eq (Nat.le_succ _)]
    rfl
  by_cases hne : path = []
  · subst hne
    exact ⟨_, normalize_nil, normalize_normalForm true (by simp : ∀ s ∈ ([] : List Text), IsPlain s)⟩
  · exact ⟨_, normalize_eq hne, normalize_normalForm _ (resolve_plain path)⟩

theorem normalize_reference_parent :
    zenitPathNormalize true true (some [47, 97, 92, 46, 46, 47, 98]) = .ok (some [47, 98]) :=
  ((normalize_reference [47, 97, 92, 46, 46, 47, 98]).1 (by decide)).trans (by decide)

/-! ## Seen from a directory -/

/-- The directory a path leads to from the one at `base`, by the components alone. -/
def directory (base : List Text) (path : Text) : List Text :=
  (components path).foldl resolveStep base

/-- How far the components climb above their start. -/
def ascent : List Text → ℕ
  | [] => 0
  | s :: comps =>
    if s = [chDot] then ascent comps
    else if s = [chDot, chDot] then ascent comps + 1
    else ascent comps - 1

/-- The components keep what of the directory they do not climb over. -/
theorem foldl_ascent (comps base : List Text) :
    comps.foldl resolveStep base =
      base.take (base.length - ascent comps) ++ comps.foldl resolveStep [] := by
  induction comps generalizing base with
  | nil => simp [ascent]
  | cons s comps ih =>
    simp only [List.foldl_cons, resolveStep, ascent]
    by_cases hdot : s = [chDot]
    · rw [if_pos hdot, if_pos hdot, if_pos hdot, ih]
    by_cases hdots : s = [chDot, chDot]
    · simp only [if_neg hdot, if_pos hdots, List.dropLast_nil]
      rw [ih, List.length_dropLast, List.dropLast_eq_take, List.take_take]
      congr 2
      omega
    · simp only [if_neg hdot, if_neg hdots, List.nil_append]
      rw [ih, ih [s], List.length_append, List.length_singleton, ← List.append_assoc]
      congr 1
      -- the name stays exactly when nothing behind it climbs over it
      cases hup : ascent comps with
      | zero => simp
      | succ k =>
        have hle : base.length + 1 - (k + 1) ≤ base.length := by omega
        rw [List.take_append_of_le_length hle]
        simp

theorem directory_eq (base : List Text) (path : Text) :
    directory base path =
      base.take (base.length - ascent (components path)) ++ resolve path :=
  foldl_ascent (components path) base

/-- A component that is a name. -/
def descends (s : Text) : Bool := s ≠ [chDot] && s ≠ [chDot, chDot]

/-- No front of the path has more `..` than names. -/
def Grounded (path : Text) : Prop :=
  ∀ front, front <+: components path → front.count [chDot, chDot] ≤ front.countP descends

theorem ascent_le_iff (comps : List Text) (n : ℕ) :
    ascent comps ≤ n ↔
      ∀ front, front <+: comps → front.count [chDot, chDot] ≤ front.countP descends + n := by
  induction comps generalizing n with
  | nil => simp [ascent]
  | cons s comps ih =>
    have hfronts (P : List Text → Prop) (hnil : P []) :
        (∀ front, front <+: s :: comps → P front) ↔ ∀ front, front <+: comps → P (s :: front) := by
      constructor
      · exact fun h front hfront => h _ ((List.prefix_cons_inj s).mpr hfront)
      · intro h front hfront
        rcases List.prefix_cons_iff.mp hfront with rfl | ⟨rest, rfl, hrest⟩
        · exact hnil
        · exact h rest hrest
    rw [hfronts _ (by simp), ascent]
    simp only [List.count_cons, List.countP_cons, descends]
    by_cases hdot : s = [chDot]
    · subst hdot
      rw [if_pos rfl, ih]
      simp
    by_cases hdots : s = [chDot, chDot]
    · subst hdots
      rw [if_neg hdot, if_pos rfl]
      cases n with
      | zero =>
        refine ⟨fun h => absurd h (by omega), fun h => ?_⟩
        exact absurd (h [] List.nil_prefix) (by simp)
      | succ n =>
        rw [Nat.add_le_add_iff_right, ih]
        simp only [beq_self_eq_true, ne_eq, hdot, not_false_eq_true, decide_true,
          not_true_eq_false, decide_false, Bool.and_false, Bool.false_eq_true, if_true, if_false,
          Nat.add_zero, ← Nat.add_assoc, Nat.add_le_add_iff_right]
    · rw [if_neg hdot, if_neg hdots, Nat.sub_le_iff_le_add, ih]
      simp only [beq_iff_eq, ne_eq, hdot, hdots, not_false_eq_true, decide_true,
        Bool.and_self, if_true, if_false, Nat.add_zero, Nat.add_assoc, Nat.add_comm 1]

theorem grounded_iff (path : Text) : Grounded path ↔ ascent (components path) = 0 := by
  rw [← Nat.le_zero, ascent_le_iff]
  rfl

/-- A relative path and its normal form lead to the same directory from every one that is deep
enough, exactly where the path never climbs above its start. -/
theorem normalize_meaning_iff (hrel : isAbsolute path = false) :
    (∃ out, zenitPathNormalize true true (some path) = .ok (some out) ∧
      ∀ base : List Text, ascent (components path) ≤ base.length →
        directory base out = directory base path) ↔ Grounded path := by
  obtain ⟨absolute, hnorm⟩ : ∃ absolute, zenitPathNormalize true true (some path) =
      .ok (some (normalForm absolute (resolve path))) := by
    by_cases hne : path = []
    · subst hne
      exact ⟨true, normalize_nil⟩
    · exact ⟨false, hrel ▸ normalize_eq hne⟩
  have hout (base : List Text) :
      directory base (normalForm absolute (resolve path)) = base ++ resolve path :=
    foldl_normalForm absolute (resolve_plain path) base
  rw [grounded_iff]
  constructor
  · rintro ⟨out, hsome, hall⟩
    rw [hnorm] at hsome
    obtain rfl := Option.some.inj (Except.ok.inj hsome)
    -- a directory just deep enough is lost altogether
    have hbase := hall (List.replicate (ascent (components path)) [chDot]) (by simp)
    rw [hout, directory_eq, List.length_replicate, Nat.sub_self, List.take_zero,
      List.nil_append] at hbase
    simpa using congrArg List.length hbase
  · intro hzero
    refine ⟨_, hnorm, fun base _ => ?_⟩
    rw [hout, directory_eq, hzero, Nat.sub_zero, List.take_length]

/-- `a/../b` never leaves its start. -/
theorem normalize_meaning_sibling : ∃ out,
    zenitPathNormalize true true (some [97, 47, 46, 46, 47, 98]) = .ok (some out) ∧
    ∀ base : List Text, ascent (components [97, 47, 46, 46, 47, 98]) ≤ base.length →
      directory base out = directory base [97, 47, 46, 46, 47, 98] :=
  (@normalize_meaning_iff [97, 47, 46, 46, 47, 98] rfl).mpr
    ((grounded_iff _).mpr (by decide))

/-- `../a` becomes `a`, which is not beside the directory but in it. -/
theorem parent_dropped : isAbsolute [46, 46, 47, 97] = false ∧
    ¬∃ out, zenitPathNormalize true true (some [46, 46, 47, 97]) = .ok (some out) ∧
      ∀ base : List Text, ascent (components [46, 46, 47, 97]) ≤ base.length →
        directory base out = directory base [46, 46, 47, 97] := by
  refine ⟨rfl, ?_⟩
  rintro ⟨out, hsome, hall⟩
  have hout : zenitPathNormalize true true (some [46, 46, 47, 97]) = .ok (some [97]) := by decide
  rw [hout] at hsome
  obtain rfl := Option.some.inj (Except.ok.inj hsome)
  exact absurd (hall [[120]] (by decide)) (by decide)

end LibZenit.Paths
