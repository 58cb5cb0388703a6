import LibZenit.PathModel
import LibZenit.Spans

/-!
# Normalised paths

A path is resolved component by component. The scratch buffer of `normalize_impl` holds the
components resolved so far, so its loop computes the resolution, and never leaves the buffer.
-/
namespace LibZenit.Paths
open Spans

variable {cap fuel : ℕ} {absolute : Bool} {rest path x y : Text} {comps : List Text} {c : UInt8}

/-! ## Resolution -/

/-- The nonempty stretches between slashes. -/
def components (path : Text) : List Text := (path.splitOnP isSlash).filter (· ≠ [])

def resolveStep (comps : List Text) (component : Text) : List Text :=
  if component = [chDot] then comps
  else if component = [chDot, chDot] then comps.dropLast
  else comps ++ [component]

def resolve (path : Text) : List Text := (components path).foldl resolveStep []

def root (absolute : Bool) : Text := if absolute then [chSlash] else []

/-- Components as a path. -/
def render (absolute : Bool) (comps : List Text) : Text :=
  root absolute ++ [chSlash].intercalate comps

/-- What no resolution is left of. -/
def normalForm (absolute : Bool) (comps : List Text) : Text :=
  if comps = [] then (if absolute then [chSlash] else [chDot]) else render absolute comps

/-- A name between slashes. -/
def IsName (s : Text) : Prop := s ≠ [] ∧ ∀ c ∈ s, isSlash c = false

theorem components_append (x y : Text) (hc : isSlash c = true) :
    components (x ++ c :: y) = components x ++ components y := by
  rw [components, List.splitOnP_append_cons x y hc, List.filter_append]
  rfl

theorem components_name (h : ∀ c ∈ x, isSlash c = false) :
    components x = if x = [] then [] else [x] := by
  rw [components, List.splitOnP_eq_singleton h]
  by_cases hx : x = [] <;> simp [hx]

@[simp] theorem components_nil : components [] = [] := by
  rw [components_name (by simp), if_pos rfl]

theorem components_slash (hc : isSlash c = true) (x : Text) :
    components (c :: x) = components x := by
  have h := components_append [] x hc
  rwa [components_nil, List.nil_append, List.nil_append] at h

theorem components_dropWhile (x : Text) : components (x.dropWhile isSlash) = components x := by
  induction x with
  | nil => rfl
  | cons c x ih =>
    cases hc : isSlash c with
    | true => rw [List.dropWhile_cons_of_pos hc, ih, components_slash hc]
    | false => rw [List.dropWhile_cons_of_neg (by simp [hc])]

/-- The loop takes the components off the front one by one. -/
theorem components_span (hc : isSlash c = false) (x : Text) :
    components (c :: x) = (c :: x).takeWhile (!isSlash ·) ::
      components ((c :: x).dropWhile (!isSlash ·)) := by
  have hname : ∀ b ∈ (c :: x).takeWhile (!isSlash ·), isSlash b = false := by
    intro b hb
    simpa using List.mem_takeWhile_imp hb
  have hne : (c :: x).takeWhile (!isSlash ·) ≠ [] := by simp [hc]
  have hspan := List.takeWhile_append_dropWhile (p := fun b => !isSlash b) (l := c :: x)
  cases hrest : (c :: x).dropWhile (!isSlash ·) with
  | nil =>
    rw [hrest, List.append_nil] at hspan
    nth_rewrite 1 [← hspan]
    rw [components_name hname, if_neg hne, components_nil]
  | cons d y =>
    have hd : isSlash d = true := by
      have h := ends_dropWhile (!isSlash ·) (c :: x) d (by rw [hrest]; rfl)
      simpa using h
    rw [hrest] at hspan
    nth_rewrite 1 [← hspan]
    rw [components_append _ _ hd, components_name hname, if_neg hne, components_slash hd]
    rfl

/-! ## The stack -/

theorem intercalate_snoc (h : comps ≠ []) (x : Text) :
    [chSlash].intercalate (comps ++ [x]) = [chSlash].intercalate comps ++ chSlash :: x := by
  induction comps with
  | nil => exact absurd rfl h
  | cons s comps ih =>
    cases comps with
    | nil => simp
    | cons t comps =>
      have ih := ih (List.cons_ne_nil _ _)
      simp only [List.cons_append, List.intercalate_cons_cons, List.append_assoc] at ih ⊢
      rw [ih]

theorem render_snoc (absolute : Bool) (h : comps ≠ []) (x : Text) :
    render absolute (comps ++ [x]) = render absolute comps ++ chSlash :: x := by
  rw [render, render, intercalate_snoc h, List.append_assoc]

theorem length_root (absolute : Bool) : (root absolute).length = if absolute then 1 else 0 := by
  cases absolute <;> rfl

theorem intercalate_pos (hne : comps ≠ []) (h : ∀ s ∈ comps, IsName s) :
    0 < ([chSlash].intercalate comps).length := by
  cases comps with
  | nil => exact absurd rfl hne
  | cons s comps =>
    have hs := List.length_pos_of_ne_nil (h s (List.mem_cons_self ..)).1
    cases comps with
    | nil => simpa using hs
    | cons t comps =>
      rw [List.intercalate_cons_cons]
      simp only [List.length_append]
      omega

/-- The code puts a separator exactly behind a component. -/
theorem separator_iff (absolute : Bool) (h : ∀ s ∈ comps, IsName s) :
    (0 < (render absolute comps).length ∧ ¬(absolute = true ∧ (render absolute comps).length = 1)) ↔
      comps ≠ [] := by
  rw [render, List.length_append, length_root]
  constructor
  · rintro hsep rfl
    cases absolute <;> simp at hsep
  · intro hne
    have hpos := intercalate_pos hne h
    cases absolute with
    | false => exact ⟨by omega, by simp⟩
    | true => exact ⟨by omega, fun hone => by simp only [if_true] at hone; omega⟩

/-- The loop goes down to the slash before the last component. -/
theorem popLoop_eq {minPos : ℕ} (hy : ∀ c ∈ y, isSlash c = false)
    (hx : x.length = minPos ∨ minPos < x.length ∧ x.getLast?.any isSlash = true) {k : ℕ}
    (hk : k ≤ y.length) : popLoop (x ++ y) minPos (x.length + k) = x.length := by
  induction k with
  | zero =>
    rw [Nat.add_zero]
    rcases hx with hx | ⟨hlt, hlast⟩
    · cases hlen : x.length with
      | zero => rfl
      | succ n => rw [popLoop, if_neg (by omega)]
    · obtain ⟨n, hlen⟩ : ∃ n, x.length = n + 1 := ⟨x.length - 1, by omega⟩
      have hget : (x ++ y)[n]? = x.getLast? := by
        rw [List.getElem?_append_left (by omega), List.getLast?_eq_getElem?, hlen]
        rfl
      rw [hlen, popLoop, if_neg]
      rw [hget, hlast]
      simp
  | succ k ih =>
    have hget : (x ++ y)[x.length + k]?.any isSlash = false := by
      rw [List.getElem?_append_right (by omega), Nat.add_sub_cancel_left,
        List.getElem?_eq_getElem (by omega)]
      exact hy _ (List.getElem_mem _)
    have hmin : minPos ≤ x.length := by omega
    rw [← Nat.add_assoc, popLoop, if_pos ⟨by omega, hget⟩]
    exact ih (by omega)

theorem popComponent_append {minPos : ℕ} (hy : IsName y)
    (hx : x.length = minPos ∨ minPos < x.length ∧ x.getLast?.any isSlash = true) :
    popComponent (x ++ y) minPos = if x.length > minPos then x.dropLast else x := by
  have hpos := List.length_pos_of_ne_nil hy.1
  have hmin : minPos ≤ x.length := by omega
  have hloop := popLoop_eq hy.2 hx (k := y.length - 1) (by omega)
  have hlen : (x ++ y).length - 1 = x.length + (y.length - 1) := by
    rw [List.length_append]
    omega
  rw [popComponent, if_neg (by rw [List.length_append]; omega), hlen, hloop]
  dsimp only
  split_ifs
  · rw [List.dropLast_eq_take, List.take_append_of_le_length (by omega)]
  · exact List.take_left

theorem popComponent_render (h : ∀ s ∈ comps, IsName s) :
    popComponent (render absolute comps) (if absolute then 1 else 0) =
      render absolute comps.dropLast := by
  rcases List.eq_nil_or_concat comps with rfl | ⟨front, s, rfl⟩
  · have hlen : (render absolute []).length ≤ if absolute then 1 else 0 := by
      rw [← length_root]
      simp [render]
    rw [popComponent, if_pos hlen]
    rfl
  · have hs := h s (by simp)
    rw [List.concat_eq_append, List.dropLast_concat]
    by_cases hfront : front = []
    · subst hfront
      have hroot : render absolute ([] ++ [s]) = root absolute ++ s := by simp [render]
      rw [hroot, popComponent_append hs (.inl (length_root absolute)), length_root,
        if_neg (lt_irrefl _)]
      simp [render]
    · have hlong : (if absolute then 1 else 0) < (render absolute front ++ [chSlash]).length := by
        have hpos := (separator_iff absolute fun t ht => h t (by simp [ht])).mpr hfront
        rw [List.length_append, List.length_singleton]
        split_ifs <;> omega
      have hlast : (render absolute front ++ [chSlash]).getLast?.any isSlash = true := by
        rw [List.getLast?_concat]
        rfl
      rw [render_snoc absolute hfront, ← List.singleton_append, ← List.append_assoc,
        popComponent_append hs (.inr ⟨hlong, hlast⟩), if_pos hlong, List.dropLast_concat]

/-! ## The loop -/

theorem put_eq {bytes : Text} (h : x.length + bytes.length ≤ cap) :
    put cap x bytes = .ok (x ++ bytes) := if_pos h

theorem render_single (absolute : Bool) (x : Text) :
    render absolute ([] ++ [x]) = render absolute [] ++ x := by
  simp [render]

/-- A component goes behind the others, after a separator where there are others. -/
theorem push_render {name : Text} (h : ∀ s ∈ comps, IsName s)
    (hroom : (render absolute (comps ++ [name])).length ≤ cap) (go : Text → Exec Text) :
    ((if 0 < (render absolute comps).length ∧
          ¬(absolute = true ∧ (render absolute comps).length = 1) then
        put cap (render absolute comps) [chSlash]
      else .ok (render absolute comps)).bind fun stack => (put cap stack name).bind go) =
      go (render absolute (comps ++ [name])) := by
  by_cases hne : comps = []
  · subst hne
    rw [if_neg (fun hsep => (separator_iff absolute h).mp hsep rfl)]
    rw [render_single, List.length_append] at hroom
    rw [render_single]
    exact congrArg (Except.bind · go) (put_eq hroom)
  · rw [render_snoc absolute hne, List.length_append, List.length_cons] at hroom
    have hslash : put cap (render absolute comps) [chSlash] =
        .ok (render absolute comps ++ [chSlash]) :=
      put_eq (by rw [List.length_singleton]; omega)
    have hname : put cap (render absolute comps ++ [chSlash]) name =
        .ok (render absolute comps ++ [chSlash] ++ name) :=
      put_eq (by rw [List.length_append, List.length_singleton]; omega)
    have hsplit : render absolute comps ++ chSlash :: name =
        render absolute comps ++ [chSlash] ++ name := by simp
    rw [if_pos ((separator_iff absolute h).mpr hne), hslash, render_snoc absolute hne, hsplit]
    exact congrArg (Except.bind · go) hname

/-- The stack leaves room for the rest of the path, which starts with a slash behind a component. -/
structure Fits (cap : ℕ) (stack rest : Text) : Prop where
  room : stack.length + rest.length ≤ cap
  slash : stack = [] ∨ ∀ c, rest.head? = some c → isSlash c = true

/-- Where the rest starts with a slash, that slash is skipped. -/
theorem length_start (hslash : ∀ c, rest.head? = some c → isSlash c = true)
    (hrest : rest.dropWhile isSlash = c :: x) : (c :: x).length < rest.length := by
  cases rest with
  | nil => cases hrest
  | cons d rest =>
    rw [List.dropWhile_cons_of_pos (hslash d rfl)] at hrest
    rw [← hrest, List.length_cons]
    exact Nat.lt_succ_of_le (List.dropWhile_suffix _).length_le

theorem length_render_dropLast (absolute : Bool) (comps : List Text) :
    (render absolute comps.dropLast).length ≤ (render absolute comps).length := by
  rcases List.eq_nil_or_concat comps with rfl | ⟨front, s, rfl⟩
  · exact le_refl _
  · rw [List.concat_eq_append, List.dropLast_concat]
    by_cases hfront : front = []
    · subst hfront
      rw [render_single, List.length_append]
      omega
    · rw [render_snoc absolute hfront, List.length_append]
      omega

theorem resolveStep_names {name : Text} (h : ∀ s ∈ comps, IsName s) (hname : IsName name) :
    ∀ s ∈ resolveStep comps name, IsName s := by
  unfold resolveStep
  intro s hs
  split_ifs at hs
  · exact h s hs
  · exact h s (List.dropLast_subset _ hs)
  · rcases List.mem_append.mp hs with hs | hs
    · exact h s hs
    · exact List.mem_singleton.mp hs ▸ hname

/-- The loop resolves the rest of the path on top of the stack. -/
theorem normalizeLoop_room (h : ∀ s ∈ comps, IsName s)
    (hroom : (render absolute comps).length + rest.length ≤ cap)
    (hslash : comps ≠ [] → ∀ c, rest.head? = some c → isSlash c = true)
    (hfuel : rest.length < fuel) :
    normalizeLoop cap absolute fuel (render absolute comps) rest =
      .ok (render absolute ((components rest).foldl resolveStep comps)) := by
  induction fuel generalizing comps rest with
  | zero => omega
  | succ fuel ih =>
    rw [← components_dropWhile]
    cases hrest : rest.dropWhile isSlash with
    | nil =>
      simp only [normalizeLoop, hrest]
      rfl
    | cons c p =>
      have hc : isSlash c = false := ends_dropWhile isSlash rest c (by rw [hrest]; rfl)
      have hname : IsName ((c :: p).takeWhile (!isSlash ·)) :=
        ⟨by simp [hc], fun b hb => by simpa using List.mem_takeWhile_imp hb⟩
      have hlen : ((c :: p).takeWhile (!isSlash ·)).length +
          ((c :: p).dropWhile (!isSlash ·)).length = (c :: p).length := by
        rw [← List.length_append, List.takeWhile_append_dropWhile]
      have hpos := List.length_pos_of_ne_nil hname.1
      have hle : (c :: p).length ≤ rest.length := by
        rw [← hrest]
        exact (List.dropWhile_suffix _).length_le
      have hslashed : ∀ d, ((c :: p).dropWhile (!isSlash ·)).head? = some d → isSlash d = true :=
        fun d hd => by simpa using ends_dropWhile (!isSlash ·) (c :: p) d hd
      rw [components_span hc, List.foldl_cons]
      simp only [normalizeLoop, hrest]
      by_cases hdot : (c :: p).takeWhile (!isSlash ·) = [chDot]
      · rw [if_pos hdot, resolveStep, if_pos hdot]
        exact ih h (by omega) (fun _ => hslashed) (by omega)
      by_cases hdots : (c :: p).takeWhile (!isSlash ·) = [chDot, chDot]
      · have hless := length_render_dropLast absolute comps
        rw [if_neg hdot, if_pos hdots, resolveStep, if_neg hdot, if_pos hdots,
          popComponent_render h]
        exact ih (fun s hs => h s (List.dropLast_subset _ hs)) (by omega) (fun _ => hslashed)
          (by omega)
      · have hnext : (render absolute (comps ++ [(c :: p).takeWhile (!isSlash ·)])).length +
            ((c :: p).dropWhile (!isSlash ·)).length ≤ cap := by
          by_cases hne : comps = []
          · subst hne
            rw [render_single, List.length_append]
            omega
          · have hlt := length_start (hslash hne) hrest
            rw [render_snoc absolute hne, List.length_append, List.length_cons]
            omega
        have hnames := resolveStep_names h hname
        rw [resolveStep, if_neg hdot, if_neg hdots] at hnames ⊢
        rw [if_neg hdot, if_neg hdots, push_render h (by omega)]
        exact ih hnames hnext (fun _ => hslashed) (by omega)

/-- A stack that `Fits` has all the room the loop asks for. -/
theorem normalizeLoop_eq (h : ∀ s ∈ comps, IsName s) (hfit : Fits cap (render absolute comps) rest)
    (hfuel : rest.length < fuel) :
    normalizeLoop cap absolute fuel (render absolute comps) rest =
      .ok (render absolute ((components rest).foldl resolveStep comps)) := by
  refine normalizeLoop_room h hfit.room (fun hne => ?_) hfuel
  rcases hfit.slash with hempty | hslash
  · have hstack := (separator_iff absolute h).mpr hne
    rw [hempty] at hstack
    exact absurd hstack.1 (lt_irrefl 0)
  · exact hslash

theorem splitOnP_names (path : Text) :
    ∀ s ∈ path.splitOnP isSlash, ∀ c ∈ s, isSlash c = false := by
  induction path with
  | nil => simp
  | cons a path ih =>
    rw [List.splitOnP_cons_eq_if_modifyHead]
    split_ifs with ha
    · exact List.forall_mem_cons.mpr ⟨by simp, ih⟩
    · obtain ⟨s, rest, hsplit⟩ :=
        List.exists_cons_of_ne_nil (List.splitOnP_ne_nil isSlash path)
      rw [hsplit] at ih ⊢
      obtain ⟨hs, hrest⟩ := List.forall_mem_cons.mp ih
      exact List.forall_mem_cons.mpr
        ⟨List.forall_mem_cons.mpr ⟨Bool.not_eq_true _ ▸ ha, hs⟩, hrest⟩

theorem resolve_names (path : Text) : ∀ s ∈ resolve path, IsName s := by
  have hcomps : ∀ s ∈ components path, IsName s := by
    intro s hs
    obtain ⟨hmem, hne⟩ := List.mem_filter.mp hs
    exact ⟨by simpa using hne, splitOnP_names path s hmem⟩
  have hfold : ∀ (names comps : List Text), (∀ s ∈ names, IsName s) → (∀ s ∈ comps, IsName s) →
      ∀ s ∈ names.foldl resolveStep comps, IsName s := by
    intro names
    induction names with
    | nil => exact fun comps _ h => h
    | cons name names ih =>
      intro comps hnames h
      obtain ⟨hname, hnames⟩ := List.forall_mem_cons.mp hnames
      exact ih (resolveStep comps name) hnames (resolveStep_names h hname)
  exact hfold _ [] hcomps (by simp)

/-- A path that is not empty is brought to its normal form. -/
theorem normalize_eq (hne : path ≠ []) : zenitPathNormalize true true (some path) =
    .ok (some (normalForm (isAbsolute path) (resolve path))) := by
  have hpos := List.length_pos_of_ne_nil hne
  have hstart : (if isAbsolute path then put (path.length + 1) [] [chSlash] else .ok []) =
      .ok (render (isAbsolute path) []) := by
    cases isAbsolute path with
    | false => rfl
    | true =>
      have hroom : ([] : Text).length + [chSlash].length ≤ path.length + 1 := by simp
      exact put_eq hroom
  have hfit : Fits (path.length + 1) (render (isAbsolute path) []) path := by
    constructor
    · rw [render, List.intercalate_nil, List.append_nil, length_root]
      split_ifs <;> omega
    · cases habs : isAbsolute path with
      | false => exact .inl rfl
      | true =>
        refine .inr fun c hc => ?_
        rwa [isAbsolute, hc] at habs
  have hloop : normalizeLoop (path.length + 1) (isAbsolute path) (path.length + 1)
      (render (isAbsolute path) []) path = .ok (render (isAbsolute path) (resolve path)) :=
    normalizeLoop_eq (by simp) hfit (Nat.lt_succ_self _)
  have hlast : (if (render (isAbsolute path) (resolve path)).length = 0 then
      (if isAbsolute path then [chSlash] else [chDot]) else render (isAbsolute path) (resolve path)) =
      normalForm (isAbsolute path) (resolve path) := by
    unfold normalForm
    by_cases hnil : resolve path = []
    · rw [hnil]
      cases isAbsolute path <;> rfl
    · have hlong := (separator_iff (isAbsolute path) (resolve_names path)).mpr hnil
      rw [if_neg hnil, if_neg (by omega)]
  rw [zenitPathNormalize, normalizeImpl, if_neg (by omega), if_neg (by simp)]
  dsimp only
  rw [hstart]
  simp only [Except.bind, hloop, Except.map, strdupWithAllocator, if_true, hlast]

/-- The empty path is the root. -/
theorem normalize_nil : zenitPathNormalize true true (some []) = .ok (some [chSlash]) := rfl

end LibZenit.Paths
