import LibZenit.DirModel

/-!
# What `zenit_dir_create` leaves behind

A component that is there already counts as created, whatever it is. On the way to the last one that
does no harm, as nothing can be made behind a file; the last one may be a file itself.
-/
namespace LibZenit.Dirs
open Blocks CString DirTree

variable {β : Type} {sys sys' : System β} {path s x y base tail rest zeros : Text} {b0 : List Text}

/-! ## Components -/

theorem components_append_slash (x y : Text) :
    components (x ++ 47 :: y) = components x ++ components y := by
  rw [components, List.splitOnP_append_cons x y (by rfl), List.filter_append, List.map_append]
  rfl

theorem components_name (h : 47 ∉ tail) :
    components tail = if tail = [] then [] else [component tail] := by
  have hall : ∀ c ∈ tail, (c == 47) = false := by
    intro c hc
    have hne : c ≠ 47 := fun heq => h (heq ▸ hc)
    simpa using hne
  rw [components, List.splitOnP_eq_singleton hall]
  split_ifs with htail
  · simp [htail]
  · simp [htail]

/-- Nothing, or a text up to a slash. -/
def EndsInSlash (base : Text) : Prop := base = [] ∨ ∃ x, base = x ++ [47]

theorem components_append (h : EndsInSlash base) (y : Text) :
    components (base ++ y) = components base ++ components y := by
  rcases h with rfl | ⟨x, rfl⟩
  · rfl
  · rw [List.append_assoc, List.singleton_append, components_append_slash,
      components_append_slash, List.append_assoc]
    rfl

theorem start_append (sys : System β) (h : x ≠ []) (y : Text) :
    sys.start (x ++ y) = sys.start x := by
  obtain ⟨c, x, rfl⟩ := List.exists_cons_of_ne_nil h
  rfl

theorem start_congr (h : sys'.cwd = sys.cwd) (path : Text) : sys'.start path = sys.start path := by
  rw [System.start, System.start, h]

/-! ## The calls of the system -/

theorem mkdir_cwd (sys : System β) (path : Text) : (sys.mkdir path).1.cwd = sys.cwd := by
  rw [System.mkdir]
  split_ifs
  · rfl
  · split <;> rfl

theorem mkdir_of_ok {t : Tree Text β} (hne : path ≠ [])
    (h : sys.tree.mkdir (sys.start path) (components path) = .ok t) :
    (sys.mkdir path).2 = none ∧ (sys.mkdir path).1.tree = t := by
  rw [System.mkdir, if_neg hne]
  split
  · next h' => exact ⟨rfl, Except.ok.inj (h'.symm.trans h)⟩
  · next h' => cases h'.symm.trans h

theorem mkdir_of_error {e : Errno} (hne : path ≠ [])
    (h : sys.tree.mkdir (sys.start path) (components path) = .error e) :
    sys.mkdir path = (sys, some e) := by
  rw [System.mkdir, if_neg hne]
  split
  · next h' => cases h'.symm.trans h
  · next h' => rw [Except.error.inj (h'.symm.trans h)]

/-- A call on a path whose directory part leads to an entry: it finds or makes an entry, unless that
part leads to a file. -/
theorem mkdir_step (hends : EndsInSlash base) (hname : 47 ∉ tail) (hne : base ++ tail ≠ [])
    (hstart : sys.start (base ++ tail) = b0) (hreached : Reached sys.tree b0 (components base)) :
    (tail ≠ [] ∧ (∃ data, sys.tree.entry (target b0 (components base)) = some (.file data)) ∧
      sys.mkdir (base ++ tail) = (sys, some .notDir)) ∨
    ∃ made e, sys.mkdir (base ++ tail) = (made, e) ∧ (e = none ∨ e = some .exist) ∧
      made.cwd = sys.cwd ∧ Reached made.tree b0 (components (base ++ tail)) ∧
      Grows (· = target b0 (components (base ++ tail))) sys.tree made.tree := by
  have hcomponents := components_append hends tail
  rw [components_name hname] at hcomponents
  by_cases htail : tail = []
  · rw [if_pos htail, List.append_nil] at hcomponents
    rw [← hcomponents] at hreached
    have hexist := mkdir_reached hreached
    rw [← hstart] at hexist
    exact .inr ⟨sys, _, mkdir_of_error hne hexist, .inr rfl, rfl, hreached, Grows.refl _ _⟩
  · rw [if_neg htail] at hcomponents
    rw [hcomponents]
    rcases mkdir_concat hreached (component tail) with
      ⟨data, hfile, hfail⟩ | ⟨hexist, hreached⟩ | ⟨t, hok, hreached, hgrows⟩
    · rw [← hstart, ← hcomponents] at hfail
      exact .inl ⟨htail, ⟨data, hfile⟩, mkdir_of_error hne hfail⟩
    · rw [← hstart, ← hcomponents] at hexist
      exact .inr ⟨sys, _, mkdir_of_error hne hexist, .inr rfl, rfl, hreached, Grows.refl _ _⟩
    · rw [← hstart, ← hcomponents] at hok
      obtain ⟨hnone, htree⟩ := mkdir_of_ok hne hok
      subst htree
      exact .inr ⟨_, _, rfl, .inl hnone, mkdir_cwd sys _, hreached, hgrows⟩

/-! ## The walk -/

/-- A regular file on the way, before the last location. -/
def Blocked (t : Tree Text β) (b0 : List Text) (cs : List (Component Text)) : Prop :=
  ∃ ds, ds <+: cs ∧ ds ≠ cs ∧ ∃ data, t.entry (target b0 ds) = some (.file data)

/-- A location on the way of the path, with a text that names it. -/
def OnTheWay (s : Text) (b0 loc : List Text) : Prop :=
  ∃ q, q ≠ [] ∧ q <+: s ∧ components q <+: components s ∧ loc = target b0 (components q)

theorem components_prefix_slash (hs : s = x ++ 47 :: y) : components x <+: components s :=
  ⟨components y, by rw [hs, components_append_slash]⟩

/-- The directory part of a longer path is not the whole of it. -/
theorem components_proper (hends : EndsInSlash base) (hname : 47 ∉ tail) (htail : tail ≠ [])
    (hfront : components (base ++ tail) <+: components s) :
    components base <+: components s ∧ components base ≠ components s := by
  rw [components_append hends, components_name hname, if_neg htail] at hfront
  refine ⟨(List.prefix_append _ _).trans hfront, fun heq => ?_⟩
  have hlen := hfront.length_le
  rw [heq, List.length_append, List.length_singleton] at hlen
  omega

theorem cstr_cut (hzero : 0 ∉ x) (y : Text) : cstr (x ++ 0 :: y) = x := takeWhile_eq hzero y

theorem Blocked.of_grows {t t' : Tree Text β} {P : List Text → Prop} {cs : List (Component Text)}
    (h : Grows P t t') (hblocked : Blocked t' b0 cs) : Blocked t b0 cs := by
  obtain ⟨ds, hfront, hne, data, hfile⟩ := hblocked
  exact ⟨ds, hfront, hne, data, h.file hfile⟩

/-- A character that is no separator is passed over. -/
theorem walkLoop_other {fuel : ℕ} {c : UInt8} (hs : s = x ++ c :: rest) (hc0 : c ≠ 0)
    (hc : isSeparator c = false) : walkLoop (fuel + 1) sys (s ++ 0 :: zeros) x.length =
      walkLoop fuel sys (s ++ 0 :: zeros) (x.length + 1) := by
  have hread : readSlot (s ++ 0 :: zeros) x.length = .ok c := by
    rw [hs, List.append_assoc]
    exact readSlot_append x _ (k := 0) rfl
  rw [walkLoop, hread]
  simp only [bind, Except.bind, if_neg hc0]
  rw [if_neg (by simp [hc])]

/-- At a slash there is an entry afterwards, or a regular file stands in the way. -/
theorem walkLoop_slash {fuel : ℕ} (hs : s = base ++ tail ++ 47 :: rest) (hzero : 0 ∉ s)
    (hends : EndsInSlash base) (hname : 47 ∉ tail) (hne : base ++ tail ≠ [])
    (hstart : sys.start s = b0) (hreached : Reached sys.tree b0 (components base)) :
    (∃ made, walkLoop (fuel + 1) sys (s ++ 0 :: zeros) (base ++ tail).length =
        walkLoop fuel made (s ++ 0 :: zeros) ((base ++ tail).length + 1) ∧
      made.cwd = sys.cwd ∧ Grows (OnTheWay s b0) sys.tree made.tree ∧
      Reached made.tree b0 (components (base ++ tail ++ [47]))) ∨
    walkLoop (fuel + 1) sys (s ++ 0 :: zeros) (base ++ tail).length =
        .ok (.notFound, sys, s ++ 0 :: zeros) ∧ Blocked sys.tree b0 (components s) := by
  have hfront := components_prefix_slash hs
  have hmemory : s ++ 0 :: zeros = base ++ tail ++ 47 :: (rest ++ 0 :: zeros) := by simp [hs]
  have hread : readSlot (s ++ 0 :: zeros) (base ++ tail).length = .ok 47 := by
    rw [hmemory]
    exact readSlot_append (base ++ tail) _ (k := 0) rfl
  have hcut : writeSlot (s ++ 0 :: zeros) (base ++ tail).length 0 =
      .ok (base ++ tail ++ 0 :: (rest ++ 0 :: zeros)) := by
    rw [hmemory, writeSlot_append]
  have hrestore : writeSlot (base ++ tail ++ 0 :: (rest ++ 0 :: zeros)) (base ++ tail).length
      47 = .ok (s ++ 0 :: zeros) := by
    rw [hmemory, writeSlot_append]
  have hstart' : sys.start (base ++ tail) = b0 := by rw [← hstart, hs, start_append _ hne]
  have hcstr := cstr_cut (fun h => hzero (by rw [hs]; exact List.mem_append_left _ h) :
    0 ∉ base ++ tail) (rest ++ 0 :: zeros)
  have hsep : isSeparator 47 = true := rfl
  rw [walkLoop, hread]
  simp only [bind, Except.bind, hsep, if_true, hcut, hcstr]
  rcases mkdir_step hends hname hne hstart' hreached with
    ⟨htail, ⟨data, hfile⟩, hmkdir⟩ | ⟨made, e, hmkdir, he, hcwd, hmade, hgrows⟩
  · obtain ⟨hproper, hless⟩ := components_proper hends hname htail hfront
    refine .inr ⟨?_, components base, hproper, hless, data, hfile⟩
    simp only [hmkdir, hrestore]
    rfl
  · have hway : OnTheWay s b0 (target b0 (components (base ++ tail))) :=
      ⟨base ++ tail, hne, ⟨47 :: rest, hs.symm⟩, hfront, rfl⟩
    have hclosed : components (base ++ tail ++ [47]) = components (base ++ tail) := by
      rw [components_append_slash]
      exact List.append_nil _
    have hfine : ¬(e ≠ none ∧ e ≠ some .exist) := fun h => he.elim h.1 h.2
    refine .inl ⟨made, ?_, hcwd, hgrows.mono fun loc hloc => hloc ▸ hway, hclosed ▸ hmade⟩
    simp only [hmkdir, hrestore, if_neg hfine]
    rfl

/-- The loop behind `base ++ tail`, where `base` is what the last call has dealt with. It makes
directories on the way, or finds that a regular file stands there. -/
theorem walkLoop_eq {fuel : ℕ} (hs : s = base ++ tail ++ rest) (hzero : 0 ∉ s) (hback : 92 ∉ s)
    (hends : EndsInSlash base) (hname : 47 ∉ tail) (hne : base ++ tail ≠ [])
    (hfuel : rest.length < fuel) (hstart : sys.start s = b0)
    (hreached : Reached sys.tree b0 (components base)) :
    (∃ made base' tail', walkLoop fuel sys (s ++ 0 :: zeros) (base ++ tail).length =
        .ok (.ok, made, s ++ 0 :: zeros) ∧ made.cwd = sys.cwd ∧
      Grows (OnTheWay s b0) sys.tree made.tree ∧ s = base' ++ tail' ∧ EndsInSlash base' ∧
      47 ∉ tail' ∧ Reached made.tree b0 (components base')) ∨
    (∃ made, walkLoop fuel sys (s ++ 0 :: zeros) (base ++ tail).length =
        .ok (.notFound, made, s ++ 0 :: zeros)) ∧ Blocked sys.tree b0 (components s) := by
  induction rest generalizing sys base tail fuel with
  | nil =>
    obtain ⟨fuel, rfl⟩ : ∃ k, fuel = k + 1 := ⟨fuel - 1, by omega⟩
    rw [List.append_nil] at hs
    have hread : readSlot (s ++ 0 :: zeros) (base ++ tail).length = .ok 0 := by
      rw [← hs]
      exact readSlot_append s _ (k := 0) rfl
    rw [walkLoop, hread]
    exact .inl ⟨sys, base, tail, rfl, rfl, Grows.refl _ _, hs, hends, hname, hreached⟩
  | cons c rest ih =>
    obtain ⟨fuel, rfl⟩ : ∃ k, fuel = k + 1 := ⟨fuel - 1, by omega⟩
    rw [List.length_cons] at hfuel
    have hmem : c ∈ s := by simp [hs]
    by_cases hc : c = 47
    · subst hc
      rcases walkLoop_slash hs hzero hends hname hne hstart hreached with
        ⟨made, hround, hcwd, hgrows, hmade⟩ | ⟨hround, hblocked⟩
      · have hstarts : made.start s = b0 := by rw [start_congr hcwd, hstart]
        have hrest := @ih made (base ++ tail ++ [47]) [] fuel (by simp [hs]) (.inr ⟨_, rfl⟩)
          (by simp) (by simp) (by omega) hstarts hmade
        have hnext : (base ++ tail ++ [47] ++ []).length = (base ++ tail).length + 1 := by
          rw [List.append_nil, List.length_append, List.length_singleton]
        rw [hround, ← hnext]
        rcases hrest with ⟨final, base', tail', hloop, hcwd', hgrows', hend⟩ |
          ⟨⟨final, hloop⟩, hblocked⟩
        · exact .inl ⟨final, base', tail', hloop, hcwd'.trans hcwd, hgrows.trans hgrows', hend⟩
        · exact .inr ⟨⟨final, hloop⟩, hblocked.of_grows hgrows⟩
      · exact .inr ⟨⟨sys, hround⟩, hblocked⟩
    · have hc0 : c ≠ 0 := fun h => hzero (h ▸ hmem)
      have hsep : isSeparator c = false := by
        have hc92 : c ≠ 92 := fun h => hback (h ▸ hmem)
        simp [isSeparator, hc, hc92]
      have hrest := @ih sys base (tail ++ [c]) fuel (by simp [hs]) hends
        (by simp [hname, Ne.symm hc]) (by simp) (by omega) hstart hreached
      have hnext : (base ++ (tail ++ [c])).length = (base ++ tail).length + 1 := by
        rw [← List.append_assoc, List.length_append, List.length_singleton]
      rwa [walkLoop_other hs hc0 hsep, ← hnext]

/-! ## The call -/

/-- A path without the separators at its end. -/
theorem exists_stripped (path : Text) : ∃ s seps, path = s ++ seps ∧
    (∀ c ∈ seps, isSeparator c = true) ∧
    (s = [] ∨ ∃ x c, s = x ++ [c] ∧ isSeparator c = false) := by
  induction path using List.reverseRecOn with
  | nil => exact ⟨[], [], rfl, by simp, .inl rfl⟩
  | append_singleton path c ih =>
    cases hc : isSeparator c with
    | false => exact ⟨path ++ [c], [], by simp, by simp, .inr ⟨path, c, rfl, hc⟩⟩
    | true =>
      obtain ⟨s, seps, rfl, hseps, hs⟩ := ih
      refine ⟨s, seps ++ [c], by simp, fun d hd => ?_, hs⟩
      rcases List.mem_append.mp hd with hd | hd
      · exact hseps d hd
      · rw [List.mem_singleton.mp hd, hc]

theorem stripLoop_eq {seps : Text} (hseps : ∀ c ∈ seps, isSeparator c = true)
    (hs : s = [] ∨ ∃ x c, s = x ++ [c] ∧ isSeparator c = false) :
    stripLoop (s ++ seps).length (s ++ seps ++ zeros) =
      .ok (s.length, s ++ (List.replicate seps.length 0 ++ zeros)) := by
  induction seps using List.reverseRecOn generalizing zeros with
  | nil =>
    rcases hs with rfl | ⟨x, c, rfl, hc⟩
    · rfl
    · have hread : readSlot (x ++ [c] ++ [] ++ zeros) x.length = .ok c := by
        rw [List.append_nil, List.append_assoc]
        exact readSlot_append x _ (k := 0) rfl
      have hlen : (x ++ [c] ++ []).length = x.length + 1 := by simp
      rw [hlen, stripLoop, hread]
      simp only [bind, Except.bind, hc, Bool.false_eq_true, if_false]
      simp [pure, Except.pure]
  | append_singleton seps c ih =>
    obtain ⟨hseps, hc⟩ := List.forall_mem_append.mp hseps
    have hmemory : s ++ (seps ++ [c]) ++ zeros = s ++ seps ++ c :: zeros := by simp
    have hread : readSlot (s ++ seps ++ c :: zeros) (s ++ seps).length = .ok c :=
      readSlot_append (s ++ seps) _ (k := 0) rfl
    have hlen : (s ++ (seps ++ [c])).length = (s ++ seps).length + 1 := by
      rw [← List.append_assoc, List.length_append, List.length_singleton]
    have hzeros : List.replicate (seps ++ [c]).length (0 : UInt8) ++ zeros =
        List.replicate seps.length 0 ++ 0 :: zeros := by
      simp [List.replicate_succ']
    rw [hmemory, hlen, stripLoop, hread, hzeros]
    simp only [bind, Except.bind, hc c List.mem_cons_self, if_true, writeSlot_append]
    exact ih hseps

theorem reached_start (sys : System β) (path : Text) : Reached sys.tree (sys.start path) [] := by
  refine ⟨rfl, ?_⟩
  rw [target_nil, System.start]
  split_ifs
  · rw [sys.tree.root]
    rfl
  · rw [sys.cwd_dir]
    rfl

/-- The loop starts behind the first character, which may be the slash of the root. -/
theorem exists_first (hne : s ≠ []) : ∃ base tail rest, s = base ++ tail ++ rest ∧
    EndsInSlash base ∧ 47 ∉ tail ∧ (base ++ tail).length = 1 ∧ components base = [] := by
  obtain ⟨c, rest, rfl⟩ := List.exists_cons_of_ne_nil hne
  by_cases hc : c = 47
  · exact ⟨[47], [], rest, by rw [hc]; rfl, .inr ⟨[], rfl⟩, by simp, rfl, rfl⟩
  · exact ⟨[], [c], rest, rfl, .inl rfl, by simpa using Ne.symm hc, rfl, rfl⟩

/-- The buffer that the walk starts from. -/
theorem walk_and_mkdir (hne : s ≠ []) (hzero : 0 ∉ s) (hback : 92 ∉ s) :
    (∃ mid made e, walkLoop (s ++ 0 :: zeros).length sys (s ++ 0 :: zeros) 1 =
        .ok (.ok, mid, s ++ 0 :: zeros) ∧ mid.mkdir s = (made, e) ∧
      (e = none ∨ e = some .exist) ∧ made.cwd = sys.cwd ∧
      Grows (OnTheWay s (sys.start s)) sys.tree made.tree ∧
      Reached made.tree (sys.start s) (components s)) ∨
    ((∃ mid, walkLoop (s ++ 0 :: zeros).length sys (s ++ 0 :: zeros) 1 =
        .ok (.ok, mid, s ++ 0 :: zeros) ∧ mid.mkdir s = (mid, some .notDir)) ∨
      ∃ made, walkLoop (s ++ 0 :: zeros).length sys (s ++ 0 :: zeros) 1 =
        .ok (.notFound, made, s ++ 0 :: zeros)) ∧
      Blocked sys.tree (sys.start s) (components s) := by
  obtain ⟨base, tail, rest, hs, hends, hname, hone, hempty⟩ := exists_first hne
  have hfuel : rest.length < (s ++ 0 :: zeros).length := by
    rw [hs]
    simp
    omega
  have hloop := @walkLoop_eq _ sys s base tail rest zeros (sys.start s) _ hs hzero hback hends hname
    (by rw [← List.length_pos_iff]; omega) hfuel rfl (by rw [hempty]; exact reached_start sys s)
  rw [hone] at hloop
  rcases hloop with ⟨mid, base', tail', hloop, hcwd, hgrows, hs', hends', hname', hreached⟩ |
    ⟨⟨made, hloop⟩, hblocked⟩
  · have hstart : mid.start (base' ++ tail') = sys.start s := by rw [← hs', start_congr hcwd]
    rcases mkdir_step hends' hname' (hs' ▸ hne) hstart hreached with
      ⟨htail, ⟨data, hfile⟩, hmkdir⟩ | ⟨made, e, hmkdir, he, hcwd', hmade, hgrows'⟩
    · rw [← hs'] at hmkdir
      obtain ⟨hfront, hproper⟩ := components_proper hends' hname' htail (s := s) (by rw [hs'])
      exact .inr ⟨.inl ⟨mid, hloop, hmkdir⟩,
        components base', hfront, hproper, data, hgrows.file hfile⟩
    · rw [← hs'] at hmkdir hmade hgrows'
      have hway : OnTheWay s (sys.start s) (target (sys.start s) (components s)) :=
        ⟨s, hne, List.prefix_rfl, List.prefix_rfl, rfl⟩
      exact .inl ⟨mid, made, e, hloop, hmkdir, he, hcwd'.trans hcwd,
        hgrows.trans (hgrows'.mono fun loc hloc => hloc ▸ hway), hmade⟩
  · exact .inr ⟨.inr ⟨made, hloop⟩, hblocked⟩

theorem createDirRecursive_eq {seps : Text} (hpath : IsString (s ++ seps)) (hback : 92 ∉ s)
    (hseps : ∀ c ∈ seps, isSeparator c = true) (hlast : ∃ x c, s = x ++ [c] ∧ isSeparator c = false)
    (fill : UInt8) :
    (∃ made, createDirRecursive true fill sys (s ++ seps ++ [0]) = .ok (.ok, made) ∧
      made.cwd = sys.cwd ∧ Grows (OnTheWay s (sys.start s)) sys.tree made.tree ∧
      Reached made.tree (sys.start s) (components s)) ∨
    (∃ made, createDirRecursive true fill sys (s ++ seps ++ [0]) = .ok (.notFound, made)) ∧
      Blocked sys.tree (sys.start s) (components s) := by
  obtain ⟨hzero, hlen⟩ := hpath
  have hne : s ≠ [] := by
    obtain ⟨x, c, rfl, -⟩ := hlast
    simp
  have hwrap : wrap ((s ++ seps).length + 1) = (s ++ seps).length + 1 := wrap_of_lt (by omega)
  have hread : readSlots (s ++ seps ++ [0]) 0 ((s ++ seps).length + 1) =
      .ok (s ++ seps ++ [0]) := by
    have htext := readSlots_text (s ++ seps ++ [0]) []
    rwa [List.append_nil, List.length_append, List.length_singleton] at htext
  have hwrite : writeSlots (List.replicate ((s ++ seps).length + 1) fill) 0 (s ++ seps ++ [0]) =
      .ok (s ++ seps ++ [0]) := by
    rw [writeSlots, if_pos (by simp; omega), patch, List.take_zero, List.nil_append,
      List.drop_of_length_le (by simp), List.append_nil]
  have hstrip := @stripLoop_eq s [0] seps hseps (.inr hlast)
  have hzeros : s ++ (List.replicate seps.length 0 ++ [0]) =
      s ++ 0 :: List.replicate seps.length 0 := by
    rw [← List.replicate_succ', List.replicate_succ]
  have hlen0 : s.length ≠ 0 := by rwa [Ne, List.length_eq_zero_iff]
  have hzero' : 0 ∉ s := fun h => hzero (List.mem_append_left _ h)
  rw [hzeros] at hstrip
  rw [createDirRecursive]
  simp only [strlen_eq hzero, hwrap, hread, hwrite, hstrip, Bool.not_true, Bool.false_eq_true,
    if_false, bind, Except.bind, hlen0]
  rcases @walk_and_mkdir _ sys s (List.replicate seps.length 0) hne hzero' hback with
    ⟨mid, made, e, hloop, hmkdir, he, hcwd, hgrows, hreached⟩ |
    ⟨⟨mid, hloop, hmkdir⟩ | ⟨made, hloop⟩, hblocked⟩
  · have hfine : ¬(e ≠ none ∧ e ≠ some .exist) := fun h => he.elim h.1 h.2
    rw [hloop]
    simp only [ne_eq, not_true_eq_false, if_false, cstr_cut hzero', hmkdir]
    exact .inl ⟨made, if_neg hfine, hcwd, hgrows, hreached⟩
  · rw [hloop]
    simp only [ne_eq, not_true_eq_false, if_false, cstr_cut hzero', hmkdir]
    exact .inr ⟨⟨mid, rfl⟩, hblocked⟩
  · rw [hloop]
    exact .inr ⟨⟨made, rfl⟩, hblocked⟩

/-! ## What the caller finds -/

theorem components_trailing {seps : Text} (h : ∀ c ∈ seps, c = 47) (s : Text) :
    components (s ++ seps) = components s := by
  induction seps using List.reverseRecOn with
  | nil => rw [List.append_nil]
  | append_singleton seps c ih =>
    obtain ⟨hseps, hc⟩ := List.forall_mem_append.mp h
    rw [hc c List.mem_cons_self, ← List.append_assoc, components_append_slash, ih hseps]
    exact List.append_nil _

/-- A slash at the end leads nowhere else. -/
theorem target_stat (base : List Text) (cs : List (Component Text)) (p : Prop) [Decidable p] :
    target base (cs ++ if p then [.here] else []) = target base cs := by
  split_ifs
  · rw [target_concat]
    rfl
  · rw [List.append_nil]

/-- A path names what its components lead to. -/
theorem stat_eq_ok {loc : List Text} {e : Entry β} (h : sys.stat path = .ok (loc, e)) :
    loc = target (sys.start path) (components path) ∧ sys.tree.entry loc = some e := by
  rw [System.stat] at h
  by_cases hne : path = []
  · rw [if_pos hne] at h
    cases h
  · rw [if_neg hne, lookup_eq_ok] at h
    exact ⟨by rw [walk_eq_target h.1, target_stat], h.2⟩

/-- A path whose components lead to a directory names it. -/
theorem stat_dir (hne : path ≠ [])
    (hwalk : sys.tree.walk (sys.start path) (components path) =
      .ok (target (sys.start path) (components path)))
    (hdir : sys.tree.entry (target (sys.start path) (components path)) = some .dir) :
    sys.stat path = .ok (target (sys.start path) (components path), .dir) := by
  rw [System.stat, if_neg hne, lookup_eq_ok]
  refine ⟨?_, hdir⟩
  rw [walk_append, hwalk]
  split_ifs
  · simp only [Except.bind, Tree.walk, hdir]
    rfl
  · rfl

theorem dirExists_eq_one (hzero : 0 ∉ path) :
    zenitDirExists sys (some (path ++ [0])) = 1 ↔ ∃ loc, sys.stat path = .ok (loc, .dir) := by
  rw [zenitDirExists]
  simp only [cstr_cut hzero]
  split
  · next loc hstat => exact ⟨fun _ => ⟨loc, hstat⟩, fun _ => rfl⟩
  · next hno => exact ⟨fun h => (by cases h), fun ⟨loc, hstat⟩ => absurd hstat (hno loc)⟩

/-- What the call promises: a directory at the path, and on the way to it the only changes. -/
structure Created (sys sys' : System β) (path : Text) : Prop where
  dirExists : zenitDirExists sys' (some (path ++ [0])) = 1
  kept : ∀ loc e, sys.tree.entry loc = some e → sys'.tree.entry loc = some e
  made : ∀ loc, sys.tree.entry loc = none → (sys'.tree.entry loc).isSome →
    sys'.tree.entry loc = some .dir ∧ ∃ q, q <+: path ∧ sys'.stat q = .ok (loc, .dir)

/-- The path leads to a regular file, and no regular file stands in the way. A directory that is
missing on the way counts as created. -/
def LeadsToFile (sys : System β) (path : Text) : Prop :=
  (∀ ds, ds <+: components path → ds ≠ components path → ∀ data,
    sys.tree.entry (target (sys.start path) ds) ≠ some (.file data)) ∧
  ∃ data, sys.tree.entry (target (sys.start path) (components path)) = some (.file data)

theorem not_leadsToFile_of_blocked
    (h : Blocked sys.tree (sys.start path) (components path)) : ¬LeadsToFile sys path := by
  obtain ⟨ds, hfront, hne, data, hfile⟩ := h
  exact fun hleads => hleads.1 ds hfront hne data hfile

theorem not_leadsToFile_of_dir
    (h : sys.tree.entry (target (sys.start path) (components path)) = some .dir) :
    ¬LeadsToFile sys path := by
  rintro ⟨-, data, hfile⟩
  rw [h] at hfile
  cases hfile

/-- A location on the way is named by a prefix of the path, once the path has been walked. -/
theorem OnTheWay.named {loc : List Text} (hway : OnTheWay s (sys.start s) loc) (hs : s <+: path)
    (hwalk : sys.tree.walk (sys.start s) (components s) = .ok (target (sys.start s) (components s)))
    (hdir : sys.tree.entry loc = some .dir) : ∃ q, q <+: path ∧ sys.stat q = .ok (loc, .dir) := by
  obtain ⟨q, hne, hq, hcomponents, rfl⟩ := hway
  obtain ⟨y, hy⟩ := hq
  have hstart : sys.start q = sys.start s := by rw [← hy, start_append sys hne]
  refine ⟨q, (List.prefix_append q y).trans (hy ▸ hs), ?_⟩
  rw [← hstart] at hdir hwalk ⊢
  refine stat_dir hne ?_ hdir
  obtain ⟨cs, hcs⟩ := hcomponents
  rw [← hcs, walk_append] at hwalk
  cases hq : sys.tree.walk (sys.start q) (components q) with
  | error e =>
    rw [hq] at hwalk
    cases hwalk
  | ok l => rw [walk_eq_target hq]

/-- After the recursive call the promise is kept unless the path leads to a regular file. -/
theorem created_iff {made : System β} (hs : s <+: path) (hne : s ≠ []) (hzero : 0 ∉ path)
    (hcomponents : components path = components s) (hcwd : made.cwd = sys.cwd)
    (hgrows : Grows (OnTheWay s (sys.start s)) sys.tree made.tree)
    (hreached : Reached made.tree (sys.start s) (components s)) :
    Created sys made path ↔ ¬LeadsToFile sys path := by
  obtain ⟨y, rfl⟩ := hs
  have hstart : sys.start (s ++ y) = sys.start s := start_append sys hne y
  have hstart' : made.start (s ++ y) = sys.start s := by rw [start_congr hcwd, hstart]
  obtain ⟨hwalk, hsome⟩ := hreached
  obtain ⟨e, he⟩ := Option.isSome_iff_exists.mp hsome
  cases e with
  | dir =>
    refine iff_of_true ⟨?_, hgrows.le, fun loc hnone hnew => ?_⟩ ?_
    · rw [dirExists_eq_one hzero]
      exact ⟨_, stat_dir (by simp [hne]) (by rw [hstart', hcomponents, hwalk])
        (by rw [hstart', hcomponents, he])⟩
    · obtain ⟨hdir, hway⟩ := hgrows.new loc hnone hnew
      rw [← start_congr hcwd s] at hway hwalk
      exact ⟨hdir, hway.named (List.prefix_append s y) hwalk hdir⟩
    · rintro ⟨-, data, hfile⟩
      rw [hstart, hcomponents] at hfile
      rw [hgrows.le _ _ hfile] at he
      cases he
  | file data =>
    refine iff_of_false (fun hcreated => ?_) (not_not.mpr ⟨fun ds hds hproper data' hfile => ?_,
      data, by rw [hstart, hcomponents, hgrows.file he]⟩)
    · obtain ⟨loc, hstat⟩ := (dirExists_eq_one hzero).mp hcreated.dirExists
      obtain ⟨hloc, hdir⟩ := stat_eq_ok hstat
      rw [hstart', hcomponents] at hloc
      rw [hloc, he] at hdir
      cases hdir
    · rw [hcomponents] at hds hproper
      rw [hstart] at hfile
      have hdir := dir_of_walk hwalk hds hproper
      rw [hgrows.le _ _ hfile] at hdir
      cases hdir

theorem dirExists_le_one (sys : System β) (path : Option Text) :
    zenitDirExists sys path = 0 ∨ zenitDirExists sys path = 1 := by
  unfold zenitDirExists
  split
  · exact .inl rfl
  · split
    · exact .inr rfl
    · exact .inl rfl

/-- Whenever the call reports success, the path names a directory, old entries are unchanged and new
ones are directories on the way: exactly if the buffer is refused or the path does not lead to a
regular file. -/
theorem dir_create_iff (malloc : Bool) (fill : UInt8) (sys : System β) {path : Text}
    (hpath : IsString path) (hback : 92 ∉ path) (hname : ∃ c ∈ path, c ≠ 47) :
    ∃ code sys', zenitDirCreate malloc fill sys (some (path ++ [0])) = .ok (code, sys') ∧
      ((code = .ok → Created sys sys' path) ↔ (malloc = true → ¬LeadsToFile sys path)) := by
  have hzero := hpath.1
  obtain ⟨s, seps, rfl, hseps, hlast⟩ := exists_stripped path
  have hslash : ∀ c ∈ seps, c = 47 := by
    intro c hc
    have hc92 : c ≠ 92 := fun h => hback (h ▸ List.mem_append_right s hc)
    simpa [isSeparator, hc92] using hseps c hc
  have hlast : ∃ x c, s = x ++ [c] ∧ isSeparator c = false := by
    refine hlast.resolve_left ?_
    rintro rfl
    obtain ⟨c, hc, hne⟩ := hname
    exact hne (hslash c hc)
  have hne : s ≠ [] := by
    obtain ⟨x, c, rfl, -⟩ := hlast
    simp
  have hcomponents := components_trailing hslash s
  have hstart := start_append sys hne seps
  rw [zenitDirCreate]
  rcases dirExists_le_one sys (some (s ++ seps ++ [0])) with hexists | hexists
  · rw [hexists, if_neg (by decide)]
    cases malloc with
    | false =>
      have hrefused : createDirRecursive false fill sys (s ++ seps ++ [0]) =
          .ok (.alloc, sys) := rfl
      exact ⟨_, _, hrefused, iff_of_true (fun h => by cases h) (fun h => by cases h)⟩
    | true =>
      have hback' : 92 ∉ s := fun h => hback (List.mem_append_left _ h)
      rcases @createDirRecursive_eq _ sys s seps hpath hback' hseps hlast fill with
        ⟨made, hcreate, hcwd, hgrows, hreached⟩ | ⟨⟨made, hcreate⟩, hblocked⟩
      · have hiff := created_iff (List.prefix_append s seps) hne hzero hcomponents hcwd hgrows
          hreached
        exact ⟨_, made, hcreate, ⟨fun h _ => hiff.mp (h rfl), fun h _ => hiff.mpr (h rfl)⟩⟩
      · rw [← hstart, ← hcomponents] at hblocked
        exact ⟨_, made, hcreate, iff_of_true (fun h => by cases h)
          fun _ => not_leadsToFile_of_blocked hblocked⟩
  · rw [hexists, if_pos (by decide)]
    obtain ⟨loc, hstat⟩ := (dirExists_eq_one hzero).mp hexists
    obtain ⟨hloc, hdir⟩ := stat_eq_ok hstat
    refine ⟨_, sys, rfl, iff_of_true (fun _ => ⟨hexists, fun _ _ h => h, fun l hnone hsome => ?_⟩)
      fun _ => not_leadsToFile_of_dir (hloc ▸ hdir)⟩
    rw [hnone] at hsome
    cases hsome

/-- A root with the regular file `a` in it. -/
def oneFile : System Unit where
  tree :=
    { entry := fun loc =>
        if loc = [] then some .dir else if loc = [[97]] then some (.file ()) else none
      root := rfl
      parent := by
        intro loc name hsome
        cases loc with
        | nil => rfl
        | cons n loc => simp at hsome
      finite := by
        refine (Set.toFinite {[], [[97]]}).subset fun loc hloc => ?_
        rw [Set.mem_ofPred_eq] at hloc
        split_ifs at hloc with hroot hfile
        · exact Set.mem_insert_iff.mpr (.inl hroot)
        · exact Set.mem_insert_iff.mpr (.inr hfile)
        · cases hloc }
  cwd := []
  cwd_dir := rfl

/-- The directory `a` is reported as created, and it does not exist. -/
theorem file_counts_as_created :
    ∃ sys', zenitDirCreate true 0 oneFile (some [97, 0]) = .ok (.ok, sys') ∧
      zenitDirExists sys' (some [97, 0]) = 0 :=
  ⟨_, rfl, rfl⟩

/-- The directory `b` is created beside the file. -/
theorem created_beside_file :
    ∃ code sys', zenitDirCreate true 0 oneFile (some [98, 0]) = .ok (code, sys') ∧
      (code = .ok → Created oneFile sys' [98]) := by
  obtain ⟨code, sys', hcreate, hiff⟩ := dir_create_iff true 0 oneFile
    (⟨by decide, by decide⟩ : IsString [98]) (by decide) ⟨98, by decide, by decide⟩
  refine ⟨code, sys', hcreate, hiff.mpr fun _ hleads => ?_⟩
  obtain ⟨data, hfile⟩ := hleads.2
  cases hfile

end LibZenit.Dirs
