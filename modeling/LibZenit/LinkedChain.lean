import Mathlib.Tactic

/-!
# Doubly linked chains

The nodes are drawn from an arbitrary type with a distinguished `null`; the links are two
functions. `DList` says that `next` enumerates a list of nodes from a head pointer and that
`prev` is its exact inverse. The surgeries below take the new links only by their values on the
nodes of the list, so a memory or an array can supply them.
-/
namespace LibZenit.LinkedChain

variable {α : Type*} {next prev next' prev' : α → α} {null h p t x y : α} {xs ys : List α}

/-- Following `next` from `h` visits exactly the listed nodes and then stands at `t`. -/
def Seg (next : α → α) : α → List α → α → Prop
  | h, [], t => h = t
  | h, x :: xs, t => h = x ∧ Seg next (next x) xs t

/-- Every listed node points back to its predecessor; the first one points to `p`. -/
def Back (prev : α → α) : α → List α → Prop
  | _, [] => True
  | p, x :: xs => prev x = p ∧ Back prev x xs

/-- A null-terminated doubly linked list with head pointer `h`. -/
structure DList (next prev : α → α) (null h : α) (xs : List α) : Prop where
  seg : Seg next h xs null
  back : Back prev null xs
  nodup : xs.Nodup
  nonnull : ∀ z ∈ xs, z ≠ null

theorem Seg.congr (hs : Seg next h xs t) (hn : ∀ z ∈ xs, next' z = next z) :
    Seg next' h xs t := by
  induction xs generalizing h with
  | nil => exact hs
  | cons x xs ih =>
    refine ⟨hs.1, ?_⟩
    rw [hn x (by simp)]
    exact ih hs.2 fun z hz => hn z (by simp [hz])

theorem Back.congr (hb : Back prev p xs) (hp : ∀ z ∈ xs, prev' z = prev z) :
    Back prev' p xs := by
  induction xs generalizing p with
  | nil => trivial
  | cons x xs ih =>
    exact ⟨(hp x (by simp)).trans hb.1, ih hb.2 fun z hz => hp z (by simp [hz])⟩

theorem DList.congr (hd : DList next prev null h xs) (hn : ∀ z ∈ xs, next' z = next z)
    (hp : ∀ z ∈ xs, prev' z = prev z) : DList next' prev' null h xs :=
  ⟨hd.seg.congr hn, hd.back.congr hp, hd.nodup, hd.nonnull⟩

theorem seg_append : Seg next h (xs ++ ys) t ↔ ∃ m, Seg next h xs m ∧ Seg next m ys t := by
  induction xs generalizing h with
  | nil => simp [Seg]
  | cons x xs ih => simp [Seg, ih, and_assoc]

theorem back_append : Back prev p (xs ++ ys) ↔ Back prev p xs ∧ Back prev (xs.getLastD p) ys := by
  induction xs generalizing p with
  | nil => simp [Back]
  | cons x xs ih =>
    simp only [List.cons_append, Back, ih, List.getLastD_cons, and_assoc]

theorem Seg.head_eq (hs : Seg next h xs t) : h = xs.headD t := by
  cases xs with
  | nil => exact hs
  | cons x xs => exact hs.1

/-- The nodes met on the way to a fixed end point are determined by the start. -/
theorem Seg.unique (hx : Seg next h xs null) (hy : Seg next h ys null)
    (nx : ∀ z ∈ xs, z ≠ null) (ny : ∀ z ∈ ys, z ≠ null) : xs = ys := by
  induction xs generalizing h ys with
  | nil =>
    cases ys with
    | nil => rfl
    | cons y ys => exact absurd (hy.1.symm.trans hx) (ny y (by simp))
  | cons x xs ih =>
    cases ys with
    | nil => exact absurd (hx.1.symm.trans hy) (nx x (by simp))
    | cons y ys =>
      obtain rfl : x = y := hx.1.symm.trans hy.1
      rw [ih hx.2 hy.2 (fun z hz => nx z (by simp [hz])) fun z hz => ny z (by simp [hz])]

theorem DList.head_eq (hd : DList next prev null h xs) : h = xs.headD null := hd.seg.head_eq

theorem DList.nil : DList next prev null null [] := ⟨rfl, trivial, List.nodup_nil, by simp⟩

theorem DList.next_eq (hd : DList next prev null h (xs ++ x :: ys)) : next x = ys.headD null := by
  obtain ⟨m, -, hx⟩ := seg_append.mp hd.seg
  exact hx.2.head_eq

theorem DList.prev_eq (hd : DList next prev null h (xs ++ x :: ys)) :
    prev x = xs.getLastD null := (back_append.mp hd.back).2.1

/-- The links back are the links forward of the list read from its end. -/
theorem Back.reverse (hb : Back prev p xs) : Seg prev (xs.getLastD p) xs.reverse p := by
  induction xs generalizing p with
  | nil => rfl
  | cons x xs ih =>
    rw [List.reverse_cons, List.getLastD_cons]
    exact seg_append.mpr ⟨x, ih hb.2, rfl, hb.1⟩

theorem Seg.reverse (hs : Seg next h xs t) : Back next t xs.reverse := by
  induction xs generalizing h with
  | nil => trivial
  | cons x xs ih =>
    rw [List.reverse_cons]
    refine back_append.mpr ⟨ih hs.2, ?_, trivial⟩
    rw [hs.2.head_eq]
    cases xs <;> simp

theorem DList.reverse (hd : DList next prev null h xs) :
    DList prev next null (xs.getLastD null) xs.reverse :=
  ⟨hd.back.reverse, hd.seg.reverse, List.nodup_reverse.mpr hd.nodup,
    fun z hz => hd.nonnull z (List.mem_reverse.mp hz)⟩

theorem getLastD_mem {d : α} (h : xs.getLastD d ≠ d) : xs.getLastD d ∈ xs := by
  rcases List.eq_nil_or_concat xs with rfl | ⟨us, u, rfl⟩
  · simp at h
  · simp

theorem headD_mem {d : α} (h : xs.headD d ≠ d) : xs.headD d ∈ xs := by
  cases xs with
  | nil => simp at h
  | cons x xs => simp

/-- Redirecting the last link of a segment. -/
theorem Seg.retarget (hs : Seg next h xs t) (nd : xs.Nodup) {t' : α}
    (hn : ∀ us u, xs = us ++ [u] → (∀ z ∈ us, next' z = next z) ∧ next' u = t') :
    Seg next' (if xs = [] then t' else h) xs t' := by
  rcases List.eq_nil_or_concat xs with rfl | ⟨us, u, rfl⟩
  · simp [Seg]
  · obtain ⟨hu, hlast⟩ := hn us u (by simp)
    simp only [List.concat_eq_append] at hs ⊢
    obtain ⟨m, hm, he⟩ := seg_append.mp hs
    rw [if_neg (by simp)]
    exact seg_append.mpr ⟨m, hm.congr hu, he.1, hlast⟩

theorem DList.append_facts (hd : DList next prev null h (xs ++ x :: ys)) :
    xs.Nodup ∧ ys.Nodup ∧ x ∉ xs ∧ x ∉ ys ∧ (∀ z ∈ xs, z ∉ ys) := by
  have nd := List.nodup_append.mp hd.nodup
  have ny := List.nodup_cons.mp nd.2.1
  exact ⟨nd.1, ny.2, fun hx => nd.2.2 x hx x (by simp) rfl, ny.1,
    fun z hz hy => nd.2.2 z hz z (by simp [hy]) rfl⟩

variable [DecidableEq α]

/-- Unlink a node: its neighbours are joined and its own links no longer matter. -/
theorem DList.unlink (hd : DList next prev null h (xs ++ x :: ys))
    (hn : ∀ z ∈ xs ++ ys, next' z = if z = prev x then next x else next z)
    (hp : ∀ z ∈ xs ++ ys, prev' z = if z = next x then prev x else prev z) :
    DList next' prev' null (if prev x = null then next x else h) (xs ++ ys) := by
  obtain ⟨ndx, ndy, hxx, hxy, hdis⟩ := hd.append_facts
  have hpx := hd.prev_eq
  have hnx := hd.next_eq
  have nn : ∀ z ∈ xs ++ ys, z ≠ null := fun z hz => hd.nonnull z (by
    rcases List.mem_append.mp hz with hz | hz <;> simp [hz])
  have nd : (xs ++ ys).Nodup := List.nodup_append.mpr
    ⟨ndx, ndy, fun a ha b hb hab => hdis a ha (hab ▸ hb)⟩
  obtain ⟨m, hsx, hsy⟩ := seg_append.mp hd.seg
  have hbx := (back_append.mp hd.back).1
  have hby := (back_append.mp hd.back).2.2
  have hys : ∀ z ∈ ys, next' z = next z := by
    intro z hz
    rw [hn z (by simp [hz]), if_neg]
    rintro rfl
    rcases List.eq_nil_or_concat xs with rfl | ⟨us, u, rfl⟩
    · exact nn (prev x) (by simp [hz]) (by simpa using hpx)
    · exact hdis u (by simp) (by simpa [hpx] using hz)
  have hxs : ∀ z ∈ xs, prev' z = prev z := by
    intro z hz
    rw [hp z (by simp [hz]), if_neg]
    rintro rfl
    cases ys with
    | nil => exact nn (next x) (by simp [hz]) (by simpa using hnx)
    | cons y ys => exact hdis (next x) hz (by simp [hnx])
  refine ⟨?_, back_append.mpr ⟨hbx.congr hxs, ?_⟩, nd, nn⟩
  · refine seg_append.mpr ⟨next x, ?_, hsy.2.congr hys⟩
    have hhead : (if prev x = null then next x else h) = if xs = [] then next x else h := by
      rw [hpx]
      rcases List.eq_nil_or_concat xs with rfl | ⟨us, u, rfl⟩
      · simp
      · simpa using fun he => absurd he (nn u (by simp))
    rw [hhead]
    refine hsx.retarget ndx fun us u he => ?_
    subst he
    have hlast : prev x = u := by simpa using hpx
    refine ⟨fun z hz => ?_, ?_⟩
    · rw [hn z (by simp [hz]), if_neg]
      rintro rfl
      exact (List.nodup_append.mp ndx).2.2 _ hz u (by simp) hlast
    · rw [hn u (by simp), if_pos hlast.symm]
  · cases ys with
    | nil => trivial
    | cons y ys =>
      have hy : next x = y := by simpa using hnx
      refine ⟨?_, hby.2.congr fun z hz => ?_⟩
      · rw [hp y (by simp), if_pos hy.symm, hpx]
      · rw [hp z (by simp [hz]), if_neg]
        rintro rfl
        exact (List.nodup_cons.mp ndy).1 (hy ▸ hz)

/-- Push a fresh node in front of the list. -/
theorem DList.pushFront (hd : DList next prev null h xs) (hx : x ≠ null) (hm : x ∉ xs)
    (hnx : next' x = h) (hpx : prev' x = null) (hn : ∀ z ∈ xs, next' z = next z)
    (hp : ∀ z ∈ xs, prev' z = if z = h then x else prev z) :
    DList next' prev' null x (x :: xs) := by
  refine ⟨⟨rfl, hnx ▸ hd.seg.congr hn⟩, ⟨hpx, ?_⟩, List.nodup_cons.mpr ⟨hm, hd.nodup⟩, ?_⟩
  · cases xs with
    | nil => trivial
    | cons y ys =>
      have hy : h = y := hd.head_eq
      refine ⟨by rw [hp y (by simp), if_pos hy.symm], hd.back.2.congr fun z hz => ?_⟩
      rw [hp z (by simp [hz]), if_neg]
      rintro rfl
      exact (List.nodup_cons.mp hd.nodup).1 (hy ▸ hz)
  · intro z hz
    rcases List.mem_cons.mp hz with rfl | hz
    · exact hx
    · exact hd.nonnull z hz

/-- Insert a fresh node `y` right behind the node `x`. -/
theorem DList.insertAfter (hd : DList next prev null h (xs ++ x :: ys)) (hy : y ≠ null)
    (hm : y ∉ xs ++ x :: ys) (hny : next' y = next x) (hpy : prev' y = x) (hnx : next' x = y)
    (hn : ∀ z ∈ xs ++ ys, next' z = next z) (hpx : prev' x = prev x)
    (hp : ∀ z ∈ xs ++ ys, prev' z = if z = next x then y else prev z) :
    DList next' prev' null h (xs ++ x :: y :: ys) := by
  obtain ⟨ndx, ndy, hxx, hxy, hdis⟩ := hd.append_facts
  have hnext := hd.next_eq
  obtain ⟨m, hsx, hsy⟩ := seg_append.mp hd.seg
  obtain ⟨hbx, hbx', hby⟩ := back_append.mp hd.back
  have hxs : ∀ z ∈ xs, prev' z = prev z := by
    intro z hz
    rw [hp z (by simp [hz]), if_neg]
    rintro rfl
    cases ys with
    | nil => exact hd.nonnull (next x) (by simp [hz]) (by simpa using hnext)
    | cons w ys => exact hdis (next x) hz (by simp [hnext])
  refine ⟨?_, back_append.mpr ⟨hbx.congr hxs, hpx.trans hbx', hpy, ?_⟩, ?_, ?_⟩
  · refine seg_append.mpr ⟨m, hsx.congr fun z hz => hn z (by simp [hz]), hsy.1, hnx, ?_⟩
    rw [hny]
    exact hsy.2.congr fun z hz => hn z (by simp [hz])
  · cases ys with
    | nil => trivial
    | cons w ys =>
      have hw : next x = w := by simpa using hnext
      refine ⟨by rw [hp w (by simp), if_pos hw.symm], hby.2.congr fun z hz => ?_⟩
      rw [hp z (by simp [hz]), if_neg]
      rintro rfl
      exact (List.nodup_cons.mp ndy).1 (hw ▸ hz)
  · have hperm : (xs ++ x :: y :: ys).Perm (y :: (xs ++ x :: ys)) := by
      rw [show xs ++ x :: y :: ys = (xs ++ [x]) ++ y :: ys by simp,
        show xs ++ x :: ys = (xs ++ [x]) ++ ys by simp]
      exact List.perm_middle
    exact hperm.nodup_iff.mpr (List.nodup_cons.mpr ⟨hm, hd.nodup⟩)
  · intro z hz
    by_cases hzy : z = y
    · exact hzy ▸ hy
    · exact hd.nonnull z (by simpa [hzy] using hz)

end LibZenit.LinkedChain
