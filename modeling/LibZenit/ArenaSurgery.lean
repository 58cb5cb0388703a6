import LibZenit.ArenaLayout

/-!
# What the helpers of the sub-allocator do to a layout

Link surgery touches only the link words of listed headers; tag writes touch only size, state and
footer words. Each helper is first described by the bytes it leaves alone and then as a step
between layouts.
-/
namespace LibZenit.Arena
open ByteMemory LinkedChain

/-- `n` differs from `m` at most in the link words of the headers in `zs`. -/
def OffLinks (m n : Memory) (zs : List ℕ) : Prop :=
  ∀ x, (∀ z ∈ zs, x < z + 24 ∨ z + 40 ≤ x) → n x = m x

/-- Headers far enough apart that their link words cannot overlap. -/
def Spaced (zs : List ℕ) : Prop :=
  ∀ z ∈ zs, ∀ y ∈ zs, z ≠ y → z + minSplitTotal ≤ y ∨ y + minSplitTotal ≤ z

theorem Spaced.mono {ys zs : List ℕ} (h : Spaced zs) (hs : ∀ y ∈ ys, y ∈ zs) : Spaced ys :=
  fun z hz y hy => h z (hs z hz) y (hs y hy)

section LinkWords

variable {m : Memory} {a b v : ℕ}

theorem hNext_setNext_same (h : v < 2 ^ 64) : hNext (setNext m a v) a = v :=
  read_write_of_lt m h

theorem hPrev_setPrev_same (h : v < 2 ^ 64) : hPrev (setPrev m a v) a = v :=
  read_write_of_lt m h

theorem hNext_setNext_apart (h : a + 64 ≤ b ∨ b + 64 ≤ a) :
    hNext (setNext m a v) b = hNext m b :=
  read_write_of_disjoint m (by omega)

theorem hPrev_setPrev_apart (h : a + 64 ≤ b ∨ b + 64 ≤ a) :
    hPrev (setPrev m a v) b = hPrev m b :=
  read_write_of_disjoint m (by omega)

theorem hNext_setPrev (h : a = b ∨ a + 64 ≤ b ∨ b + 64 ≤ a) :
    hNext (setPrev m a v) b = hNext m b :=
  read_write_of_disjoint m (by omega)

theorem hPrev_setNext (h : a = b ∨ a + 64 ≤ b ∨ b + 64 ≤ a) :
    hPrev (setNext m a v) b = hPrev m b :=
  read_write_of_disjoint m (by omega)

theorem setNext_off {x : ℕ} (h : x < a + 24 ∨ a + 40 ≤ x) : setNext m a v x = m x :=
  write_apply_of_outside m (by omega)

theorem setPrev_off {x : ℕ} (h : x < a + 24 ∨ a + 40 ≤ x) : setPrev m a v x = m x :=
  write_apply_of_outside m (by omega)

end LinkWords

/-- The pointers of a linked list of 64-bit addresses are 64-bit values. -/
theorem DList.link_lt {m : Memory} {h : ℕ} {zs : List ℕ}
    (hd : DList (hNext m) (hPrev m) 0 h zs) (hb : ∀ z ∈ zs, z < 2 ^ 64) : h < 2 ^ 64 := by
  rw [hd.head_eq]
  cases zs with
  | nil => simp
  | cons z zs => exact hb z (by simp)

theorem hNext_lt (m : Memory) (a : ℕ) : hNext m a < 2 ^ 64 := read_lt m _ 8

theorem hPrev_lt (m : Memory) (a : ℕ) : hPrev m a < 2 ^ 64 := read_lt m _ 8

/-- The spacing facts between two listed headers, as one trichotomy. -/
theorem Spaced.cases {zs : List ℕ} (h : Spaced zs) {z y : ℕ} (hz : z ∈ zs) (hy : y ∈ zs) :
    z = y ∨ z + 64 ≤ y ∨ y + 64 ≤ z := by
  by_cases he : z = y
  · exact Or.inl he
  · exact Or.inr (h z hz y hy he)

theorem unlinkBlock_spec {m : Memory} {fl b : ℕ} {xs ys : List ℕ}
    (hd : DList (hNext m) (hPrev m) 0 fl (xs ++ b :: ys)) (sp : Spaced (xs ++ b :: ys)) :
    DList (hNext (unlinkBlock m fl b).1) (hPrev (unlinkBlock m fl b).1) 0
      (unlinkBlock m fl b).2 (xs ++ ys) ∧
    OffLinks m (unlinkBlock m fl b).1 (xs ++ ys) := by
  obtain ⟨-, -, hbx, hby, -⟩ := hd.append_facts
  have hp := hd.prev_eq
  have hn := hd.next_eq
  have hpm : hPrev m b ≠ 0 → hPrev m b ∈ xs := fun h => by
    rw [hp] at h ⊢
    exact getLastD_mem h
  have hnm : hNext m b ≠ 0 → hNext m b ∈ ys := fun h => by
    rw [hn] at h ⊢
    exact headD_mem h
  have hsub : ∀ z ∈ xs ++ ys, z ∈ xs ++ b :: ys := fun z hz => by
    rcases List.mem_append.mp hz with hz | hz <;> simp [hz]
  have hne : ∀ z ∈ xs ++ ys, z + 64 ≤ b ∨ b + 64 ≤ z := fun z hz =>
    sp z (hsub z hz) b (by simp) (by rintro rfl; simp [hbx, hby] at hz)
  have hcase : ∀ z ∈ xs ++ ys, ∀ y ∈ xs ++ ys, z = y ∨ z + 64 ≤ y ∨ y + 64 ≤ z :=
    fun z hz y hy => sp.cases (hsub z hz) (hsub y hy)
  -- the memory after the first conditional write
  obtain ⟨m1, hm1⟩ : ∃ m1, m1 = if hPrev m b ≠ 0 then setNext m (hPrev m b) (hNext m b) else m :=
    ⟨_, rfl⟩
  have hfst : (unlinkBlock m fl b).1 =
      if hNext m1 b ≠ 0 then setPrev m1 (hNext m1 b) (hPrev m1 b) else m1 := by
    unfold unlinkBlock
    by_cases h : hPrev m b ≠ 0 <;> simp [hm1, h]
  have hsnd : (unlinkBlock m fl b).2 = if hPrev m b = 0 then hNext m b else fl := by
    unfold unlinkBlock
    by_cases h : hPrev m b = 0 <;> simp [h]
  have e1 : hNext m1 b = hNext m b := by
    rw [hm1]
    split_ifs with h
    · exact hNext_setNext_apart (hne _ (by simp [hpm h]))
    · rfl
  have e2 : ∀ z, (z = b ∨ z ∈ xs ++ ys) → hPrev m1 z = hPrev m z := by
    intro z hz
    rw [hm1]
    split_ifs with h
    · refine hPrev_setNext ?_
      rcases hz with rfl | hz
      · exact Or.inr (hne _ (by simp [hpm h]))
      · exact hcase _ (by simp [hpm h]) z hz
    · rfl
  have e3 : ∀ z ∈ xs ++ ys, hNext m1 z = if z = hPrev m b then hNext m b else hNext m z := by
    intro z hz
    rw [hm1]
    split_ifs with h hz' hz'
    · rw [hz', hNext_setNext_same (hNext_lt m b)]
    · exact hNext_setNext_apart ((hcase _ (by simp [hpm h]) z hz).resolve_left (Ne.symm hz'))
    · exact absurd (hz'.trans (not_not.mp h)) (hd.nonnull z (hsub z hz))
    · rfl
  rw [hfst, hsnd, e1, e2 b (Or.inl rfl)]
  constructor
  · refine hd.unlink (fun z hz => ?_) fun z hz => ?_
    · rw [← e3 z hz]
      split_ifs with h
      · exact hNext_setPrev (hcase _ (by simp [hnm h]) z hz)
      · rfl
    · rw [← e2 z (Or.inr hz)]
      split_ifs with h hz' hz'
      · rw [hz', hPrev_setPrev_same (hPrev_lt m b)]
      · exact hPrev_setPrev_apart ((hcase _ (by simp [hnm h]) z hz).resolve_left (Ne.symm hz'))
      · exact absurd (hz'.trans (not_not.mp h)) (hd.nonnull z (hsub z hz))
      · rfl
  · intro x hx
    have h1 : m1 x = m x := by
      rw [hm1]
      split_ifs with h
      · exact setNext_off (hx _ (by simp [hpm h]))
      · rfl
    rw [← h1]
    split_ifs with h
    · exact setPrev_off (hx _ (by simp [hnm h]))
    · rfl

theorem pushFree_spec {m : Memory} {fl a : ℕ} {zs : List ℕ}
    (hd : DList (hNext m) (hPrev m) 0 fl zs) (sp : Spaced (a :: zs)) (ha : a ≠ 0)
    (hm : a ∉ zs) (hb : ∀ z ∈ a :: zs, z < 2 ^ 64) :
    DList (hNext (pushFree m fl a)) (hPrev (pushFree m fl a)) 0 a (a :: zs) ∧
    OffLinks m (pushFree m fl a) (a :: zs) := by
  have hfl : fl ≠ 0 → fl ∈ zs := fun h => by
    rw [hd.head_eq] at h ⊢
    exact headD_mem h
  have hlt : fl < 2 ^ 64 := DList.link_lt hd fun z hz => hb z (by simp [hz])
  have hne : ∀ z ∈ zs, a + 64 ≤ z ∨ z + 64 ≤ a := fun z hz =>
    sp a (by simp) z (by simp [hz]) (by rintro rfl; exact hm hz)
  have hcase : ∀ z ∈ zs, ∀ y ∈ zs, z = y ∨ z + 64 ≤ y ∨ y + 64 ≤ z :=
    fun z hz y hy => sp.cases (by simp [hz]) (by simp [hy])
  unfold pushFree
  constructor
  · refine hd.pushFront ha hm ?_ ?_ (fun z hz => ?_) fun z hz => ?_
    · dsimp only
      split_ifs with h
      · rw [hNext_setPrev (Or.inr (hne _ (hfl h)).symm), hNext_setPrev (Or.inl rfl),
          hNext_setNext_same hlt]
      · rw [hNext_setPrev (Or.inl rfl), hNext_setNext_same hlt]
    · dsimp only
      split_ifs with h
      · rw [hPrev_setPrev_apart (hne _ (hfl h)).symm, hPrev_setPrev_same (by norm_num)]
      · rw [hPrev_setPrev_same (by norm_num)]
    · dsimp only
      split_ifs with h
      · rw [hNext_setPrev (hcase _ (hfl h) z hz), hNext_setPrev (Or.inr (hne z hz)),
          hNext_setNext_apart (hne z hz)]
      · rw [hNext_setPrev (Or.inr (hne z hz)), hNext_setNext_apart (hne z hz)]
    · dsimp only
      split_ifs with h hz' hz'
      · rw [hz', hPrev_setPrev_same (hb a (by simp))]
      · rw [hPrev_setPrev_apart ((hcase _ (hfl h) z hz).resolve_left (Ne.symm hz')),
          hPrev_setPrev_apart (hne z hz), hPrev_setNext (Or.inr (hne z hz))]
      · exact absurd (hz'.trans (not_not.mp h)) (hd.nonnull z hz)
      · rw [hPrev_setPrev_apart (hne z hz), hPrev_setNext (Or.inr (hne z hz))]
  · intro x hx
    have hax := hx a (by simp)
    dsimp only
    split_ifs with h
    · rw [setPrev_off (hx _ (by simp [hfl h])), setPrev_off hax, setNext_off hax]
    · rw [setPrev_off hax, setNext_off hax]

theorem linkAfter_spec {m : Memory} {fl a s : ℕ} {xs ys : List ℕ}
    (hd : DList (hNext m) (hPrev m) 0 fl (xs ++ a :: ys)) (sp : Spaced (s :: (xs ++ a :: ys)))
    (hs : s ≠ 0) (hm : s ∉ xs ++ a :: ys) (hb : ∀ z ∈ s :: (xs ++ a :: ys), z < 2 ^ 64) :
    DList (hNext (linkAfter m a s)) (hPrev (linkAfter m a s)) 0 fl (xs ++ a :: s :: ys) ∧
    OffLinks m (linkAfter m a s) (s :: (xs ++ a :: ys)) := by
  obtain ⟨-, -, hax, hay, -⟩ := hd.append_facts
  have hq : hNext m a ≠ 0 → hNext m a ∈ ys := fun h => by
    rw [hd.next_eq] at h ⊢
    exact headD_mem h
  have hsub : ∀ z ∈ xs ++ ys, z ∈ xs ++ a :: ys := fun z hz => by
    rcases List.mem_append.mp hz with hz | hz <;> simp [hz]
  have hsz : ∀ z ∈ xs ++ a :: ys, s + 64 ≤ z ∨ z + 64 ≤ s := fun z hz =>
    sp s (by simp) z (List.mem_cons_of_mem _ hz) (by rintro rfl; exact hm hz)
  have haz : ∀ z ∈ xs ++ ys, a + 64 ≤ z ∨ z + 64 ≤ a := fun z hz =>
    sp a (by simp) z (List.mem_cons_of_mem _ (hsub z hz)) (by rintro rfl; simp [hax, hay] at hz)
  have hcase : ∀ z ∈ xs ++ ys, ∀ y ∈ xs ++ ys, z = y ∨ z + 64 ≤ y ∨ y + 64 ≤ z :=
    fun z hz y hy => sp.cases (List.mem_cons_of_mem _ (hsub z hz))
      (List.mem_cons_of_mem _ (hsub y hy))
  have hsa := hsz a (by simp)
  obtain ⟨m2, hm2⟩ : ∃ m2, m2 = setPrev (setNext m s (hNext m a)) s a := ⟨_, rfl⟩
  have e1 : ∀ z ∈ xs ++ a :: ys, hNext m2 z = hNext m z := fun z hz => by
    rw [hm2, hNext_setPrev (Or.inr (hsz z hz)), hNext_setNext_apart (hsz z hz)]
  have e2 : ∀ z ∈ xs ++ a :: ys, hPrev m2 z = hPrev m z := fun z hz => by
    rw [hm2, hPrev_setPrev_apart (hsz z hz), hPrev_setNext (Or.inr (hsz z hz))]
  have e3 : hNext m2 s = hNext m a := by
    rw [hm2, hNext_setPrev (Or.inl rfl), hNext_setNext_same (hNext_lt m a)]
  have e4 : hPrev m2 s = a := by rw [hm2, hPrev_setPrev_same (hb a (by simp))]
  have heq : linkAfter m a s =
      setNext (if hNext m a ≠ 0 then setPrev m2 (hNext m a) s else m2) a s := by
    have := e1 a (by simp)
    rw [hm2] at this
    unfold linkAfter
    simp only [this, hm2]
  rw [heq]
  constructor
  · refine hd.insertAfter hs hm ?_ ?_ ?_ (fun z hz => ?_) ?_ fun z hz => ?_
    · rw [hNext_setNext_apart hsa.symm]
      split_ifs with h
      · rw [hNext_setPrev (Or.inr (hsz _ (by simp [hq h])).symm), e3]
      · exact e3
    · rw [hPrev_setNext (Or.inr hsa.symm)]
      split_ifs with h
      · rw [hPrev_setPrev_apart (hsz _ (by simp [hq h])).symm, e4]
      · exact e4
    · exact hNext_setNext_same (hb s (by simp))
    · rw [hNext_setNext_apart (haz z hz), ← e1 z (hsub z hz)]
      split_ifs with h
      · exact hNext_setPrev (hcase _ (by simp [hq h]) z hz)
      · rfl
    · rw [hPrev_setNext (Or.inl rfl), ← e2 a (by simp)]
      split_ifs with h
      · exact hPrev_setPrev_apart (haz _ (by simp [hq h])).symm
      · rfl
    · rw [hPrev_setNext (Or.inr (haz z hz))]
      split_ifs with h hz' hz'
      · rw [hz', hPrev_setPrev_same (hb s (by simp))]
      · rw [hPrev_setPrev_apart ((hcase _ (by simp [hq h]) z hz).resolve_left (Ne.symm hz')),
          e2 z (hsub z hz)]
      · exact absurd (hz'.trans (not_not.mp h)) (hd.nonnull z (hsub z hz))
      · exact e2 z (hsub z hz)
  · intro x hx
    have h2 : m2 x = m x := by
      rw [hm2, setPrev_off (hx s (by simp)), setNext_off (hx s (by simp))]
    rw [setNext_off (hx a (by simp)), ← h2]
    split_ifs with h
    · exact setPrev_off (hx _ (by simp [hq h]))
    · rfl

end LibZenit.Arena
