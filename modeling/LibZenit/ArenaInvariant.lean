import LibZenit.ArenaSteps

/-!
# Allocation and release preserve the layout

`claim_block` always does. `zenit_usable_buffer_free` does as long as the block before the freed
one is in use; then the backward merge is not taken.
-/
namespace LibZenit.Arena
open ByteMemory LinkedChain

variable {m : Memory} {uaPtr lo hi fl : ℕ} {blocks L R : List Block} {chain xs ys : List ℕ}
  {b c : Block}

theorem coalesced_middle : Coalesced (L ++ b :: R) ↔ Coalesced L ∧ Coalesced R ∧
    (b.free = true → (∀ d ∈ L.getLast?, d.free = false) ∧ ∀ d ∈ R.head?, d.free = false) := by
  unfold Coalesced
  rw [List.isChain_append, List.isChain_cons]
  simp only [List.head?_cons, Option.mem_def, Option.some.injEq, forall_eq']
  constructor
  · rintro ⟨hL, ⟨hb, hR⟩, hj⟩
    refine ⟨hL, hR, fun hf => ⟨fun d hd => ?_, fun d hd => ?_⟩⟩
    · simpa [hf] using hj d hd
    · simpa [hf] using hb d hd
  · rintro ⟨hL, hR, hf⟩
    refine ⟨hL, ⟨fun d hd hbd => ?_, hR⟩, fun d hd hbd => ?_⟩
    · simp [(hf hbd.1).2 d hd] at hbd
    · simp [(hf hbd.2).1 d hd] at hbd

/-- The addresses beside a block differ from everything inside it. -/
theorem Tiles.beside (h : Tiles lo hi (L ++ b :: R)) (hc : c ∈ L ∨ c ∈ R) :
    c.addr + c.size ≤ b.addr ∨ b.addr + b.size ≤ c.addr := by
  obtain ⟨hL, -, hR⟩ := h.split
  rcases hc with hc | hc
  · exact Or.inl (hL.mem c hc).2.1
  · exact Or.inr (hR.mem c hc).1

/-- The blocks that stay in use when one more is taken. -/
def Takes (blocks blocks' : List Block) (b : Block) : Prop :=
  ∀ c : Block, c.free = false → (c ∈ blocks' ↔ c ∈ blocks ∨ c = b)

theorem Layout.claim_split {k : ℕ} (h : Layout m uaPtr lo hi fl (L ++ b :: R) (xs ++ b.addr :: ys))
    (hk : minSplitTotal ≤ k) (hr : k + minSplitTotal ≤ b.size) {aligned : ℕ}
    {r : Memory × ℕ × UsableBuffer} (he : claimBlock m uaPtr fl b.addr k aligned = r) :
    Layout r.1 uaPtr lo hi r.2.1
      (L ++ ⟨b.addr, k, false⟩ :: ⟨b.addr + k, b.size - k, true⟩ :: R)
      (xs ++ (b.addr + k) :: ys) := by
  have hf : b.free = true := (h.free b (by simp)).mp (by simp)
  have hk' := hk
  have hr' := hr
  simp only [minSplitTotal, headerSize, alignment, footerSize] at hk' hr'
  obtain ⟨-, -, hbx, hby, -⟩ := h.links.append_facts
  have h1 := h.toCore.split hf hk hr
  have h2 := h1.unlink (b := ⟨b.addr, k, true⟩)
  have hnot : (⟨b.addr, k, true⟩ : Block).addr ∉ xs ++ (b.addr + k) :: ys := by
    simp only [List.mem_append, List.mem_cons, not_or]
    exact ⟨hbx, by omega, hby⟩
  have h3 := (h2.clearLinks (b := ⟨b.addr, k, true⟩) (by simp) hnot).mark false
  dsimp only at h3
  rw [show Block.tag ⟨b.addr, k, false⟩ = bufInUse from rfl] at h3
  have heq : claimBlock m uaPtr fl b.addr k aligned =
      (footerSync (setState (setNext (setPrev (unlinkBlock (splitBlock m uaPtr b.addr k
        (b.size - k)) fl b.addr).1 b.addr 0) b.addr 0) b.addr bufInUse) b.addr,
        (unlinkBlock (splitBlock m uaPtr b.addr k (b.size - k)) fl b.addr).2,
        ⟨b.addr + headerSize, aligned⟩) := by
    unfold claimBlock
    simp only [(h.fields b (by simp)).size]
    rw [if_pos]
    simp only [minSplitTotal, headerSize, alignment, footerSize]
    omega
  rw [heq] at he
  subst he
  dsimp only
  refine ⟨h3, ?_, ?_⟩
  · intro c hc
    have hmem : ∀ c : Block, c ∈ L ∨ c ∈ R →
        (c.addr ∈ xs ++ (b.addr + k) :: ys ↔ c.free = true) := by
      intro c hc
      have hs : minSplitTotal ≤ c.size :=
        (h.tiles.mem c (by rcases hc with hc | hc <;> simp [hc])).2.2
      simp only [minSplitTotal, headerSize, alignment, footerSize] at hs
      rw [← h.free c (by rcases hc with hc | hc <;> simp [hc])]
      have hne1 : c.addr ≠ b.addr := by rcases h.tiles.beside hc with hb | hb <;> omega
      have hne2 : c.addr ≠ b.addr + k := by rcases h.tiles.beside hc with hb | hb <;> omega
      simp [hne1, hne2]
    simp only [List.mem_append, List.mem_cons] at hc
    rcases hc with hc | rfl | rfl | hc
    · exact hmem c (Or.inl hc)
    · simpa using hnot
    · simp
    · exact hmem c (Or.inr hc)
  · obtain ⟨hL, hR, hj⟩ := coalesced_middle.mp h.coalesced
    refine coalesced_middle.mpr ⟨hL, ?_, by simp⟩
    exact List.isChain_cons.mpr ⟨fun d hd => by simp [(hj hf).2 d hd], hR⟩

theorem Layout.claim_whole {k : ℕ} (h : Layout m uaPtr lo hi fl (L ++ b :: R) (xs ++ b.addr :: ys))
    (hr : b.size < k + minSplitTotal) {aligned : ℕ}
    {r : Memory × ℕ × UsableBuffer} (he : claimBlock m uaPtr fl b.addr k aligned = r) :
    Layout r.1 uaPtr lo hi r.2.1 (L ++ ⟨b.addr, b.size, false⟩ :: R) (xs ++ ys) := by
  obtain ⟨-, -, hbx, hby, -⟩ := h.links.append_facts
  have hnot : b.addr ∉ xs ++ ys := by simp [hbx, hby]
  have h3 := ((h.toCore.unlink).clearLinks (b := b) (by simp) hnot).mark false
  rw [show Block.tag ⟨b.addr, b.size, false⟩ = bufInUse from rfl] at h3
  have heq : claimBlock m uaPtr fl b.addr k aligned =
      (footerSync (setState (setNext (setPrev (unlinkBlock m fl b.addr).1 b.addr 0) b.addr 0)
        b.addr bufInUse) b.addr, (unlinkBlock m fl b.addr).2,
        ⟨b.addr + headerSize, aligned⟩) := by
    unfold claimBlock
    simp only [(h.fields b (by simp)).size]
    rw [if_neg]
    simp only [minSplitTotal, headerSize, alignment, footerSize] at hr ⊢
    omega
  rw [heq] at he
  subst he
  dsimp only
  refine ⟨h3, ?_, ?_⟩
  · have hmem : ∀ c : Block, c ∈ L ∨ c ∈ R → (c.addr ∈ xs ++ ys ↔ c.free = true) := by
      intro c hc
      have hs := (h.tiles.mem c (by rcases hc with hc | hc <;> simp [hc])).2.2
      have hs' := (h.tiles.mem b (by simp)).2.2
      simp only [minSplitTotal, headerSize, alignment, footerSize] at hs hs'
      rw [← h.free c (by rcases hc with hc | hc <;> simp [hc])]
      have hne : c.addr ≠ b.addr := by rcases h.tiles.beside hc with hb | hb <;> omega
      simp [hne]
    intro c hc
    simp only [List.mem_append, List.mem_cons] at hc
    rcases hc with hc | rfl | hc
    · exact hmem c (Or.inl hc)
    · simpa using hnot
    · exact hmem c (Or.inr hc)
  · obtain ⟨hL, hR, -⟩ := coalesced_middle.mp h.coalesced
    exact coalesced_middle.mpr ⟨hL, hR, by simp⟩

/-- Taking a fitting block from the free list: the buffer gets a block of its own that is at
least as large as needed, and no block in use changes. -/
theorem Layout.claim {k : ℕ} (h : Layout m uaPtr lo hi fl blocks chain) {walk : ℕ}
    (hw : walk ∈ chain) (hfit : k ≤ hSize m walk) (hk : minSplitTotal ≤ k) {aligned : ℕ}
    {r : Memory × ℕ × UsableBuffer} (he : claimBlock m uaPtr fl walk k aligned = r) :
    ∃ blocks' chain' n, k ≤ n ∧ Layout r.1 uaPtr lo hi r.2.1 blocks' chain' ∧
      (∀ c ∈ blocks, c.free = false → c.addr ≠ walk) ∧
      Takes blocks blocks' ⟨walk, n, false⟩ := by
  obtain ⟨b, hb, rfl⟩ := h.nodes walk hw
  obtain ⟨xs, ys, rfl⟩ := List.append_of_mem hw
  obtain ⟨L, R, rfl⟩ := List.append_of_mem hb
  have hf : b.free = true := (h.free b (by simp)).mp (by simp)
  have hused : ∀ c ∈ L ++ b :: R, c.free = false → c.addr ≠ b.addr := by
    intro c hc hcf he
    have := h.tiles.addr_injective c hc b (by simp) he
    simp [this, hf] at hcf
  rw [(h.fields b (by simp)).size] at hfit
  by_cases hr : k + minSplitTotal ≤ b.size
  · refine ⟨_, _, k, le_rfl, h.claim_split hk hr he, hused, fun c hcf => ?_⟩
    have hcb : c ≠ b := by rintro rfl; simp [hf] at hcf
    have hcs : c ≠ ⟨b.addr + k, b.size - k, true⟩ := by rintro rfl; simp at hcf
    simp only [List.mem_append, List.mem_cons, hcb, hcs, false_or]
    tauto
  · refine ⟨_, _, b.size, hfit, h.claim_whole (by omega) he, hused, fun c hcf => ?_⟩
    have hcb : c ≠ b := by rintro rfl; simp [hf] at hcf
    simp only [List.mem_append, List.mem_cons, hcb, false_or]
    tauto

/-- The forward half of a release. `b` is marked free but not listed yet; behind it stands no
free block any more. -/
theorem Layout.coalesce_next {ua : UsableArena} (h : Layout m uaPtr lo hi ua.freeList (L ++ b :: R) chain)
    (hb : b.free = false) (hhi : ua.memory + ua.size = hi) {r : Memory × ℕ}
    (he : coalesceNext (footerSync (setState m b.addr bufFree) b.addr) ua b.addr = r) :
    ∃ n R' chain', Core r.1 uaPtr lo hi r.2 (L ++ ⟨b.addr, n, true⟩ :: R') chain' ∧
      b.addr ∉ chain' ∧ (∀ c, c ∈ L ∨ c ∈ R' → (c.addr ∈ chain' ↔ c.free = true)) ∧
      Coalesced R' ∧ (∀ d ∈ R'.head?, d.free = false) ∧
      ∀ c : Block, c.free = false → (c ∈ R' ↔ c ∈ R) := by
  have hmark := h.toCore.mark true
  rw [show Block.tag ⟨b.addr, b.size, true⟩ = bufFree from rfl] at hmark
  obtain ⟨m0, hm0⟩ : ∃ m0, m0 = footerSync (setState m b.addr bufFree) b.addr := ⟨_, rfl⟩
  rw [← hm0] at he hmark
  have hsize : hSize m0 b.addr = b.size :=
    (hmark.fields ⟨b.addr, b.size, true⟩ (by simp)).size
  have hnot : b.addr ∉ chain := by
    rw [h.free b (by simp)]
    simp [hb]
  have hlist : ∀ c, c ∈ L ∨ c ∈ R → (c.addr ∈ chain ↔ c.free = true) := fun c hc =>
    h.free c (by rcases hc with hc | hc <;> simp [hc])
  obtain ⟨hL, hR, -⟩ := coalesced_middle.mp h.coalesced
  have hend := h.tiles.split.2.2
  unfold coalesceNext at he
  simp only [hsize, hhi] at he
  cases R with
  | nil =>
    rw [if_neg (by simp only [Tiles] at hend; omega)] at he
    subst he
    exact ⟨b.size, [], chain, hmark, hnot, hlist, hR, by simp, by simp⟩
  | cons c R =>
    obtain ⟨hca, hcs, hcR⟩ := hend
    have hlt : b.addr + b.size < hi := by
      have := hcR.le
      simp only [minSplitTotal, headerSize, alignment, footerSize] at hcs
      omega
    have hst : hState m0 (b.addr + b.size) = c.tag := by
      rw [← hca]
      exact (hmark.fields c (by simp)).state
    have hcsz : hSize m0 (b.addr + b.size) = c.size := by
      rw [← hca]
      exact (hmark.fields c (by simp)).size
    cases hc : c.free with
    | false =>
      rw [if_neg (by simp [hst, Block.tag, hc, bufFree, bufInUse])] at he
      subst he
      exact ⟨b.size, c :: R, chain, hmark, hnot, hlist, hR, by simpa using hc, by simp⟩
    | true =>
      rw [if_pos ⟨hlt, by simp [hst, Block.tag, hc]⟩, hcsz, ← hca] at he
      obtain ⟨xs, ys, rfl⟩ := List.append_of_mem ((hlist c (by simp)).mpr hc)
      have hmerge := hmark.mergeNext
      dsimp only at hmerge
      rw [he] at hmerge
      obtain ⟨-, -, hcx, hcy, -⟩ := h.links.append_facts
      obtain ⟨hc1, hc2⟩ := List.isChain_cons.mp hR
      refine ⟨b.size + c.size, R, xs ++ ys, hmerge, ?_, ?_, hc2, ?_, ?_⟩
      · intro hm
        apply hnot
        rcases List.mem_append.mp hm with hm | hm <;> simp [hm]
      · intro d hd
        have hdc : d.addr ≠ c.addr := by
          intro hda
          have hdm : d ∈ L ++ b :: c :: R := by rcases hd with hd | hd <;> simp [hd]
          obtain rfl := h.tiles.addr_injective d hdm c (by simp) hda
          -- a block cannot stand on both sides of itself
          have hpos := hcs
          simp only [minSplitTotal, headerSize, alignment, footerSize] at hpos
          rcases hd with hd | hd
          · have := (h.tiles.split.1.mem d hd).2.1
            omega
          · have := (hcR.mem d hd).1
            omega
        rw [← hlist d (by rcases hd with hd | hd <;> simp [hd])]
        simp [hdc]
      · intro d hd
        simpa [hc] using hc1 d hd
      · intro d hdf
        have : d ≠ c := by rintro rfl; simp [hc] at hdf
        simp [this]

/-- With a block in use before `b`, or none, the backward merge is not taken. -/
theorem coalescePrev_eq {ua : UsableArena} (h : Core m uaPtr lo hi fl (L ++ b :: R) chain)
    (hlo : ua.memory = lo) (hprev : ∀ d ∈ L.getLast?, d.free = false) :
    coalescePrev m ua b.addr = (m, b.addr) := by
  unfold coalescePrev
  obtain ⟨hL, -, -⟩ := h.tiles.split
  rcases List.eq_nil_or_concat L with rfl | ⟨L, d, rfl⟩
  · rw [if_neg]
    simp only [Tiles] at hL
    omega
  · rw [if_neg]
    rw [List.concat_eq_append] at hL h hprev
    obtain ⟨mid, -, hd1, -, hd2⟩ := tiles_append.mp hL
    have hfoot := (h.fields d (by simp)).footState
    have he : b.addr = d.addr + d.size := by simp only [Tiles] at hd2; omega
    have hused : d.free = false := hprev d (by simp)
    rw [← he] at hfoot
    simp [hfoot, Block.tag, hused, bufFree, bufInUse]

theorem Layout.release {ua : UsableArena} (h : Layout m uaPtr lo hi ua.freeList (L ++ b :: R) chain)
    (hb : b.free = false) (hlo : ua.memory = lo) (hhi : ua.memory + ua.size = hi)
    (hprev : ∀ d ∈ L.getLast?, d.free = false) {r s : Memory × ℕ}
    (hr : coalesceNext (footerSync (setState m b.addr bufFree) b.addr) ua b.addr = r)
    (hs : coalescePrev r.1 ua b.addr = s) :
    ∃ blocks' chain', Layout (pushFree s.1 r.2 s.2) uaPtr lo hi s.2 blocks' chain' ∧
      ∀ c : Block, c.free = false → (c ∈ blocks' ↔ c ∈ L ++ b :: R ∧ c ≠ b) := by
  obtain ⟨n, R', chain', hcore, hnot, hlist, hR', hhead, hused⟩ := h.coalesce_next hb hhi hr
  rw [coalescePrev_eq hcore hlo hprev] at hs
  subst hs
  have hpush := hcore.push (b := ⟨b.addr, n, true⟩) (by simp) hnot
  have hapart : ∀ c, c ∈ L ∨ c ∈ R' → c.addr ≠ b.addr := by
    intro c hc
    have h1 := (hcore.tiles.mem c (by rcases hc with hc | hc <;> simp [hc])).2.2
    have h2 := hcore.tiles.split.2.1
    simp only [minSplitTotal, headerSize, alignment, footerSize] at h1 h2
    rcases hcore.tiles.beside hc with hbc | hbc <;> dsimp only at hbc h2 <;> omega
  obtain ⟨hL, -, -⟩ := coalesced_middle.mp h.coalesced
  refine ⟨_, _, ⟨hpush, ?_, ?_⟩, ?_⟩
  · intro c hc
    simp only [List.mem_append, List.mem_cons] at hc
    rcases hc with hc | rfl | hc
    · simp [hapart c (Or.inl hc), hlist c (Or.inl hc)]
    · simp
    · simp [hapart c (Or.inr hc), hlist c (Or.inr hc)]
  · exact coalesced_middle.mpr ⟨hL, hR', fun _ => ⟨hprev, hhead⟩⟩
  · intro c hc
    have h1 : c ≠ ⟨b.addr, n, true⟩ := by rintro rfl; simp at hc
    have h2 : c ∈ L ∨ c ∈ R' → c ≠ b := fun hm he => hapart c hm (he ▸ rfl)
    have h3 := hused c hc
    simp only [List.mem_append, List.mem_cons, h1, false_or]
    tauto

end LibZenit.Arena
