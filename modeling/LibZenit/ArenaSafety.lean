import LibZenit.ArenaInvariant

/-!
# The client actions preserve the session invariant

`Represents` ties the buffers the client holds to the blocks in use. One lemma per action shows
that it survives, for a free under the condition that the block before the freed one is in use.
-/
namespace LibZenit.Arena
open ByteMemory LinkedChain

/-! ## Request sizes -/

theorem land_align {x : ℕ} (h : x < 2 ^ 64) : x &&& (2 ^ 64 - 8) = x / 8 * 8 := by
  have hmask : 2 ^ 64 - 8 = (2 ^ 61 - 1) <<< 3 := by norm_num [Nat.shiftLeft_eq]
  have hround : x / 8 * 8 = (x >>> 3) <<< 3 := by
    rw [Nat.shiftRight_eq_div_pow, Nat.shiftLeft_eq]
  apply Nat.eq_of_testBit_eq
  intro i
  rw [hround, hmask, Nat.testBit_and, Nat.testBit_shiftLeft, Nat.testBit_shiftLeft,
    Nat.testBit_two_pow_sub_one, Nat.testBit_shiftRight]
  by_cases h3 : i ≥ 3
  · rw [show 3 + (i - 3) = i by omega]
    by_cases h64 : i < 64
    · simp [h3, show i - 3 < 61 by omega]
    · have : x.testBit i = false := Nat.testBit_lt_two_pow
        (h.trans_le (Nat.pow_le_pow_right (by norm_num) (by omega)))
      simp [this]
  · simp [h3]

theorem alignUp_eq {n : ℕ} (h : n ≤ sizeMax - 7) : alignUp n = (n + 7) / 8 * 8 := by
  unfold sizeMax at h
  unfold alignUp alignment sizeMax
  rw [if_neg (by omega)]
  exact land_align (by omega)

theorem alignUp_ge {n : ℕ} (h0 : n ≠ 0) (h : alignUp n ≠ sizeMax) :
    n ≤ alignUp n ∧ alignment ≤ alignUp n := by
  by_cases hn : n ≤ sizeMax - 7
  · rw [alignUp_eq hn]
    unfold alignment
    omega
  · exact absurd (by unfold alignUp alignment; rw [if_pos (by omega)]) h

/-! ## The walk over the free list -/

section Walk

variable {m : Memory} {k fl : ℕ} {chain : List ℕ}

theorem findFit_mem (hs : Seg (hNext m) fl chain 0) (h0 : ∀ z ∈ chain, z ≠ 0) {fuel walk : ℕ}
    (h : findFit m k fuel fl = some (some walk)) : walk ∈ chain ∧ k ≤ hSize m walk := by
  induction fuel generalizing fl chain with
  | zero => simp [findFit] at h
  | succ fuel ih =>
    cases chain with
    | nil =>
      obtain rfl : fl = 0 := hs
      simp [findFit] at h
    | cons z chain =>
      obtain ⟨rfl, hs⟩ := hs
      rw [findFit, if_neg (h0 fl (by simp))] at h
      split_ifs at h with hfit
      · obtain rfl : fl = walk := by simpa using h
        exact ⟨by simp, hfit.2⟩
      · obtain ⟨hm, hk⟩ := ih hs (fun y hy => h0 y (by simp [hy])) h
        exact ⟨by simp [hm], hk⟩

/-- On a null-terminated list the walk ends, whatever the request. -/
theorem findFit_terminates (hs : Seg (hNext m) fl chain 0) (h0 : ∀ z ∈ chain, z ≠ 0) (k : ℕ) :
    ∃ r, findFit m k (chain.length + 1) fl = some r := by
  induction chain generalizing fl with
  | nil =>
    obtain rfl : fl = 0 := hs
    exact ⟨none, by simp [findFit]⟩
  | cons z chain ih =>
    obtain ⟨rfl, hs⟩ := hs
    rw [List.length_cons, findFit, if_neg (h0 fl (by simp))]
    split_ifs
    · exact ⟨some fl, rfl⟩
    · exact ih hs fun y hy => h0 y (by simp [hy])

end Walk

/-! ## The session invariant -/

/-- The buffers the client holds are exactly the blocks in use. -/
structure Represents (uaPtr lo hi : ℕ) (s : Session) (ua : UsableArena) (blocks : List Block)
    (chain : List ℕ) : Prop where
  handle : s.world.handles uaPtr = some ua
  memory : ua.memory = lo
  stop : ua.memory + ua.size = hi
  layout : Layout s.world.mem uaPtr lo hi ua.freeList blocks chain
  distinct : (s.live.map UsableBuffer.data).Nodup
  owned : ∀ buf ∈ s.live, ∃ b ∈ blocks, b.free = false ∧ buf.data = b.addr + headerSize ∧
    headerSize + buf.size + footerSize ≤ b.size
  held : ∀ b ∈ blocks, b.free = false → ∃ buf ∈ s.live, buf.data = b.addr + headerSize

def Consistent (uaPtr lo hi : ℕ) (s : Session) : Prop :=
  ∃ ua blocks chain, Represents uaPtr lo hi s ua blocks chain

variable {uaPtr lo hi fuel : ℕ} {s u : Session} {ua : UsableArena} {blocks : List Block}
  {chain : List ℕ}

theorem Represents.allocate (h : Represents uaPtr lo hi s ua blocks chain) {size : ℕ}
    (hw : alignUp size = sizeMax ∨ headerSize + alignUp size + footerSize ≤ sizeMax) {w : World}
    {buf : UsableBuffer}
    (he : usableArenaAllocate fuel s.world uaPtr size = some (w, buf)) :
    Consistent uaPtr lo hi ⟨w, if buf.data = 0 then s.live else buf :: s.live⟩ := by
  have hsame : Consistent uaPtr lo hi ⟨s.world, s.live⟩ := ⟨ua, blocks, chain, h⟩
  unfold usableArenaAllocate at he
  dsimp only at he
  split_ifs at he with h0 hmax
  · obtain ⟨rfl, rfl⟩ := by simpa using he
    simpa using hsame
  · obtain ⟨rfl, rfl⟩ := by simpa using he
    simpa using hsame
  · have halign := (alignUp_ge (fun hz => h0 (Or.inr hz)) hmax).2
    have hsum := hw.resolve_left hmax
    rw [h.handle, wrap_of_lt (by unfold sizeMax at hsum; omega)] at he
    dsimp only at he
    cases hfind : findFit s.world.mem (headerSize + alignUp size + footerSize) fuel
      ua.freeList with
    | none => simp [hfind] at he
    | some found =>
      cases found with
      | none =>
        obtain ⟨rfl, rfl⟩ := by simpa [hfind] using he
        simpa using hsame
      | some walk =>
        rw [hfind] at he
        dsimp only at he
        obtain ⟨hmem, hfit⟩ := findFit_mem h.layout.links.seg h.layout.links.nonnull hfind
        obtain ⟨r, hr⟩ : ∃ r, claimBlock s.world.mem uaPtr ua.freeList walk
            (headerSize + alignUp size + footerSize) (alignUp size) = r := ⟨_, rfl⟩
        have hbuf : r.2.2 = ⟨walk + headerSize, alignUp size⟩ := by
          rw [← hr]
          rfl
        rw [hr] at he
        obtain ⟨blocks', chain', n, hn, hlay, hfresh, htakes⟩ := h.layout.claim hmem hfit
          (by unfold minSplitTotal; omega) hr
        obtain ⟨rfl, rfl⟩ := by simpa [hbuf] using he
        rw [if_neg (by simp [headerSize])]
        refine ⟨{ ua with freeList := r.2.1 }, blocks', chain', by simp, h.memory, h.stop,
          hlay, ?_, ?_, ?_⟩
        · rw [List.map_cons, List.nodup_cons]
          refine ⟨fun hm => ?_, h.distinct⟩
          obtain ⟨old, hold, hd⟩ := List.mem_map.mp hm
          obtain ⟨b, hb, hbf, hbd, -⟩ := h.owned old hold
          dsimp only at hd
          exact hfresh b hb hbf (by omega)
        · intro buf hb
          rcases List.mem_cons.mp hb with rfl | hb
          · exact ⟨⟨walk, n, false⟩, (htakes _ rfl).mpr (Or.inr rfl), rfl, rfl, hn⟩
          · obtain ⟨b, hbm, hbf, hbd⟩ := h.owned buf hb
            exact ⟨b, (htakes b hbf).mpr (Or.inl hbm), hbf, hbd⟩
        · intro b hb hbf
          rcases (htakes b hbf).mp hb with hb | rfl
          · obtain ⟨buf, hm, hd⟩ := h.held b hb hbf
            exact ⟨buf, by simp [hm], hd⟩
          · exact ⟨⟨walk + headerSize, alignUp size⟩, by simp, rfl⟩

/-- Right behind a free block, the code's test for the backward merge succeeds. -/
theorem Layout.precededByFree {m : Memory} {fl : ℕ} {L R : List Block} {b d : Block}
    (h : Layout m uaPtr lo hi fl (L ++ b :: R) chain) (hlo : ua.memory = lo)
    (hd : d ∈ L.getLast?) (hf : d.free = true) : PrecededByFree m ua b.addr := by
  obtain ⟨L, rfl⟩ : ∃ L', L = L' ++ [d] := by
    rcases List.eq_nil_or_concat L with rfl | ⟨L', e, rfl⟩
    · simp at hd
    · exact ⟨L', by simpa using hd⟩
  obtain ⟨hL, -, -⟩ := h.tiles.split
  obtain ⟨mid, hmid, hd1, hds, hd2⟩ := tiles_append.mp hL
  simp only [minSplitTotal, headerSize, alignment, footerSize] at hds
  have he : b.addr = d.addr + d.size := by simp only [Tiles] at hd2; omega
  have hfld := h.fields d (by simp)
  have htag : d.tag = bufFree := by simp [Block.tag, hf]
  have hsz : fSize m (b.addr - footerSize) = d.size := by rw [he]; exact hfld.footSize
  have hlow := hmid.le
  refine ⟨by omega, ?_, ?_⟩
  · rw [he, ← htag]
    exact hfld.footState
  · rw [hsz, he, Nat.add_sub_cancel, ← htag]
    exact hfld.state

theorem Represents.free (h : Represents uaPtr lo hi s ua blocks chain) {buf : UsableBuffer}
    (hm : buf ∈ s.live) (hc : NoBackwardMerge uaPtr s (.free buf)) {w : World} {e : ZenitError}
    (he : usableBufferFree s.world (some buf) = some (w, e)) :
    Consistent uaPtr lo hi ⟨w, s.live.erase buf⟩ := by
  obtain ⟨b, hb, hbf, hbd, hbs⟩ := h.owned buf hm
  obtain ⟨L, R, rfl⟩ := List.append_of_mem hb
  have hfld := h.layout.fields b (by simp)
  have hdata : buf.data - headerSize = b.addr := by omega
  have hst : hState s.world.mem b.addr = bufInUse := by rw [hfld.state]; simp [Block.tag, hbf]
  have hmark := h.layout.toCore.mark true
  rw [show Block.tag ⟨b.addr, b.size, true⟩ = bufFree from rfl] at hmark
  have hua := (hmark.fields ⟨b.addr, b.size, true⟩ (by simp)).owner
  dsimp only at hua
  unfold usableBufferFree at he
  dsimp only at he
  rw [if_neg (by rw [hbd]; simp [headerSize]), hdata, if_neg (by simp [hst]), hua, h.handle] at he
  dsimp only at he
  have hprev : ∀ d ∈ L.getLast?, d.free = false := by
    intro d hd
    cases hdf : d.free with
    | false => rfl
    | true =>
      have := h.layout.precededByFree h.memory hd hdf
      rw [← hdata] at this
      exact absurd this (hc ua h.handle)
  obtain ⟨r, hr⟩ : ∃ r, coalesceNext (footerSync (setState s.world.mem b.addr bufFree) b.addr) ua
    b.addr = r := ⟨_, rfl⟩
  obtain ⟨t, ht⟩ : ∃ t, coalescePrev r.1 ua b.addr = t := ⟨_, rfl⟩
  rw [hr, ht] at he
  obtain ⟨blocks', chain', hlay, hdrop⟩ := h.layout.release hbf h.memory h.stop hprev hr ht
  obtain ⟨rfl, -⟩ := by simpa using he
  have herase : ∀ x ∈ s.live.erase buf, x ∈ s.live ∧ x.data ≠ buf.data := by
    intro x hx
    refine ⟨List.mem_of_mem_erase hx, fun hxd => ?_⟩
    have hnodup : s.live.Nodup := List.Nodup.of_map _ h.distinct
    have hxb : x = buf :=
      List.inj_on_of_nodup_map h.distinct (List.mem_of_mem_erase hx) hm hxd
    exact (List.Nodup.mem_erase_iff hnodup).mp hx |>.1 hxb
  refine ⟨{ ua with freeList := t.2 }, blocks', chain', by simp, h.memory, h.stop, hlay, ?_, ?_,
    ?_⟩
  · exact h.distinct.sublist (List.erase_sublist.map _)
  · intro x hx
    obtain ⟨hxm, hxd⟩ := herase x hx
    obtain ⟨c, hc, hcf, hcd⟩ := h.owned x hxm
    refine ⟨c, (hdrop c hcf).mpr ⟨hc, ?_⟩, hcf, hcd⟩
    rintro rfl
    exact hxd (hcd.1.trans hbd.symm)
  · intro c hc hcf
    obtain ⟨hcm, hcb⟩ := (hdrop c hcf).mp hc
    obtain ⟨x, hx, hxd⟩ := h.held c hcm hcf
    refine ⟨x, (List.mem_erase_of_ne ?_).mpr hx, hxd⟩
    rintro rfl
    exact hcb (h.layout.tiles.addr_injective c hcm b (by simp) (by omega))

/-- A layout does not depend on payload bytes. -/
theorem Layout.congr {m n : Memory} {fl : ℕ} (h : Layout m uaPtr lo hi fl blocks chain)
    (head : ∀ b ∈ blocks, ∀ x, b.addr ≤ x → x < b.addr + headerSize → n x = m x)
    (foot : ∀ b ∈ blocks, ∀ x, b.addr + b.size - footerSize ≤ x → x < b.addr + b.size →
      n x = m x) : Layout n uaPtr lo hi fl blocks chain := by
  refine ⟨⟨h.owner, h.base, h.bound, h.tiles, fun b hb => ?_, ?_, h.nodes⟩, h.free, h.coalesced⟩
  · apply (h.fields b hb).congr (h.tiles.mem b hb).2.2
    · intro x hl hr
      exact head b hb x hl (by unfold headerSize; omega)
    · exact foot b hb
  · apply DList.link_congr h.links
    intro z hz x hl hr
    obtain ⟨b, hb, rfl⟩ := h.nodes z hz
    exact head b hb x (by omega) (by unfold headerSize; omega)

theorem Represents.store (h : Represents uaPtr lo hi s ua blocks chain) {addr : ℕ} {byte : UInt8}
    (ho : Owns s.live addr) : Consistent uaPtr lo hi
      { s with world := { s.world with mem := Function.update s.world.mem addr byte } } := by
  obtain ⟨buf, hbuf, hl, hr⟩ := ho
  obtain ⟨b, hb, -, hbd, hbs⟩ := h.owned buf hbuf
  have hlay : Layout (Function.update s.world.mem addr byte) uaPtr lo hi ua.freeList blocks
      chain := by
    apply h.layout.congr
    · intro c hc x hx1 hx2
      apply Function.update_of_ne
      have hs := (h.layout.tiles.mem c hc).2.2
      simp only [minSplitTotal, headerSize, alignment, footerSize] at *
      by_cases he : b = c
      · subst he; omega
      · rcases h.layout.tiles.apart hb hc he with ha | ha <;> omega
    · intro c hc x hx1 hx2
      apply Function.update_of_ne
      have hs := (h.layout.tiles.mem c hc).2.2
      simp only [minSplitTotal, headerSize, alignment, footerSize] at *
      by_cases he : b = c
      · subst he; omega
      · rcases h.layout.tiles.apart hb hc he with ha | ha <;> omega
  exact ⟨ua, blocks, chain, h.handle, h.memory, h.stop, hlay, h.distinct, h.owned, h.held⟩

/-- One client action. -/
theorem Consistent.step (h : Consistent uaPtr lo hi s) {op : Op} (hw : NoWrap s op)
    (hb : NoBackwardMerge uaPtr s op) (he : exec uaPtr fuel s op = some u) :
    Consistent uaPtr lo hi u := by
  obtain ⟨ua, blocks, chain, h⟩ := h
  cases op with
  | allocate size =>
    simp only [exec] at he
    split_ifs at he
    split at he
    · simp at he
    · rename_i w buf hall
      obtain rfl := by simpa using he
      exact h.allocate hw hall
  | free buf =>
    simp only [exec] at he
    split_ifs at he with hm
    split at he
    · simp at he
    · rename_i w e hfree
      obtain rfl := by simpa using he
      exact h.free hm hb hfree
  | store addr byte =>
    simp only [exec] at he
    split_ifs at he with ho
    obtain rfl := by simpa using he
    exact h.store ho

/-- Every run that neither wraps a request nor merges backwards keeps the invariant. -/
theorem Consistent.run (h : Consistent uaPtr lo hi s)
    (hr : Run uaPtr (fun t op => NoWrap t op ∧ NoBackwardMerge uaPtr t op) s u) :
    Consistent uaPtr lo hi u := by
  induction hr with
  | refl => exact h
  | step _ met done ih => exact ih.step met.1 met.2 done

end LibZenit.Arena
