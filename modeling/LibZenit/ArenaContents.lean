import LibZenit.ArenaRuns
import LibZenit.ArenaRequests

/-!
# What a client of the sub-allocator can rely on

Allocating and freeing change no byte of a block that stays in use. So a client finds in its live
buffers exactly what it stored there, as if every buffer were memory of its own.
-/
namespace LibZenit.Arena
open ByteMemory LinkedChain

variable {m n : Memory} {uaPtr lo hi fl : ℕ} {blocks L R : List Block} {chain xs ys : List ℕ}
  {b c : Block} {x : ℕ}

/-! ## Bytes that the helpers leave alone -/

/-- The byte at `x` is no link word of a listed header. -/
def ClearOf (x z : ℕ) : Prop := x < z + 24 ∨ z + 40 ≤ x

theorem unlinkBlock_off {a : ℕ} (hprev : hPrev m a ≠ 0 → hPrev m a + 64 ≤ a ∨ a + 64 ≤ hPrev m a)
    (hxprev : hPrev m a ≠ 0 → ClearOf x (hPrev m a))
    (hxnext : hNext m a ≠ 0 → ClearOf x (hNext m a)) : (unlinkBlock m fl a).1 x = m x := by
  unfold unlinkBlock
  by_cases hp : hPrev m a ≠ 0
  · have hnext : hNext (setNext m (hPrev m a) (hNext m a)) a = hNext m a :=
      hNext_setNext_apart (hprev hp)
    simp only [if_pos hp, hnext]
    split_ifs with hn
    · rw [setPrev_off (hxnext hn), setNext_off (hxprev hp)]
    · exact setNext_off (hxprev hp)
  · simp only [if_neg hp]
    split_ifs with hn
    · exact setPrev_off (hxnext hn)
    · rfl

/-- A byte inside a block that is not on the list is clear of the listed headers. -/
theorem Core.clearOf (h : Core m uaPtr lo hi fl blocks chain) (hc : c ∈ blocks)
    (hnot : c.addr ∉ chain) (hlow : c.addr ≤ x) (hhigh : x < c.addr + c.size) :
    ∀ z ∈ chain, ClearOf x z := by
  intro z hz
  obtain ⟨d, hd, rfl⟩ := h.nodes z hz
  have hne : c ≠ d := fun he => hnot (he ▸ hz)
  have hsize := (h.tiles.mem d hd).2.2
  simp only [minSplitTotal, headerSize, alignment, footerSize] at hsize
  unfold ClearOf
  rcases h.tiles.apart hc hd hne with hap | hap <;> omega

theorem Core.unlink_off (h : Core m uaPtr lo hi fl blocks (xs ++ b.addr :: ys))
    (hclear : ∀ z ∈ xs ++ b.addr :: ys, ClearOf x z) :
    (unlinkBlock m fl b.addr).1 x = m x := by
  have hprev : hPrev m b.addr ≠ 0 → hPrev m b.addr ∈ xs := fun hne => by
    rw [h.links.prev_eq] at hne ⊢
    exact getLastD_mem hne
  have hnext : hNext m b.addr ≠ 0 → hNext m b.addr ∈ ys := fun hne => by
    rw [h.links.next_eq] at hne ⊢
    exact headD_mem hne
  obtain ⟨-, -, hbx, -, -⟩ := h.links.append_facts
  refine unlinkBlock_off (fun hne => ?_) (fun hne => hclear _ (by simp [hprev hne]))
    fun hne => hclear _ (by simp [hnext hne])
  have hcase := h.spaced.cases (z := hPrev m b.addr) (y := b.addr) (by simp [hprev hne]) (by simp)
  exact hcase.resolve_left fun he => hbx (he ▸ hprev hne)

/-- Marking a block changes bytes of that block only. -/
theorem mark_off {v : ℕ} (hsize : hSize m b.addr = b.size) (hroom : minSplitTotal ≤ b.size)
    (hx : x < b.addr ∨ b.addr + b.size ≤ x) :
    footerSync (setState m b.addr v) b.addr x = m x := by
  simp only [minSplitTotal, headerSize, alignment, footerSize] at hroom
  have hsame : hSize (setState m b.addr v) b.addr = b.size := by
    rw [← hsize]
    exact read_write_of_disjoint m (by omega)
  rw [footerSync_off hsame (by omega) (by omega)]
  exact write_apply_of_outside m (by omega)

/-- Splitting a listed block changes bytes of that block and links of its successor. -/
theorem Core.split_off {k : ℕ} (h : Core m uaPtr lo hi fl (L ++ b :: R) (xs ++ b.addr :: ys))
    (hf : b.free = true) (hk : minSplitTotal ≤ k) (hr : k + minSplitTotal ≤ b.size)
    (hx : x < b.addr ∨ b.addr + b.size ≤ x) (hclear : ∀ z ∈ ys, ClearOf x z) :
    splitBlock m uaPtr b.addr k (b.size - k) x = m x := by
  obtain ⟨-, -, off⟩ := splitTags_spec (h.fields b (by simp)) h.owner hf hk hr
  simp only [minSplitTotal, headerSize, alignment, footerSize] at hk hr
  obtain ⟨t, ht⟩ : ∃ t, splitTags m uaPtr b.addr k (b.size - k) = t := ⟨_, rfl⟩
  rw [ht] at off
  have hlink : hNext t b.addr = hNext m b.addr :=
    read_congr fun y hlow hhigh => off y (by omega) (by omega) (by omega)
  have hlinked : hNext (setPrev (setNext t (b.addr + k) (hNext t b.addr)) (b.addr + k) b.addr)
      b.addr = hNext m b.addr := by
    rw [hNext_setPrev (by omega), hNext_setNext_apart (by omega), hlink]
  have hnext : hNext m b.addr ≠ 0 → hNext m b.addr ∈ ys := fun hne => by
    rw [h.links.next_eq] at hne ⊢
    exact headD_mem hne
  have htags : t x = m x := off x (by omega) (by omega) (by omega)
  unfold splitBlock linkAfter
  simp only [ht, hlinked]
  rw [setNext_off (by omega)]
  split_ifs with hne
  · rw [setPrev_off (hclear _ (hnext hne)), setPrev_off (by omega), setNext_off (by omega), htags]
  · rw [setPrev_off (by omega), setNext_off (by omega), htags]

/-- Taking a listed block out of the list and marking it changes bytes of that block and links of
its neighbours on the list. -/
theorem Core.take_off (h : Core m uaPtr lo hi fl (L ++ b :: R) (xs ++ b.addr :: ys))
    (hx : x < b.addr ∨ b.addr + b.size ≤ x) (hclear : ∀ z ∈ xs ++ b.addr :: ys, ClearOf x z) :
    footerSync (setState (setNext (setPrev (unlinkBlock m fl b.addr).1 b.addr 0) b.addr 0) b.addr
      bufInUse) b.addr x = m x := by
  obtain ⟨-, -, hbx, hby, -⟩ := h.links.append_facts
  have hnot : b.addr ∉ xs ++ ys := by simp [hbx, hby]
  have hcleared := h.unlink.clearLinks (b := b) (by simp) hnot
  have hroom := (h.tiles.mem b (by simp)).2.2
  have hmark := mark_off (v := bufInUse) (hcleared.fields b (by simp)).size hroom hx
  have hlinks := hclear b.addr (by simp)
  rw [hmark, setNext_off hlinks, setPrev_off hlinks, h.unlink_off hclear]

/-- `claim_block` changes no byte of a block in use. -/
theorem Layout.claim_off {k walk : ℕ} (aligned : ℕ) (h : Layout m uaPtr lo hi fl blocks chain)
    (hw : walk ∈ chain) (hfit : k ≤ hSize m walk) (hk : minSplitTotal ≤ k) (hc : c ∈ blocks)
    (hused : c.free = false) (hlow : c.addr ≤ x) (hhigh : x < c.addr + c.size) :
    (claimBlock m uaPtr fl walk k aligned).1 x = m x := by
  have hnot : c.addr ∉ chain := by
    rw [h.free c hc]
    simp [hused]
  have hclear := h.toCore.clearOf hc hnot hlow hhigh
  obtain ⟨b, hb, rfl⟩ := h.nodes walk hw
  have hf : b.free = true := (h.free b hb).mp hw
  have hcb : c ≠ b := by
    rintro rfl
    simp [hused] at hf
  have hout : x < b.addr ∨ b.addr + b.size ≤ x := by
    rcases h.tiles.apart hc hb hcb with hap | hap <;> omega
  obtain ⟨xs, ys, rfl⟩ := List.append_of_mem hw
  obtain ⟨L, R, rfl⟩ := List.append_of_mem hb
  have hsize := (h.fields b (by simp)).size
  rw [hsize] at hfit
  unfold claimBlock
  simp only [hsize]
  split_ifs with hsplit
  · have hr : k + minSplitTotal ≤ b.size := by omega
    have hsplitted := h.toCore.split hf hk hr
    have hwhole := h.toCore.split_off hf hk hr hout fun z hz => hclear z (by simp [hz])
    simp only [minSplitTotal, headerSize, alignment, footerSize] at hk hr
    rw [hsplitted.take_off (b := ⟨b.addr, k, true⟩) (by dsimp only; omega), hwhole]
    intro z hz
    simp only [List.mem_append, List.mem_cons] at hz
    rcases hz with hz | rfl | rfl | hz
    · exact hclear z (by simp [hz])
    · exact hclear _ (by simp)
    · unfold ClearOf
      omega
    · exact hclear z (by simp [hz])
  · exact h.toCore.take_off hout hclear

/-- The forward merge changes bytes of the merged blocks and links of listed headers. -/
theorem Core.mergeNext_off (h : Core m uaPtr lo hi fl (L ++ b :: c :: R) (xs ++ c.addr :: ys))
    (hx : x < b.addr ∨ b.addr + (b.size + c.size) ≤ x)
    (hclear : ∀ z ∈ xs ++ c.addr :: ys, ClearOf x z) :
    (unlinkBlock (footerSync (setSize m b.addr (b.size + c.size)) b.addr) fl c.addr).1 x = m x := by
  obtain ⟨-, hsb, hcaddr, hsc, -⟩ := h.tiles.split
  simp only [minSplitTotal, headerSize, alignment, footerSize] at hsb hsc
  have hlt : b.size + c.size < 2 ^ 64 := by
    have hbound := (h.tiles.mem c (by simp)).2.1
    have hbase := (h.tiles.mem b (by simp)).1
    have hhi := h.bound
    have hlo := h.base
    omega
  obtain ⟨t, ht⟩ : ∃ t, setSize m b.addr (b.size + c.size) = t := ⟨_, rfl⟩
  have hsize : hSize t b.addr = b.size + c.size := by
    rw [← ht]
    exact read_write_of_lt m hlt
  have off : ∀ y, y < b.addr + 16 ∨ b.addr + 24 ≤ y →
      y < b.addr + (b.size + c.size) - 16 ∨ b.addr + (b.size + c.size) ≤ y →
      footerSync t b.addr y = m y := by
    intro y hhead hfoot
    rw [footerSync_off hsize (by omega) (by omega), ← ht]
    exact write_apply_of_outside m (by omega)
  rw [ht]
  have hprev : hPrev (footerSync t b.addr) c.addr = hPrev m c.addr :=
    read_congr fun y hlow hhigh => off y (by omega) (by omega)
  have hnext : hNext (footerSync t b.addr) c.addr = hNext m c.addr :=
    read_congr fun y hlow hhigh => off y (by omega) (by omega)
  have hprevMem : hPrev m c.addr ≠ 0 → hPrev m c.addr ∈ xs := fun hne => by
    rw [h.links.prev_eq] at hne ⊢
    exact getLastD_mem hne
  have hnextMem : hNext m c.addr ≠ 0 → hNext m c.addr ∈ ys := fun hne => by
    rw [h.links.next_eq] at hne ⊢
    exact headD_mem hne
  obtain ⟨-, -, hcx, -, -⟩ := h.links.append_facts
  rw [unlinkBlock_off, off x (by omega) (by omega)]
  · rw [hprev]
    intro hne
    have hcase := h.spaced.cases (z := hPrev m c.addr) (y := c.addr) (by simp [hprevMem hne])
      (by simp)
    exact hcase.resolve_left fun he => hcx (he ▸ hprevMem hne)
  · rw [hprev]
    exact fun hne => hclear _ (by simp [hprevMem hne])
  · rw [hnext]
    exact fun hne => hclear _ (by simp [hnextMem hne])

theorem pushFree_off {a : ℕ} (ha : ClearOf x a) (hfl : fl ≠ 0 → ClearOf x fl) :
    pushFree m fl a x = m x := by
  unfold pushFree
  split_ifs with hne
  · rw [setPrev_off (hfl hne), setPrev_off ha, setNext_off ha]
  · rw [setPrev_off ha, setNext_off ha]

/-- Marking a block as free and merging it with the block behind it change no byte of another block
in use. -/
theorem Layout.coalesce_off {ua : UsableArena}
    (h : Layout m uaPtr lo hi ua.freeList (L ++ b :: R) chain) (hhi : ua.memory + ua.size = hi)
    (hc : c ∈ L ++ b :: R) (hcb : c ≠ b) (hused : c.free = false) (hlow : c.addr ≤ x)
    (hhigh : x < c.addr + c.size) :
    (coalesceNext (footerSync (setState m b.addr bufFree) b.addr) ua b.addr).1 x = m x := by
  have hnot : c.addr ∉ chain := by
    rw [h.free c hc]
    simp [hused]
  have hclear := h.toCore.clearOf hc hnot hlow hhigh
  have hout : x < b.addr ∨ b.addr + b.size ≤ x := by
    rcases h.tiles.apart hc (by simp) hcb with hap | hap <;> omega
  have hfields := h.fields b (by simp)
  have hmarkOff : footerSync (setState m b.addr bufFree) b.addr x = m x :=
    mark_off hfields.size (h.tiles.mem b (by simp)).2.2 hout
  have hmark := h.toCore.mark true
  rw [show Block.tag ⟨b.addr, b.size, true⟩ = bufFree from rfl] at hmark
  obtain ⟨m0, hm0⟩ : ∃ m0, footerSync (setState m b.addr bufFree) b.addr = m0 := ⟨_, rfl⟩
  rw [hm0] at hmark hmarkOff ⊢
  have hsize : hSize m0 b.addr = b.size :=
    (hmark.fields ⟨b.addr, b.size, true⟩ (by simp)).size
  have hend := h.tiles.split.2.2
  unfold coalesceNext
  simp only [hsize, hhi]
  split_ifs with hmerge
  · obtain ⟨hinside, hstate⟩ := hmerge
    cases R with
    | nil =>
      simp only [Tiles] at hend
      omega
    | cons d R =>
      obtain ⟨hda, -, -⟩ := hend
      have hd := hmark.fields d (by simp)
      have hdfree : d.free = true := by
        rw [← hda, hd.state] at hstate
        cases hdf : d.free with
        | true => rfl
        | false => simp [Block.tag, hdf, bufFree, bufInUse] at hstate
      obtain ⟨xs, ys, rfl⟩ := List.append_of_mem ((h.free d (by simp)).mpr hdfree)
      have hcd : c ≠ d := by
        rintro rfl
        simp [hused] at hdfree
      have hbeyond : x < d.addr ∨ d.addr + d.size ≤ x := by
        rcases h.tiles.apart hc (by simp) hcd with hap | hap <;> omega
      rw [← hda, hd.size, ← hmarkOff]
      exact hmark.mergeNext_off (by dsimp only; omega) hclear
  · exact hmarkOff

/-- `zenit_usable_buffer_free` changes no byte of another block in use. -/
theorem Layout.release_off {ua : UsableArena}
    (h : Layout m uaPtr lo hi ua.freeList (L ++ b :: R) chain) (hb : b.free = false)
    (hlo : ua.memory = lo) (hhi : ua.memory + ua.size = hi)
    (hprev : ∀ d ∈ L.getLast?, d.free = false) {r t : Memory × ℕ}
    (hr : coalesceNext (footerSync (setState m b.addr bufFree) b.addr) ua b.addr = r)
    (ht : coalescePrev r.1 ua b.addr = t) (hc : c ∈ L ++ b :: R) (hcb : c ≠ b)
    (hused : c.free = false) (hlow : c.addr ≤ x) (hhigh : x < c.addr + c.size) :
    pushFree t.1 r.2 t.2 x = m x := by
  have hmerged := h.coalesce_off hhi hc hcb hused hlow hhigh
  rw [hr] at hmerged
  obtain ⟨k, R', chain', hcore, hnot, hlist, -, -, hsame⟩ := h.coalesce_next hb hhi hr
  rw [coalescePrev_eq hcore hlo hprev] at ht
  subst ht
  have hside : c ∈ L ∨ c ∈ R' := by
    simp only [List.mem_append, List.mem_cons, hcb, false_or] at hc
    rw [hsame c hused]
    exact hc
  have hmem : c ∈ L ++ ⟨b.addr, k, true⟩ :: R' := by rcases hside with hc | hc <;> simp [hc]
  have hunlisted : c.addr ∉ chain' := by
    rw [hlist c hside]
    simp [hused]
  have hclear := hcore.clearOf hmem hunlisted hlow hhigh
  have hhead : r.2 ≠ 0 → r.2 ∈ chain' := fun hne => by
    rw [hcore.links.head_eq] at hne ⊢
    exact headD_mem hne
  rw [pushFree_off _ fun hne => hclear _ (hhead hne), hmerged]
  have hcore' : c ≠ ⟨b.addr, k, true⟩ := by
    rintro rfl
    simp at hused
  have hroom := (hcore.tiles.mem ⟨b.addr, k, true⟩ (by simp)).2.2
  simp only [minSplitTotal, headerSize, alignment, footerSize] at hroom
  change x < b.addr + 24 ∨ b.addr + 40 ≤ x
  rcases hcore.tiles.apart hmem (by simp) hcore' with hap | hap <;> dsimp only at hap <;> omega

/-! ## The client's view -/

/-- What the client knows about each byte: the last value it stored there, as long as the buffer
that owns the byte has not been freed. -/
abbrev View := ℕ → Option UInt8

/-- What the client knows after an action. A fresh buffer holds nothing it knows. -/
def View.after (known : View) : Op → View
  | .allocate _ => known
  | .free buf => fun a => if buf.data ≤ a ∧ a < buf.data + buf.size then none else known a
  | .store addr byte => Function.update known addr (some byte)

/-- Runs whose actions meet `cond`, with what the client knows along them. -/
inductive Recorded (uaPtr : ℕ) (cond : Session → Op → Prop) (start : Session) :
    Session → View → Prop
  | refl : Recorded uaPtr cond start start fun _ => none
  | step {t u : Session} {known : View} {op : Op} {fuel : ℕ}
      (prior : Recorded uaPtr cond start t known) (met : cond t op)
      (done : exec uaPtr fuel t op = some u) : Recorded uaPtr cond start u (known.after op)

/-- Every byte the client knows belongs to a live buffer and holds what was stored. -/
def Remembers (s : Session) (known : View) : Prop :=
  ∀ a v, known a = some v → Owns s.live a ∧ s.world.mem a = v

section Steps

variable {s u : Session} {ua : UsableArena} {known : View} {fuel : ℕ}

/-- Allocating changes no byte of a live buffer. -/
theorem Represents.allocate_off (h : Represents uaPtr lo hi s ua blocks chain) {size : ℕ}
    (hw : alignUp size = sizeMax ∨ headerSize + alignUp size + footerSize ≤ sizeMax) {w : World}
    {buf : UsableBuffer} (he : usableArenaAllocate fuel s.world uaPtr size = some (w, buf))
    (howns : Owns s.live x) : w.mem x = s.world.mem x := by
  obtain ⟨old, hold, hlow, hhigh⟩ := howns
  obtain ⟨c, hc, hused, hdata, hsize⟩ := h.owned old hold
  simp only [headerSize, footerSize] at hdata hsize
  unfold usableArenaAllocate at he
  dsimp only at he
  split_ifs at he with h0 hmax
  · obtain ⟨rfl, -⟩ := by simpa using he
    rfl
  · obtain ⟨rfl, -⟩ := by simpa using he
    rfl
  · have hsum := hw.resolve_left hmax
    have halign := (alignUp_ge (fun hz => h0 (Or.inr hz)) hmax).2
    rw [h.handle, wrap_of_lt (by unfold sizeMax at hsum; omega)] at he
    dsimp only at he
    cases hfind : findFit s.world.mem (headerSize + alignUp size + footerSize) fuel
      ua.freeList with
    | none => simp [hfind] at he
    | some found =>
      cases found with
      | none =>
        obtain ⟨rfl, -⟩ := by simpa [hfind] using he
        rfl
      | some walk =>
        rw [hfind] at he
        obtain ⟨hmem, hfit⟩ := findFit_mem h.layout.links.seg h.layout.links.nonnull hfind
        obtain ⟨rfl, -⟩ := by simpa using he
        exact Layout.claim_off (alignUp size) h.layout hmem hfit (by unfold minSplitTotal; omega) hc
          hused (by omega) (by omega)

/-- Freeing changes no byte of another live buffer. -/
theorem Represents.free_off (h : Represents uaPtr lo hi s ua blocks chain) {buf old : UsableBuffer}
    (hm : buf ∈ s.live) (hcond : NoBackwardMerge uaPtr s (.free buf)) {w : World} {e : ZenitError}
    (he : usableBufferFree s.world (some buf) = some (w, e)) (hold : old ∈ s.live)
    (hne : old ≠ buf) (hlow : old.data ≤ x) (hhigh : x < old.data + old.size) :
    w.mem x = s.world.mem x := by
  obtain ⟨b, hb, hbf, hbd, -⟩ := h.owned buf hm
  obtain ⟨c, hc, hcf, hcd, hcs⟩ := h.owned old hold
  obtain ⟨L, R, rfl⟩ := List.append_of_mem hb
  have hcb : c ≠ b := by
    rintro rfl
    exact hne (List.inj_on_of_nodup_map h.distinct hold hm (hcd.trans hbd.symm))
  have hfields := h.layout.fields b (by simp)
  have hdata : buf.data - headerSize = b.addr := by omega
  have hstate : hState s.world.mem b.addr = bufInUse := by
    rw [hfields.state]
    simp [Block.tag, hbf]
  have hmark := h.layout.toCore.mark true
  rw [show Block.tag ⟨b.addr, b.size, true⟩ = bufFree from rfl] at hmark
  have howner := (hmark.fields ⟨b.addr, b.size, true⟩ (by simp)).owner
  dsimp only at howner
  have hprev : ∀ d ∈ L.getLast?, d.free = false := by
    intro d hd
    cases hdf : d.free with
    | false => rfl
    | true =>
      have hpreceded := h.layout.precededByFree h.memory hd hdf
      rw [← hdata] at hpreceded
      exact absurd hpreceded (hcond ua h.handle)
  unfold usableBufferFree at he
  dsimp only at he
  rw [if_neg (by rw [hbd]; simp [headerSize]), hdata, if_neg (by simp [hstate]), howner,
    h.handle] at he
  obtain ⟨rfl, -⟩ := by simpa using he
  simp only [headerSize, footerSize] at hcd hcs
  exact h.layout.release_off hbf h.memory h.stop hprev rfl rfl hc hcb hcf (by omega) (by omega)

/-- Live payloads share no byte. -/
theorem Represents.payloads_apart (h : Represents uaPtr lo hi s ua blocks chain)
    {buf old : UsableBuffer} (hm : buf ∈ s.live) (hold : old ∈ s.live) (hne : old ≠ buf)
    (hlow : old.data ≤ x) (hhigh : x < old.data + old.size) :
    ¬ (buf.data ≤ x ∧ x < buf.data + buf.size) := by
  obtain ⟨b, hb, -, hbd, hbs⟩ := h.owned buf hm
  obtain ⟨c, hc, -, hcd, hcs⟩ := h.owned old hold
  have hcb : c ≠ b := by
    rintro rfl
    exact hne (List.inj_on_of_nodup_map h.distinct hold hm (hcd.trans hbd.symm))
  simp only [headerSize, footerSize] at hbd hbs hcd hcs
  rcases h.layout.tiles.apart hc hb hcb with hap | hap <;> omega

theorem Remembers.step (hknown : Remembers s known) (h : Consistent uaPtr lo hi s) {op : Op}
    (hw : NoWrap s op) (hcond : NoBackwardMerge uaPtr s op) (he : exec uaPtr fuel s op = some u) :
    Remembers u (known.after op) := by
  obtain ⟨ua, blocks, chain, h⟩ := h
  intro a v hv
  cases op with
  | allocate size =>
    obtain ⟨howns, hval⟩ := hknown a v hv
    simp only [exec] at he
    split_ifs at he
    split at he
    · simp at he
    · rename_i w buf hall
      obtain rfl := by simpa using he
      refine ⟨?_, (h.allocate_off hw hall howns).trans hval⟩
      obtain ⟨old, hold, hrange⟩ := howns
      dsimp only
      split_ifs
      · exact ⟨old, hold, hrange⟩
      · exact ⟨old, List.mem_cons_of_mem _ hold, hrange⟩
  | free buf =>
    simp only [View.after] at hv
    split_ifs at hv with hfreed
    obtain ⟨⟨old, hold, hlow, hhigh⟩, hval⟩ := hknown a v hv
    simp only [exec] at he
    split_ifs at he with hm
    split at he
    · simp at he
    · rename_i w e hfree
      obtain rfl := by simpa using he
      have hne : old ≠ buf := by
        rintro rfl
        exact hfreed ⟨hlow, hhigh⟩
      exact ⟨⟨old, (List.mem_erase_of_ne hne).mpr hold, hlow, hhigh⟩,
        (h.free_off hm hcond hfree hold hne hlow hhigh).trans hval⟩
  | store addr byte =>
    simp only [exec] at he
    split_ifs at he with ho
    obtain rfl := by simpa using he
    simp only [View.after] at hv
    dsimp only
    by_cases ha : a = addr
    · subst ha
      rw [Function.update_self] at hv ⊢
      exact ⟨ho, Option.some.inj hv⟩
    · rw [Function.update_of_ne ha] at hv ⊢
      exact hknown a v hv

/-- Without the record of what is known, a recorded run is a run. -/
theorem Recorded.run {cond : Session → Op → Prop} (hrun : Recorded uaPtr cond s u known) :
    Run uaPtr cond s u := by
  induction hrun with
  | refl => exact .refl s
  | step _ met done ih => exact .step ih met done

theorem Recorded.remembers (h : Consistent uaPtr lo hi s)
    (hrun : Recorded uaPtr (fun t op => NoWrap t op ∧ NoBackwardMerge uaPtr t op) s u known) :
    Remembers u known := by
  induction hrun with
  | refl =>
    intro a v hv
    cases hv
  | step prior met done ih => exact ih.step (h.run prior.run) met.1 met.2 done

end Steps

/-! ## First fit -/

/-- A walk that finds nothing has met no free block that is large enough. -/
theorem findFit_none {k fuel walk : ℕ} (hs : Seg (hNext m) walk chain 0)
    (h0 : ∀ z ∈ chain, z ≠ 0) (hfind : findFit m k fuel walk = some none) {z : ℕ} (hz : z ∈ chain)
    (hstate : hState m z = bufFree) : hSize m z < k := by
  induction chain generalizing walk fuel with
  | nil => simp at hz
  | cons y chain ih =>
    obtain ⟨rfl, hrest⟩ := hs
    cases fuel with
    | zero => simp [findFit] at hfind
    | succ fuel =>
      rw [findFit, if_neg (h0 walk (by simp))] at hfind
      by_cases hfit : hState m walk = bufFree ∧ hSize m walk ≥ k
      · rw [if_pos hfit] at hfind
        cases hfind
      · rw [if_neg hfit] at hfind
        rcases List.mem_cons.mp hz with rfl | hz
        · exact Nat.lt_of_not_le fun hle => hfit ⟨hstate, hle⟩
        · exact ih hrest (fun y hy => h0 y (by simp [hy])) hfind hz

/-- Some free block of the region has room for the request with its header and footer. -/
def Fits (m : Memory) (headers : List ℕ) (size : ℕ) : Prop :=
  ∃ h ∈ headers, hState m h = bufFree ∧ headerSize + alignUp size + footerSize ≤ hSize m h

/-- A request is granted exactly if some free block of the region has room for it. -/
theorem Represents.allocate_iff {s : Session} {ua : UsableArena} (hu : uaPtr ≠ 0)
    (h : Represents uaPtr lo hi s ua blocks chain) {size : ℕ} (hpos : 0 < size)
    (hsum : headerSize + alignUp size + footerSize ≤ sizeMax) :
    ∃ fuel w buf, usableArenaAllocate fuel s.world uaPtr size = some (w, buf) ∧
      (buf.data ≠ 0 ↔ Fits s.world.mem (blocks.map Block.addr) size) := by
  have hmax : alignUp size ≠ sizeMax := by
    simp only [headerSize, footerSize] at hsum
    omega
  have hlinks := h.layout.links
  obtain ⟨fuel, r, hr⟩ := allocate_terminates h.handle hlinks size
  refine ⟨fuel, r.1, r.2, hr, ?_⟩
  unfold usableArenaAllocate at hr
  dsimp only at hr
  rw [if_neg (by omega), if_neg hmax, h.handle,
    wrap_of_lt (by unfold sizeMax at hsum; omega)] at hr
  dsimp only at hr
  cases hfind : findFit s.world.mem (headerSize + alignUp size + footerSize) fuel
    ua.freeList with
  | none => simp [hfind] at hr
  | some found =>
    rw [hfind] at hr
    cases found with
    | none =>
      cases hr
      refine ⟨fun hne => absurd rfl hne, ?_⟩
      rintro ⟨a, ha, hstate, hroom⟩
      obtain ⟨b, hb, rfl⟩ := List.mem_map.mp ha
      have hlisted : b.addr ∈ chain := by
        refine (h.layout.free b hb).mpr ?_
        rw [(h.layout.fields b hb).state] at hstate
        cases hf : b.free with
        | true => rfl
        | false => simp [Block.tag, hf, bufFree, bufInUse] at hstate
      have hlt := findFit_none hlinks.seg hlinks.nonnull hfind hlisted hstate
      omega
    | some walk =>
      cases hr
      obtain ⟨hmem, hfit⟩ := findFit_mem hlinks.seg hlinks.nonnull hfind
      obtain ⟨b, hb, rfl⟩ := h.layout.nodes walk hmem
      refine ⟨fun _ => ⟨b.addr, List.mem_map.mpr ⟨b, hb, rfl⟩, ?_, hfit⟩, fun _ => ?_⟩
      · rw [(h.layout.fields b hb).state, Block.tag, if_pos ((h.layout.free b hb).mp hmem)]
      · change b.addr + headerSize ≠ 0
        simp [headerSize]

/-- In every run of a client that neither wraps a request nor merges backwards: each byte the client
has stored into a buffer keeps its value until the client overwrites it or frees the buffer, and a
request is granted exactly if some free block of the region has room for it. -/
theorem buffers_keep_contents {w w' : World} {size : ℕ} (hv : w.arena.Valid)
    (hu : uaPtr < 2 ^ 64) (hu0 : uaPtr ≠ 0) (hs : minSplitTotal ≤ size)
    (hacq : arenaAcquire w size (some uaPtr) = (w', some uaPtr)) {s : Session} {known : View}
    (hrun : Recorded uaPtr (fun t op => NoWrap t op ∧ NoBackwardMerge uaPtr t op) ⟨w', []⟩ s
      known) :
    (∀ a v, known a = some v → Owns s.live a ∧ s.world.mem a = v) ∧
    ∃ ua headers, s.world.handles uaPtr = some ua ∧
      HeaderWalk s.world.mem (ua.memory + ua.size) ua.memory headers ∧
      ∀ request, 0 < request → headerSize + alignUp request + footerSize ≤ sizeMax →
        ∃ fuel w'' buf, usableArenaAllocate fuel s.world uaPtr request = some (w'', buf) ∧
          (buf.data ≠ 0 ↔ Fits s.world.mem headers request) := by
  obtain ⟨lo, h⟩ := acquire_consistent hv hu hs hacq
  refine ⟨hrun.remembers h, ?_⟩
  obtain ⟨ua, blocks, chain, hrep⟩ := h.run hrun.run
  refine ⟨ua, blocks.map Block.addr, hrep.handle, ?_, fun request hpos hsum =>
    hrep.allocate_iff hu0 hpos hsum⟩
  rw [hrep.stop, hrep.memory]
  exact hrep.layout.tiles.headerWalk hrep.layout.fields

theorem recorded_of_execAll {s u : Session} {known : View} {fuel : ℕ}
    {cond : Session → Op → Prop} {ops : List Op} {t : Session}
    (hmet : ∀ op ∈ ops, ∀ v, cond v op) (hprior : Recorded uaPtr cond t s known)
    (h : execAll uaPtr fuel s ops = some u) :
    Recorded uaPtr cond t u (ops.foldl View.after known) := by
  induction ops generalizing s known with
  | nil =>
    obtain rfl : s = u := by simpa [execAll] using h
    exact hprior
  | cons op ops ih =>
    unfold execAll at h
    rw [List.foldlM_cons] at h
    obtain ⟨v, hv, hrest⟩ := Option.bind_eq_some_iff.mp h
    exact ih (fun o ho => hmet o (by simp [ho])) (.step hprior (hmet op (by simp) s) hv) hrest

/-- A byte is stored into one of three buffers, and a fourth request finds no room. -/
theorem buffers_keep_contents_filled : ∃ s known,
    Recorded 8 (fun t op => NoWrap t op ∧ NoBackwardMerge 8 t op) demoStart s known ∧
    s.live.length = 3 ∧ known 4200 = some 7 ∧ s.world.mem 4200 = 7 := by
  obtain ⟨s, hs, hl, hh, -⟩ := demo_filled
  have hstore : execAll 8 5 s [.store 4200 7, .allocate 8] = some
      { s with world := { s.world with mem := Function.update s.world.mem 4200 7 } } := by
    have howns : Owns s.live 4200 := ⟨⟨4200, 8⟩, by simp [hl], by decide⟩
    simp [execAll, exec, howns, usableArenaAllocate, hh, demoArena, findFit, alignUp, sizeMax,
      alignment]
  have hrun : Recorded 8 (fun t op => NoWrap t op ∧ NoBackwardMerge 8 t op) demoStart _ _ :=
    recorded_of_execAll (by
      simp [demoFill, NoWrap, NoBackwardMerge, alignUp, alignment, headerSize, footerSize, sizeMax])
      .refl (execAll_append hs hstore)
  have hkeeps := buffers_keep_contents demo_valid (by norm_num) (by norm_num) (by decide)
    demo_acquired hrun
  exact ⟨_, _, hrun, by simp [hl], rfl, (hkeeps.1 4200 7 rfl).2⟩

end LibZenit.Arena
