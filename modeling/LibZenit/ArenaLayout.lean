import LibZenit.ArenaSession
import LibZenit.LinkedChain

/-!
# The layout behind the bytes

A well-formed region is tiled by blocks whose headers and boundary tags agree, and the free list
runs through exactly the free ones. The frame lemmas say which bytes each helper may touch.
-/
namespace LibZenit.Arena
open ByteMemory LinkedChain

structure Block where
  addr : ℕ
  size : ℕ
  free : Bool
  deriving DecidableEq, Repr

def Block.tag (b : Block) : ℕ := if b.free then bufFree else bufInUse

/-- The blocks fill `[lo, hi)` without gaps, each with room for header, payload and footer. -/
def Tiles : ℕ → ℕ → List Block → Prop
  | lo, hi, [] => lo = hi
  | lo, hi, b :: bs => b.addr = lo ∧ minSplitTotal ≤ b.size ∧ Tiles (lo + b.size) hi bs

/-- Header and footer fields of one block. -/
structure BlockAt (m : Memory) (uaPtr : ℕ) (b : Block) : Prop where
  state : hState m b.addr = b.tag
  owner : hUa m b.addr = uaPtr
  size : hSize m b.addr = b.size
  footSize : fSize m (b.addr + b.size - footerSize) = b.size
  footState : fState m (b.addr + b.size - footerSize) = b.tag

/-- Adjacent blocks are never both free. -/
def Coalesced : List Block → Prop := List.IsChain fun b c => ¬(b.free = true ∧ c.free = true)

/-- The region `[lo, hi)` is tiled, every block carries its tags, and the free list is a doubly
linked list of block addresses. Which blocks are on the list is left open. -/
structure Core (m : Memory) (uaPtr lo hi freeList : ℕ) (blocks : List Block)
    (chain : List ℕ) : Prop where
  owner : uaPtr < 2 ^ 64
  base : 0 < lo
  bound : hi ≤ 2 ^ 64
  tiles : Tiles lo hi blocks
  fields : ∀ b ∈ blocks, BlockAt m uaPtr b
  links : DList (hNext m) (hPrev m) 0 freeList chain
  nodes : ∀ z ∈ chain, ∃ b ∈ blocks, b.addr = z

/-- The list holds exactly the free blocks, and free neighbours have been merged. -/
structure Layout (m : Memory) (uaPtr lo hi freeList : ℕ) (blocks : List Block)
    (chain : List ℕ) : Prop extends Core m uaPtr lo hi freeList blocks chain where
  free : ∀ b ∈ blocks, b.addr ∈ chain ↔ b.free = true
  coalesced : Coalesced blocks

theorem Tiles.le {lo hi : ℕ} {bs : List Block} (h : Tiles lo hi bs) : lo ≤ hi := by
  induction bs generalizing lo with
  | nil => exact Nat.le_of_eq h
  | cons b bs ih => exact (Nat.le_add_right _ _).trans (ih h.2.2)

theorem tiles_append {lo hi : ℕ} {xs ys : List Block} :
    Tiles lo hi (xs ++ ys) ↔ ∃ mid, Tiles lo mid xs ∧ Tiles mid hi ys := by
  induction xs generalizing lo with
  | nil => simp [Tiles]
  | cons x xs ih => simp [Tiles, ih, and_assoc]

theorem Tiles.mem {lo hi : ℕ} {bs : List Block} (h : Tiles lo hi bs) :
    ∀ b ∈ bs, lo ≤ b.addr ∧ b.addr + b.size ≤ hi ∧ minSplitTotal ≤ b.size := by
  induction bs generalizing lo with
  | nil => simp
  | cons x xs ih =>
    intro b hb
    obtain ⟨hx, hs, ht⟩ := h
    rcases List.mem_cons.mp hb with rfl | hb
    · exact ⟨hx.ge, hx ▸ ht.le, hs⟩
    · have := ih ht b hb
      exact ⟨by omega, this.2⟩

/-- Blocks at different positions of a tiling do not meet. -/
theorem Tiles.split {lo hi : ℕ} {xs ys : List Block} {b : Block}
    (h : Tiles lo hi (xs ++ b :: ys)) :
    Tiles lo b.addr xs ∧ minSplitTotal ≤ b.size ∧ Tiles (b.addr + b.size) hi ys := by
  obtain ⟨mid, hx, hb, hs, hy⟩ := tiles_append.mp h
  subst hb
  exact ⟨hx, hs, hy⟩

theorem Tiles.addr_injective {lo hi : ℕ} {bs : List Block} (h : Tiles lo hi bs) :
    ∀ b ∈ bs, ∀ c ∈ bs, b.addr = c.addr → b = c := by
  induction bs generalizing lo with
  | nil => simp
  | cons x xs ih =>
    obtain ⟨hx, hs, ht⟩ := h
    have hlow := ht.mem
    intro b hb c hc he
    simp only [minSplitTotal, headerSize, alignment, footerSize] at hs
    rcases List.mem_cons.mp hb with rfl | hb' <;> rcases List.mem_cons.mp hc with rfl | hc'
    · rfl
    · have := (hlow c hc').1
      omega
    · have := (hlow b hb').1
      omega
    · exact ih ht b hb' c hc' he

/-- A block keeps its fields when its header words and its footer keep their bytes. -/
theorem BlockAt.congr {m n : Memory} {uaPtr : ℕ} {b : Block} (h : BlockAt m uaPtr b)
    (hs : minSplitTotal ≤ b.size)
    (head : ∀ x, b.addr ≤ x → x < b.addr + 24 → n x = m x)
    (foot : ∀ x, b.addr + b.size - footerSize ≤ x → x < b.addr + b.size → n x = m x) :
    BlockAt n uaPtr b := by
  simp only [minSplitTotal, headerSize, alignment, footerSize] at hs
  obtain ⟨h1, h2, h3, h4, h5⟩ := h
  unfold hState at h1
  unfold hUa at h2
  unfold hSize at h3
  unfold fSize footerSize at h4
  unfold fState footerSize at h5
  unfold footerSize at foot
  constructor
  · unfold hState
    rw [← h1]
    exact read_congr fun x hl hr => head x hl (by omega)
  · unfold hUa
    rw [← h2]
    exact read_congr fun x hl hr => head x (by omega) (by omega)
  · unfold hSize
    conv_rhs => rw [← h3]
    exact read_congr fun x hl hr => head x (by omega) (by omega)
  · unfold fSize footerSize
    conv_rhs => rw [← h4]
    exact read_congr fun x hl hr => foot x hl (by omega)
  · unfold fState footerSize
    rw [← h5]
    exact read_congr fun x hl hr => foot x (by omega) (by omega)

end LibZenit.Arena
