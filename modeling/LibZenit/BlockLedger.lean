import Mathlib.Tactic

/-!
# Ledgers of live blocks

A ledger records which blocks an allocator has given out and not taken back. Each block has a number
of its own that is never given out again, so a stale pointer can be told from a live one. Freeing or
using a block that is not live sets `fault`. `grants` says which requests succeed.

`Owns l m` reads a ledger as a multiset of blocks, so that ownership can be moved around by the laws
of addition.
-/
namespace LibZenit.BlockLedger

structure Ledger where
  live : Finset ℕ
  next : ℕ
  requests : ℕ
  fault : Bool
  fresh : ∀ b ∈ live, b < next

variable {l : Ledger} {m m' : Multiset ℕ} {b : ℕ} {grants : ℕ → Bool}

def Ledger.alloc (grants : ℕ → Bool) (l : Ledger) : Option ℕ × Ledger :=
  if grants l.requests then
    (some l.next,
      { live := insert l.next l.live
        next := l.next + 1
        requests := l.requests + 1
        fault := l.fault
        fresh := fun b hb => by
          rcases Finset.mem_insert.mp hb with rfl | hb
          · exact Nat.lt_succ_self _
          · exact Nat.lt_succ_of_lt (l.fresh b hb) })
  else (none, { l with requests := l.requests + 1 })

/-- Read or write through a pointer to the block. -/
def Ledger.use (b : ℕ) (l : Ledger) : Ledger := if b ∈ l.live then l else { l with fault := true }

def Ledger.free (b : ℕ) (l : Ledger) : Ledger :=
  if b ∈ l.live then
    { l with
      live := l.live.erase b
      fresh := fun c hc => l.fresh c (Finset.mem_of_mem_erase hc) }
  else { l with fault := true }

/-- A reallocation that succeeds replaces the block; one that fails keeps it. -/
def Ledger.realloc (grants : ℕ → Bool) (b : ℕ) (l : Ledger) : Option ℕ × Ledger :=
  match (l.use b).alloc grants with
  | (none, l) => (none, l)
  | (some c, l) => (some c, l.free b)

/-- No fault so far, and the live blocks are those of `m`. -/
structure Owns (l : Ledger) (m : Multiset ℕ) : Prop where
  clean : l.fault = false
  live : l.live.val = m

theorem Owns.congr (h : Owns l m) (hm : m = m') : Owns l m' := hm ▸ h

theorem Owns.nodup (h : Owns l m) : m.Nodup := h.live ▸ l.live.nodup

theorem Owns.mem (h : Owns l m) : b ∈ l.live ↔ b ∈ m := by
  rw [← h.live, Finset.mem_def]

theorem Owns.use (h : Owns l m) (hb : b ∈ m) : l.use b = l := by
  unfold Ledger.use
  rw [if_pos (h.mem.mpr hb)]

theorem Owns.free (h : Owns l ({b} + m)) : Owns (l.free b) m := by
  have hb : b ∈ l.live := h.mem.mpr (by simp)
  unfold Ledger.free
  rw [if_pos hb]
  refine ⟨h.clean, ?_⟩
  rw [Finset.erase_val, h.live, Multiset.singleton_add, Multiset.erase_cons_head]

/-- A request is refused and changes nothing, or it adds a block that was not there. -/
theorem Owns.alloc (h : Owns l m) (grants : ℕ → Bool) :
    (∃ l', l.alloc grants = (none, l') ∧ Owns l' m ∧ ∃ n, grants n = false) ∨
      ∃ b l', l.alloc grants = (some b, l') ∧ Owns l' ({b} + m) ∧ b ∉ m := by
  unfold Ledger.alloc
  by_cases hg : grants l.requests = true
  · have hnew : l.next ∉ l.live := fun hmem => lt_irrefl _ (l.fresh _ hmem)
    rw [if_pos hg]
    refine Or.inr ⟨_, _, rfl, ⟨h.clean, ?_⟩, fun hmem => hnew (h.mem.mpr hmem)⟩
    rw [Finset.insert_val_of_notMem hnew, h.live, Multiset.singleton_add]
  · rw [if_neg hg]
    exact Or.inl ⟨_, rfl, ⟨h.clean, h.live⟩, _, by simpa using hg⟩

theorem Owns.realloc (h : Owns l ({b} + m)) (grants : ℕ → Bool) :
    (∃ l', l.realloc grants b = (none, l') ∧ Owns l' ({b} + m) ∧ ∃ n, grants n = false) ∨
      ∃ c l', l.realloc grants b = (some c, l') ∧ Owns l' ({c} + m) ∧ c ∉ m := by
  unfold Ledger.realloc
  rw [h.use (by simp)]
  rcases h.alloc grants with ⟨l', heq, hl', hn⟩ | ⟨c, l', heq, hl', hc⟩
  · rw [heq]
    exact Or.inl ⟨l', rfl, hl', hn⟩
  · rw [heq]
    refine Or.inr ⟨c, _, rfl, (hl'.congr ?_).free, fun hm => hc (by simp [hm])⟩
    abel

end LibZenit.BlockLedger
