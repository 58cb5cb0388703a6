import LibZenit.CircularBuffer
import LibZenit.DequeModel

/-!
# The deque is a list

`Represents d l` lets the stored tail be `capacity` in place of zero: this is how
`realloc_buffer` leaves it when it shrinks the block to the elements. The tail is used as an index
again by `zenit_deque_push_back` only.
-/
namespace LibZenit.Deques
open Blocks Growth CircularBuffer

variable {α : Type} {d d' : Deque α} {l : List α} {fuel : ℕ}

/-! ## The list -/

/-- What a call does to the list when no allocation fails. -/
def listStep : Op α → List α → Reply α × List α
  | .pushFront _ x, l => (⟨.ok, none⟩, x :: l)
  | .pushBack _ x, l => (⟨.ok, none⟩, l ++ [x])
  | .popFront, [] => (⟨.empty, none⟩, [])
  | .popFront, x :: l => (⟨.ok, some x⟩, l)
  | .popBack, l => if l = [] then (⟨.empty, none⟩, []) else (⟨.ok, l.getLast?⟩, l.dropLast)
  | .get i, l => (⟨.ok, l[i]?⟩, l)
  | .front, l => (⟨.ok, l.head?⟩, l)
  | .back, l => (⟨.ok, l.getLast?⟩, l)
  | .reserve _ _, l => (⟨.ok, none⟩, l)
  | .shrinkToFit _, l => (⟨.ok, none⟩, l)
  | .clear, _ => (⟨.ok, none⟩, [])

/-- The call is denied the memory it may ask for. -/
def Denied : Op α → Prop
  | .pushFront ok _ => ok = false
  | .pushBack ok _ => ok = false
  | .reserve ok _ => ok = false
  | .shrinkToFit ok => ok = false
  | _ => False

/-- A call that fails for lack of memory leaves the list as it is. -/
def Conforms (l : List α) (op : Op α) (reply : Reply α) (l' : List α) : Prop :=
  (reply, l') = listStep op l ∨ Denied op ∧ reply = ⟨.alloc, none⟩ ∧ l' = l

/-! ## The representation -/

structure Represents (d : Deque α) (l : List α) : Prop where
  sized : 0 < d.elemSize
  bytes : d.capacity * d.elemSize < 2 ^ 64
  slots : d.buffer.length = d.capacity
  count : d.count = l.length
  holds : Holds d.buffer d.head l
  head : d.head < d.capacity ∨ d.capacity = 0
  tail_le : d.tail ≤ d.capacity
  tail : d.tail % d.capacity = (d.head + d.count) % d.capacity

theorem Represents.fits (h : Represents d l) : l.length ≤ d.capacity := h.slots ▸ h.holds.fits

/-! ## Moving to another block -/

theorem copyOut_eq (h : Represents d l) {newBuf : List α} (hlen : l.length ≤ newBuf.length) :
    copyOut d newBuf = .ok (l ++ newBuf.drop l.length) := by
  have hinit : ∀ n ≤ l.length, (List.range n).foldlM
      (fun buf i => (readSlot d.buffer ((d.head + i) % d.capacity)).bind (writeSlot buf i)) newBuf =
      (.ok (l.take n ++ newBuf.drop n) : Exec (List α)) := by
    intro n
    induction n with
    | zero =>
      intro _
      simp
      rfl
    | succ n ih =>
      intro hn
      have hget := h.holds.get (by omega : n < l.length)
      rw [h.slots] at hget
      have hlt : n < (l.take n ++ newBuf.drop n).length := by
        simp only [List.length_append, List.length_take, List.length_drop]
        omega
      have htake : (l.take n).length = n := by
        rw [List.length_take]
        omega
      have hset : (l.take n ++ newBuf.drop n).set n l[n] =
          l.take (n + 1) ++ newBuf.drop (n + 1) := by
        rw [List.set_append_right _ _ (by omega), htake, Nat.sub_self,
          List.drop_eq_getElem_cons (by omega : n < newBuf.length), List.set_cons_zero,
          List.take_succ_eq_append_getElem (by omega : n < l.length), List.append_assoc,
          List.singleton_append]
      rw [List.range_succ, List.foldlM_append, ih (by omega)]
      simp only [bind, Except.bind, List.foldlM_cons, List.foldlM_nil, readSlot_eq hget,
        writeSlot_eq hlt, hset]
      rfl
  rw [copyOut, h.count, hinit _ le_rfl, List.take_length]

/-! ## The two ends -/

theorem Represents.head_lt (h : Represents d l) (hpos : 0 < d.capacity) :
    d.head < d.buffer.length := by
  rw [h.slots]
  exact h.head.resolve_right (by omega)

theorem putFront_spec (h : Represents d l) (hroom : l.length < d.capacity) (x : α) :
    ∃ d', putFront d x = .ok (d', ⟨.ok, none⟩) ∧ Represents d' (x :: l) := by
  have hhead := h.head_lt (by omega)
  have hb := before_lt hhead
  have hcons := h.holds.cons (by rw [h.slots]; exact hroom) hhead x
  have htail := before_add (i := d.count) hhead
  have hwrite := writeSlot_eq hb x
  rw [h.slots] at hb hcons htail hwrite
  refine ⟨_, congrArg (Except.map _) hwrite, h.sized, h.bytes, ?_, ?_, hcons, Or.inl hb,
    h.tail_le, ?_⟩
  · simp [h.slots]
  · simp [h.count]
  · simp only [h.tail, ← htail]
    rfl

theorem putBack_spec (h : Represents d l) (hroom : l.length < d.capacity)
    (hlt : d.tail < d.capacity) (x : α) :
    ∃ d', putBack d x = .ok (d', ⟨.ok, none⟩) ∧ Represents d' (l ++ [x]) := by
  have htail : d.tail = (d.head + l.length) % d.buffer.length := by
    rw [h.slots, ← h.count, ← h.tail, Nat.mod_eq_of_lt hlt]
  have hwrite : writeSlot d.buffer d.tail x = .ok (d.buffer.set d.tail x) :=
    writeSlot_eq (by rw [h.slots]; exact hlt) x
  have hsnoc := h.holds.snoc (by rw [h.slots]; exact hroom) x
  rw [← htail] at hsnoc
  refine ⟨_, congrArg (Except.map _) hwrite, h.sized, h.bytes, ?_, ?_, hsnoc, h.head, ?_, ?_⟩
  · simp [h.slots]
  · simp [h.count]
  · exact (Nat.mod_lt _ (by omega)).le
  · simp only [Nat.mod_mod]
    rw [Nat.add_mod, h.tail, ← Nat.add_mod, Nat.add_assoc]

theorem popFront_spec {x : α} (h : Represents d (x :: l)) :
    ∃ d', zenitDequePopFront d = .ok (d', ⟨.ok, some x⟩) ∧ Represents d' l := by
  have hcount := h.count
  have hfits := h.fits
  rw [List.length_cons] at hcount hfits
  have hread := readSlot_eq (h.holds.first (h.head_lt (by omega)))
  have htail := h.holds.tail
  rw [h.slots] at htail
  have hmod : (d.head + 1) % d.capacity < d.capacity := Nat.mod_lt _ (by omega)
  refine ⟨_, (if_neg (by omega)).trans (congrArg (Except.map _) hread), h.sized, h.bytes,
    h.slots, ?_, htail, Or.inl hmod, h.tail_le, ?_⟩
  · simp [hcount]
  · simp only [h.tail, hcount, Nat.mod_add_mod, Nat.add_sub_cancel]
    rw [Nat.add_assoc, Nat.add_comm 1]

/-- The slot before the tail holds the last element. -/
theorem Represents.last_slot {x : α} (h : Represents d (l ++ [x])) :
    before d.capacity d.tail = (d.head + l.length) % d.capacity := by
  have hcount := h.count
  have hfits := h.fits
  have hle := h.tail_le
  rw [List.length_append, List.length_singleton] at hcount hfits
  have hlt : before d.capacity d.tail < d.capacity := by
    unfold before
    split_ifs <;> omega
  have hsucc : (before d.capacity d.tail + 1) % d.capacity = d.tail % d.capacity := by
    unfold before
    split_ifs with hz
    · rw [hz, Nat.sub_add_cancel (by omega), Nat.mod_self, Nat.zero_mod]
    · rw [Nat.sub_add_cancel (by omega)]
  rw [h.tail, hcount, ← Nat.add_assoc] at hsucc
  have hmod : before d.capacity d.tail ≡ d.head + l.length [MOD d.capacity] :=
    Nat.ModEq.add_right_cancel' 1 hsucc
  rw [← hmod, Nat.mod_eq_of_lt hlt]

theorem Represents.read_last {x : α} (h : Represents d (l ++ [x])) :
    readSlot d.buffer (before d.capacity d.tail) = .ok x := by
  have hlast := h.holds.last
  rw [h.slots, ← h.last_slot] at hlast
  exact readSlot_eq hlast

theorem popBack_spec {x : α} (h : Represents d (l ++ [x])) :
    ∃ d', zenitDequePopBack d = .ok (d', ⟨.ok, some x⟩) ∧ Represents d' l := by
  have hcount := h.count
  have hfits := h.fits
  rw [List.length_append, List.length_singleton] at hcount hfits
  have hslot := h.last_slot
  have hmod : (d.head + l.length) % d.capacity < d.capacity := Nat.mod_lt _ (by omega)
  refine ⟨_, (if_neg (by omega)).trans (congrArg (Except.map _) h.read_last), h.sized, h.bytes,
    h.slots, ?_, h.holds.init, h.head, ?_, ?_⟩
  · simp [hcount]
  · exact (hslot ▸ hmod).le
  · simp only [hcount, Nat.add_sub_cancel]
    rw [before] at hslot
    rw [hslot, Nat.mod_mod]

theorem front_spec (h : Represents d l) : zenitDequeFront d = .ok l.head? := by
  cases l with
  | nil => exact if_pos h.count
  | cons x l =>
    have hcount := h.count
    have hfits := h.fits
    rw [List.length_cons] at hcount hfits
    have hread := readSlot_eq (h.holds.first (h.head_lt (by omega)))
    exact (if_neg (by omega)).trans (congrArg (Except.map _) hread)

theorem clear_represents (h : Represents d l) : Represents (zenitDequeClear d) [] :=
  ⟨h.sized, h.bytes, h.slots, rfl, holds_nil _ _, (Nat.eq_zero_or_pos d.capacity).symm,
    Nat.zero_le _, rfl⟩

variable [Inhabited α]

theorem create_represents {handle block : Bool} {elemSize capacity : ℕ}
    (hbytes : capacity * elemSize < 2 ^ 64)
    (h : zenitDequeCreateWithCapacity handle block elemSize capacity = some d) :
    Represents d [] := by
  unfold zenitDequeCreateWithCapacity at h
  split_ifs at h with hz hok
  push Not at hz
  have hslots := slotsOf_eq (Nat.pos_of_ne_zero hz.1) hbytes
  cases h
  exact ⟨Nat.pos_of_ne_zero hz.1, hbytes, by simp [hslots], rfl, holds_nil _ _,
    Or.inl (Nat.pos_of_ne_zero hz.2), Nat.zero_le _, rfl⟩

/-- What `realloc_buffer` leaves behind: the list from the first slot on. -/
structure Moved (newCap : ℕ) (l : List α) (d' : Deque α) : Prop where
  represents : Represents d' l
  capacity : d'.capacity = newCap
  tail : d'.tail = l.length

theorem reallocBuffer_spec (h : Represents d l) {newCap : ℕ} (hn : l.length ≤ newCap)
    (hbytes : newCap * d.elemSize < 2 ^ 64) (ok : Bool) :
    ∃ d' r, reallocBuffer ok d newCap = .ok (d', r) ∧
      ((r = .alloc ∧ ok = false ∧ d' = d) ∨ (r = .ok ∧ Moved newCap l d')) := by
  unfold reallocBuffer
  by_cases hzero : newCap = 0
  · subst hzero
    have hl : l = [] := List.length_eq_zero_iff.mp (by omega)
    subst hl
    refine ⟨_, _, if_pos rfl, Or.inr ⟨rfl, ⟨h.sized, hbytes, rfl, h.count, holds_nil _ _,
      Or.inr rfl, le_rfl, ?_⟩, rfl, rfl⟩⟩
    simp [h.count]
  rw [if_neg hzero]
  cases ok with
  | false => exact ⟨d, .alloc, by simp, Or.inl ⟨rfl, rfl, rfl⟩⟩
  | true =>
    have hslots := slotsOf_eq h.sized hbytes
    have hlen : l.length ≤ (List.replicate (slotsOf d.elemSize newCap) (default : α)).length := by
      simpa [hslots] using hn
    rw [if_neg (by simp), copyOut_eq h hlen]
    refine ⟨_, _, rfl, Or.inr ⟨rfl, ⟨h.sized, hbytes, ?_, h.count, holds_linear _ _,
      Or.inl (Nat.pos_of_ne_zero hzero), ?_, ?_⟩, rfl, h.count⟩⟩
    · simp only [List.length_append, List.length_drop, List.length_replicate, hslots]
      omega
    · simpa [h.count] using hn
    · simp

/-! ## The calls -/

/-- Growth does not start from a single slot, and no requested byte size wraps. -/
def Admissible (d : Deque α) : Op α → Prop
  | .pushFront _ _ => d.count = d.capacity →
      d.capacity ≠ 1 ∧ growthFactor d.capacity * d.elemSize < 2 ^ 64
  | .pushBack _ _ => d.count = d.capacity →
      d.capacity ≠ 1 ∧ growthFactor d.capacity * d.elemSize < 2 ^ 64
  | .reserve _ n => n * d.elemSize < 2 ^ 64
  | _ => True

/-- The tail that a shrink has left behind the block is about to be written through. -/
def StaleTail (d : Deque α) (op : Op α) : Prop :=
  (∃ ok x, op = .pushBack ok x) ∧ d.tail = d.capacity ∧ d.count < d.capacity

theorem grow_spec (h : Represents d l) (hone : d.capacity ≠ 1)
    (hbytes : growthFactor d.capacity * d.elemSize < 2 ^ 64) (fuel : ℕ) (ok : Bool) :
    ∃ d' r, grow (fuel + 2) ok d (wrap (d.capacity + 1)) = .ok (d', r) ∧
      ((r = .alloc ∧ ok = false ∧ d' = d) ∨
        (r = .ok ∧ Moved (growthFactor d.capacity) l d')) := by
  have hlt := lt_growthFactor hone
  have hle : growthFactor d.capacity ≤ growthFactor d.capacity * d.elemSize :=
    Nat.le_mul_of_pos_right _ h.sized
  have hloop := growLoop_succ hone (by omega) fuel
  rw [grow, wrap_of_lt (by omega), hloop]
  exact reallocBuffer_spec h (by have := h.fits; omega) hbytes ok

/-- A push goes on with room behind the tail, or fails without effect. -/
theorem withRoom_spec (h : Represents d l)
    (hgrow : d.count = d.capacity →
      d.capacity ≠ 1 ∧ growthFactor d.capacity * d.elemSize < 2 ^ 64)
    (fuel : ℕ) (ok : Bool) (go : Deque α → Exec (Deque α × Reply α)) :
    (withRoom (fuel + 2) ok d go = .ok (d, ⟨.alloc, none⟩) ∧ ok = false) ∨
      ∃ d', withRoom (fuel + 2) ok d go = go d' ∧ Represents d' l ∧ l.length < d'.capacity ∧
        d.capacity ≤ d'.capacity ∧ (d'.tail < d'.capacity ∨ d' = d ∧ d.count < d.capacity) := by
  have hcount := h.count
  have hfits := h.fits
  unfold withRoom
  by_cases hfull : d.count = d.capacity
  · obtain ⟨hone, hbytes⟩ := hgrow hfull
    have hlt := lt_growthFactor hone
    obtain ⟨d', r, hg, ⟨rfl, hok, rfl⟩ | ⟨rfl, hm⟩⟩ := grow_spec h hone hbytes fuel ok
    · left
      rw [if_pos hfull, hg]
      exact ⟨rfl, hok⟩
    · right
      refine ⟨d', ?_, hm.represents, by rw [hm.capacity]; omega, by rw [hm.capacity]; omega,
        Or.inl (by rw [hm.capacity, hm.tail]; omega)⟩
      rw [if_pos hfull, hg]
      rfl
  · right
    exact ⟨d, if_neg hfull, h, by omega, le_rfl, Or.inr ⟨rfl, by omega⟩⟩

/-- One call keeps the representation and answers as the list does. -/
def StepsTo (fuel : ℕ) (d : Deque α) (op : Op α) (l : List α) : Prop :=
  ∃ d' reply l', step fuel d op = .ok (d', reply) ∧ Conforms l op reply l' ∧ Represents d' l'

theorem pushFront_steps (h : Represents d l) {ok : Bool} {x : α}
    (hadm : Admissible d (.pushFront ok x)) (fuel : ℕ) :
    StepsTo (fuel + 2) d (.pushFront ok x) l := by
  rcases withRoom_spec h hadm fuel ok (putFront · x) with ⟨heq, hok⟩ | ⟨d₁, heq, h₁, hroom, -⟩
  · exact ⟨d, _, l, heq, Or.inr ⟨hok, rfl, rfl⟩, h⟩
  · obtain ⟨d₂, hput, h₂⟩ := putFront_spec h₁ hroom x
    exact ⟨d₂, _, x :: l, heq.trans hput, Or.inl rfl, h₂⟩

theorem pushBack_steps (h : Represents d l) {ok : Bool} {x : α}
    (hadm : Admissible d (.pushBack ok x)) (hstale : ¬StaleTail d (.pushBack ok x)) (fuel : ℕ) :
    StepsTo (fuel + 2) d (.pushBack ok x) l := by
  rcases withRoom_spec h hadm fuel ok (putBack · x) with
    ⟨heq, hok⟩ | ⟨d₁, heq, h₁, hroom, -, htail⟩
  · exact ⟨d, _, l, heq, Or.inr ⟨hok, rfl, rfl⟩, h⟩
  · have hlt : d₁.tail < d₁.capacity := by
      rcases htail with hlt | ⟨rfl, hcount⟩
      · exact hlt
      · rcases Nat.lt_or_eq_of_le h.tail_le with hlt | heq
        · exact hlt
        · exact absurd ⟨⟨ok, x, rfl⟩, heq, hcount⟩ hstale
    obtain ⟨d₂, hput, h₂⟩ := putBack_spec h₁ hroom hlt x
    exact ⟨d₂, _, l ++ [x], heq.trans hput, Or.inl rfl, h₂⟩

theorem popFront_steps (h : Represents d l) : StepsTo fuel d .popFront l := by
  cases l with
  | nil => exact ⟨d, _, [], if_pos h.count, Or.inl rfl, h⟩
  | cons x l =>
    obtain ⟨d', heq, h'⟩ := popFront_spec h
    exact ⟨d', _, l, heq, Or.inl rfl, h'⟩

theorem popBack_steps (h : Represents d l) : StepsTo fuel d .popBack l := by
  rcases List.eq_nil_or_concat l with rfl | ⟨init, x, rfl⟩
  · exact ⟨d, _, [], if_pos h.count, Or.inl rfl, h⟩
  · rw [List.concat_eq_append] at h ⊢
    obtain ⟨d', heq, h'⟩ := popBack_spec h
    exact ⟨d', _, init, heq, Or.inl (by simp [listStep]), h'⟩

theorem get_steps (h : Represents d l) (i : ℕ) : StepsTo fuel d (.get i) l := by
  have hcount := h.count
  by_cases hi : i < l.length
  · have hread := readSlot_eq (h.holds.get hi)
    rw [h.slots] at hread
    have hget : zenitDequeGet d i = .ok (some l[i]) :=
      (if_neg (by omega)).trans (congrArg (Except.map _) hread)
    refine ⟨d, _, l, congrArg (Except.map _) hget, Or.inl ?_, h⟩
    rw [listStep, List.getElem?_eq_getElem hi]
  · have hget : zenitDequeGet d i = .ok none := if_pos (by omega)
    refine ⟨d, _, l, congrArg (Except.map _) hget, Or.inl ?_, h⟩
    rw [listStep, List.getElem?_eq_none (by omega)]

theorem front_steps (h : Represents d l) : StepsTo fuel d .front l :=
  ⟨d, _, l, congrArg (Except.map _) (front_spec h), Or.inl rfl, h⟩

theorem back_steps (h : Represents d l) : StepsTo fuel d .back l := by
  rcases List.eq_nil_or_concat l with rfl | ⟨init, x, rfl⟩
  · have hback : zenitDequeBack d = .ok none := if_pos h.count
    exact ⟨d, _, [], congrArg (Except.map _) hback, Or.inl rfl, h⟩
  · rw [List.concat_eq_append] at h ⊢
    have hcount := h.count
    rw [List.length_append, List.length_singleton] at hcount
    have hback : zenitDequeBack d = .ok (some x) :=
      (if_neg (by omega)).trans (congrArg (Except.map _) h.read_last)
    exact ⟨d, _, init ++ [x], congrArg (Except.map _) hback, Or.inl (by simp [listStep]), h⟩

/-- A call that reallocates and does nothing else. -/
theorem realloc_steps (h : Represents d l) {op : Op α} {newCap : ℕ} {ok : Bool}
    (hn : l.length ≤ newCap) (hbytes : newCap * d.elemSize < 2 ^ 64)
    (hcall : step fuel d op = (reallocBuffer ok d newCap).map fun p => (p.1, ⟨p.2, none⟩))
    (hlist : listStep op l = (⟨.ok, none⟩, l)) (hdenied : ok = false → Denied op) :
    StepsTo fuel d op l := by
  obtain ⟨d', r, heq, hres⟩ := reallocBuffer_spec h hn hbytes ok
  rw [heq] at hcall
  obtain ⟨rfl, hok, rfl⟩ | ⟨rfl, hm⟩ := hres
  · exact ⟨d', _, l, hcall, Or.inr ⟨hdenied hok, rfl, rfl⟩, h⟩
  · exact ⟨d', _, l, hcall, Or.inl hlist.symm, hm.represents⟩

theorem reserve_steps (h : Represents d l) {ok : Bool} {n : ℕ}
    (hadm : Admissible d (.reserve ok n)) : StepsTo fuel d (.reserve ok n) l := by
  have hfits := h.fits
  by_cases hle : n ≤ d.capacity
  · have hres : zenitDequeReserve ok d n = .ok (d, .ok) := if_pos hle
    exact ⟨d, _, l, congrArg (Except.map _) hres, Or.inl rfl, h⟩
  · have hres : zenitDequeReserve ok d n = reallocBuffer ok d n := if_neg hle
    exact realloc_steps h (by omega) hadm (congrArg (Except.map _) hres) rfl id

theorem shrinkToFit_steps (h : Represents d l) (ok : Bool) :
    StepsTo fuel d (.shrinkToFit ok) l := by
  have hfits := h.fits
  by_cases hfull : d.count = d.capacity
  · have hshrink : zenitDequeShrinkToFit ok d = .ok (d, .ok) := if_pos hfull
    exact ⟨d, _, l, congrArg (Except.map _) hshrink, Or.inl rfl, h⟩
  · have hbytes : d.count * d.elemSize < 2 ^ 64 :=
      (Nat.mul_le_mul_right _ (h.count ▸ hfits)).trans_lt h.bytes
    have hshrink : zenitDequeShrinkToFit ok d = reallocBuffer ok d d.count := if_neg hfull
    exact realloc_steps h h.count.ge hbytes (congrArg (Except.map _) hshrink) rfl id

theorem clear_steps (h : Represents d l) : StepsTo fuel d .clear l :=
  ⟨zenitDequeClear d, _, [], rfl, Or.inl rfl, clear_represents h⟩

theorem step_steps (h : Represents d l) {op : Op α} (hadm : Admissible d op)
    (hstale : ¬StaleTail d op) (fuel : ℕ) : StepsTo (fuel + 2) d op l := by
  cases op with
  | pushFront ok x => exact pushFront_steps h hadm fuel
  | pushBack ok x => exact pushBack_steps h hadm hstale fuel
  | popFront => exact popFront_steps h
  | popBack => exact popBack_steps h
  | get i => exact get_steps h i
  | front => exact front_steps h
  | back => exact back_steps h
  | reserve ok n => exact reserve_steps h hadm
  | shrinkToFit ok => exact shrinkToFit_steps h ok
  | clear => exact clear_steps h

/-- Writing through a tail that a shrink has left behind the block. -/
theorem stale_outOfBounds (h : Represents d l) {op : Op α} (hstale : StaleTail d op) (fuel : ℕ) :
    step fuel d op = .error .outOfBounds := by
  obtain ⟨⟨ok, x, rfl⟩, htail, hcount⟩ := hstale
  have hwrite : writeSlot d.buffer d.tail x = .error .outOfBounds :=
    if_neg (by rw [h.slots, htail]; exact lt_irrefl _)
  exact (if_neg (by omega)).trans (congrArg (Except.map _) hwrite)

/-! ## Runs -/

/-- Every call of the run meets the condition in the state it finds. -/
abbrev Along (cond : Deque α → Op α → Prop) (fuel : ℕ) (d : Deque α) (ops : List (Op α)) : Prop :=
  Refinement.Along (step fuel) cond d ops

/-- The run stays inside the block and answers as a list does. -/
def RunsAsList (fuel : ℕ) (d : Deque α) (l : List α) (ops : List (Op α)) : Prop :=
  ∃ d' replies l', exec fuel d ops = .ok (d', replies) ∧
    Refinement.Conforming Conforms l ops replies l' ∧ d'.buffer.length = d'.capacity

theorem runsAsList_of_fresh (h : Represents d l) (fuel : ℕ) {ops : List (Op α)}
    (hadm : Along Admissible (fuel + 2) d ops)
    (hfresh : Along (fun d op => ¬StaleTail d op) (fuel + 2) d ops) :
    RunsAsList (fuel + 2) d l ops := by
  have hstep : ∀ (d : Deque α) l op, Represents d l → Admissible d op ∧ ¬StaleTail d op →
      StepsTo (fuel + 2) d op l := fun d l op h hcond => step_steps h hcond.1 hcond.2 fuel
  obtain ⟨d', replies, l', hexec, hconf, h'⟩ := Refinement.run_refines hstep h (hadm.and hfresh)
  exact ⟨d', replies, l', hexec, hconf, h'.slots⟩

theorem fresh_of_exec (h : Represents d l) (fuel : ℕ) {ops : List (Op α)}
    (hadm : Along Admissible (fuel + 2) d ops) {q : Deque α × List (Reply α)}
    (hexec : exec (fuel + 2) d ops = .ok q) :
    Along (fun d op => ¬StaleTail d op) (fuel + 2) d ops := by
  refine Refinement.along_of_run ?_ ?_ h hadm hexec
  · intro d l op h hadm hfresh
    obtain ⟨d', reply, l', hstep, -, h'⟩ := step_steps h hadm hfresh fuel
    exact ⟨d', reply, l', hstep, h'⟩
  · intro d l op p h hstale hstep
    rw [stale_outOfBounds h hstale] at hstep
    cases hstep

/-- Under growth that does not start from one slot, and byte sizes that do not wrap, a run stays
inside the block and answers as a list if and only if it never pushes behind a tail that a shrink
has left at the end of the block. -/
theorem deque_runs_as_list_iff {handle block : Bool} {elemSize capacity : ℕ} (fuel : ℕ)
    (hbytes : capacity * elemSize < 2 ^ 64)
    (hcreate : zenitDequeCreateWithCapacity handle block elemSize capacity = some d)
    {ops : List (Op α)} (hadm : Along Admissible (fuel + 2) d ops) :
    RunsAsList (fuel + 2) d [] ops ↔ Along (fun d op => ¬StaleTail d op) (fuel + 2) d ops := by
  have h := create_represents hbytes hcreate
  refine ⟨?_, runsAsList_of_fresh h fuel hadm⟩
  rintro ⟨d', replies, l', hexec, -⟩
  exact fresh_of_exec h fuel hadm hexec

/-- A new deque of four-byte elements with room for `capacity` of them. -/
def blank (capacity : ℕ) : Deque ℕ := ⟨List.replicate capacity default, 4, 0, capacity, 0, 0⟩

theorem push_pop_runs_as_list :
    RunsAsList 2 (blank 2) [] [.pushBack true 7, .pushFront true 5, .popBack] := by
  have hcreate : zenitDequeCreateWithCapacity true true 4 2 = some (blank 2) := rfl
  have hadm : Along Admissible (0 + 2) (blank 2)
      [.pushBack true 7, .pushFront true 5, .popBack] := by
    refine ⟨fun h => absurd h (by decide), fun d₁ _ h₁ => ?_⟩
    cases h₁
    exact ⟨fun h => absurd h (by decide), fun _ _ _ => ⟨trivial, fun _ _ _ => trivial⟩⟩
  refine (deque_runs_as_list_iff 0 (by norm_num) hcreate hadm).mpr ⟨?_, fun d₁ _ h₁ => ?_⟩
  · rintro ⟨-, htail, -⟩
    exact absurd htail (by decide)
  · refine ⟨?_, fun _ _ _ => ⟨?_, fun _ _ _ => trivial⟩⟩
    · rintro ⟨⟨ok, x, he⟩, -⟩
      cases he
    · rintro ⟨⟨ok, x, he⟩, -⟩
      cases he

/-- Two elements, a shrink to them, a pop at the front and a push at the back. -/
theorem shrunk_deque_leaves_block :
    zenitDequeCreateWithCapacity true true 4 4 = some (blank 4) ∧
    Along Admissible 2 (blank 4)
      [.pushBack true 1, .pushBack true 2, .shrinkToFit true, .popFront, .pushBack true 3] ∧
    exec 2 (blank 4)
      [.pushBack true 1, .pushBack true 2, .shrinkToFit true, .popFront, .pushBack true 3] =
      .error .outOfBounds := by
  refine ⟨rfl, ?_, rfl⟩
  refine ⟨fun h => absurd h (by decide), fun d₁ _ h₁ => ?_⟩
  cases h₁
  refine ⟨fun h => absurd h (by decide), fun d₂ _ h₂ => ?_⟩
  cases h₂
  refine ⟨trivial, fun d₃ _ h₃ => ?_⟩
  cases h₃
  refine ⟨trivial, fun d₄ _ h₄ => ?_⟩
  cases h₄
  exact ⟨fun h => absurd h (by decide), fun _ _ _ => trivial⟩

end LibZenit.Deques
