import LibZenit.Refinement
import LibZenit.VectorModel

/-!
# The vector is a sequence

The elements stand at the front of the block. Growing, shrinking and both moves inside the block
keep that front, whichever way the block is reallocated.
-/
namespace LibZenit.Vectors
open Blocks Growth Reallocation

variable {α : Type} {v v' : Vector α} {l : List α} {fuel : ℕ}

/-! ## The sequence -/

/-- What a call does to the sequence when no allocation fails. -/
def listStep : Op α → List α → Reply α × List α
  | .push _ x, l => (⟨.ok, none⟩, l ++ [x])
  | .pop, l => if l = [] then (⟨.empty, none⟩, l) else (⟨.ok, l.getLast?⟩, l.dropLast)
  | .insert _ i x, l =>
    if i > l.length then (⟨.param, none⟩, l) else (⟨.ok, none⟩, l.take i ++ x :: l.drop i)
  | .remove i, l => if i ≥ l.length then (⟨.param, none⟩, l) else (⟨.ok, l[i]?⟩, l.eraseIdx i)
  | .get i, l => (⟨.ok, l[i]?⟩, l)
  | .set i x, l => if i ≥ l.length then (⟨.param, none⟩, l) else (⟨.ok, none⟩, l.set i x)
  | .reserve _ _, l => (⟨.ok, none⟩, l)
  | .shrinkToFit _, l => (⟨.ok, none⟩, l)
  | .clear, _ => (⟨.ok, none⟩, [])

/-- The call is denied the memory it may ask for. -/
def Denied : Op α → Prop
  | .push ok _ => ok = false
  | .insert ok _ _ => ok = false
  | .reserve ok _ => ok = false
  | .shrinkToFit ok => ok = false
  | _ => False

/-- A call that fails for lack of memory leaves the sequence as it is. -/
def Conforms (l : List α) (op : Op α) (reply : Reply α) (l' : List α) : Prop :=
  (reply, l') = listStep op l ∨ Denied op ∧ reply = ⟨.alloc, none⟩ ∧ l' = l

/-- No error changes the sequence. -/
theorem Conforms.error {op : Op α} {reply : Reply α} {l' : List α} (h : Conforms l op reply l')
    (hcode : reply.code ≠ .ok) : l' = l := by
  obtain h | ⟨-, -, rfl⟩ := h
  · unfold listStep at h
    split at h <;> (try split_ifs at h) <;> cases h <;> first | rfl | exact absurd rfl hcode
  · rfl

/-! ## The representation -/

structure Represents (v : Vector α) (l : List α) : Prop where
  sized : 0 < v.elemSize
  bytes : v.capacity * v.elemSize < 2 ^ 64
  slots : v.buffer.length = v.capacity
  count : v.count = l.length
  fits : l.length ≤ v.capacity
  holds : v.buffer.take l.length = l

theorem Represents.get (h : Represents v l) {i : ℕ} (hi : i < l.length) :
    v.buffer[i]? = l[i]? := by
  have hget : (v.buffer.take l.length)[i]? = v.buffer[i]? := List.getElem?_take_of_lt hi
  rw [h.holds] at hget
  exact hget.symm

theorem Represents.read (h : Represents v l) {i : ℕ} (hi : i < l.length) :
    readSlot v.buffer i = .ok l[i] :=
  readSlot_eq ((h.get hi).trans (List.getElem?_eq_getElem hi))

/-! ## The elements -/

theorem putLast_spec (h : Represents v l) (hroom : l.length < v.capacity) (x : α) :
    ∃ v', putLast v x = .ok (v', ⟨.ok, none⟩) ∧ Represents v' (l ++ [x]) := by
  have hlt : v.count < v.buffer.length := by rw [h.count, h.slots]; exact hroom
  refine ⟨_, congrArg (Except.map _) (writeSlot_eq hlt x), h.sized, h.bytes, ?_, ?_, ?_, ?_⟩
  · simp [h.slots]
  · simp [h.count]
  · simpa using hroom
  · rw [List.length_append, List.length_singleton, h.count,
      List.take_succ_eq_append_getElem (by simpa [h.slots] using hroom),
      List.take_set_of_le (le_refl _), h.holds]
    simp

theorem putLast_frame {x : α} {reply : Reply α} (h : putLast v x = .ok (v', reply)) :
    v'.capacity = v.capacity ∧ v'.elemSize = v.elemSize := by
  obtain ⟨buffer, -, heq⟩ := map_eq_ok h
  cases heq
  exact ⟨rfl, rfl⟩

theorem putAt_spec (h : Represents v l) (hroom : l.length < v.capacity) {i : ℕ}
    (hi : i ≤ l.length) (x : α) :
    ∃ v', putAt v i x = .ok (v', ⟨.ok, none⟩) ∧ Represents v' (l.take i ++ x :: l.drop i) := by
  have hslots := h.slots
  have hup := take_memmove_up hi (by omega : l.length < v.buffer.length) x
  rw [h.holds] at hup
  have hlen : (memmove v.buffer (i + 1) i (l.length - i)).length = v.buffer.length :=
    length_memmove (by omega) (by omega)
  have hmove : (if i < v.count then moveSlots v.buffer (i + 1) i (v.count - i) else .ok v.buffer) =
      .ok (memmove v.buffer (i + 1) i (l.length - i)) := by
    rw [h.count]
    by_cases hmiddle : i < l.length
    · rw [if_pos hmiddle, moveSlots, if_pos ⟨by omega, by omega⟩]
    · rw [if_neg hmiddle, show l.length - i = 0 by omega, memmove]
      simp
  have hlength : (l.take i ++ x :: l.drop i).length = l.length + 1 := by
    simp only [List.length_append, List.length_take, List.length_cons, List.length_drop]
    omega
  refine ⟨⟨(memmove v.buffer (i + 1) i (l.length - i)).set i x, v.elemSize, v.count + 1,
    v.capacity⟩, ?_, h.sized, h.bytes, ?_, ?_, ?_, ?_⟩
  · rw [putAt, hmove]
    exact congrArg (Except.map _) (writeSlot_eq (by omega) x)
  · simp [hlen, hslots]
  · rw [hlength, ← h.count]
  · rw [hlength]
    exact hroom
  · rw [hlength, hup]

theorem pop_spec {x : α} (h : Represents v (l ++ [x])) :
    ∃ v', zenitVectorPop v = .ok (v', ⟨.ok, some x⟩) ∧ Represents v' l := by
  have hcount := h.count
  have hfits := h.fits
  have hread := h.read (i := l.length) (by simp)
  rw [List.length_append, List.length_singleton] at hcount hfits
  rw [List.getElem_concat_length rfl] at hread
  refine ⟨{ v with count := v.count - 1 }, ?_, h.sized, h.bytes, h.slots, ?_,
    by simp only; omega, ?_⟩
  · rw [zenitVectorPop, if_neg (by omega), hcount, Nat.add_sub_cancel, hread]
    simp [Except.map]
  · simp [hcount]
  · have hholds := congrArg (List.take l.length) h.holds
    simpa [List.take_take] using hholds

theorem pop_frame {reply : Reply α} (h : zenitVectorPop v = .ok (v', reply)) :
    v'.capacity = v.capacity ∧ v'.elemSize = v.elemSize := by
  unfold zenitVectorPop at h
  split_ifs at h
  · cases h
    exact ⟨rfl, rfl⟩
  · obtain ⟨elem, -, heq⟩ := map_eq_ok h
    cases heq
    exact ⟨rfl, rfl⟩

theorem remove_spec (h : Represents v l) {i : ℕ} (hi : i < l.length) :
    ∃ v', zenitVectorRemove v i = .ok (v', ⟨.ok, l[i]?⟩) ∧ Represents v' (l.eraseIdx i) := by
  have hcount := h.count
  have hfits := h.fits
  have hslots := h.slots
  have hdown := take_memmove_down hi (by omega : l.length ≤ v.buffer.length)
  rw [h.holds] at hdown
  have hlen : (memmove v.buffer i (i + 1) (l.length - i - 1)).length = v.buffer.length :=
    length_memmove (by omega) (by omega)
  have hmove : (if i + 1 < v.count then moveSlots v.buffer i (i + 1) (v.count - i - 1)
      else .ok v.buffer) = .ok (memmove v.buffer i (i + 1) (l.length - i - 1)) := by
    rw [h.count]
    by_cases hmiddle : i + 1 < l.length
    · rw [if_pos hmiddle, moveSlots, if_pos ⟨by omega, by omega⟩]
    · rw [if_neg hmiddle, show l.length - i - 1 = 0 by omega, memmove]
      simp
  have hlength : (l.eraseIdx i).length = l.length - 1 := List.length_eraseIdx_of_lt hi
  refine ⟨{ v with buffer := memmove v.buffer i (i + 1) (l.length - i - 1), count := v.count - 1 },
    ?_, h.sized, h.bytes, ?_, ?_, ?_, ?_⟩
  · rw [zenitVectorRemove, if_neg (by omega), h.read hi]
    simp only [Except.bind, hmove, List.getElem?_eq_getElem hi]
    rfl
  · simp [hlen, hslots]
  · rw [hlength, ← h.count]
  · rw [hlength]
    exact (Nat.sub_le _ _).trans hfits
  · rw [hlength, hdown]

theorem set_spec (h : Represents v l) {i : ℕ} (hi : i < l.length) (x : α) :
    ∃ v', zenitVectorSet v i x = .ok (v', ⟨.ok, none⟩) ∧ Represents v' (l.set i x) := by
  have hcount := h.count
  have hfits := h.fits
  have hslots := h.slots
  refine ⟨{ v with buffer := v.buffer.set i x }, ?_, h.sized, h.bytes, ?_, ?_, ?_, ?_⟩
  · rw [zenitVectorSet, if_neg (by omega), writeSlot_eq (by omega)]
    rfl
  · simp [hslots]
  · simp [h.count]
  · simpa using hfits
  · rw [List.length_set, List.take_set, h.holds]

theorem get_spec (h : Represents v l) (i : ℕ) : zenitVectorGet v i = .ok l[i]? := by
  have hcount := h.count
  rw [zenitVectorGet]
  by_cases hi : i ≥ l.length
  · rw [if_pos (by omega), List.getElem?_eq_none hi]
  · rw [if_neg (by omega), h.read (by omega), List.getElem?_eq_getElem (by omega)]
    rfl

theorem clear_represents (h : Represents v l) : Represents (zenitVectorClear v) [] :=
  ⟨h.sized, h.bytes, h.slots, rfl, Nat.zero_le _, rfl⟩

/-! ## Moving to another block -/

theorem create_represents {handle : Bool} {elemSize : ℕ}
    (h : zenitVectorCreate handle elemSize = some v) : Represents v [] := by
  unfold zenitVectorCreate at h
  split_ifs at h with hz hok
  cases h
  exact ⟨Nat.pos_of_ne_zero hz, by simp, rfl, rfl, le_rfl, rfl⟩

variable [Inhabited α]

theorem createWithCapacity_represents {handle block : Bool} {elemSize capacity : ℕ}
    (hbytes : capacity * elemSize < 2 ^ 64)
    (h : zenitVectorCreateWithCapacity handle block elemSize capacity = some v) :
    Represents v [] := by
  unfold zenitVectorCreateWithCapacity at h
  split_ifs at h with hz hok
  push Not at hz
  have hslots := slotsOf_eq (Nat.pos_of_ne_zero hz.1) hbytes
  cases h
  exact ⟨Nat.pos_of_ne_zero hz.1, hbytes, by simp [hslots], rfl, Nat.zero_le _, rfl⟩

theorem reallocBuffer_spec (h : Represents v l) {newCap : ℕ} (hn : l.length ≤ newCap)
    (hbytes : newCap * v.elemSize < 2 ^ 64) (ok : Bool) :
    ∃ v' r, reallocBuffer ok v newCap = (v', r) ∧
      ((r = .alloc ∧ ok = false ∧ v' = v) ∨
        (r = .ok ∧ Represents v' l ∧ v'.capacity = newCap ∧ v'.elemSize = v.elemSize)) := by
  unfold reallocBuffer
  by_cases hzero : newCap = 0
  · subst hzero
    have hl : l = [] := List.length_eq_zero_iff.mp (by omega)
    subst hl
    exact ⟨_, _, if_pos rfl, Or.inr ⟨rfl, ⟨h.sized, hbytes, rfl, h.count, le_rfl, rfl⟩, rfl, rfl⟩⟩
  rw [if_neg hzero]
  cases ok with
  | false => exact ⟨v, .alloc, by simp, Or.inl ⟨rfl, rfl, rfl⟩⟩
  | true =>
    have hslots := slotsOf_eq h.sized hbytes
    have hold := h.slots
    have hfits := h.fits
    rw [if_neg (by simp), hslots]
    refine ⟨_, _, rfl, Or.inr ⟨rfl, ⟨h.sized, hbytes, length_resize _ _ _, h.count, hn, ?_⟩,
      rfl, rfl⟩⟩
    rw [take_resize default (by omega) hn, h.holds]

/-! ## The calls -/

/-- Growth does not start from a single slot, and no requested byte size wraps. -/
def Admissible (v : Vector α) : Op α → Prop
  | .push _ _ => v.count = v.capacity →
      v.capacity ≠ 1 ∧ growthFactor v.capacity * v.elemSize < 2 ^ 64
  | .insert _ i _ => i ≤ v.count → v.count = v.capacity →
      v.capacity ≠ 1 ∧ growthFactor v.capacity * v.elemSize < 2 ^ 64
  | .reserve _ n => n * v.elemSize < 2 ^ 64
  | _ => True

/-- A full block grows, or the call fails without effect. -/
theorem withRoom_spec (h : Represents v l) {m : ℕ}
    (hm : v.count = v.capacity → m = wrap (v.capacity + 1))
    (hgrow : v.count = v.capacity →
      v.capacity ≠ 1 ∧ growthFactor v.capacity * v.elemSize < 2 ^ 64)
    (fuel : ℕ) (ok : Bool) (go : Vector α → Exec (Vector α × Reply α)) :
    (withRoom (fuel + 2) ok v m go = .ok (v, ⟨.alloc, none⟩) ∧ ok = false) ∨
      ∃ v', withRoom (fuel + 2) ok v m go = go v' ∧ Represents v' l ∧ l.length < v'.capacity ∧
        v'.capacity ≤ growthFactor v.capacity ∧ v'.elemSize = v.elemSize := by
  have hcount := h.count
  have hfits := h.fits
  unfold withRoom
  by_cases hfull : v.count = v.capacity
  · obtain ⟨hone, hbytes⟩ := hgrow hfull
    have hlt := lt_growthFactor hone
    have hle : growthFactor v.capacity ≤ growthFactor v.capacity * v.elemSize :=
      Nat.le_mul_of_pos_right _ h.sized
    have hloop := growLoop_succ hone (by omega) fuel
    obtain ⟨v', r, hrealloc, hres⟩ := reallocBuffer_spec h (by omega) hbytes ok
    rw [if_pos hfull, hm hfull, wrap_of_lt (by omega), grow, hloop]
    simp only [Except.map, hrealloc, Except.bind]
    obtain ⟨rfl, hok, rfl⟩ | ⟨rfl, h', hcap, hsize⟩ := hres
    · exact Or.inl ⟨rfl, hok⟩
    · exact Or.inr ⟨v', rfl, h', by omega, hcap.le, hsize⟩
  · exact Or.inr ⟨v, if_neg hfull, h, by omega, le_growthFactor _, rfl⟩

/-- One call keeps the representation and answers as the sequence does. -/
def StepsTo (fuel : ℕ) (v : Vector α) (op : Op α) (l : List α) : Prop :=
  ∃ v' reply l', step fuel v op = .ok (v', reply) ∧ Conforms l op reply l' ∧ Represents v' l'

theorem push_steps (h : Represents v l) {ok : Bool} {x : α} (hadm : Admissible v (.push ok x))
    (fuel : ℕ) : StepsTo (fuel + 2) v (.push ok x) l := by
  obtain ⟨heq, hok⟩ | ⟨v₁, heq, h₁, hroom, -⟩ :=
    withRoom_spec h (fun _ => rfl) hadm fuel ok (putLast · x)
  · exact ⟨v, _, l, heq, Or.inr ⟨hok, rfl, rfl⟩, h⟩
  · obtain ⟨v₂, hput, h₂⟩ := putLast_spec h₁ hroom x
    exact ⟨v₂, _, l ++ [x], heq.trans hput, Or.inl rfl, h₂⟩

theorem insert_steps (h : Represents v l) {ok : Bool} {i : ℕ} {x : α}
    (hadm : Admissible v (.insert ok i x)) (fuel : ℕ) :
    StepsTo (fuel + 2) v (.insert ok i x) l := by
  have hcount := h.count
  by_cases hi : i > v.count
  · exact ⟨v, _, l, if_pos hi, Or.inl (by rw [listStep, if_pos (by omega)]), h⟩
  have hlist : listStep (.insert ok i x) l = (⟨.ok, none⟩, l.take i ++ x :: l.drop i) := by
    rw [listStep, if_neg (by omega)]
  have hcall : step (fuel + 2) v (.insert ok i x) =
      withRoom (fuel + 2) ok v (wrap (v.count + 1)) (putAt · i x) := if_neg hi
  have hneeded : v.count = v.capacity → wrap (v.count + 1) = wrap (v.capacity + 1) :=
    fun hfull => by rw [hfull]
  obtain ⟨heq, hok⟩ | ⟨v₁, heq, h₁, hroom, -⟩ :=
    withRoom_spec h hneeded (hadm (by omega)) fuel ok (putAt · i x)
  · exact ⟨v, _, l, hcall.trans heq, Or.inr ⟨hok, rfl, rfl⟩, h⟩
  · obtain ⟨v₂, hput, h₂⟩ := putAt_spec h₁ hroom (by omega : i ≤ l.length) x
    exact ⟨v₂, _, _, hcall.trans (heq.trans hput), Or.inl hlist.symm, h₂⟩

theorem pop_steps (h : Represents v l) : StepsTo fuel v .pop l := by
  rcases List.eq_nil_or_concat l with rfl | ⟨init, x, rfl⟩
  · exact ⟨v, _, [], if_pos h.count, Or.inl rfl, h⟩
  · rw [List.concat_eq_append] at h ⊢
    obtain ⟨v', heq, h'⟩ := pop_spec h
    exact ⟨v', _, init, heq, Or.inl (by simp [listStep]), h'⟩

theorem remove_steps (h : Represents v l) (i : ℕ) : StepsTo fuel v (.remove i) l := by
  have hcount := h.count
  by_cases hi : i ≥ l.length
  · exact ⟨v, _, l, if_pos (by omega), Or.inl (by rw [listStep, if_pos hi]), h⟩
  · obtain ⟨v', heq, h'⟩ := remove_spec h (by omega : i < l.length)
    exact ⟨v', _, _, heq, Or.inl (by rw [listStep, if_neg hi]), h'⟩

theorem set_steps (h : Represents v l) (i : ℕ) (x : α) : StepsTo fuel v (.set i x) l := by
  have hcount := h.count
  by_cases hi : i ≥ l.length
  · exact ⟨v, _, l, if_pos (by omega), Or.inl (by rw [listStep, if_pos hi]), h⟩
  · obtain ⟨v', heq, h'⟩ := set_spec h (by omega : i < l.length) x
    exact ⟨v', _, _, heq, Or.inl (by rw [listStep, if_neg hi]), h'⟩

theorem get_steps (h : Represents v l) (i : ℕ) : StepsTo fuel v (.get i) l :=
  ⟨v, _, l, congrArg (Except.map _) (get_spec h i), Or.inl rfl, h⟩

/-- A call that reallocates and does nothing else. -/
theorem realloc_steps (h : Represents v l) {op : Op α} {newCap : ℕ} {ok : Bool}
    (hn : l.length ≤ newCap) (hbytes : newCap * v.elemSize < 2 ^ 64)
    (hcall : step fuel v op = .ok ((reallocBuffer ok v newCap).1,
      ⟨(reallocBuffer ok v newCap).2, none⟩))
    (hlist : listStep op l = (⟨.ok, none⟩, l)) (hdenied : ok = false → Denied op) :
    StepsTo fuel v op l := by
  obtain ⟨v', r, heq, hres⟩ := reallocBuffer_spec h hn hbytes ok
  rw [heq] at hcall
  obtain ⟨rfl, hok, rfl⟩ | ⟨rfl, h', -⟩ := hres
  · exact ⟨v', _, l, hcall, Or.inr ⟨hdenied hok, rfl, rfl⟩, h⟩
  · exact ⟨v', _, l, hcall, Or.inl hlist.symm, h'⟩

theorem reserve_steps (h : Represents v l) {ok : Bool} {n : ℕ}
    (hadm : Admissible v (.reserve ok n)) : StepsTo fuel v (.reserve ok n) l := by
  have hfits := h.fits
  by_cases hle : n ≤ v.capacity
  · refine ⟨v, _, l, ?_, Or.inl rfl, h⟩
    rw [step, zenitVectorReserve, if_pos hle]
  · refine realloc_steps h (by omega : l.length ≤ n) hadm ?_ rfl id
    rw [step, zenitVectorReserve, if_neg hle]

theorem shrinkToFit_steps (h : Represents v l) (ok : Bool) :
    StepsTo fuel v (.shrinkToFit ok) l := by
  have hfits := h.fits
  by_cases hfull : v.count = v.capacity
  · refine ⟨v, _, l, ?_, Or.inl rfl, h⟩
    rw [step, zenitVectorShrinkToFit, if_pos hfull]
  · have hbytes : v.count * v.elemSize < 2 ^ 64 :=
      (Nat.mul_le_mul_right _ (h.count ▸ hfits)).trans_lt h.bytes
    refine realloc_steps h h.count.ge hbytes ?_ rfl id
    rw [step, zenitVectorShrinkToFit, if_neg hfull]

theorem clear_steps (h : Represents v l) : StepsTo fuel v .clear l :=
  ⟨zenitVectorClear v, _, [], rfl, Or.inl rfl, clear_represents h⟩

theorem step_steps (h : Represents v l) {op : Op α} (hadm : Admissible v op) (fuel : ℕ) :
    StepsTo (fuel + 2) v op l := by
  cases op with
  | push ok x => exact push_steps h hadm fuel
  | pop => exact pop_steps h
  | insert ok i x => exact insert_steps h hadm fuel
  | remove i => exact remove_steps h i
  | get i => exact get_steps h i
  | set i x => exact set_steps h i x
  | reserve ok n => exact reserve_steps h hadm
  | shrinkToFit ok => exact shrinkToFit_steps h ok
  | clear => exact clear_steps h

/-! ## Either kind of allocator -/

/-- The block is as large as its byte size says. -/
def Backed (v : Vector α) : Prop := v.buffer.length = slotsOf v.elemSize v.capacity

omit [Inhabited α] in
theorem Represents.backed (h : Represents v l) : Backed v := by
  rw [Backed, slotsOf_eq h.sized h.bytes, h.slots]

theorem reallocBufferBy_eq (h : Backed v) (hasRealloc ok : Bool) (newCap : ℕ) :
    reallocBufferBy hasRealloc ok v newCap = .ok (reallocBuffer ok v newCap) := by
  rw [reallocBufferBy, reallocBuffer, ← h, zenitAllocatorRealloc_eq]
  split_ifs <;> rfl

theorem withRoomBy_eq (h : Backed v) (hasRealloc : Bool) (fuel : ℕ) (ok : Bool) (m : ℕ)
    (go : Vector α → Exec (Vector α × Reply α)) :
    withRoomBy hasRealloc fuel ok v m go = withRoom fuel ok v m go := by
  have hrealloc : reallocBufferBy hasRealloc ok v = fun newCap => .ok (reallocBuffer ok v newCap) :=
    funext (reallocBufferBy_eq h hasRealloc ok)
  rw [withRoomBy, withRoom, grow, hrealloc]
  cases growLoop m fuel v.capacity <;> rfl

theorem stepBy_eq (h : Backed v) (hasRealloc : Bool) (fuel : ℕ) (op : Op α) :
    stepBy hasRealloc fuel v op = step fuel v op := by
  cases op with
  | push ok x => rw [stepBy, step, zenitVectorPush, withRoomBy_eq h]
  | insert ok i x =>
    rw [stepBy, step, zenitVectorInsert, withRoomBy_eq h]
  | reserve ok n =>
    rw [stepBy, step, zenitVectorReserve, reallocBufferBy_eq h]
    split_ifs <;> rfl
  | shrinkToFit ok =>
    rw [stepBy, step, zenitVectorShrinkToFit, reallocBufferBy_eq h]
    split_ifs <;> rfl
  | pop | remove _ | get _ | set _ _ | clear => rfl

/-! ## Runs -/

/-- If growth does not start from one slot and byte sizes do not wrap, a run of a vector keeps to
its block, whichever kind of allocator there is, and answers as a sequence does. -/
theorem vector_refines_sequence (hasRealloc : Bool) (fuel : ℕ) {elemSize : ℕ}
    (hcreate : (∃ handle, zenitVectorCreate handle elemSize = some v) ∨
      ∃ handle block capacity, capacity * elemSize < 2 ^ 64 ∧
        zenitVectorCreateWithCapacity handle block elemSize capacity = some v)
    {ops : List (Op α)} (hadm : Refinement.Along (stepBy hasRealloc (fuel + 2)) Admissible v ops) :
    ∃ v' replies l', Refinement.run (stepBy hasRealloc (fuel + 2)) v ops = .ok (v', replies) ∧
      Refinement.Conforming
        (fun l op reply l' => Conforms l op reply l' ∧ (reply.code ≠ .ok → l' = l))
        [] ops replies l' ∧
      v'.count = l'.length ∧ v'.count ≤ v'.capacity ∧ v'.buffer.length = v'.capacity ∧
      ∀ i, zenitVectorGet v' i = .ok l'[i]? := by
  have h : Represents v [] := by
    obtain ⟨handle, hcreate⟩ | ⟨handle, block, capacity, hbytes, hcreate⟩ := hcreate
    · exact create_represents hcreate
    · exact createWithCapacity_represents hbytes hcreate
  have hstep : ∀ (v : Vector α) l op, Represents v l → Admissible v op →
      ∃ v' reply l', stepBy hasRealloc (fuel + 2) v op = .ok (v', reply) ∧
        (Conforms l op reply l' ∧ (reply.code ≠ .ok → l' = l)) ∧ Represents v' l' := by
    intro v l op h hadm
    obtain ⟨v', reply, l', hdone, hconf, h'⟩ := step_steps h hadm fuel
    rw [stepBy_eq h.backed]
    exact ⟨v', reply, l', hdone, ⟨hconf, hconf.error⟩, h'⟩
  obtain ⟨v', replies, l', hrun, hconf, h'⟩ := Refinement.run_refines hstep h hadm
  exact ⟨v', replies, l', hrun, hconf, h'.count, h'.count ▸ h'.fits, h'.slots, get_spec h'⟩

/-- Two elements without a `realloc_fn`, the second before the first, and a push that is denied
memory once the block is shrunk to them. -/
theorem small_vector_refines_sequence : ∃ v : Vector ℕ, ∃ v' replies l',
    zenitVectorCreate true 8 = some v ∧
    Refinement.run (stepBy false 2) v
      [.push true 5, .insert true 0 6, .shrinkToFit true, .push false 7] = .ok (v', replies) ∧
    Refinement.Conforming
      (fun l op reply l' => Conforms l op reply l' ∧ (reply.code ≠ .ok → l' = l)) []
      [.push true 5, .insert true 0 6, .shrinkToFit true, .push false 7] replies l' := by
  have hcreate : zenitVectorCreate true 8 = some (⟨[], 8, 0, 0⟩ : Vector ℕ) := rfl
  have hadm : Refinement.Along (stepBy false (0 + 2)) Admissible (⟨[], 8, 0, 0⟩ : Vector ℕ)
      [.push true 5, .insert true 0 6, .shrinkToFit true, .push false 7] := by
    refine ⟨fun _ => ⟨by decide, by decide⟩, fun v₁ _ h₁ => ?_⟩
    cases h₁
    refine ⟨fun _ hfull => absurd hfull (by decide), fun v₂ _ h₂ => ?_⟩
    cases h₂
    refine ⟨trivial, fun v₃ _ h₃ => ?_⟩
    cases h₃
    exact ⟨fun _ => ⟨by decide, by decide⟩, fun _ _ _ => trivial⟩
  obtain ⟨v', replies, l', hrun, hconf, -⟩ :=
    vector_refines_sequence false 0 (Or.inl ⟨true, hcreate⟩) hadm
  exact ⟨_, v', replies, l', hcreate, hrun, hconf⟩

end LibZenit.Vectors
