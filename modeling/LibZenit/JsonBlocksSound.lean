import LibZenit.JsonBlocks

/-!
# The documents of the parser with blocks

Where the parser of `JsonBlocks` finds a value, the parser without an allocator finds the same one.
-/

namespace LibZenit.JsonScratch
open Json
open JsonHeap (Allocator)
open CString (Out)

variable {a : Allocator} {mem s : List UInt8} {len fuel pos n m q : ℕ} {buf : Out}

theorem onward_ok {β γ : Type} {x : Exec (Option β × ℕ)} {f : β → ℕ → Exec (Option γ × ℕ)} {r : γ}
    (h : x.bind (onward f) = .ok (some r, m)) :
    ∃ b k, x = .ok (some b, k) ∧ f b k = .ok (some r, m) := by
  obtain ⟨⟨b, k⟩, hx, hrest⟩ := bind_eq_ok h
  cases b with
  | none => cases hrest
  | some b => exact ⟨b, k, hx, hrest⟩

/-- A string that is found is the one that the parser without an allocator finds. -/
theorem parseStringFrom_sound (hfit : buf.bytes.length ≤ buf.cap) (hcap : 3 ≤ buf.cap)
    (h : parseStringFrom a mem len fuel pos buf n = .ok (some (s, q), m)) :
    Json.parseStringFrom mem len fuel pos buf.bytes = some (s, q) := by
  induction fuel generalizing pos buf n with
  | zero => cases h
  | succ fuel ih =>
    rw [parseStringFrom_succ, roundFrom] at h
    rw [Json.parseStringFrom_succ, Json.roundFrom]
    split_ifs at h ⊢ with hquote
    · obtain ⟨out, -, heq⟩ := map_eq_ok h
      cases heq
      rfl
    · cases hfront : frontItem (ahead mem len pos) with
      | none =>
        rw [hfront] at h
        cases h
      | some it =>
        rw [hfront] at h
        have hthree := (Item.bytes_length it).2
        have hopen : (append a it.bytes buf n).bind
            (onward (parseStringFrom a mem len fuel (pos + it.text.length))) =
              .ok (some (s, q), m) := h
        rw [append_eq hfit (by omega)] at hopen
        rw [Option.bind_some]
        split_ifs at hopen with hle hgrant
        · have hnext : parseStringFrom a mem len fuel (pos + it.text.length)
              ⟨buf.cap, buf.bytes ++ it.bytes⟩ n = .ok (some (s, q), m) := hopen
          refine ih ?_ ?_ hnext
          · simpa using hle
          · exact hcap
        · have hnext : parseStringFrom a mem len fuel (pos + it.text.length)
              ⟨buf.cap * 2, buf.bytes ++ it.bytes⟩ (n + 1) = .ok (some (s, q), m) := hopen
          refine ih ?_ ?_ hnext
          · simp only [List.length_append]
            omega
          · simp only
            omega
        · cases hopen

theorem parseStringRaw_sound (h : parseStringRaw a mem len pos n = .ok (some (s, q), m)) :
    Json.parseStringRaw mem len pos = some (s, q) := by
  rw [parseStringRaw] at h
  split_ifs at h
  · exact parseStringFrom_sound (by decide) (by decide) h
  · cases h

end LibZenit.JsonScratch

namespace LibZenit.JsonBlocks
open Json Blocks
open JsonHeap (Allocator)
open JsonScratch (onward)

variable {D : Type} {a : Allocator} {junk : Value D} {mem : List UInt8} {len : ℕ}
  {num : ℕ → Option (D × ℕ)} {arr arr' : Items (Value D)} {elem : Value D} {n m : ℕ}
  {g : Growable (Value D)}

/-- The slots in use are the items, in a block of the right size. -/
structure Holds (arr : Items (Value D)) (g : Growable (Value D)) : Prop where
  sized : Sized arr
  capacity : arr.capacity = g.capacity
  count : arr.count = g.items.length
  used : (arr.items.getD []).take arr.count = g.items

/-- A larger block holds the same items. -/
theorem Holds.resize (h : Holds arr g) {newCap : ℕ} (hcap : arr.count ≤ newCap) :
    Holds ⟨some (resize junk newCap (arr.items.getD [])), newCap, arr.count⟩ ⟨g.items, newCap⟩ where
  sized block hblock := by
    rw [← Option.some.inj hblock]
    exact length_resize _ _ _
  capacity := rfl
  count := h.count
  used := by
    have hlen := congrArg List.length h.used
    rw [List.length_take, ← h.count] at hlen
    rw [Option.getD_some, take_resize _ (by omega) hcap]
    exact h.used

/-- The item behind the last one, in a block with room for it. -/
theorem Holds.write (h : Holds arr g) {block : List (Value D)}
    (hwrite : writeSlot (arr.items.getD []) arr.count elem = .ok block) :
    arr.count < arr.capacity ∧
      Holds ⟨some block, arr.capacity, arr.count + 1⟩ ⟨g.items ++ [elem], g.capacity⟩ := by
  have hlen := length_of_writeSlot hwrite
  unfold writeSlot at hwrite
  split_ifs at hwrite with hlt
  have hblock : (arr.items.getD []).length = arr.capacity := by
    cases hitems : arr.items with
    | none => simp [hitems] at hlt
    | some old => exact h.sized old hitems
  refine ⟨by omega, ⟨fun block' heq => ?_, h.capacity, ?_, ?_⟩⟩
  · rw [← Option.some.inj heq, hlen, hblock]
  · simp [h.count]
  · rw [Option.getD_some, ← Except.ok.inj hwrite, take_succ_set hlt, h.used]

theorem Holds.arrayAppend (h : Holds arr g)
    (happ : JsonBlocks.arrayAppend a junk arr elem n = .ok (some arr', m)) :
    ∃ g', g.push elem = some g' ∧ Holds arr' g' := by
  obtain ⟨room, k, hres, hrest⟩ := JsonScratch.onward_ok happ
  obtain ⟨block, hwrite, heq⟩ := map_eq_ok hrest
  cases heq
  rw [Growable.push]
  by_cases hfull : arr.count ≥ arr.capacity
  · rw [if_pos hfull, arrayGrow_eq h.sized] at hres
    split_ifs at hres
    · cases hres
    · cases hres
      have hroom : arr.count ≤ growCapacity arr.capacity := by
        unfold writeSlot at hwrite
        split_ifs at hwrite with hlt
        rw [Option.getD_some, length_resize] at hlt
        exact hlt.le
      obtain ⟨hlt, hholds⟩ := (h.resize hroom).write hwrite
      rw [h.capacity, h.count] at hfull hlt
      rw [h.capacity] at hholds ⊢
      refine ⟨_, ?_, hholds⟩
      simp [hfull, hlt]
  · rw [if_neg hfull] at hres
    cases hres
    obtain ⟨hlt, hholds⟩ := h.write hwrite
    rw [h.capacity, h.count] at hfull hlt
    refine ⟨_, ?_, hholds⟩
    simp [hfull, hlt]

theorem valueAlloc_ok {β γ : Type} {res : β} {f : β → ℕ → Exec (Option γ × ℕ)} {r : γ}
    (h : onward f (valueAlloc a res n) = .ok (some r, m)) :
    f res (n + 1) = .ok (some r, m) := by
  unfold valueAlloc at h
  split_ifs at h
  · exact h
  · cases h

theorem objectAppend_sound {obj obj' : Growable (List UInt8 × Value D)} {key : List UInt8}
    (happ : objectAppend a obj key elem n = .ok (some obj', m)) :
    obj.push (key, elem) = some obj' := by
  rw [Growable.push]
  by_cases hfull : obj.items.length ≥ obj.capacity
  · simp only [objectAppend, objectGrow, if_pos hfull] at happ
    split_ifs at happ
    · cases happ
    · cases happ
    · simp only [onward] at happ
      split_ifs at happ with hlt
      cases happ
      simp [hfull, hlt]
  · simp only [objectAppend, if_neg hfull, onward] at happ
    split_ifs at happ with hlt
    cases happ
    simp [hfull, hlt]

/-! ## The parser -/

/-- The values that the five functions find with a given fuel. -/
structure Sound (a : Allocator) (junk : Value D) (mem : List UInt8) (len : ℕ)
    (num : ℕ → Option (D × ℕ)) (fuel : ℕ) : Prop where
  value {pos n m : ℕ} {r : Value D × ℕ} :
    parseValue a junk mem len num fuel pos n = .ok (some r, m) →
      Json.parseValue mem len (Json.parseStringRaw mem len) num fuel pos = .ok r
  array {pos n m : ℕ} {r : Value D × ℕ} :
    parseArray a junk mem len num fuel pos n = .ok (some r, m) →
      Json.parseArray mem len (Json.parseStringRaw mem len) num fuel pos = .ok r
  elements {pos n m : ℕ} {r : Value D × ℕ} {arr : Items (Value D)} {g : Growable (Value D)} :
    Holds arr g → parseElements a junk mem len num fuel pos arr n = .ok (some r, m) →
      Json.parseElements mem len (Json.parseStringRaw mem len) num fuel pos g = .ok r
  object {pos n m : ℕ} {r : Value D × ℕ} :
    parseObject a junk mem len num fuel pos n = .ok (some r, m) →
      Json.parseObject mem len (Json.parseStringRaw mem len) num fuel pos = .ok r
  members {pos n m : ℕ} {r : Value D × ℕ} {obj : Growable (List UInt8 × Value D)} :
    parseMembers a junk mem len num fuel pos obj n = .ok (some r, m) →
      Json.parseMembers mem len (Json.parseStringRaw mem len) num fuel pos obj = .ok r

theorem parseLiteral_sound {word : List UInt8} {value : Value D} {pos : ℕ} {r : Value D × ℕ}
    (h : parseLiteral a mem len word value pos n = .ok (some r, m)) :
    Json.parseLiteral mem len word value pos = .ok r := by
  unfold parseLiteral valueAlloc at h
  split_ifs at h with hword
  · cases h
    rw [Json.parseLiteral, if_pos hword]
  · cases h
  · cases h

theorem sound_succ {fuel : ℕ} (h : Sound a junk mem len num fuel) :
    Sound a junk mem len num (fuel + 1) where
  value {pos n m r} hval := by
    cases hpeek : peek mem len (skipWs mem len pos) with
    | none =>
      simp only [parseValue, hpeek] at hval
      cases hval
    | some c =>
      simp only [parseValue, hpeek] at hval
      simp only [Json.parseValue, hpeek]
      split_ifs at hval ⊢
      · exact parseLiteral_sound hval
      · exact parseLiteral_sound hval
      · exact parseLiteral_sound hval
      · exact h.array hval
      · exact h.object hval
      · obtain ⟨⟨s, q⟩, k, hstr, hrest⟩ := JsonScratch.onward_ok hval
        rw [JsonScratch.parseStringRaw_sound hstr]
        unfold valueAlloc at hrest
        split_ifs at hrest
        · cases hrest
          rfl
        · cases hrest
      · have hnum := valueAlloc_ok hval
        cases hr : num (skipWs mem len pos) with
        | none => simp [hr] at hnum
        | some d =>
          rw [hr] at hnum
          cases hnum
          rfl
      · cases hval
  array {pos n m r} harr := by
    rw [parseArray] at harr
    rw [Json.parseArray]
    split_ifs at harr ⊢ with hopen
    · cases harr
    · have hrest := valueAlloc_ok harr
      simp only at hrest ⊢
      split_ifs at hrest ⊢
      · cases hrest
        rfl
      · exact h.elements ⟨by simp [Sized], rfl, rfl, rfl⟩ hrest
  elements {pos n m r arr g} hholds helems := by
    rw [parseElements] at helems
    rw [Json.parseElements]
    obtain ⟨⟨elem, q⟩, k, hval, hrest⟩ := JsonScratch.onward_ok helems
    obtain ⟨arr', k', happ, hsep⟩ := JsonScratch.onward_ok hrest
    obtain ⟨g', hpush, hholds'⟩ := hholds.arrayAppend happ
    rcases hnext : parseArraySeparator mem len q with _ | ⟨_ | _, p⟩
    · simp only [hnext] at hsep
      cases hsep
    · simp only [hnext] at hsep
      simp only [h.value hval, hpush, hnext]
      exact h.elements hholds' hsep
    · simp only [hnext] at hsep
      simp only [h.value hval, hpush, hnext]
      cases hsep
      rw [hholds'.used]
  object {pos n m r} hobj := by
    rw [parseObject] at hobj
    rw [Json.parseObject]
    split_ifs at hobj ⊢ with hopen
    · cases hobj
    · have hrest := valueAlloc_ok hobj
      simp only at hrest ⊢
      split_ifs at hrest ⊢
      · cases hrest
        rfl
      · exact h.members hrest
  members {pos n m r obj} hmem := by
    simp only [parseMembers] at hmem
    simp only [Json.parseMembers]
    split_ifs at hmem ⊢
    · cases hmem
    obtain ⟨⟨key, q⟩, k, hkey, hrest⟩ := JsonScratch.onward_ok hmem
    simp only [JsonScratch.parseStringRaw_sound hkey]
    simp only at hrest
    split_ifs at hrest ⊢
    · cases hrest
    obtain ⟨⟨val, q'⟩, k', hval, hafter⟩ := JsonScratch.onward_ok hrest
    obtain ⟨obj', k'', happ, hsep⟩ := JsonScratch.onward_ok hafter
    rcases hnext : parseObjectSeparator mem len q' with _ | ⟨_ | _, p⟩
    · simp only [hnext] at hsep
      cases hsep
    · simp only [hnext] at hsep
      simp only [h.value hval, objectAppend_sound happ, hnext]
      exact h.members hsep
    · simp only [hnext] at hsep
      simp only [h.value hval, objectAppend_sound happ, hnext]
      cases hsep
      rfl

theorem sound (a : Allocator) (junk : Value D) (mem : List UInt8) (len : ℕ)
    (num : ℕ → Option (D × ℕ)) (fuel : ℕ) : Sound a junk mem len num fuel := by
  induction fuel with
  | zero => exact ⟨nofun, nofun, fun _ => nofun, nofun, nofun⟩
  | succ fuel ih => exact sound_succ ih

/-- A document that the parser with blocks returns is the one that the parser without an allocator
returns. -/
theorem zenitJsonParse_sound {fuel : ℕ} {v : Value D}
    (h : zenitJsonParseWithLengthAndAllocator a junk mem len num fuel n = .ok (some v, m)) :
    Json.jsonParseInto mem len (Json.parseStringRaw mem len) num fuel = .ok v := by
  obtain ⟨⟨val, q⟩, k, hval, hrest⟩ := JsonScratch.onward_ok (valueAlloc_ok h)
  rw [Json.jsonParseInto, (sound a junk mem len num fuel).value hval]
  simp only at hrest ⊢
  split_ifs at hrest ⊢
  · cases hrest
  · cases hrest
    rfl

end LibZenit.JsonBlocks
