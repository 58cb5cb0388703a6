import LibZenit.JsonScratch

/-!
# The parser of `json.c` with the contents of its blocks

The parser once more, with every request to the allocator in its order and with the blocks that are
reallocated: the scratch buffer of a string and the items of an array. The arrays of an object are
allocated anew and copied, whatever the allocator can do. A fault is a write outside a block, or a
recursion that has used up its fuel; otherwise there is a value or a failure, and the number of the
next request.
-/
namespace LibZenit.JsonBlocks
open Json Blocks Reallocation
open JsonHeap (Allocator)
open JsonScratch (onward)

/-- The items of an array; a pointer that is `NULL` before the first growth. -/
structure Items (β : Type) where
  items : Option (List β)
  capacity : ℕ
  count : ℕ

section Parse

variable {D : Type} (a : Allocator) (junk : Value D) (mem : List UInt8) (len : ℕ)
  (num : ℕ → Option (D × ℕ))

/-- A record for the value, if the allocator grants one. -/
def valueAlloc {β : Type} (res : β) (n : ℕ) : Option β × ℕ :=
  (if a.grants n then some res else none, n + 1)

/-! ## Arrays and objects -/

def arrayGrow (arr : Items (Value D)) (n : ℕ) : Exec (Option (Items (Value D)) × ℕ) :=
  let newCap := growCapacity arr.capacity
  if !a.grants n then .ok (none, n + 1)
  else
    let res : Exec (List (Value D)) :=
      match arr.items with
      | none => .ok (List.replicate newCap junk)
      | some block => zenitAllocatorRealloc a.hasRealloc junk block arr.capacity newCap
    res.map fun block => (some ⟨some block, newCap, arr.count⟩, n + 1)

/-- Grow if full, then `arr->arr.items[arr->arr.count++] = elem`. -/
def arrayAppend (arr : Items (Value D)) (elem : Value D) (n : ℕ) :
    Exec (Option (Items (Value D)) × ℕ) :=
  let res := if arr.count ≥ arr.capacity then arrayGrow a junk arr n else .ok (some arr, n)
  res.bind (onward fun arr n =>
    (writeSlot (arr.items.getD []) arr.count elem).map fun block =>
      (some ⟨some block, arr.capacity, arr.count + 1⟩, n))

def objectGrow (obj : Growable (List UInt8 × Value D)) (n : ℕ) :
    Option (Growable (List UInt8 × Value D)) × ℕ :=
  if !a.grants n then (none, n + 1)
  else if !a.grants (n + 1) then (none, n + 2)
  else (some { obj with capacity := growCapacity obj.capacity }, n + 2)

/-- Grow if full, then store the key and the value and count them. -/
def objectAppend (obj : Growable (List UInt8 × Value D)) (key : List UInt8) (val : Value D)
    (n : ℕ) : Exec (Option (Growable (List UInt8 × Value D)) × ℕ) :=
  let res := if obj.items.length ≥ obj.capacity then objectGrow a obj n else (some obj, n)
  onward (fun obj n =>
    if obj.items.length < obj.capacity then
      .ok (some { obj with items := obj.items ++ [(key, val)] }, n)
    else .error .outOfBounds) res

/-! ## Values -/

def parseLiteral (word : List UInt8) (value : Value D) (pos n : ℕ) :
    Exec (Option (Value D × ℕ) × ℕ) :=
  if matchLiteral mem len word pos then .ok (valueAlloc a (value, pos + word.length) n)
  else .ok (none, n)

/-- `parse_value` from an opening quote on. -/
def parseStringValue (pos n : ℕ) : Exec (Option (Value D × ℕ) × ℕ) :=
  (JsonScratch.parseStringRaw a mem len pos n).bind
    (onward fun r n => .ok (valueAlloc a (.str r.1, r.2) n))

/-- `parse_value` from a digit or a minus on. -/
def parseNumberValue (pos n : ℕ) : Exec (Option (Value D × ℕ) × ℕ) :=
  onward (fun _ n => .ok ((num pos).map fun r => (.num r.1, r.2), n)) (valueAlloc a () n)

mutual

def parseValue : ℕ → ℕ → ℕ → Exec (Option (Value D × ℕ) × ℕ)
  | 0, _, _ => .error .hang
  | fuel + 1, pos, n =>
    let pos := skipWs mem len pos
    match peek mem len pos with
    | none => .ok (none, n)
    | some c =>
      if c = chLowerN then parseLiteral a mem len wordNull .null pos n
      else if c = chLowerT then parseLiteral a mem len wordTrue (.bool true) pos n
      else if c = chLowerF then parseLiteral a mem len wordFalse (.bool false) pos n
      else if c = chLBracket then parseArray fuel pos n
      else if c = chLBrace then parseObject fuel pos n
      else if c = chQuote then parseStringValue a mem len pos n
      else if c = chMinus ∨ isDigit c then parseNumberValue a num pos n
      else .ok (none, n)
termination_by structural fuel => fuel

def parseArray : ℕ → ℕ → ℕ → Exec (Option (Value D × ℕ) × ℕ)
  | 0, _, _ => .error .hang
  | fuel + 1, pos, n =>
    if peek mem len pos ≠ some chLBracket then .ok (none, n)
    else onward (fun _ n =>
      let pos := skipWs mem len (pos + 1)
      if peek mem len pos = some chRBracket then .ok (some (.arr [], pos + 1), n)
      else parseElements fuel pos ⟨none, 0, 0⟩ n) (valueAlloc a () n)
termination_by structural fuel => fuel

/-- The loop of `parse_array`. -/
def parseElements : ℕ → ℕ → Items (Value D) → ℕ → Exec (Option (Value D × ℕ) × ℕ)
  | 0, _, _, _ => .error .hang
  | fuel + 1, pos, arr, n =>
    (parseValue fuel pos n).bind (onward fun r n =>
      (arrayAppend a junk arr r.1 n).bind (onward fun arr n =>
        match parseArraySeparator mem len r.2 with
        | none => .ok (none, n)
        | some (.more, pos) => parseElements fuel pos arr n
        | some (.done, pos) => .ok (some (.arr ((arr.items.getD []).take arr.count), pos), n)))
termination_by structural fuel => fuel

def parseObject : ℕ → ℕ → ℕ → Exec (Option (Value D × ℕ) × ℕ)
  | 0, _, _ => .error .hang
  | fuel + 1, pos, n =>
    if peek mem len pos ≠ some chLBrace then .ok (none, n)
    else onward (fun _ n =>
      let pos := skipWs mem len (pos + 1)
      if peek mem len pos = some chRBrace then .ok (some (.obj [], pos + 1), n)
      else parseMembers fuel pos ⟨[], 0⟩ n) (valueAlloc a () n)
termination_by structural fuel => fuel

/-- The loop of `parse_object`. -/
def parseMembers : ℕ → ℕ → Growable (List UInt8 × Value D) → ℕ → Exec (Option (Value D × ℕ) × ℕ)
  | 0, _, _, _ => .error .hang
  | fuel + 1, pos, obj, n =>
    let pos := skipWs mem len pos
    if peek mem len pos ≠ some chQuote then .ok (none, n)
    else (JsonScratch.parseStringRaw a mem len pos n).bind (onward fun k n =>
      let pos := skipWs mem len k.2
      if peek mem len pos ≠ some chColon then .ok (none, n)
      else (parseValue fuel (pos + 1) n).bind (onward fun r n =>
        (objectAppend a obj k.1 r.1 n).bind (onward fun obj n =>
          match parseObjectSeparator mem len r.2 with
          | none => .ok (none, n)
          | some (.more, pos) => parseMembers fuel pos obj n
          | some (.done, pos) => .ok (some (.obj obj.items, pos), n))))
termination_by structural fuel => fuel

end

def jsonParseInto (fuel n : ℕ) : Exec (Option (Value D) × ℕ) :=
  (parseValue a junk mem len num fuel 0 n).bind (onward fun r n =>
    .ok (if skipWs mem len r.2 ≠ len then none else some r.1, n))

/-- The document is the first request. -/
def zenitJsonParseWithLengthAndAllocator (fuel n : ℕ) : Exec (Option (Value D) × ℕ) :=
  onward (fun _ n => jsonParseInto a junk mem len num fuel n) (valueAlloc a () n)

end Parse

/-! ## Either kind of allocator -/

variable {D : Type} {grants : ℕ → Bool} {junk : Value D} {mem : List UInt8} {len : ℕ}
  {num : ℕ → Option (D × ℕ)}

/-- The block of an array has as many slots as its capacity says. -/
def Sized (arr : Items (Value D)) : Prop :=
  ∀ block, arr.items = some block → block.length = arr.capacity

variable {a : Allocator} {arr arr' : Items (Value D)} {elem : Value D} {n m : ℕ}

theorem arrayGrow_eq (h : Sized arr) (a : Allocator) (n : ℕ) :
    arrayGrow a junk arr n =
      if !a.grants n then .ok (none, n + 1)
      else .ok (some ⟨some (resize junk (growCapacity arr.capacity) (arr.items.getD [])),
        growCapacity arr.capacity, arr.count⟩, n + 1) := by
  obtain ⟨items, capacity, count⟩ := arr
  simp only [arrayGrow]
  split_ifs
  · rfl
  · cases items with
    | none => simp [resize, Except.map]
    | some block =>
      have hold : capacity = block.length := (h block rfl).symm
      simp only [hold, zenitAllocatorRealloc_eq, Except.map, Option.getD_some]

theorem arrayAppend_realloc (h : Sized arr) (elem : Value D) (n : ℕ) :
    arrayAppend ⟨grants, true⟩ junk arr elem n = arrayAppend ⟨grants, false⟩ junk arr elem n := by
  simp only [arrayAppend, arrayGrow_eq h]

theorem Sized.arrayAppend (h : Sized arr)
    (happ : JsonBlocks.arrayAppend a junk arr elem n = .ok (some arr', m)) : Sized arr' := by
  obtain ⟨⟨room, k⟩, hres, hrest⟩ := bind_eq_ok happ
  cases room with
  | none => cases hrest
  | some room =>
    have hroom : Sized room := by
      split_ifs at hres
      · rw [arrayGrow_eq h] at hres
        split_ifs at hres
        · cases hres
        · cases hres
          intro block hblock
          rw [← Option.some.inj hblock]
          exact length_resize _ _ _
      · cases hres
        exact h
    obtain ⟨block, hwrite, heq⟩ := map_eq_ok hrest
    cases heq
    intro block' heq'
    obtain rfl := Option.some.inj heq'
    rw [length_of_writeSlot hwrite]
    cases hitems : room.items with
    | none => simp [hitems, writeSlot] at hwrite
    | some old => exact hroom old hitems

/-! ## The parser -/

theorem bind_congr {β γ : Type} {x : Exec β} {f g : β → Exec γ} (h : ∀ b, x = .ok b → f b = g b) :
    x.bind f = x.bind g := by
  cases x with
  | error e => rfl
  | ok b => exact h b rfl

/-- The five functions with a given fuel, either kind of allocator. -/
structure Transparent (grants : ℕ → Bool) (junk : Value D) (mem : List UInt8) (len : ℕ)
    (num : ℕ → Option (D × ℕ)) (fuel : ℕ) : Prop where
  value : parseValue ⟨grants, true⟩ junk mem len num fuel =
    parseValue ⟨grants, false⟩ junk mem len num fuel
  array : parseArray ⟨grants, true⟩ junk mem len num fuel =
    parseArray ⟨grants, false⟩ junk mem len num fuel
  elements : ∀ pos arr n, Sized arr → parseElements ⟨grants, true⟩ junk mem len num fuel pos arr n =
    parseElements ⟨grants, false⟩ junk mem len num fuel pos arr n
  object : parseObject ⟨grants, true⟩ junk mem len num fuel =
    parseObject ⟨grants, false⟩ junk mem len num fuel
  members : parseMembers ⟨grants, true⟩ junk mem len num fuel =
    parseMembers ⟨grants, false⟩ junk mem len num fuel

theorem transparent_succ {fuel : ℕ} (h : Transparent grants junk mem len num fuel) :
    Transparent grants junk mem len num (fuel + 1) where
  value := by
    funext pos n
    simp only [parseValue, h.array, h.object, parseStringValue,
      JsonScratch.parseStringRaw_realloc]
    rfl
  array := by
    funext pos n
    have hfirst : ∀ pos n, parseElements ⟨grants, true⟩ junk mem len num fuel pos ⟨none, 0, 0⟩ n =
        parseElements ⟨grants, false⟩ junk mem len num fuel pos ⟨none, 0, 0⟩ n :=
      fun pos n => h.elements pos _ n (by simp [Sized])
    simp only [parseArray, hfirst]
    rfl
  elements pos arr n hsized := by
    rw [parseElements, parseElements, h.value]
    refine bind_congr fun r _ => ?_
    obtain ⟨_ | r, k⟩ := r
    · simp only [onward]
    simp only [onward]
    rw [arrayAppend_realloc hsized]
    refine bind_congr fun next happ => ?_
    obtain ⟨_ | arr', k'⟩ := next
    · simp only [onward]
    simp only [onward]
    split
    · rfl
    · exact h.elements _ _ _ (hsized.arrayAppend happ)
    · rfl
  object := by
    funext pos n
    simp only [parseObject, h.members]
    rfl
  members := by
    funext pos obj n
    simp only [parseMembers, h.value, h.members, JsonScratch.parseStringRaw_realloc]
    rfl

theorem transparent (grants : ℕ → Bool) (junk : Value D) (mem : List UInt8) (len : ℕ)
    (num : ℕ → Option (D × ℕ)) (fuel : ℕ) : Transparent grants junk mem len num fuel := by
  induction fuel with
  | zero => exact ⟨rfl, rfl, fun _ _ _ _ => rfl, rfl, rfl⟩
  | succ fuel ih => exact transparent_succ ih

theorem parse_realloc (grants : ℕ → Bool) (junk : Value D) (mem : List UInt8) (len : ℕ)
    (num : ℕ → Option (D × ℕ)) (fuel n : ℕ) :
    zenitJsonParseWithLengthAndAllocator ⟨grants, true⟩ junk mem len num fuel n =
      zenitJsonParseWithLengthAndAllocator ⟨grants, false⟩ junk mem len num fuel n := by
  simp only [zenitJsonParseWithLengthAndAllocator, jsonParseInto,
    (transparent grants junk mem len num fuel).value]
  rfl

end LibZenit.JsonBlocks
