import LibZenit.Blocks

/-!
# Sorting and searching in `sort.c`

An element is the `es` bytes of a slot, and slot `i` is the bytes from `base + i * es` on. A
comparator sees the contents of two slots. The loops get as many rounds as they can need; one that
uses them up hangs.
-/
namespace LibZenit.Sorting
open Blocks

abbrev Element (es : ℕ) := {bytes : List UInt8 // bytes.length = es}

abbrev CompareFn (es : ℕ) := Element es → Element es → ℤ

/-- An array that exists in memory: its length and its bytes are `size_t` values. -/
structure Elements (es : ℕ) where
  slots : List (Element es)
  count_lt : slots.length < 2 ^ 64
  size_lt : slots.length * es < 2 ^ 64

variable {es : ℕ}

/-- There is one element of size 0. -/
instance : Subsingleton (Element 0) :=
  ⟨fun a b => Subtype.ext
    ((List.eq_nil_of_length_eq_zero a.2).trans (List.eq_nil_of_length_eq_zero b.2).symm)⟩

/-- `lo + (hi - lo) / 2` -/
def midpoint (lo hi : ℕ) : ℕ := wrap (lo + subSize hi lo / 2)

theorem midpoint_eq {lo hi : ℕ} (h : lo ≤ hi) (hhi : hi < 2 ^ 64) :
    midpoint lo hi = lo + (hi - lo) / 2 := by
  rw [midpoint, subSize_of_le h hhi, wrap_of_lt (by omega)]

/-! ## Merge sort -/

/-- `while (i < mid && j < hi)`; `k` is the end of what is in the buffer. -/
def mergeLoop (compare : CompareFn es) (xs : List (Element es)) (mid hi : ℕ) :
    ℕ → ℕ → ℕ → ℕ → List (Element es) → Exec (ℕ × ℕ × ℕ × List (Element es))
  | 0, _, _, _, _ => .error .hang
  | fuel + 1, i, j, k, buf =>
    if i < mid ∧ j < hi then
      (readSlot xs i).bind fun a => (readSlot xs j).bind fun b =>
        if compare a b ≤ 0 then
          (writeSlot buf k a).bind (mergeLoop compare xs mid hi fuel (i + 1) j (k + 1))
        else (writeSlot buf k b).bind (mergeLoop compare xs mid hi fuel i (j + 1) (k + 1))
    else .ok (i, j, k, buf)

/-- `while (i < stop)`, the rest of one of the halves. -/
def copyRest (xs : List (Element es)) (stop : ℕ) :
    ℕ → ℕ → ℕ → List (Element es) → Exec (ℕ × List (Element es))
  | 0, _, _, _ => .error .hang
  | fuel + 1, i, k, buf =>
    if i < stop then
      (readSlot xs i).bind fun a =>
        (writeSlot buf k a).bind (copyRest xs stop fuel (i + 1) (k + 1))
    else .ok (k, buf)

def merge (compare : CompareFn es) (lo mid hi : ℕ) (xs buf : List (Element es)) :
    Exec (List (Element es) × List (Element es)) :=
  (mergeLoop compare xs mid hi (hi - lo + 1) lo mid 0 buf).bind fun (i, j, k, buf) =>
  (copyRest xs mid (mid - i + 1) i k buf).bind fun (k, buf) =>
  (copyRest xs hi (hi - j + 1) j k buf).bind fun (k, buf) =>
  (readSlots buf 0 k).bind fun data => (writeSlots xs lo data).map (·, buf)

def mergesortImpl (compare : CompareFn es) :
    ℕ → ℕ → ℕ → List (Element es) → List (Element es) →
      Exec (List (Element es) × List (Element es))
  | 0, _, _, _, _ => .error .hang
  | fuel + 1, lo, hi, xs, buf =>
    if subSize hi lo < 2 then .ok (xs, buf)
    else
      let mid := midpoint lo hi
      (mergesortImpl compare fuel lo mid xs buf).bind fun (xs, buf) =>
      (mergesortImpl compare fuel mid hi xs buf).bind fun (xs, buf) =>
        merge compare lo mid hi xs buf

/-- `fresh` is what the buffer holds when `malloc` hands it out. -/
def zenitSortStable (compare : CompareFn es) (ok : Bool) (fresh : ℕ → Element es)
    (base : Elements es) : Exec (List (Element es) × ZenitError) :=
  let count := base.slots.length
  if count < 2 ∨ es = 0 then .ok (base.slots, .ok)
  else if !granted ok (wrap (count * es)) then .ok (base.slots, .alloc)
  else
    (mergesortImpl compare count 0 count base.slots ((List.range (slotsOf es count)).map fresh)).map
      fun (xs, _) => (xs, .ok)

/-! ## Quicksort -/

/-- An access from within the range `[lo, hi]`. One that leaves the range is a fault here, even
where it would stay in the array. -/
def readIn (lo hi : ℕ) (xs : List (Element es)) (i : ℕ) : Exec (Element es) :=
  if lo ≤ i ∧ i ≤ hi then readSlot xs i else .error .outOfBounds

def writeIn (lo hi : ℕ) (xs : List (Element es)) (i : ℕ) (a : Element es) :
    Exec (List (Element es)) :=
  if lo ≤ i ∧ i ≤ hi then writeSlot xs i a else .error .outOfBounds

/-- `for (size_t i = 0; i < es; i++)` -/
def swapBytes : List UInt8 → List UInt8 → List UInt8 × List UInt8
  | a :: as, b :: bs => (b :: (swapBytes as bs).1, a :: (swapBytes as bs).2)
  | as, bs => (as, bs)

theorem swapBytes_eq : ∀ {as bs : List UInt8}, as.length = bs.length → swapBytes as bs = (bs, as)
  | [], [], _ => rfl
  | a :: as, b :: bs, h => by
    rw [swapBytes, swapBytes_eq (Nat.succ.inj h)]

/-- The contents of two slots after the exchange. Those that do not fit into `tmp` are exchanged
byte by byte. -/
def swapContents (a b : Element es) : Element es × Element es :=
  if es ≤ 64 then (b, a)
  else
    have h : swapBytes a.1 b.1 = (b.1, a.1) := swapBytes_eq (a.2.trans b.2.symm)
    (⟨(swapBytes a.1 b.1).1, by rw [h]; exact b.2⟩, ⟨(swapBytes a.1 b.1).2, by rw [h]; exact a.2⟩)

def swapElements (lo hi : ℕ) (xs : List (Element es)) (i j : ℕ) : Exec (List (Element es)) :=
  (readIn lo hi xs i).bind fun a => (readIn lo hi xs j).bind fun b =>
    (writeIn lo hi xs i (swapContents a b).1).bind fun xs => writeIn lo hi xs j (swapContents a b).2

def compareSlots (compare : CompareFn es) (lo hi : ℕ) (xs : List (Element es)) (i j : ℕ) :
    Exec ℤ :=
  (readIn lo hi xs i).bind fun a => (readIn lo hi xs j).map fun b => compare a b

/-- `if (compare(b + i * es, b + j * es) > 0)` the two change places. -/
def orderSlots (compare : CompareFn es) (lo hi : ℕ) (xs : List (Element es)) (i j : ℕ) :
    Exec (List (Element es)) :=
  (compareSlots compare lo hi xs i j).bind fun c =>
    if c > 0 then swapElements lo hi xs i j else .ok xs

def medianOfThree (compare : CompareFn es) (lo hi : ℕ) (xs : List (Element es)) :
    Exec (List (Element es) × ℕ) :=
  let mid := midpoint lo hi
  (orderSlots compare lo hi xs lo mid).bind fun xs =>
  (orderSlots compare lo hi xs lo hi).bind fun xs =>
  (orderSlots compare lo hi xs mid hi).map (·, mid)

/-- `do { i++; } while (compare(b + i * es, pivot) < 0)`, where the pivot is what slot `lo` holds at
the time of the comparison. -/
def scanUp (compare : CompareFn es) (lo hi : ℕ) (xs : List (Element es)) : ℕ → ℕ → Exec ℕ
  | 0, _ => .error .hang
  | fuel + 1, i =>
    let i := wrap (i + 1)
    (compareSlots compare lo hi xs i lo).bind fun c =>
      if c < 0 then scanUp compare lo hi xs fuel i else .ok i

/-- `do { j--; } while (compare(b + j * es, pivot) > 0)` -/
def scanDown (compare : CompareFn es) (lo hi : ℕ) (xs : List (Element es)) : ℕ → ℕ → Exec ℕ
  | 0, _ => .error .hang
  | fuel + 1, j =>
    let j := subSize j 1
    (compareSlots compare lo hi xs j lo).bind fun c =>
      if c > 0 then scanDown compare lo hi xs fuel j else .ok j

/-- `for (;;)` -/
def partitionLoop (compare : CompareFn es) (lo hi : ℕ) :
    ℕ → ℕ → ℕ → List (Element es) → Exec (List (Element es) × ℕ)
  | 0, _, _, _ => .error .hang
  | fuel + 1, i, j, xs =>
    (scanUp compare lo hi xs (hi - lo + 2) i).bind fun i =>
    (scanDown compare lo hi xs (hi - lo + 2) j).bind fun j =>
      if i ≥ j then .ok (xs, j)
      else (swapElements lo hi xs i j).bind (partitionLoop compare lo hi fuel i j)

/-- `i` starts one below `lo`, which wraps around when `lo` is 0. -/
def partition (compare : CompareFn es) (lo hi : ℕ) (xs : List (Element es)) :
    Exec (List (Element es) × ℕ) :=
  (medianOfThree compare lo hi xs).bind fun (xs, mid) =>
  (swapElements lo hi xs lo mid).bind
    (partitionLoop compare lo hi (hi - lo + 2) (subSize lo 1) (wrap (hi + 1)))

def quicksort (compare : CompareFn es) :
    ℕ → ℕ → ℕ → List (Element es) → Exec (List (Element es))
  | 0, _, _, _ => .error .hang
  | fuel + 1, lo, hi, xs =>
    if lo < hi then
      (partition compare lo hi xs).bind fun (xs, p) =>
        if subSize p lo < subSize hi p then
          (quicksort compare fuel lo p xs).bind (quicksort compare fuel (wrap (p + 1)) hi)
        else (quicksort compare fuel (wrap (p + 1)) hi xs).bind (quicksort compare fuel lo p)
    else .ok xs

def zenitSortQuick (compare : CompareFn es) (base : Elements es) : Exec (List (Element es)) :=
  let count := base.slots.length
  if count < 2 ∨ es = 0 then .ok base.slots
  else quicksort compare count 0 (count - 1) base.slots

/-! ## Binary search -/

/-- `while (lo < hi)`; `sizeMax` stands for no match. -/
def searchLoop (compare : CompareFn es) (key : Element es) (xs : List (Element es)) :
    ℕ → ℕ → ℕ → Exec ℕ
  | 0, _, _ => .error .hang
  | fuel + 1, lo, hi =>
    if lo < hi then
      let mid := midpoint lo hi
      (readSlot xs mid).bind fun a =>
        let cmp := compare key a
        if cmp = 0 then .ok mid
        else if cmp < 0 then searchLoop compare key xs fuel lo mid
        else searchLoop compare key xs fuel (wrap (mid + 1)) hi
    else .ok sizeMax

/-- The position of the element that is found. -/
def zenitBinarySearch (compare : CompareFn es) (key : Element es) (base : Elements es) :
    Exec (Option ℕ) :=
  if es = 0 then .ok none
  else
    let count := base.slots.length
    (searchLoop compare key base.slots (count + 1) 0 count).map fun i =>
      if i ≠ sizeMax then some i else none

/-- `while (lo < hi)` in the two bounds; they differ in the test `goLeft` on the comparison. -/
def boundLoop (goLeft : ℤ → Bool) (compare : CompareFn es) (key : Element es)
    (xs : List (Element es)) : ℕ → ℕ → ℕ → Exec ℕ
  | 0, _, _ => .error .hang
  | fuel + 1, lo, hi =>
    if lo < hi then
      let mid := midpoint lo hi
      (readSlot xs mid).bind fun a =>
        if goLeft (compare key a) then boundLoop goLeft compare key xs fuel lo mid
        else boundLoop goLeft compare key xs fuel (wrap (mid + 1)) hi
    else .ok lo

def boundSearch (goLeft : ℤ → Bool) (compare : CompareFn es) (key : Element es)
    (base : Elements es) : Exec (Option ℕ) :=
  if es = 0 then .ok none
  else
    let count := base.slots.length
    (boundLoop goLeft compare key base.slots (count + 1) 0 count).map fun lo =>
      if lo < count then some lo else none

def zenitLowerBound (compare : CompareFn es) (key : Element es) (base : Elements es) :
    Exec (Option ℕ) := boundSearch (· ≤ 0) compare key base

def zenitUpperBound (compare : CompareFn es) (key : Element es) (base : Elements es) :
    Exec (Option ℕ) := boundSearch (· < 0) compare key base

end LibZenit.Sorting
