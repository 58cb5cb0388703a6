import LibZenit.CString
import LibZenit.JsonHeap
import LibZenit.JsonStringSyntax
import LibZenit.Reallocation

/-!
# The scratch buffer of `parse_string_raw`

The buffer starts with 64 bytes and is doubled when the next bytes do not fit. The terminator is
written without a test, so a string that fills the buffer to its last byte is terminated behind the
end. The requests to the allocator are counted; `n` is the number of the next one.
-/
namespace LibZenit.JsonScratch
open Json CString Reallocation JsonHeap

section Parse

variable (a : Allocator) (mem : List UInt8) (len : ℕ)

/-- The buffer after the call, or nothing after a failure, and the number of the next request. The
old size that is passed on is the number of bytes in use. -/
def bufGrow (needed : ℕ) (buf : Out) (n : ℕ) : Exec (Option Out × ℕ) :=
  if buf.bytes.length + needed ≤ buf.cap then .ok (some buf, n)
  else if a.grants n then
    (zenitAllocatorRealloc a.hasRealloc 0
      (buf.bytes ++ List.replicate (buf.cap - buf.bytes.length) 0) buf.bytes.length
      (buf.cap * 2)).map fun new => (some ⟨buf.cap * 2, new.take buf.bytes.length⟩, n + 1)
  else .ok (none, n + 1)

/-- Go on with what there is, unless a request was refused or the input is wrong. -/
def onward {β γ : Type} (next : β → ℕ → Exec (Option γ × ℕ)) :
    Option β × ℕ → Exec (Option γ × ℕ)
  | (none, n) => .ok (none, n)
  | (some b, n) => next b n

/-- Room for the bytes, then the bytes one behind the other. -/
def append (cs : List UInt8) (buf : Out) (n : ℕ) : Exec (Option Out × ℕ) :=
  (bufGrow a cs.length buf n).bind
    (onward fun buf n => (buf.putAll cs).map fun buf => (some buf, n))

/-- The loop of `parse_string_raw`. -/
def parseStringFrom : ℕ → ℕ → Out → ℕ → Exec (Option (List UInt8 × ℕ) × ℕ)
  | 0, _, _, _ => .error .hang
  | fuel + 1, pos, buf, n =>
    match peek mem len pos with
    | none => .ok (none, n)
    | some c =>
      if c = chQuote then (buf.put 0).map fun _ => (some (buf.bytes, pos + 1), n)
      else if c ≠ chBackslash then
        (append a [c] buf n).bind (onward (parseStringFrom fuel (pos + 1)))
      else
        match parseEscapeSeq mem len (pos + 1) with
        | none => .ok (none, n)
        | some (cp, pos) =>
          (append a (encodeUtf8 cp) buf n).bind (onward (parseStringFrom fuel pos))

/-- The string whose opening quote stands at `pos`, and the number of the next request. -/
def parseStringRaw (pos n : ℕ) : Exec (Option (List UInt8 × ℕ) × ℕ) :=
  if a.grants n then parseStringFrom a mem len (len - pos) (pos + 1) ⟨64, []⟩ (n + 1)
  else .ok (none, n + 1)

end Parse

variable {a : Allocator} {mem cs : List UInt8} {len pos fuel n m : ℕ} {buf : Out} {it : Item}
  {items : List Item}

/-! ## One round -/

theorem bufGrow_eq (a : Allocator) (needed : ℕ) (buf : Out) (n : ℕ) :
    bufGrow a needed buf n =
      if buf.bytes.length + needed ≤ buf.cap then .ok (some buf, n)
      else if a.grants n then .ok (some ⟨buf.cap * 2, buf.bytes.take (buf.cap * 2)⟩, n + 1)
      else .ok (none, n + 1) := by
  have hold : buf.bytes.length ≤
      (buf.bytes ++ List.replicate (buf.cap - buf.bytes.length) (0 : UInt8)).length := by simp
  obtain ⟨new, hnew, htake⟩ := zenitAllocatorRealloc_keeps hold a.hasRealloc 0 (buf.cap * 2)
  rw [List.take_append_of_le_length (by omega), min_comm, ← List.take_eq_take_min] at htake
  rw [bufGrow, hnew, Except.map, htake]

/-- The buffer with the bytes in it, grown once if they did not fit. -/
theorem append_eq (hfit : buf.bytes.length ≤ buf.cap) (hroom : cs.length ≤ buf.cap) (n : ℕ) :
    append a cs buf n =
      if buf.bytes.length + cs.length ≤ buf.cap then .ok (some ⟨buf.cap, buf.bytes ++ cs⟩, n)
      else if a.grants n then .ok (some ⟨buf.cap * 2, buf.bytes ++ cs⟩, n + 1)
      else .ok (none, n + 1) := by
  rw [append, bufGrow_eq, List.take_of_length_le (by omega)]
  split_ifs with hle hgrant
  · simp only [Except.bind, onward, putAll_eq cs hle, Except.map]
  · have hput := @putAll_eq ⟨buf.cap * 2, buf.bytes⟩ cs (by simp only; omega)
    simp only [Except.bind, onward, hput, Except.map]
  · rfl

/-- One round of the loop, in terms of the input ahead. -/
def roundFrom (a : Allocator) (mem : List UInt8) (len fuel pos : ℕ) (buf : Out) (n : ℕ) :
    Exec (Option (List UInt8 × ℕ) × ℕ) :=
  if (ahead mem len pos).head? = some chQuote then
    (buf.put 0).map fun _ => (some (buf.bytes, pos + 1), n)
  else
    match frontItem (ahead mem len pos) with
    | none => .ok (none, n)
    | some it =>
      (append a it.bytes buf n).bind
        (onward (parseStringFrom a mem len fuel (pos + it.text.length)))

theorem parseStringFrom_succ (a : Allocator) (mem : List UInt8) (len fuel pos : ℕ) (buf : Out)
    (n : ℕ) :
    parseStringFrom a mem len (fuel + 1) pos buf n = roundFrom a mem len fuel pos buf n := by
  rw [parseStringFrom, peek_eq_head, roundFrom]
  match hs : ahead mem len pos with
  | [] => rfl
  | c :: t =>
    by_cases hquote : c = chQuote
    · simp [hquote]
    by_cases hback : c = chBackslash
    · subst hback
      simp only [List.head?_cons, Option.some.injEq, if_neg hquote, ne_eq, not_true_eq_false,
        if_false]
      obtain ⟨hfront, hesc⟩ | ⟨it, cp, hfront, hbytes, hesc⟩ := parseEscapeSeq_eq hs
      · rw [hfront, hesc]
      · simp only [hfront, hesc, hbytes]
    · simp [frontItem, hquote, hback, Item.text, Item.bytes]

theorem Item.bytes_length (it : Item) : 0 < it.bytes.length ∧ it.bytes.length ≤ 3 := by
  have hutf (cp : ℕ) : 0 < (encodeUtf8 cp).length ∧ (encodeUtf8 cp).length ≤ 3 := by
    unfold encodeUtf8
    split_ifs <;> simp
  cases it with
  | raw c => simp [Item.bytes]
  | short e => exact hutf _
  | unicode a b c d => exact hutf _

/-! ## Either kind of allocator -/

/-- The string parser does not depend on the kind of allocator. -/
theorem parseStringFrom_realloc (grants : ℕ → Bool) (mem : List UInt8) (len fuel pos : ℕ)
    (buf : Out) (n : ℕ) :
    parseStringFrom ⟨grants, true⟩ mem len fuel pos buf n =
      parseStringFrom ⟨grants, false⟩ mem len fuel pos buf n := by
  induction fuel generalizing pos buf n with
  | zero => rfl
  | succ fuel ih =>
    have hnext : ∀ pos, parseStringFrom ⟨grants, true⟩ mem len fuel pos =
        parseStringFrom ⟨grants, false⟩ mem len fuel pos := fun pos => funext₂ (ih pos)
    simp only [parseStringFrom, append, bufGrow_eq, hnext]

theorem parseStringRaw_realloc (grants : ℕ → Bool) (mem : List UInt8) (len pos n : ℕ) :
    parseStringRaw ⟨grants, true⟩ mem len pos n = parseStringRaw ⟨grants, false⟩ mem len pos n := by
  simp only [parseStringRaw, parseStringFrom_realloc]

/-! ## The invariant of the loop -/

/-- The buffer has been doubled `j` times, each time because the bytes in use did not fit, and all
requests from the first one, number `m`, were granted. -/
structure Grown (a : Allocator) (m j : ℕ) (buf : Out) : Prop where
  cap_eq : buf.cap = 64 * 2 ^ j
  fits : buf.bytes.length ≤ buf.cap
  needed : 0 < j → 64 * 2 ^ (j - 1) < buf.bytes.length
  granted : ∀ i ≤ j, a.grants (m + i) = true

variable {j : ℕ}

theorem grown_first (h : a.grants m = true) : Grown a m 0 ⟨64, []⟩ where
  cap_eq := rfl
  fits := Nat.zero_le 64
  needed hj := absurd hj (Nat.lt_irrefl 0)
  granted i hi := by rwa [Nat.le_zero.mp hi]

theorem Grown.cap_ge (h : Grown a m j buf) : 64 ≤ buf.cap := by
  have hpos := Nat.one_le_two_pow (n := j)
  rw [h.cap_eq]
  omega

/-- What an item does to the buffer: it fits, or the buffer is doubled, or a request is refused. -/
theorem Grown.append (h : Grown a m j buf) (it : Item) :
    (∃ j' buf', append a it.bytes buf (m + 1 + j) = .ok (some buf', m + 1 + j') ∧
        Grown a m j' buf' ∧ buf'.bytes = buf.bytes ++ it.bytes) ∨
      append a it.bytes buf (m + 1 + j) = .ok (none, m + 1 + j + 1) ∧
        64 * 2 ^ j < buf.bytes.length + it.bytes.length ∧ a.grants (m + (j + 1)) = false := by
  obtain ⟨hpos, hthree⟩ := Item.bytes_length it
  have hcap := h.cap_ge
  rw [append_eq h.fits (by omega)]
  split_ifs with hle hgrant
  · refine Or.inl ⟨j, _, rfl, ⟨h.cap_eq, ?_, ?_, h.granted⟩, rfl⟩
    · simpa using hle
    · intro hj
      have := h.needed hj
      simp only [List.length_append]
      omega
  · refine Or.inl ⟨j + 1, _, rfl, ⟨?_, ?_, ?_, ?_⟩, rfl⟩
    · rw [h.cap_eq, Nat.mul_assoc, ← Nat.pow_succ]
    · have := h.fits
      simp only [List.length_append]
      omega
    · intro _
      rw [Nat.add_sub_cancel, ← h.cap_eq, List.length_append]
      omega
    · intro i hi
      rcases Nat.lt_or_eq_of_le hi with hlt | rfl
      · exact h.granted i (by omega)
      · rwa [show m + (j + 1) = m + 1 + j by omega]
  · refine Or.inr ⟨rfl, ?_, ?_⟩
    · rw [← h.cap_eq]
      omega
    · rw [show m + (j + 1) = m + 1 + j by omega]
      simpa using hgrant

/-- At the closing quote the terminator is written behind the end exactly in a full buffer. -/
theorem Grown.terminator (h : Grown a m j buf) :
    (buf.bytes.length = buf.cap ∧ buf.put 0 = .error .outOfBounds) ∨
      buf.bytes.length < buf.cap ∧ ∃ out, buf.put 0 = .ok out := by
  rcases Nat.lt_or_eq_of_le h.fits with hlt | heq
  · exact Or.inr ⟨hlt, _, put_eq hlt 0⟩
  · exact Or.inl ⟨heq, by rw [Out.put, if_neg (by omega)]⟩

/-- A number of bytes that fills a buffer, with all requests up to that size granted. -/
def Brimful (a : Allocator) (m size : ℕ) : Prop :=
  ∃ k, size = 64 * 2 ^ k ∧ ∀ i ≤ k, a.grants (m + i) = true

theorem Grown.brimful (h : Grown a m j buf) (hfull : Brimful a m buf.bytes.length) :
    buf.bytes.length = buf.cap := by
  obtain ⟨k, hk, -⟩ := hfull
  have hfits := h.fits
  rw [h.cap_eq, hk] at hfits ⊢
  have hle : k ≤ j := (Nat.pow_le_pow_iff_right (by omega : 1 < 2)).mp (by omega)
  rcases Nat.eq_zero_or_pos j with rfl | hj
  · rw [Nat.le_zero.mp hle]
  · have hneeded := h.needed hj
    rw [hk] at hneeded
    have hlt : j - 1 < k := (Nat.pow_lt_pow_iff_right (by omega : 1 < 2)).mp (by omega)
    rw [show k = j by omega]

/-- A fault of the loop is the terminator of a literal that fills the buffer. -/
theorem Grown.parseStringFrom_error {e : Fault} (h : Grown a m j buf) (hpos : pos ≤ len)
    (hfuel : len < pos + fuel)
    (herr : parseStringFrom a mem len fuel pos buf (m + 1 + j) = .error e) :
    ∃ items rest, (∀ it ∈ items, it.Scans) ∧
      ahead mem len pos = textOf items ++ chQuote :: rest ∧
      Brimful a m (buf.bytes.length + (bytesOf items).length) := by
  induction fuel generalizing pos buf j with
  | zero => omega
  | succ fuel ih =>
    rw [parseStringFrom_succ, roundFrom] at herr
    split_ifs at herr with hquote
    · match hs : ahead mem len pos with
      | [] => simp [hs] at hquote
      | c :: t =>
        obtain rfl : c = chQuote := by simpa [hs] using hquote
        rcases h.terminator with ⟨hfull, -⟩ | ⟨-, out, hput⟩
        · refine ⟨[], t, by simp, rfl, j, ?_, h.granted⟩
          rw [← h.cap_eq, ← hfull]
          rfl
        · rw [hput] at herr
          cases herr
    · match hfront : frontItem (ahead mem len pos) with
      | none =>
        rw [hfront] at herr
        cases herr
      | some it =>
        rw [hfront] at herr
        obtain ⟨hit, t, ht⟩ := frontItem_some hfront
        have htext := it.text_length
        have hinside := ahead_length_le mem len pos
        rw [ht, List.length_append] at hinside
        rcases h.append it with ⟨j', buf', happ, h', hbytes⟩ | ⟨happ, -, -⟩
        · simp only [happ, Except.bind, onward] at herr
          obtain ⟨items, rest, hitems, hs, hfull⟩ := ih h' (by omega) (by omega) herr
          rw [ahead_add, ht, List.drop_left] at hs
          rw [hbytes, List.length_append, Nat.add_assoc, ← List.length_append, ← bytesOf_cons]
            at hfull
          refine ⟨it :: items, rest, List.forall_mem_cons.mpr ⟨hit, hitems⟩, ?_, hfull⟩
          rw [ht, hs, textOf_cons, List.append_assoc]
        · simp only [happ, Except.bind, onward] at herr
          cases herr

/-- The terminator of a literal that fills the buffer is written behind its end. -/
theorem Grown.parseStringFrom_brimful {rest : List UInt8} (h : Grown a m j buf)
    (hitems : ∀ it ∈ items, it.Scans) (hs : ahead mem len pos = textOf items ++ chQuote :: rest)
    (hfull : Brimful a m (buf.bytes.length + (bytesOf items).length))
    (hfuel : items.length < fuel) :
    parseStringFrom a mem len fuel pos buf (m + 1 + j) = .error .outOfBounds := by
  induction items generalizing pos buf j fuel with
  | nil =>
    obtain ⟨n, rfl⟩ : ∃ n, fuel = n + 1 := ⟨fuel - 1, by simp at hfuel; omega⟩
    have hlen := h.brimful hfull
    have hquote : (ahead mem len pos).head? = some chQuote := by rw [hs]; rfl
    rw [parseStringFrom_succ, roundFrom, if_pos hquote, Out.put, if_neg (by omega)]
    rfl
  | cons it items ih =>
    rw [List.length_cons] at hfuel
    obtain ⟨n, rfl⟩ : ∃ n, fuel = n + 1 := ⟨fuel - 1, by omega⟩
    rw [textOf_cons, List.append_assoc] at hs
    have hit := hitems it List.mem_cons_self
    have hnext : ahead mem len (pos + it.text.length) = textOf items ++ chQuote :: rest := by
      rw [ahead_add, hs, List.drop_left]
    rw [parseStringFrom_succ, roundFrom, hs, if_neg (hit.head_ne_quote _), frontItem_text hit]
    rw [bytesOf_cons, List.length_append, ← Nat.add_assoc] at hfull
    rcases h.append it with ⟨j', buf', happ, h', hbytes⟩ | ⟨-, hlarge, hrefused⟩
    · simp only [happ, Except.bind, onward]
      refine ih h' (fun x hx => hitems x (List.mem_cons_of_mem _ hx)) hnext ?_ (by omega)
      rwa [hbytes, List.length_append]
    · -- the refused request is one of those that a full buffer has been granted
      obtain ⟨k, hk, hgrants⟩ := hfull
      have hlt : j < k := (Nat.pow_lt_pow_iff_right (by omega : 1 < 2)).mp (by omega)
      rw [hgrants (j + 1) hlt] at hrefused
      cases hrefused

/-! ## Bounds -/

/-- All writes stay inside the buffer, unless the bytes of a literal are exactly as many as one of
the capacities 64, 128, 256 and so on, with the requests up to this capacity granted. -/
theorem string_buffer_bounds_iff (hquote : peek mem len pos = some chQuote) :
    (∃ res, parseStringRaw a mem len pos n = .ok res) ↔
      ∀ items after, LiteralAt mem len pos items after →
        ∀ k, (bytesOf items).length = 64 * 2 ^ k → ∃ i ≤ k, a.grants (n + i) = false := by
  obtain ⟨hsplit, hinside⟩ := ahead_of_quote hquote
  rw [parseStringRaw]
  constructor
  · rintro ⟨res, hres⟩ items after ⟨hitems, -, rest, hs⟩ k hk
    by_contra hgrants
    push Not at hgrants
    have hall : ∀ i ≤ k, a.grants (n + i) = true := fun i hi => by simpa using hgrants i hi
    have hlen := length_le_textOf items
    have hle := ahead_length_le mem len pos
    rw [hs] at hle
    simp only [List.length_cons, List.length_append] at hle
    rw [hs, List.cons.injEq] at hsplit
    have hfirst : a.grants n = true := hall 0 (Nat.zero_le k)
    rw [if_pos hfirst, (grown_first hfirst).parseStringFrom_brimful hitems hsplit.2.symm
      ⟨k, by simpa using hk, hall⟩ (by omega)] at hres
    cases hres
  · intro hclear
    split_ifs with hgrant
    · cases hres : parseStringFrom a mem len (len - pos) (pos + 1) ⟨64, []⟩ (n + 1) with
      | ok res => exact ⟨res, rfl⟩
      | error e =>
        obtain ⟨items, rest, hitems, hs, k, hk, hall⟩ :=
          (grown_first hgrant).parseStringFrom_error (by omega) (by omega) hres
        obtain ⟨i, hi, hrefused⟩ := hclear items _ ⟨hitems, rfl, rest, by rw [hsplit, hs]⟩ k
          (by simpa using hk)
        rw [hall i hi] at hrefused
        cases hrefused
    · exact ⟨_, rfl⟩

/-- A letter between quotes. -/
theorem letter_buffer_bounds :
    ∃ res, parseStringRaw ⟨fun _ => true, true⟩ [34, 97, 34] 3 0 0 = .ok res := by
  refine (string_buffer_bounds_iff rfl).mpr fun items after hlit k hk => ?_
  have hone : (bytesOf items).length = 1 := by
    obtain ⟨hscan, -, rest, hs⟩ := hlit
    obtain ⟨hletter, -, rest', hs'⟩ := letter_literal
    rw [hs', List.cons.injEq] at hs
    rw [← literal_unique hletter hscan hs.2]
    rfl
  have hpos := Nat.one_le_two_pow (n := k)
  omega

/-- The terminator of 64 letters is written behind the 64 bytes of the buffer. -/
theorem sixty_four_letters_overrun :
    parseStringRaw ⟨fun _ => true, true⟩ (34 :: List.replicate 64 97 ++ [34]) 66 0 0 =
      .error .outOfBounds := by
  have hscan : (Item.raw 97).Scans := by simp [Item.Scans, chQuote, chBackslash]
  have hs : ahead (34 :: List.replicate 64 97 ++ [34]) 66 1 =
      textOf (List.replicate 64 (.raw 97)) ++ [chQuote] := by decide
  have hfull : Brimful ⟨fun _ => true, true⟩ 0
      (0 + (bytesOf (List.replicate 64 (.raw 97))).length) := ⟨0, by decide, fun _ _ => rfl⟩
  exact (grown_first rfl).parseStringFrom_brimful
    (fun it hit => (List.eq_of_mem_replicate hit) ▸ hscan) hs hfull (by decide)

end LibZenit.JsonScratch
