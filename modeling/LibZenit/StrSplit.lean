import LibZenit.StrModel

/-!
# The tokens that `zenit_str_split` finds

The array always has a place for the NULL behind the tokens. The tokens are those of the list of
characters, cut at every delimiter.
-/
namespace LibZenit.Str
open Blocks CString

/-! ## Calls -/

section Calls
variable {α β : Type} {w : World} {x : Step α} {P : α → Prop} {Q : β → Prop}
  {f : World → α → Step β}

/-- A request made so far was refused. -/
def World.Refused (w : World) : Prop :=
  ∃ n size, w.asked[n]? = some size ∧ granted (w.ok n) size = false

/-- The call, with the allocator of `w`, ends without a fault. It returns NULL only if a request
that has been made was refused. -/
def Gives (w : World) (x : Step α) (P : α → Prop) : Prop :=
  ∃ w' r, x = .ok (w', r) ∧ w'.ok = w.ok ∧ (r = none → w'.Refused) ∧ ∀ a, r = some a → P a

theorem Gives.andThen (hx : Gives w x P) (hf : ∀ w a, P a → Gives w (f w a) Q) :
    Gives w (andThen x f) Q := by
  obtain ⟨w₁, r, rfl, hok, hnull, hvalue⟩ := hx
  cases r with
  | none => exact ⟨w₁, none, rfl, hok, fun _ => hnull rfl, by simp⟩
  | some a =>
    obtain ⟨w₂, r, hrun, hok', hrest⟩ := hf w₁ a (hvalue a rfl)
    exact ⟨w₂, r, hrun, hok'.trans hok, hrest⟩

theorem gives_lift (w : World) {x : Exec α} {a : α} (hx : x = .ok a) (ha : P a) :
    Gives w (lift w x) P := by
  subst hx
  exact ⟨w, some a, rfl, rfl, by simp, by simpa using ha⟩

theorem Gives.imp {P' : α → Prop} (hx : Gives w x P) (h : ∀ a, P a → P' a) : Gives w x P' := by
  obtain ⟨w', r, heq, hok, hnull, hvalue⟩ := hx
  exact ⟨w', r, heq, hok, hnull, fun a ha => h a (hvalue a ha)⟩

theorem gives_alloc (w : World) (size : ℕ) : Gives w (w.alloc size) fun _ => size < 2 ^ 63 := by
  refine ⟨_, _, rfl, rfl, fun hnull => ?_, fun _ hsome => ?_⟩
  · refine ⟨w.asked.length, size, by simp, ?_⟩
    by_contra hgranted
    rw [if_pos (by simpa using hgranted)] at hnull
    cases hnull
  · split_ifs at hsome with hgranted
    simp only [granted, Bool.and_eq_true, decide_eq_true_eq] at hgranted
    exact hgranted.2

end Calls

/-! ## Lists -/

section Lists
variable {α : Type} {p q : α → Bool}

theorem length_splitOnP (p : α → Bool) (xs : List α) :
    (xs.splitOnP p).length = xs.countP p + 1 := by
  induction xs with
  | nil => simp
  | cons x xs ih =>
    rw [List.splitOnP_cons_eq_if_modifyHead]
    by_cases hx : p x
    · simp [hx, ih]
    · simp [hx, ih]

theorem not_of_mem_splitOnP (p : α → Bool) (xs : List α) :
    ∀ tok ∈ xs.splitOnP p, ∀ x ∈ tok, p x = false := by
  induction xs with
  | nil => simp
  | cons x xs ih =>
    rw [List.splitOnP_cons_eq_if_modifyHead]
    obtain ⟨tok, toks, hsplit⟩ := List.exists_cons_of_ne_nil (List.splitOnP_ne_nil p xs)
    rw [hsplit] at ih ⊢
    by_cases hx : p x
    · simpa [hx] using ih
    · simp only [Bool.not_eq_true] at hx
      simpa [hx] using ih

theorem modifyHead_nil_append (xss : List (List α)) : xss.modifyHead ([] ++ ·) = xss := by
  cases xss <;> simp

theorem splitOnP_congr {xs : List α} (h : ∀ x ∈ xs, p x = q x) :
    xs.splitOnP p = xs.splitOnP q := by
  induction xs with
  | nil => simp
  | cons x xs ih =>
    rw [List.splitOnP_cons_eq_if_modifyHead, List.splitOnP_cons_eq_if_modifyHead,
      h x List.mem_cons_self, ih fun y hy => h y (List.mem_cons_of_mem x hy)]

end Lists

/-! ## One token -/

variable {junk : Junk} {w : World} {t : Tokens} {toks : List Text} {pre tok rest s delim : Text}

/-- The array holds the tokens found so far and has a place for the NULL behind them. -/
structure Holds (toks : List Text) (t : Tokens) : Prop where
  idx : t.idx = toks.length
  small : t.cap * 8 < 2 ^ 63
  slots : t.result.length = t.cap
  room : t.idx + 1 ≤ t.cap
  texts : t.result.take t.idx = toks.map fun tok => some (tok ++ [0])

theorem growResult_gives (h : Holds toks t) (junk : Junk) (w : World) :
    Gives w (growResult junk w t) fun t' =>
      Holds toks t' ∧ t'.idx + 2 ≤ t'.cap ∧ t'.tokenStart = t.tokenStart := by
  have hsmall := h.small
  have hroom := h.room
  have hslots := h.slots
  unfold growResult
  split_ifs with hfull
  · have hcap : wrap (t.cap * 2) = t.cap * 2 := wrap_of_lt (by omega)
    have hsize : wrap (t.cap * 2 * 8) = t.cap * 2 * 8 := wrap_of_lt (by omega)
    simp only [hcap, hsize, Nat.mul_div_cancel _ (by norm_num : 0 < 8)]
    refine (gives_alloc w _).andThen fun w _ hgranted => gives_lift w rfl ⟨?_, ?_, rfl⟩
    · refine ⟨h.idx, hgranted, length_resize _ _ _, by simp only; omega, ?_⟩
      rw [take_resize junk.pointer (by simp only; omega) (by simp only; omega), h.texts]
    · simp only
      omega
  · exact gives_lift w rfl ⟨h, by omega, rfl⟩

theorem fillToken_eq (junk : Junk) (hlen : tok.length + 1 < 2 ^ 64) :
    fillToken junk (pre ++ (tok ++ rest)) pre.length tok.length = .ok (tok ++ [0]) := by
  have hread : readSlots (pre ++ (tok ++ rest)) pre.length tok.length = .ok tok := by
    rw [readSlots, if_pos (by simp)]
    simp
  have hwrite : writeSlots (List.replicate (tok.length + 1) junk.byte) 0 tok =
      .ok (tok ++ [junk.byte]) := by
    rw [writeSlots, if_pos (by simp)]
    simp [patch]
  have hnul : writeSlot (tok ++ [junk.byte]) tok.length 0 = .ok (tok ++ [0]) := by
    rw [writeSlot, if_pos (by simp)]
    simp
  rw [fillToken, wrap_of_lt hlen]
  by_cases hpos : tok.length > 0
  · simp only [hpos, if_true, hread, bind, Except.bind, hwrite, hnul]
  · have hnil : tok = [] := List.length_eq_zero_iff.mp (by omega)
    subst hnil
    rfl

theorem emitToken_gives (h : Holds toks t) (hstart : t.tokenStart = pre.length)
    (hlen : (pre ++ tok).length + 1 < 2 ^ 64) :
    Gives w (emitToken junk (pre ++ (tok ++ rest)) w t (pre ++ tok).length) fun t' =>
      Holds (toks ++ [tok]) t' ∧ t'.tokenStart = (pre ++ tok).length + 1 := by
  refine (growResult_gives h junk w).andThen fun w t' ⟨h', hroom, hstart'⟩ => ?_
  rw [List.length_append] at hlen ⊢
  have htlen : subSize (pre.length + tok.length) t'.tokenStart = tok.length := by
    rw [hstart', hstart, subSize_of_le (by omega) (by omega), Nat.add_sub_cancel_left]
  have hslots := h'.slots
  rw [htlen, hstart', hstart]
  refine (gives_alloc w _).andThen fun w _ _ => ?_
  have hwrite := writeSlot_eq (by omega : t'.idx < t'.result.length) (some (tok ++ [0]))
  refine gives_lift w (x := _)
    (a := ⟨t'.cap, t'.idx + 1, pre.length + tok.length + 1,
      t'.result.set t'.idx (some (tok ++ [0]))⟩) ?_ ⟨⟨?_, h'.small, ?_, ?_, ?_⟩, rfl⟩
  · rw [fillToken_eq junk (by omega)]
    simp only [bind, Except.bind, hwrite]
    rfl
  · simp [h'.idx]
  · simp [hslots]
  · simp only
    omega
  · have hidx : t'.idx < t'.result.length := by omega
    simp only
    rw [List.take_succ_eq_append_getElem (by simpa using hidx), List.take_set_of_le (le_refl _),
      h'.texts]
    simp

/-! ## All tokens -/

variable {mem : Text} {len i : ℕ}

theorem isDelim_eq (delim : Text) {c : UInt8} (hmem : mem[i]? = some c) (hi : i < len) :
    isDelim mem delim len i = .ok (strchr delim c) := by
  rw [isDelim, if_pos hi, readSlot_eq hmem]
  rfl

/-- The loop at a place inside or behind the token `tok`, with `rest` still to come. -/
theorem splitLoop_gives (delim : Text) (h : Holds toks t) (hstart : t.tokenStart = pre.length)
    (hmem : mem = pre ++ (tok ++ (rest ++ [0]))) (hi : i = (pre ++ tok).length)
    (hlen : len = i + rest.length) (hsmall : len + 1 < 2 ^ 64) :
    Gives w (splitLoop junk mem delim len w t i) fun t' =>
      Holds (toks ++ (rest.splitOnP (strchr delim)).modifyHead (tok ++ ·)) t' := by
  induction rest generalizing toks t pre tok w i with
  | nil =>
    have hend : i = len := by simpa using hlen.symm
    have hemit := @emitToken_gives junk w t toks pre tok ([] ++ [0]) h hstart (by omega)
    rw [← hmem, ← hi] at hemit
    rw [splitLoop, if_pos (by omega), isDelim, if_neg (by omega)]
    simp only [Except.bind, hend, ne_eq, not_true_eq_false, decide_false, Bool.and_false,
      Bool.false_eq_true, if_false]
    rw [← hend]
    refine hemit.andThen fun w t' ht' => ?_
    rw [splitLoop, if_neg (by omega)]
    refine gives_lift w rfl ?_
    simpa using ht'.1
  | cons c rest ih =>
    rw [List.length_cons] at hlen
    have hchar : mem[i]? = some c := by
      rw [hmem, hi, ← List.append_assoc, List.getElem?_append_right (le_refl _)]
      simp
    rw [splitLoop, if_pos (by omega), isDelim_eq delim hchar (by omega)]
    simp only [Except.bind]
    rw [List.splitOnP_cons_eq_if_modifyHead]
    cases hdelim : strchr delim c with
    | false =>
      -- the character becomes part of the token
      have hgo : (!false && decide (i ≠ len)) = true := by simp; omega
      rw [if_pos hgo]
      have hrest := @ih w t toks pre (tok ++ [c]) (i + 1) h hstart (by simp [hmem])
        (by simp [hi]; omega) (by omega)
      simpa [Function.comp_def] using hrest
    | true =>
      have hemit := @emitToken_gives junk w t toks pre tok (c :: rest ++ [0]) h hstart (by omega)
      rw [← hmem, ← hi] at hemit
      simp only [Bool.not_true, Bool.false_and, Bool.false_eq_true, if_false]
      refine hemit.andThen fun w t' ⟨ht', hstart'⟩ => ?_
      have hrest := @ih w t' (toks ++ [tok]) (pre ++ tok ++ [c]) [] (i + 1) ht'
        (by simp [hstart', hi, Nat.add_assoc]) (by simp [hmem]) (by simp [hi]; omega) (by omega)
      rw [modifyHead_nil_append] at hrest
      simpa using hrest

/-- The array and its NULL, for a list of tokens. -/
def IsArrayOf (toks : List Text) (r : Split) : Prop :=
  r.count = toks.length ∧ (r.result.take r.count = toks.map fun tok => some (tok ++ [0])) ∧
    r.result[r.count]? = some none

theorem splitImpl_gives (junk : Junk) (w : World) (delim : Text) (hs : IsString s) :
    Gives w (splitImpl junk w (s ++ [0]) delim) (IsArrayOf (s.splitOnP (strchr delim))) := by
  refine (gives_alloc w _).andThen fun w _ _ => ?_
  have hsmall := hs.2
  have hstart : Holds [] ⟨4, 0, 0, List.replicate (slotsOf 8 4) junk.pointer⟩ := by
    refine ⟨rfl, by norm_num, ?_, by norm_num, by simp⟩
    rw [List.length_replicate, slotsOf_eq (by norm_num) (by norm_num)]
  have hloop := @splitLoop_gives junk w _ [] [] [] s (s ++ [0]) s.length 0 delim hstart rfl
    (by simp) rfl (by simp) (by omega)
  rw [modifyHead_nil_append, List.nil_append] at hloop
  rw [strlen_eq hs.1]
  refine hloop.andThen fun w t ht => ?_
  have hidx : t.idx < t.result.length := by
    rw [ht.slots]
    exact ht.room
  refine gives_lift w (a := ⟨t.result.set t.idx none, t.idx⟩) ?_ ⟨ht.idx, ?_, ?_⟩
  · rw [writeSlot_eq hidx]
    rfl
  · simp only [List.take_set_of_le (le_refl _), ht.texts]
  · simp [hidx]

/-- `a,` at `,` if all requests are granted. -/
example : zenitStrSplit ⟨0, none⟩ (.start fun _ => true) (some [97, 44, 0]) (some [44, 0]) true =
    .ok (⟨fun _ => true, [32, 2, 1]⟩, some ⟨[some [97, 0], some [0], none, none], 2⟩) := by
  simp [zenitStrSplit, splitImpl, World.alloc, World.start, granted, wrap, splitLoop, andThen, lift,
    isDelim, strlen, strchr, readSlot, emitToken, growResult, fillToken, subSize, Except.bind,
    Except.map, readSlots, writeSlots, writeSlot, patch, slotsOf, bind, pure, Except.pure]

end LibZenit.Str
