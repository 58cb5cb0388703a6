import LibZenit.StrSplit

/-!
# Splitting and joining are inverse

The length that `zenit_str_join` computes first is that of the text it then writes.
-/
namespace LibZenit.Str
open Blocks CString

/-! ## Joining -/

variable {junk : Junk} {w : World} {parts : List Text} {front back : List (Option Text)}
  {d s written room data : Text} {count i total : ℕ}

/-- The pointers to a list of strings. -/
def pointers (parts : List Text) : List (Option Text) := parts.map fun part => some (part ++ [0])

theorem readSlot_pointers (part : Text) (parts : List Text) (back : List (Option Text))
    (hi : i = front.length) :
    readSlot (front ++ (pointers (part :: parts) ++ back)) i = .ok (some (part ++ [0])) := by
  refine readSlot_eq ?_
  rw [hi, List.getElem?_append_right (le_refl _)]
  simp [pointers]

theorem intercalate_cons (d first : Text) (parts : List Text) :
    d.intercalate (first :: parts) = first ++ parts.flatMap (d ++ ·) := by
  induction parts generalizing first with
  | nil => simp
  | cons part parts ih =>
    rw [List.intercalate_cons_cons, ih]
    simp

theorem mem_intercalate (d : Text) {part : Text} {x : UInt8} (hpart : part ∈ parts)
    (hx : x ∈ part) : x ∈ d.intercalate parts := by
  obtain ⟨first, rest, rfl⟩ := List.exists_cons_of_ne_nil (List.ne_nil_of_mem hpart)
  rw [intercalate_cons, List.mem_append, List.mem_flatMap]
  obtain rfl | hrest := List.mem_cons.mp hpart
  · exact .inl hx
  · exact .inr ⟨part, hrest, List.mem_append_right d hx⟩

theorem zero_notMem_intercalate (htext : ∀ part ∈ parts, 0 ∉ part) (hd : 0 ∉ d) :
    0 ∉ d.intercalate parts := by
  cases parts with
  | nil => simp
  | cons first rest =>
    rw [intercalate_cons, List.mem_append, List.mem_flatMap]
    rintro (hfirst | ⟨part, hpart, hmem⟩)
    · exact htext first List.mem_cons_self hfirst
    · obtain hdelim | hin := List.mem_append.mp hmem
      · exact hd hdelim
      · exact htext part (List.mem_cons_of_mem first hpart) hin

theorem length_intercalate (d : Text) (hparts : parts ≠ []) :
    (d.intercalate parts).length =
      (parts.map List.length).sum + d.length * (parts.length - 1) := by
  obtain ⟨first, rest, rfl⟩ := List.exists_cons_of_ne_nil hparts
  have hrest : (rest.flatMap (d ++ ·)).length =
      (rest.map List.length).sum + d.length * rest.length := by
    clear hparts
    induction rest with
    | nil => simp
    | cons part rest ih =>
      simp only [List.flatMap_cons, List.length_append, ih, List.map_cons, List.sum_cons,
        List.length_cons]
      ring
  rw [intercalate_cons, List.length_append, hrest]
  simp
  omega

theorem totalLoop_eq (htext : ∀ part ∈ parts, 0 ∉ part) (hi : i = front.length)
    (hcount : count = i + parts.length) (hsmall : total + (parts.map List.length).sum < 2 ^ 64) :
    totalLoop (front ++ (pointers parts ++ back)) count i total =
      .ok (total + (parts.map List.length).sum) := by
  induction parts generalizing front i total with
  | nil =>
    rw [totalLoop, if_neg (by simp at hcount; omega)]
    rfl
  | cons part parts ih =>
    rw [List.length_cons] at hcount
    rw [List.map_cons, List.sum_cons] at hsmall
    have hread := readSlot_pointers part parts back hi
    have hrest := @ih (front ++ [some (part ++ [0])]) (i + 1) (total + part.length)
      (fun p hp => htext p (List.mem_cons_of_mem part hp)) (by simp [hi]) (by omega) (by omega)
    rw [totalLoop, if_pos (by omega), hread]
    simp only [bind, Except.bind, strlen_eq (htext part List.mem_cons_self)]
    rw [wrap_of_lt (by omega)]
    simp only [pointers, List.map_cons, List.sum_cons, ← Nat.add_assoc] at hrest ⊢
    simpa using hrest

theorem copyPart_eq (hroom : data.length ≤ room.length) :
    copyPart (data ++ [0]) data.length (written ++ room) written.length =
      .ok ((written ++ data) ++ room.drop data.length, (written ++ data).length) := by
  have hwrite : writeSlots (written ++ room) written.length data =
      .ok ((written ++ data) ++ room.drop data.length) := by
    rw [writeSlots, if_pos (by simp; omega)]
    simp [patch]
  rw [copyPart, readSlots_text]
  simp only [bind, Except.bind, hwrite]
  simp [pure, Except.pure]

/-- The loop behind the first part. -/
theorem joinLoop_eq (htext : ∀ part ∈ parts, 0 ∉ part) (hi : i = front.length) (hpos : 0 < i)
    (hcount : count = i + parts.length)
    (hroom : room.length = (parts.flatMap (d ++ ·)).length + 1) :
    joinLoop (front ++ (pointers parts ++ back)) count (d ++ [0]) d.length i (written ++ room)
        written.length = .ok (written ++ parts.flatMap (d ++ ·) ++ [0]) := by
  induction parts generalizing front i written room with
  | nil =>
    obtain ⟨c, rfl⟩ := List.length_eq_one_iff.mp hroom
    rw [joinLoop, if_neg (by simp at hcount; omega), writeSlot_eq (by simp)]
    simp
  | cons part parts ih =>
    rw [List.length_cons] at hcount
    simp only [List.flatMap_cons, List.length_append] at hroom
    have hread := readSlot_pointers part parts back hi
    have hdelim := @copyPart_eq written room d (by omega)
    have hpart := @copyPart_eq (written ++ d) (room.drop d.length) part (by simp; omega)
    have hrest := @ih (front ++ [some (part ++ [0])]) (written ++ d ++ part)
      ((room.drop d.length).drop part.length) (i + 1)
      (fun p hp => htext p (List.mem_cons_of_mem part hp)) (by simp [hi]) (by omega) (by omega)
      (by simp only [List.length_drop]; omega)
    rw [joinLoop, if_pos (by omega)]
    simp only [hpos, if_true, hdelim, bind, Except.bind, hread,
      strlen_eq (htext part List.mem_cons_self), hpart]
    simp only [pointers, List.map_cons, List.append_assoc, List.cons_append, List.nil_append,
      List.flatMap_cons] at hrest ⊢
    exact hrest

theorem joinImpl_gives (junk : Junk) (w : World) (back : List (Option Text)) (hparts : parts ≠ [])
    (htext : ∀ part ∈ parts, 0 ∉ part) (hd : 0 ∉ d)
    (hsmall : (d.intercalate parts).length + 1 < 2 ^ 64) :
    Gives w (joinImpl junk w (pointers parts ++ back) parts.length (d ++ [0])) fun out =>
      out = d.intercalate parts ++ [0] ∧ (d.intercalate parts).length + 1 < 2 ^ 63 := by
  have hlength := length_intercalate d hparts
  rw [hlength] at hsmall
  have hsum := @totalLoop_eq parts [] back parts.length 0 0 htext rfl (by simp) (by omega)
  rw [List.nil_append, Nat.zero_add] at hsum
  obtain ⟨first, rest, rfl⟩ := List.exists_cons_of_ne_nil hparts
  have hcount : (first :: rest).length ≠ 0 := by simp
  rw [joinImpl, if_neg hcount, hsum]
  simp only [Except.bind, strlen_eq hd]
  rw [wrap_of_lt (by omega : d.length * ((first :: rest).length - 1) < 2 ^ 64), ← hlength,
    wrap_of_lt (by omega : (d.intercalate (first :: rest)).length < 2 ^ 64),
    wrap_of_lt (by omega : (d.intercalate (first :: rest)).length + 1 < 2 ^ 64)]
  refine (gives_alloc w _).andThen fun w _ hgranted => ?_
  refine gives_lift w ?_ ⟨rfl, hgranted⟩
  -- the first part is written without a delimiter
  have htotal : (d.intercalate (first :: rest)).length =
      first.length + (rest.flatMap (d ++ ·)).length := by
    rw [intercalate_cons, List.length_append]
  have hread := @readSlot_pointers [] 0 first rest back rfl
  have hfirst := @copyPart_eq [] (List.replicate ((d.intercalate (first :: rest)).length + 1)
    junk.byte) first (by simp; omega)
  have hrest := @joinLoop_eq rest [some (first ++ [0])] back d first
    ((List.replicate ((d.intercalate (first :: rest)).length + 1) junk.byte).drop first.length)
    (first :: rest).length 1 (fun part hpart => htext part (List.mem_cons_of_mem first hpart)) rfl
    (by norm_num) (by simp; omega) (by simp only [List.length_drop, List.length_replicate]; omega)
  rw [List.nil_append] at hread
  rw [List.nil_append, List.nil_append, List.length_nil] at hfirst
  rw [joinLoop, if_pos (by simp)]
  simp only [gt_iff_lt, lt_irrefl, if_false, pure, Except.pure, bind, Except.bind, hread,
    strlen_eq (htext first List.mem_cons_self), hfirst]
  rw [intercalate_cons] at hrest ⊢
  exact hrest

/-! ## The two ways round -/

theorem splitOnP_char {c : UInt8} (hc : c ≠ 0) (hs : 0 ∉ s) :
    s.splitOnP (strchr ([c] ++ [0])) = s.splitOn c := by
  rw [List.splitOn_eq_splitOnP]
  refine splitOnP_congr fun x hx => ?_
  have hx0 : x ≠ 0 := fun hzero => hs (hzero ▸ hx)
  rw [strchr_eq (by simpa using hc.symm) hx0, List.contains_cons, List.contains_nil, Bool.or_false]

theorem splitOnP_set (hd : 0 ∉ d) (hs : 0 ∉ s) :
    s.splitOnP (strchr (d ++ [0])) = s.splitOnP d.contains := by
  refine splitOnP_congr fun x hx => ?_
  exact strchr_eq hd fun hzero => hs (hzero ▸ hx)

theorem isArrayOf_pointers {toks : List Text} {r : Split} (h : IsArrayOf toks r) :
    r.result = pointers toks ++ r.result.drop r.count := by
  have htexts := h.2.1
  conv_lhs => rw [← List.take_append_drop r.count r.result, htexts]
  rfl

/-- The strings lie apart from each other in one address space. -/
def Stored (parts : List Text) : Prop := (parts.map fun part => part.length + 1).sum < 2 ^ 64

theorem sum_length_succ (parts : List Text) :
    (parts.map fun part => part.length + 1).sum = (parts.map List.length).sum + parts.length := by
  induction parts with
  | nil => rfl
  | cons part parts ih =>
    simp only [List.map_cons, List.sum_cons, ih, List.length_cons]
    omega

/-- As far as memory is granted: what is split at a character is put together again by joining, what
is joined by a character is taken apart again by splitting, and splitting at any set of characters
gives one token more than there are delimiters and loses nothing but these. -/
theorem split_join_inverse (junk : Junk) {c : UInt8} (hc : c ≠ 0) :
    (∀ s, IsString s → ∀ ok,
      Gives (.start ok) (zenitStrSplit junk (.start ok) (some (s ++ [0])) (some [c, 0]) true) fun r =>
        ∃ toks, IsArrayOf toks r ∧ (∀ tok ∈ toks, c ∉ tok) ∧ r.count = s.count c + 1 ∧
          ∀ ok', Gives (.start ok') (zenitStrJoin junk (.start ok') (some r.result) r.count
            (some [c, 0])) fun out => out = s ++ [0]) ∧
    (∀ parts, parts ≠ [] → (∀ part ∈ parts, IsString part ∧ c ∉ part) → Stored parts → ∀ ok,
      Gives (.start ok)
        (zenitStrJoin junk (.start ok) (some (pointers parts)) parts.length (some [c, 0]))
        fun out => ∀ ok', Gives (.start ok')
          (zenitStrSplit junk (.start ok') (some out) (some [c, 0]) true) (IsArrayOf parts)) ∧
    ∀ d s, IsString d → IsString s → ∀ ok,
      Gives (.start ok)
        (zenitStrSplit junk (.start ok) (some (s ++ [0])) (some (d ++ [0])) true) fun r =>
        ∃ toks, IsArrayOf toks r ∧ (∀ tok ∈ toks, ∀ x ∈ tok, x ∉ d) ∧
          toks.length = s.countP d.contains + 1 ∧
          (List.zipWith (· ++ ·) toks
            ((s.filter d.contains).map (fun x => [x]) ++ [[]])).flatten = s := by
  refine ⟨?_, ?_, ?_⟩
  · intro s hs ok
    refine (splitImpl_gives junk (.start ok) [c, 0] hs).imp fun r hr => ?_
    rw [show [c, 0] = [c] ++ [0] from rfl, splitOnP_char hc hs.1] at hr
    have htext : ∀ tok ∈ s.splitOn c, 0 ∉ tok := by
      intro tok htok hzero
      have hin := mem_intercalate [c] htok hzero
      rw [List.intercalate_splitOn] at hin
      exact hs.1 hin
    refine ⟨_, hr, ?_, ?_, fun ok' => ?_⟩
    · intro tok htok hmem
      have hfree := not_of_mem_splitOnP (· == c) s tok htok c hmem
      simp at hfree
    · rw [hr.1, List.splitOn_eq_splitOnP, length_splitOnP]
      rfl
    · have hback := @joinImpl_gives (s.splitOn c) [c] junk (.start ok') (r.result.drop r.count)
        (List.splitOn_ne_nil c s) htext (by simpa using hc.symm)
        (by rw [List.intercalate_splitOn]; have hlen := hs.2; omega)
      rw [← isArrayOf_pointers hr, ← hr.1, List.intercalate_splitOn] at hback
      exact hback.imp fun out hout => hout.1
  · intro parts hne hparts hstored ok
    have hc' : (0 : UInt8) ∉ [c] := by simpa using hc.symm
    have htext : ∀ part ∈ parts, 0 ∉ part := fun part hpart => (hparts part hpart).1.1
    have hsmall : ([c].intercalate parts).length + 1 < 2 ^ 64 := by
      have hpos := List.length_pos_iff.mpr hne
      rw [Stored, sum_length_succ] at hstored
      rw [length_intercalate [c] hne, List.length_singleton]
      omega
    have hjoin := @joinImpl_gives parts [c] junk (.start ok) [] hne htext hc' hsmall
    rw [List.append_nil] at hjoin
    refine hjoin.imp fun out ⟨hout, hlen⟩ ok' => ?_
    have hstring : IsString ([c].intercalate parts) := ⟨zero_notMem_intercalate htext hc', hlen⟩
    have hsplit := splitImpl_gives junk (.start ok') [c, 0] hstring
    rw [show [c, 0] = [c] ++ [0] from rfl, splitOnP_char hc hstring.1,
      List.splitOn_intercalate c (fun part hpart => (hparts part hpart).2) hne, ← hout] at hsplit
    exact hsplit
  · intro d s hd hs ok
    refine (splitImpl_gives junk (.start ok) (d ++ [0]) hs).imp fun r hr => ?_
    rw [splitOnP_set hd.1 hs.1] at hr
    refine ⟨_, hr, ?_, length_splitOnP d.contains s, List.splitOnP_spec s⟩
    intro tok htok x hx
    simpa using not_of_mem_splitOnP d.contains s tok htok x hx

/-- `a,,b` at `,` -/
theorem comma_split_join_inverse :
    (∀ ok, Gives (.start ok)
      (zenitStrSplit ⟨0, none⟩ (.start ok) (some [97, 44, 44, 98, 0]) (some [44, 0]) true)
      fun r => ∃ toks, IsArrayOf toks r ∧ (∀ tok ∈ toks, 44 ∉ tok) ∧ r.count = 3 ∧
        ∀ ok', Gives (.start ok') (zenitStrJoin ⟨0, none⟩ (.start ok') (some r.result) r.count
          (some [44, 0])) fun out => out = [97, 44, 44, 98, 0]) ∧
    (∀ ok, Gives (.start ok)
      (zenitStrJoin ⟨0, none⟩ (.start ok) (some (pointers [[97], []])) 2 (some [44, 0]))
      fun out => ∀ ok', Gives (.start ok')
        (zenitStrSplit ⟨0, none⟩ (.start ok') (some out) (some [44, 0]) true)
        (IsArrayOf [[97], []])) := by
  have hinverse := @split_join_inverse ⟨0, none⟩ 44 (by decide)
  refine ⟨fun ok => hinverse.1 [97, 44, 44, 98] ⟨by decide, by simp⟩ ok, fun ok => ?_⟩
  refine hinverse.2.1 [[97], []] (by simp) ?_ (by simp [Stored]) ok
  intro part hpart
  obtain rfl | rfl : part = [97] ∨ part = [] := by simpa using hpart
  · exact ⟨⟨by decide, by simp⟩, by decide⟩
  · exact ⟨⟨by decide, by simp⟩, by decide⟩

end LibZenit.Str
