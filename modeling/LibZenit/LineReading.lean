import LibZenit.IoModel

/-!
# The first line of a file

The bytes of a file arrive in windows that know nothing of its lines, and the buffer of the line
doubles on its own. The line does not depend on where a window ends.
-/
namespace LibZenit.Io
open Blocks CString Reallocation

variable {a : Allocator} {fd : Descriptor} {line : LineBuf} {w : Window}
  {text chunk pre rest : Text} {chunks : List Text} {m n : ℕ}

/-- The bytes up to the first newline, with it. -/
def firstLine : Text → Text
  | [] => []
  | c :: rest => if c = 10 then [c] else c :: firstLine rest

theorem firstLine_append_of_mem (h : 10 ∈ chunk) : firstLine (chunk ++ rest) = firstLine chunk := by
  induction chunk with
  | nil => cases h
  | cons c chunk ih =>
    rw [List.cons_append, firstLine, firstLine]
    split_ifs with hc
    · rfl
    · have hmem := (List.mem_cons.mp h).resolve_left fun heq => hc heq.symm
      rw [ih hmem]

theorem firstLine_append_of_notMem (h : 10 ∉ chunk) :
    firstLine (chunk ++ rest) = chunk ++ firstLine rest := by
  induction chunk with
  | nil => rfl
  | cons c chunk ih =>
    rw [List.mem_cons, not_or] at h
    rw [List.cons_append, firstLine, if_neg fun heq => h.1 heq.symm, ih h.2]
    rfl

theorem firstLine_of_notMem (h : 10 ∉ chunk) : firstLine chunk = chunk := by
  have happend := @firstLine_append_of_notMem chunk [] h
  rw [List.append_nil] at happend
  rw [happend, firstLine, List.append_nil]

theorem length_firstLine_le : (firstLine chunk).length ≤ (firstLine (chunk ++ rest)).length := by
  by_cases h : 10 ∈ chunk
  · rw [firstLine_append_of_mem h]
  · rw [firstLine_append_of_notMem h, firstLine_of_notMem h, List.length_append]
    omega

/-! ## The buffer of the line -/

/-- The buffer holds the text and has room for the terminator. -/
structure Holds (line : LineBuf) (text : Text) : Prop where
  len_eq : line.len = text.length
  length_buf : line.buf.length = line.cap
  take_buf : line.buf.take line.len = text
  room : line.len + 1 ≤ line.cap
  cap_lt : line.cap < 2 ^ 63
  requests_eq : line.cap * 2 = 64 * 2 ^ line.requests

/-- The allocator refuses one of the requests of a line of `m` bytes, the `i`-th of which is for
`64 * 2 ^ i` bytes. -/
def Refused (a : Allocator) (m : ℕ) : Prop :=
  ∃ i, 64 * 2 ^ i ≤ max 64 (2 * m) ∧ a.grants i (64 * 2 ^ i) = false

theorem Refused.mono (h : Refused a m) (hle : m ≤ n) : Refused a n := by
  obtain ⟨i, hi, hgrants⟩ := h
  exact ⟨i, hi.trans (by omega), hgrants⟩

/-- Growing keeps the text and makes room for a byte and the terminator. -/
theorem growLineBuf_eq (h : Holds line text) :
    (∃ line', growLineBuf a line = .ok (line', .ok) ∧ Holds line' text ∧
      line'.len + 2 ≤ line'.cap) ∨
    (∃ line', growLineBuf a line = .ok (line', .alloc)) ∧ Refused a (text.length + 1) := by
  obtain ⟨hlen, hbuf, htake, hroom, hcap, hrequests⟩ := h
  have hwrap : wrap (line.len + 2) = line.len + 2 := wrap_of_lt (by omega)
  have hdouble : wrap (line.cap * 2) = line.cap * 2 := wrap_of_lt (by omega)
  rw [growLineBuf, hwrap, hdouble]
  dsimp only
  split_ifs with hfits hgrants
  · exact .inl ⟨line, rfl, ⟨hlen, hbuf, htake, hroom, hcap, hrequests⟩, hfits⟩
  · -- the buffer is doubled only when it is full
    rw [hrequests, Bool.not_eq_true'] at hgrants
    exact .inr ⟨⟨_, rfl⟩, line.requests, by omega, hgrants⟩
  · have hgranted : a.grants line.requests (line.cap * 2) = true := by simpa using hgrants
    have hsmall := a.small hgranted
    rw [← hbuf, zenitAllocatorRealloc_eq]
    refine .inl ⟨_, rfl, ⟨hlen, ?_, ?_, ?_, ?_, ?_⟩, ?_⟩
    · rw [length_resize]
    · dsimp only
      rw [take_resize _ (by omega) (by omega), htake]
    · dsimp only
      omega
    · dsimp only
      omega
    · dsimp only
      rw [hbuf, pow_succ, hrequests]
      ring
    · dsimp only
      omega

/-- A byte behind the text. -/
theorem writeSlot_line (h : Holds line text) (hroom : line.len + 2 ≤ line.cap) (c : UInt8) :
    writeSlot line.buf line.len c = .ok (line.buf.set line.len c) ∧
      Holds { line with buf := line.buf.set line.len c, len := line.len + 1 } (text ++ [c]) := by
  obtain ⟨hlen, hbuf, htake, -, hcap, hrequests⟩ := h
  have hlt : line.len < line.buf.length := by omega
  refine ⟨writeSlot_eq hlt c, ?_, ?_, ?_, ?_, hcap, hrequests⟩
  · rw [List.length_append, List.length_singleton, hlen]
  · rw [List.length_set, hbuf]
  · dsimp only
    rw [take_succ_set hlt, htake]
  · dsimp only
    omega

/-! ## Windows -/

/-- The scan of a window stops behind a newline, or has taken all bytes. -/
theorem scanLoop_eq (h : Holds line text) (hbuf : w.readBuf = pre ++ (chunk ++ rest))
    (hpos : w.readBufPos = pre.length) (hend : w.readBufEnd = pre.length + chunk.length) :
    ((∃ line' w', scanLoop a w line = .ok (line', w', .failed .alloc)) ∧
      Refused a (text ++ firstLine chunk).length) ∨
    (10 ∈ chunk ∧ ∃ line' w', scanLoop a w line = .ok (line', w', .newline) ∧
      Holds line' (text ++ firstLine chunk)) ∨
    (10 ∉ chunk ∧ ∃ line' w', scanLoop a w line = .ok (line', w', .exhausted) ∧
      w'.readBuf = w.readBuf ∧ w'.readBufEnd ≤ w'.readBufPos ∧ Holds line' (text ++ chunk)) := by
  induction chunk generalizing pre line text w with
  | nil =>
    rw [List.length_nil] at hend
    refine .inr (.inr ⟨by simp, line, w, ?_, rfl, by omega, by rwa [List.append_nil]⟩)
    rw [scanLoop, if_neg (by omega)]
  | cons c chunk ih =>
    rw [List.length_cons] at hend
    have hread : readSlot w.readBuf w.readBufPos = .ok c := by
      rw [hbuf, hpos]
      exact readSlot_append pre _ (k := 0) rfl
    rw [scanLoop, if_pos (by omega)]
    simp only [hread, bind, Except.bind]
    rcases @growLineBuf_eq a _ _ h with
      ⟨grown, hgrow, hgrown, hroom⟩ | ⟨⟨failed, hgrow⟩, hrefused⟩
    · obtain ⟨hwrite, hput⟩ := writeSlot_line hgrown hroom c
      simp only [hgrow, hwrite, ne_eq, not_true_eq_false, if_false]
      by_cases hc : c = 10
      · rw [if_pos hc, firstLine, if_pos hc]
        exact .inr (.inl ⟨hc ▸ List.mem_cons_self, _, _, rfl, hput⟩)
      · have hrest := @ih _ { w with readBufPos := w.readBufPos + 1 } _ (pre ++ [c]) hput
          (by simp [hbuf]) (by simp [hpos]) (by simp; omega)
        rw [if_neg hc, firstLine, if_neg hc, List.mem_cons, or_iff_right (Ne.symm hc)]
        simp only [List.append_assoc, List.singleton_append] at hrest
        exact hrest
    · rw [hgrow]
      refine .inl ⟨⟨failed, _, rfl⟩, hrefused.mono ?_⟩
      have hpos : 0 < (firstLine (c :: chunk)).length := by
        rw [firstLine]
        split_ifs <;> simp
      rw [List.length_append]
      omega

/-! ## The file -/

/-- The descriptor hands out the chunks in turn, and then the end of the file. -/
structure Serves (fd : Descriptor) (chunks : List Text) : Prop where
  ne_nil : ∀ c ∈ chunks, c ≠ []
  read_eq : ∀ i, fd.read i readLineBufSize = some (chunks[i]?.getD [])

theorem serves_ofChunks (hne : ∀ c ∈ chunks, c ≠ [])
    (hle : ∀ c ∈ chunks, c.length ≤ readLineBufSize) : Serves (.ofChunks chunks hne) chunks := by
  refine ⟨hne, fun i => congrArg some (List.take_of_length_le ?_)⟩
  rcases lt_or_ge i chunks.length with hi | hi
  · rw [List.getElem?_eq_getElem hi]
    exact hle _ (List.getElem_mem _)
  · rw [List.getElem?_eq_none hi]
    exact Nat.zero_le _

/-- The line grows by the first line of the chunks that are left. -/
theorem lineLoop_eq {calls fuel : ℕ} (h : Holds line text) (hne : ∀ c ∈ chunks, c ≠ [])
    (hread : ∀ i, fd.read (calls + i) readLineBufSize = some (chunks[i]?.getD []))
    (hlen : w.readBuf.length = readLineBufSize) (hpos : w.readBufEnd ≤ w.readBufPos)
    (hfuel : chunks.length < fuel) :
    (∃ line', lineLoop a fd fuel calls w line = .ok (line', .ok) ∧
      Holds line' (text ++ firstLine chunks.flatten)) ∨
    ((∃ line', lineLoop a fd fuel calls w line = .ok (line', .alloc)) ∧
      Refused a (text ++ firstLine chunks.flatten).length) := by
  induction chunks generalizing calls fuel w line text with
  | nil =>
    obtain ⟨fuel, rfl⟩ : ∃ k, fuel = k + 1 := ⟨fuel - 1, by omega⟩
    have hnow := hread 0
    rw [Nat.add_zero] at hnow
    refine .inl ⟨line, ?_, by rwa [List.flatten_nil, firstLine, List.append_nil]⟩
    rw [lineLoop, refill, if_pos hpos, hnow]
    rfl
  | cons chunk chunks ih =>
    obtain ⟨fuel, rfl⟩ : ∃ k, fuel = k + 1 := ⟨fuel - 1, by omega⟩
    have hnow : fd.read calls readLineBufSize = some chunk := hread 0
    have hfits : chunk.length ≤ w.readBuf.length := hlen ▸ fd.length_le hnow
    have hsome := List.length_pos_iff.mpr (hne chunk List.mem_cons_self)
    have hwrite : writeSlots w.readBuf 0 chunk = .ok (patch w.readBuf 0 chunk) :=
      if_pos (by omega)
    have hfill : refill fd calls w =
        .ok (.ready ⟨patch w.readBuf 0 chunk, 0, chunk.length⟩ (calls + 1)) := by
      rw [refill, if_pos hpos, hnow]
      dsimp only
      rw [if_neg (by omega), hwrite]
      rfl
    have hscan := @scanLoop_eq a line ⟨patch w.readBuf 0 chunk, 0, chunk.length⟩ text chunk []
      (w.readBuf.drop chunk.length) h (by simp [patch]) rfl (by simp)
    rw [List.flatten_cons, lineLoop, hfill]
    simp only [bind, Except.bind]
    rcases hscan with ⟨⟨l, w', hscan⟩, hrefused⟩ | ⟨hmem, l, w', hscan, hl⟩ |
      ⟨hmem, l, w', hscan, hbuf, hend, hl⟩
    · rw [hscan]
      refine .inr ⟨⟨l, rfl⟩, hrefused.mono ?_⟩
      rw [List.length_append, List.length_append]
      exact Nat.add_le_add_left length_firstLine_le _
    · rw [hscan, firstLine_append_of_mem hmem]
      exact .inl ⟨l, rfl, hl⟩
    · have hrest := @ih l w' (text ++ chunk) (calls + 1) fuel hl
        (fun c hc => hne c (List.mem_cons_of_mem _ hc))
        (fun i => by rw [Nat.add_assoc, Nat.add_comm 1 i, hread (i + 1)]; rfl)
        (by rw [hbuf, length_patch (by omega), hlen]) hend
        (by rw [List.length_cons] at hfuel; omega)
      rw [firstLine_append_of_notMem hmem, ← List.append_assoc]
      simp only [hscan]
      exact hrest

theorem Holds.empty (a : Allocator) : Holds ⟨List.replicate 64 a.fill, 64, 0, 1⟩ [] :=
  ⟨rfl, List.length_replicate, rfl, by norm_num, by norm_num, rfl⟩

/-- However the file arrives, the call returns its first line with a terminator, unless the
allocator refuses a block; no write leaves its block. -/
theorem read_line_eq {fuel : ℕ} (hserves : Serves fd chunks) (hfuel : chunks.length < fuel)
    (a : Allocator) :
    (∃ block, zenitFileReadLineWithAllocator (some fd) a fuel = .ok (.ok, some block) ∧
      block.take ((firstLine chunks.flatten).length + 1) = firstLine chunks.flatten ++ [0]) ∨
    (zenitFileReadLineWithAllocator (some fd) a fuel = .ok (.alloc, none) ∧
      Refused a (firstLine chunks.flatten).length) := by
  rw [zenitFileReadLineWithAllocator]
  dsimp only
  cases hgrants : a.grants 0 64 with
  | false => exact .inr ⟨rfl, 0, le_max_left _ _, hgrants⟩
  | true =>
    have hloop := @lineLoop_eq a fd _ ⟨List.replicate readLineBufSize a.fill, 0, 0⟩ [] chunks 0 fuel
      (Holds.empty a) hserves.ne_nil (fun i => by rw [Nat.zero_add, hserves.read_eq])
      List.length_replicate le_rfl hfuel
    rw [List.nil_append] at hloop
    simp only [Bool.not_true, Bool.false_eq_true, if_false, bind, Except.bind]
    rcases hloop with ⟨line, hline, hholds⟩ | ⟨⟨line, hline⟩, hrefused⟩
    · have hlt : line.len < line.buf.length := by
        rw [hholds.length_buf]
        exact hholds.room
      rw [hline]
      dsimp only
      rw [if_neg (by decide), writeSlot_eq hlt]
      refine .inl ⟨_, rfl, ?_⟩
      rw [← hholds.len_eq, take_succ_set hlt, hholds.take_buf]
    · rw [hline]
      exact .inr ⟨rfl, hrefused⟩

/-- A newline behind the first piece of the file. -/
theorem read_line_two_pieces : ∃ block, zenitFileReadLineWithAllocator
    (some (.ofChunks [[97], [98, 10, 99]] (by simp))) .willing 3 = .ok (.ok, some block) ∧
      block.take 4 = [97, 98, 10, 0] := by
  have hline := @read_line_eq _ [[97], [98, 10, 99]] 3
    (serves_ofChunks (by simp) (by simp [readLineBufSize])) (by simp) .willing
  refine hline.resolve_right ?_
  rintro ⟨-, i, hi, hgrants⟩
  simp only [Allocator.willing, decide_eq_false_iff_not] at hgrants
  change 64 * 2 ^ i ≤ 64 at hi
  omega

end LibZenit.Io
