import LibZenit.IoModel

/-!
# Reading a whole file

The loop stops at the size that `fstat` reported and at an error. It takes the end of the file for a
call that has read nothing yet, so a file with fewer bytes than its reported size keeps it running.
-/
namespace LibZenit.Io
open Blocks CString

variable {fd : Descriptor} {size i j k fuel : ℕ} {s : Reading} {data : Text}

/-- What the first calls have delivered. -/
def delivered (fd : Descriptor) (size : ℕ) : ℕ → Text
  | 0 => []
  | k + 1 => delivered fd size k ++ (fd.read k (size - (delivered fd size k).length)).getD []

/-- The answer to the `k`-th call. -/
def answer (fd : Descriptor) (size k : ℕ) : Option Text :=
  fd.read k (size - (delivered fd size k).length)

/-- Without an error before, the file ends when fewer than `size` bytes have been delivered. -/
def EndsEarly (fd : Descriptor) (size : ℕ) : Prop :=
  ∃ k, (∀ i < k, (answer fd size i).isSome) ∧ (delivered fd size k).length < size ∧
    answer fd size k = some []

/-! ## What has been delivered -/

theorem delivered_succ (h : answer fd size k = some data) :
    delivered fd size (k + 1) = delivered fd size k ++ data := by
  rw [answer] at h
  rw [delivered, h, Option.getD_some]

theorem length_data_le (h : answer fd size k = some data) :
    (delivered fd size k).length + data.length ≤ max size (delivered fd size k).length := by
  have hle := fd.length_le h
  omega

theorem length_delivered_mono (h : i ≤ j) :
    (delivered fd size i).length ≤ (delivered fd size j).length := by
  induction h with
  | refl => exact le_rfl
  | step _ ih =>
    rw [delivered, List.length_append]
    omega

/-- A file that has ended delivers nothing more. -/
theorem delivered_eq_of_end (hless : (delivered fd size k).length < size)
    (hend : answer fd size k = some []) (hle : k ≤ j) :
    delivered fd size j = delivered fd size k ∧ answer fd size j = some [] := by
  induction hle with
  | refl => exact ⟨rfl, hend⟩
  | @step j hle ih =>
    have hsame : delivered fd size (j + 1) = delivered fd size k := by
      rw [delivered_succ ih.2, List.append_nil, ih.1]
    refine ⟨hsame, ?_⟩
    rw [answer, hsame]
    exact fd.eof (by omega) hend (Nat.le_succ_of_le hle)

/-- A file that ends early answers every call and never delivers `size` bytes. -/
theorem EndsEarly.forever (h : EndsEarly fd size) (j : ℕ) :
    (∃ data, answer fd size j = some data) ∧ (delivered fd size j).length < size := by
  obtain ⟨k, hsome, hless, hend⟩ := h
  rcases lt_or_ge j k with hlt | hge
  · exact ⟨Option.isSome_iff_exists.mp (hsome j hlt),
      (length_delivered_mono hlt.le).trans_lt hless⟩
  · obtain ⟨hsame, hanswer⟩ := delivered_eq_of_end hless hend hge
    exact ⟨⟨[], hanswer⟩, by rwa [hsame]⟩

/-! ## The loop -/

/-- The buffer holds what the calls so far have delivered. -/
structure Reads (fd : Descriptor) (size : ℕ) (s : Reading) : Prop where
  length_buf : s.buf.length = size + 1
  totalRead_eq : s.totalRead = (delivered fd size s.calls).length
  totalRead_le : s.totalRead ≤ size
  take_buf : s.buf.take s.totalRead = delivered fd size s.calls

/-- One round: an error, or one more call whose bytes are behind the others. -/
theorem readLoop_step (h : Reads fd size s) (hsize : size < 2 ^ 63) (hless : s.totalRead < size) :
    (answer fd size s.calls = none → readLoop fd size (fuel + 1) s = .ok none) ∧
    ∀ data, answer fd size s.calls = some data →
      ∃ s', readLoop fd size (fuel + 1) s = readLoop fd size fuel s' ∧ Reads fd size s' ∧
        s'.calls = s.calls + 1 ∧ s'.totalRead = s.totalRead + data.length := by
  obtain ⟨hbuf, htotal, hle, htake⟩ := h
  have hrequest : fd.read s.calls (subSize size s.totalRead) = answer fd size s.calls := by
    rw [subSize_of_le hle (by omega), htotal, answer]
  rw [readLoop, if_pos hless, hrequest]
  constructor
  · intro hanswer
    rw [hanswer]
  · intro data hanswer
    have hroom := length_data_le hanswer
    have hwrite : writeSlots s.buf s.totalRead data = .ok (patch s.buf s.totalRead data) :=
      if_pos (by omega)
    have hwrap : wrap (s.totalRead + data.length) = s.totalRead + data.length :=
      wrap_of_lt (by omega)
    rw [hanswer]
    simp only [hwrite, bind, Except.bind, hwrap]
    refine ⟨_, rfl, ⟨?_, ?_, ?_, ?_⟩, rfl, rfl⟩
    · rw [length_patch (by omega), hbuf]
    · dsimp only
      rw [delivered_succ hanswer, List.length_append, htotal]
    · dsimp only
      omega
    · have hlen : (s.buf.take s.totalRead ++ data).length = s.totalRead + data.length := by
        rw [List.length_append, List.length_take]
        omega
      dsimp only
      rw [patch, List.take_left' hlen, htake, delivered_succ hanswer]

/-- Without an early end every round reads a byte, so the loop stops. -/
theorem readLoop_returns (h : Reads fd size s) (hsize : size < 2 ^ 63)
    (hend : ¬EndsEarly fd size) (hsome : ∀ i < s.calls, (answer fd size i).isSome)
    (hfuel : size - s.totalRead < fuel) :
    readLoop fd size fuel s = .ok none ∨
      ∃ s', readLoop fd size fuel s = .ok (some s') ∧ Reads fd size s' := by
  induction fuel generalizing s with
  | zero => omega
  | succ fuel ih =>
    by_cases hless : s.totalRead < size
    · obtain ⟨hnone, hdata⟩ := @readLoop_step _ _ fuel _ h hsize hless
      cases hanswer : answer fd size s.calls with
      | none => exact .inl (hnone hanswer)
      | some data =>
        obtain ⟨s', hloop, hreads, hcalls, htotal⟩ := hdata data hanswer
        have hpos : 0 < data.length := by
          rw [List.length_pos_iff]
          rintro rfl
          exact hend ⟨s.calls, hsome, h.totalRead_eq ▸ hless, hanswer⟩
        rw [hloop]
        refine ih hreads (fun i hi => ?_) (by omega)
        rw [hcalls, Nat.lt_succ_iff_lt_or_eq] at hi
        rcases hi with hi | rfl
        · exact hsome i hi
        · rw [hanswer]
          rfl
    · refine .inr ⟨s, ?_, h⟩
      rw [readLoop, if_neg hless]

/-- With an early end the loop goes on for ever. -/
theorem readLoop_hangs (h : Reads fd size s) (hsize : size < 2 ^ 63) (hend : EndsEarly fd size)
    (fuel : ℕ) : readLoop fd size fuel s = .error .hang := by
  induction fuel generalizing s with
  | zero => rfl
  | succ fuel ih =>
    obtain ⟨⟨data, hanswer⟩, hless⟩ := hend.forever s.calls
    rw [← h.totalRead_eq] at hless
    obtain ⟨s', hloop, hreads, -⟩ := (@readLoop_step _ _ fuel _ h hsize hless).2 data hanswer
    rw [hloop, ih hreads]

/-- Whatever the loop returns has been delivered. -/
theorem readLoop_reads {s' : Reading} (h : Reads fd size s) (hsize : size < 2 ^ 63)
    (hloop : readLoop fd size fuel s = .ok (some s')) : Reads fd size s' := by
  induction fuel generalizing s with
  | zero => cases hloop
  | succ fuel ih =>
    by_cases hless : s.totalRead < size
    · obtain ⟨hnone, hdata⟩ := @readLoop_step _ _ fuel _ h hsize hless
      cases hanswer : answer fd size s.calls with
      | none =>
        rw [hnone hanswer] at hloop
        cases hloop
      | some data =>
        obtain ⟨next, hnext, hreads, -⟩ := hdata data hanswer
        exact ih hreads (hnext ▸ hloop)
    · rw [readLoop, if_neg hless] at hloop
      cases hloop
      exact h

/-! ## The call -/

/-- What `Reading` the loop starts with. -/
theorem Reads.start (fd : Descriptor) (size : ℕ) (fill : UInt8) :
    Reads fd size ⟨List.replicate (size + 1) fill, 0, 0⟩ :=
  ⟨List.length_replicate, rfl, Nat.zero_le size, rfl⟩

/-- The call returns, and the length it reports is that of the bytes delivered to the buffer. -/
def ReadsWhole (opened : Option Descriptor) (stat : Option Stat) (a : Allocator) : Prop :=
  (∃ fuel r, zenitFileReadWithAllocator opened stat a fuel = .ok r) ∧
    ∀ fuel s, zenitFileReadWithAllocator opened stat a fuel = .ok (.ok, some s) →
      ∃ fd st, opened = some fd ∧ stat = some st ∧
        s.totalRead = (delivered fd st.size s.calls).length ∧
        s.buf.take s.totalRead = delivered fd st.size s.calls

variable {st : Stat} {a : Allocator}

theorem zenitFileRead_granted (hgrants : a.grants 0 (st.size + 1) = true) :
    zenitFileReadWithAllocator (some fd) (some st) a fuel =
      (readLoop fd st.size fuel ⟨List.replicate (st.size + 1) a.fill, 0, 0⟩).bind fun r =>
        r.elim (.ok (.notFound, none)) fun s =>
          (writeSlot s.buf s.totalRead 0).map fun buf => (.ok, some { s with buf := buf }) := by
  have hsize := st.size_lt
  have hwrap : wrap (st.size + 1) = st.size + 1 := wrap_of_lt (by omega)
  rw [zenitFileReadWithAllocator]
  simp only [hwrap, hgrants, Bool.not_true, Bool.false_eq_true, if_false, bind]
  congr 1
  funext r
  cases r with
  | none => rfl
  | some s =>
    simp only [Option.elim_some]
    cases writeSlot s.buf s.totalRead 0 <;> rfl

theorem zenitFileRead_refused (hgrants : a.grants 0 (st.size + 1) = false) :
    zenitFileReadWithAllocator (some fd) (some st) a fuel = .ok (.alloc, none) := by
  have hsize := st.size_lt
  have hwrap : wrap (st.size + 1) = st.size + 1 := wrap_of_lt (by omega)
  rw [zenitFileReadWithAllocator]
  simp only [hwrap, hgrants, Bool.not_false, if_true]

/-- The terminator is written behind what has been read. -/
theorem Reads.terminate (h : Reads fd size s) :
    writeSlot s.buf s.totalRead 0 = .ok (s.buf.set s.totalRead 0) ∧
      (s.buf.set s.totalRead 0).take s.totalRead = delivered fd size s.calls := by
  have hlen := h.length_buf
  have hle := h.totalRead_le
  exact ⟨writeSlot_eq (by omega) 0, by rw [List.take_set_of_le le_rfl, h.take_buf]⟩

theorem zenitFileRead_returns (hgrants : a.grants 0 (st.size + 1) = true)
    (hend : ¬EndsEarly fd st.size) :
    ∃ fuel r, zenitFileReadWithAllocator (some fd) (some st) a fuel = .ok r := by
  refine ⟨st.size + 1, ?_⟩
  rw [zenitFileRead_granted hgrants]
  rcases readLoop_returns (Reads.start fd st.size a.fill) st.size_lt hend (fun i hi => by cases hi)
    (Nat.lt_succ_of_le (Nat.sub_le _ _)) with hloop | ⟨s, hloop, hreads⟩
  · rw [hloop]
    exact ⟨_, rfl⟩
  · rw [hloop]
    simp only [Except.bind, Option.elim_some, hreads.terminate.1]
    exact ⟨_, rfl⟩

theorem zenitFileRead_hangs (hgrants : a.grants 0 (st.size + 1) = true)
    (hend : EndsEarly fd st.size) (fuel : ℕ) :
    zenitFileReadWithAllocator (some fd) (some st) a fuel = .error .hang := by
  rw [zenitFileRead_granted hgrants,
    readLoop_hangs (Reads.start fd st.size a.fill) st.size_lt hend fuel]
  rfl

theorem zenitFileRead_delivered (hgrants : a.grants 0 (st.size + 1) = true)
    (hread : zenitFileReadWithAllocator (some fd) (some st) a fuel = .ok (.ok, some s)) :
    s.totalRead = (delivered fd st.size s.calls).length ∧
      s.buf.take s.totalRead = delivered fd st.size s.calls := by
  rw [zenitFileRead_granted hgrants] at hread
  obtain ⟨r, hloop, hread⟩ := bind_eq_ok hread
  cases r with
  | none => cases hread
  | some s' =>
    have hreads := readLoop_reads (Reads.start fd st.size a.fill) st.size_lt hloop
    obtain ⟨hwrite, htake⟩ := hreads.terminate
    rw [Option.elim_some, hwrite] at hread
    cases hread
    exact ⟨hreads.totalRead_eq, htake⟩

/-- The call returns exactly when the file does not end before the bytes that `fstat` reported;
whenever it returns a length, it is the length of what was delivered. -/
theorem readsWhole_iff (opened : Option Descriptor) (stat : Option Stat) (a : Allocator) :
    ReadsWhole opened stat a ↔ ∀ fd st, opened = some fd → stat = some st →
      a.grants 0 (st.size + 1) = true → ¬EndsEarly fd st.size := by
  constructor
  · rintro ⟨⟨fuel, r, hread⟩, -⟩ fd st rfl rfl hgrants hend
    rw [zenitFileRead_hangs hgrants hend fuel] at hread
    cases hread
  · intro hend
    match opened, stat with
    | none, _ => exact ⟨⟨0, _, rfl⟩, fun fuel s h => by cases h⟩
    | some fd, none => exact ⟨⟨0, _, rfl⟩, fun fuel s h => by cases h⟩
    | some fd, some st =>
      cases hgrants : a.grants 0 (st.size + 1) with
      | false =>
        refine ⟨⟨0, _, zenitFileRead_refused hgrants⟩, fun fuel s hread => ?_⟩
        rw [zenitFileRead_refused hgrants] at hread
        cases hread
      | true =>
        exact ⟨zenitFileRead_returns hgrants (hend fd st rfl rfl hgrants), fun fuel s hread =>
          ⟨fd, st, rfl, rfl, zenitFileRead_delivered hgrants hread⟩⟩

/-- A file of two bytes whose reported size is a page. -/
theorem page_never_filled : ¬∃ fuel r, zenitFileReadWithAllocator
    (some (.ofChunks [[49, 10]] (by decide))) (some ⟨4096, by decide⟩) .willing fuel = .ok r := by
  rintro ⟨fuel, r, hread⟩
  have hend : EndsEarly (.ofChunks [[49, 10]] (by decide)) 4096 := by
    refine ⟨1, fun i hi => ?_, by decide, rfl⟩
    rw [Nat.lt_one_iff.mp hi]
    rfl
  have hgrants : Allocator.willing.grants 0 (4096 + 1) = true := by decide
  have hhang := @zenitFileRead_hangs _ ⟨4096, by decide⟩ .willing hgrants hend fuel
  rw [hread] at hhang
  cases hhang

end LibZenit.Io
