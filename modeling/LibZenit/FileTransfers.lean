import LibZenit.FileReading
import LibZenit.FileWriting

/-!
# What gets across short reads and short writes

Both loops keep the bytes in order: what has been written is always a prefix of what has been read.
They come to an end when the sink accepts a byte in each call and the source ends.
-/
namespace LibZenit.Io
open Blocks CString

variable {fd : Sink} {block : Text} {len fuel total start : ℕ} {out out' : Output}
  {written : Bool}

/-! ## Writing -/

/-- No call accepts nothing of a request for some bytes. -/
def Sink.Accepts (fd : Sink) : Prop := ∀ i request, 0 < request → fd.write i request ≠ some 0

/-- From call `start` on, each call asks for what is left of `len` bytes: they have accepted `n`
when call `i` is next. -/
inductive Sink.Writes (fd : Sink) (len start : ℕ) : ℕ → ℕ → Prop
  | nothing : Writes fd len start 0 start
  | more {n i m : ℕ} (h : Writes fd len start n i) (hless : n < len)
      (hwrite : fd.write i (len - n) = some m) : Writes fd len start (n + m) (i + 1)

/-- Behind the bytes that were accepted, the next call for the rest is answered with an error. -/
def Sink.Breaks (fd : Sink) (len start n : ℕ) : Prop :=
  ∃ i, fd.Writes len start n i ∧ fd.write i (len - n) = none

/-- One round behind the bytes that were accepted. -/
theorem writeLoop_step (hblock : len ≤ block.length) (hlen : len < 2 ^ 64) (hless : total < len) :
    (fd.write out.calls (len - total) = none ∧
      writeLoop fd block len (fuel + 1) total out =
        .ok (false, { out with calls := out.calls + 1 })) ∨
    ∃ n, fd.write out.calls (len - total) = some n ∧ total + n ≤ len ∧
      writeLoop fd block len (fuel + 1) total out = writeLoop fd block len fuel (total + n)
        ⟨out.contents ++ (block.drop total).take n, out.calls + 1⟩ := by
  have hrequest : subSize len total = len - total := subSize_of_le hless.le hlen
  rw [writeLoop, if_pos hless, hrequest]
  cases hw : fd.write out.calls (len - total) with
  | none => exact Or.inl ⟨rfl, rfl⟩
  | some n =>
    have hn := fd.le hw
    have hread : readSlots block total n = .ok ((block.drop total).take n) := if_pos (by omega)
    refine Or.inr ⟨n, rfl, by omega, ?_⟩
    simp only [hread, bind, Except.bind, wrap_of_lt (show total + n < 2 ^ 64 by omega)]

/-- What the loop has written when it returns, and the call that failed. -/
theorem writeLoop_sound (hblock : len ≤ block.length) (hlen : len < 2 ^ 64) (hle : total ≤ len)
    (hwrites : fd.Writes len start total out.calls)
    (h : writeLoop fd block len fuel total out = .ok (written, out')) :
    ∃ n, total + n ≤ len ∧ out'.contents = out.contents ++ (block.drop total).take n ∧
      (written = true → total + n = len ∧ fd.Writes len start len out'.calls) ∧
      (written = false → total + n < len ∧ fd.Breaks len start (total + n)) := by
  induction fuel generalizing total out with
  | zero => cases h
  | succ fuel ih =>
    by_cases hless : total < len
    · rcases @writeLoop_step fd block len fuel total out hblock hlen hless with
        ⟨hfails, heq⟩ | ⟨n, hwrite, hn, heq⟩
      · rw [heq] at h
        cases h
        exact ⟨0, hle, by simp, nofun, fun _ => ⟨hless, out.calls, hwrites, hfails⟩⟩
      · rw [heq] at h
        obtain ⟨k, hk, hcontents, hall, hbroken⟩ := ih hn (hwrites.more hless hwrite) h
        rw [Nat.add_assoc] at hk hall hbroken
        refine ⟨n + k, hk, ?_, hall, hbroken⟩
        rw [hcontents, List.append_assoc, List.take_add, List.drop_drop]
    · have hend : total = len := by omega
      rw [writeLoop, if_neg hless] at h
      cases h
      exact ⟨0, hle, by simp, fun _ => ⟨hend, hend ▸ hwrites⟩, nofun⟩

theorem writeLoop_returns (hblock : len ≤ block.length) (hlen : len < 2 ^ 64)
    (haccepts : fd.Accepts) (hfuel : len - total < fuel) :
    ∃ r, writeLoop fd block len fuel total out = .ok r := by
  induction fuel generalizing total out with
  | zero => omega
  | succ fuel ih =>
    by_cases hless : total < len
    · rcases @writeLoop_step fd block len fuel total out hblock hlen hless with
        ⟨-, heq⟩ | ⟨n, hn, -, heq⟩
      · exact ⟨_, heq⟩
      · have hpos : n ≠ 0 := fun hzero => haccepts _ _ (by omega) (hzero ▸ hn)
        rw [heq]
        exact ih (by omega)
    · rw [writeLoop, if_neg hless]
      exact ⟨_, rfl⟩

/-! ## Copying -/

variable {src : Descriptor} {reads : ℕ} {buf : Text} {code : ZenitError}

/-- The bytes of the first answers. -/
def gathered (answers : ℕ → Option Text) : ℕ → Text
  | 0 => []
  | k + 1 => gathered answers k ++ (answers k).getD []

/-- What the first reads of a copy return. -/
def arrived (src : Descriptor) : ℕ → Text := gathered fun k => src.read k ioCopyBufSize

theorem arrived_succ {k : ℕ} {data : Text} (h : src.read k ioCopyBufSize = some data) :
    arrived src (k + 1) = arrived src k ++ data := by
  rw [arrived, gathered, h, Option.getD_some]

/-- What the first `k` reads return has been accepted to the last byte when call `i` is next. -/
inductive Passed (src : Descriptor) (dst : Sink) : ℕ → ℕ → Prop
  | nothing : Passed src dst 0 0
  | more {k i j : ℕ} {data : Text} (h : Passed src dst k i)
      (hread : src.read k ioCopyBufSize = some data)
      (hwrites : dst.Writes data.length i data.length j) : Passed src dst (k + 1) j

/-- How a copy ends: at the end of the source with all of it, at an error of the source with all
that came before, or at an error of the sink with a part of what was read. -/
inductive Copied (src : Descriptor) (dst : Sink) : ZenitError → Text → Prop
  | complete {k i : ℕ} (h : Passed src dst k i) (hend : src.read k ioCopyBufSize = some []) :
      Copied src dst .ok (arrived src k)
  | unread {k i : ℕ} (h : Passed src dst k i) (herror : src.read k ioCopyBufSize = none) :
      Copied src dst .notFound (arrived src k)
  | unwritten {k i n : ℕ} {data : Text} (h : Passed src dst k i)
      (hread : src.read k ioCopyBufSize = some data) (hn : n < data.length)
      (hbreaks : dst.Breaks data.length i n) : Copied src dst .size (arrived src k ++ data.take n)

/-- One round of the copy: it ends, or the bytes of one more read have been written. -/
theorem copyLoop_step {data : Text} (hbuf : buf.length = ioCopyBufSize)
    (hread : src.read reads ioCopyBufSize = some data) (hne : data ≠ []) :
    (patch buf 0 data).length = ioCopyBufSize ∧
      copyLoop src fd (fuel + 1) reads buf out =
        (writeLoop fd (patch buf 0 data) data.length fuel 0 out).bind fun r =>
          if r.1 then copyLoop src fd fuel (reads + 1) (patch buf 0 data) r.2
          else .ok (.size, r.2) := by
  have hle := src.length_le hread
  have hpos := List.length_pos_of_ne_nil hne
  have hwrite : writeSlots buf 0 data = .ok (patch buf 0 data) := if_pos (by omega)
  refine ⟨by rw [length_patch (by omega), hbuf], ?_⟩
  rw [copyLoop, hread]
  simp only [hpos.ne', if_false, hwrite, bind, Except.bind]
  rfl

theorem take_patch_start {data : Text} {n : ℕ} (hn : n ≤ data.length) :
    ((patch buf 0 data).drop 0).take n = data.take n := by
  rw [List.drop_zero, patch, List.take_zero, List.nil_append, List.take_append_of_le_length hn]

theorem copyLoop_sound (hbuf : buf.length = ioCopyBufSize)
    (hpassed : Passed src fd reads out.calls) (hout : out.contents = arrived src reads)
    (h : copyLoop src fd fuel reads buf out = .ok (code, out')) :
    Copied src fd code out'.contents := by
  induction fuel generalizing reads buf out with
  | zero => cases h
  | succ fuel ih =>
    cases hread : src.read reads ioCopyBufSize with
    | none =>
      rw [copyLoop, hread] at h
      cases h
      exact hout ▸ .unread hpassed hread
    | some data =>
      by_cases hnil : data = []
      · rw [copyLoop, hread] at h
        subst hnil
        cases h
        exact hout ▸ .complete hpassed hread
      · obtain ⟨hbuf', heq⟩ := @copyLoop_step fd fuel out src reads buf data hbuf hread hnil
        have hle := src.length_le hread
        rw [heq] at h
        obtain ⟨⟨written, out₁⟩, hwrite, hrest⟩ := bind_eq_ok h
        obtain ⟨n, hn, hcontents, hall, hbroken⟩ := writeLoop_sound (by omega)
          (by unfold ioCopyBufSize at hle; omega) (Nat.zero_le _) .nothing hwrite
        rw [Nat.zero_add] at hn hall hbroken
        rw [take_patch_start hn, hout] at hcontents
        cases written with
        | true =>
          obtain ⟨hlength, hwrites⟩ := hall rfl
          refine ih hbuf' (hpassed.more hread hwrites) ?_ hrest
          rw [hcontents, hlength, List.take_length, arrived_succ hread]
        | false =>
          obtain ⟨hless, hbreaks⟩ := hbroken rfl
          cases hrest
          rw [hcontents]
          exact .unwritten hpassed hread hless hbreaks

/-- The rounds left until the source ends, and one round of writing for each byte of a buffer. -/
theorem copyLoop_returns {k : ℕ} (hbuf : buf.length = ioCopyBufSize) (haccepts : fd.Accepts)
    (hend : src.read k ioCopyBufSize = none ∨ src.read k ioCopyBufSize = some [])
    (hle : reads ≤ k) (hfuel : k - reads + ioCopyBufSize + 1 < fuel) :
    ∃ r, copyLoop src fd fuel reads buf out = .ok r := by
  induction fuel generalizing reads buf out with
  | zero => omega
  | succ fuel ih =>
    cases hread : src.read reads ioCopyBufSize with
    | none =>
      rw [copyLoop, hread]
      exact ⟨_, rfl⟩
    | some data =>
      by_cases hnil : data = []
      · rw [copyLoop, hread, hnil]
        exact ⟨_, rfl⟩
      · obtain ⟨hbuf', heq⟩ := @copyLoop_step fd fuel out src reads buf data hbuf hread hnil
        have hlength := src.length_le hread
        have hne : reads ≠ k := by
          rintro rfl
          rcases hend with hend | hend
          · rw [hend] at hread
            cases hread
          · rw [hend] at hread
            exact hnil (Option.some.inj hread).symm
        obtain ⟨⟨written, out₁⟩, hwrite⟩ := @writeLoop_returns fd (patch buf 0 data) data.length
          fuel 0 out (by omega) (by unfold ioCopyBufSize at hlength; omega) haccepts (by omega)
        rw [heq, hwrite]
        cases written with
        | true => exact ih hbuf' (by omega) (by omega)
        | false => exact ⟨_, rfl⟩

theorem copy_sound {dst : Sink} {before contents : Text} {fill : UInt8}
    (h : zenitFileCopy (some src) (some dst) before fill fuel = .ok (code, contents)) :
    Copied src dst code contents := by
  obtain ⟨⟨code', out⟩, hloop, hret⟩ := bind_eq_ok h
  cases hret
  exact copyLoop_sound List.length_replicate .nothing rfl hloop

theorem copy_returns {dst : Sink} {before : Text} {fill : UInt8} {k : ℕ} (haccepts : dst.Accepts)
    (hend : src.read k ioCopyBufSize = none ∨ src.read k ioCopyBufSize = some [])
    (hfuel : k + ioCopyBufSize + 1 < fuel) :
    ∃ r, zenitFileCopy (some src) (some dst) before fill fuel = .ok r := by
  have hbuf : (List.replicate ioCopyBufSize fill).length = ioCopyBufSize := List.length_replicate
  obtain ⟨r, hloop⟩ := @copyLoop_returns dst fuel ⟨[], 0⟩ src 0 _ k hbuf haccepts hend
    (Nat.zero_le k) hfuel
  exact ⟨(r.1, r.2.contents), by simp only [zenitFileCopy, hloop, bind, Except.bind]; rfl⟩

/-- A copy neither loses, repeats nor reorders a byte, however `read(2)` and `write(2)` cut the
transfer into pieces: it ends as `Copied` says, and it does end when the sink accepts a byte in each
call and the source ends. -/
theorem copy_transfers (src : Descriptor) (dst : Sink) (before : Text) (fill : UInt8) :
    (∀ fuel code contents,
      zenitFileCopy (some src) (some dst) before fill fuel = .ok (code, contents) →
        Copied src dst code contents) ∧
    (dst.Accepts → ∀ k,
      (src.read k ioCopyBufSize = none ∨ src.read k ioCopyBufSize = some []) →
        ∀ fuel > k + ioCopyBufSize + 1,
          ∃ r, zenitFileCopy (some src) (some dst) before fill fuel = .ok r) :=
  ⟨fun _ _ _ h => copy_sound h, fun haccepts _ hend _ hfuel => copy_returns haccepts hend hfuel⟩

/-! ## Reading back -/

variable {answers : ℕ → Option Text} {contents before data c : Text} {append : Bool}

/-- The answers are the bytes of a file one after the other, and they stop behind the last one. -/
structure HoldsText (answers : ℕ → Option Text) (contents : Text) : Prop where
  next : ∀ {k data}, answers k = some data → gathered answers k ++ data <+: contents
  eof : ∀ {k}, answers k = some [] → gathered answers k = contents

theorem HoldsText.gathered_le (h : HoldsText answers contents) (k : ℕ) :
    gathered answers k <+: contents := by
  induction k with
  | zero => exact List.nil_prefix
  | succ k ih =>
    rw [gathered]
    cases ha : answers k with
    | none =>
      rw [Option.getD_none, List.append_nil]
      exact ih
    | some data => exact h.next ha

theorem delivered_eq_gathered {fd : Descriptor} {size : ℕ} (k : ℕ) :
    delivered fd size k = gathered (answer fd size) k := by
  induction k with
  | zero => rfl
  | succ k ih =>
    rw [delivered, gathered, answer, ih]

theorem fileWrite_ok (hlen : data.length < 2 ^ 64)
    (h : fileWriteImpl (some fd) before data append fuel = .ok (.ok, c)) :
    c = (if append then before else []) ++ data := by
  obtain ⟨⟨written, out⟩, hloop, hret⟩ := bind_eq_ok h
  obtain ⟨n, -, hcontents, hall, -⟩ :=
    writeLoop_sound le_rfl hlen (Nat.zero_le _) .nothing hloop
  cases written with
  | true =>
    cases hret
    obtain ⟨hlength, -⟩ := hall rfl
    rw [Nat.zero_add] at hlength
    rw [hcontents, hlength, List.drop_zero, List.take_length]
  | false => cases hret

theorem copy_ok (hholds : HoldsText (fun k => src.read k ioCopyBufSize) contents)
    {dst : Sink} {fill : UInt8}
    (h : zenitFileCopy (some src) (some dst) before fill fuel = .ok (.ok, c)) : c = contents := by
  cases copy_sound h with
  | complete hpassed hend => exact hholds.eof hend

/-- The loop of a read stops only behind the last byte. -/
theorem readLoop_full {fd : Descriptor} {size : ℕ} {s s' : Reading}
    (h : readLoop fd size fuel s = .ok (some s')) : size ≤ s'.totalRead := by
  induction fuel generalizing s with
  | zero => cases h
  | succ fuel ih =>
    rw [readLoop] at h
    split_ifs at h with hless
    · cases hread : fd.read s.calls (subSize size s.totalRead) with
      | none =>
        rw [hread] at h
        cases h
      | some data =>
        rw [hread] at h
        obtain ⟨buf, -, hrest⟩ := bind_eq_ok h
        exact ih hrest
    · cases h
      exact Nat.le_of_not_lt hless

theorem fileRead_ok {fd : Descriptor} {st : Stat} {a : Allocator} {s : Reading}
    (hholds : HoldsText (answer fd st.size) contents) (hsize : st.size = contents.length)
    (h : zenitFileReadWithAllocator (some fd) (some st) a fuel = .ok (.ok, some s)) :
    s.totalRead = contents.length ∧ s.buf.take s.totalRead = contents := by
  cases hgrants : a.grants 0 (st.size + 1) with
  | false =>
    rw [zenitFileRead_refused hgrants] at h
    cases h
  | true =>
    obtain ⟨htotal, htake⟩ := zenitFileRead_delivered hgrants h
    have hpre := hholds.gathered_le s.calls
    rw [← delivered_eq_gathered] at hpre
    have hfull : st.size ≤ s.totalRead := by
      rw [zenitFileRead_granted hgrants] at h
      obtain ⟨r, hloop, hrest⟩ := bind_eq_ok h
      cases r with
      | none => cases hrest
      | some s' =>
        obtain ⟨buf, -, hret⟩ := map_eq_ok hrest
        cases hret
        have hstop := readLoop_full hloop
        exact hstop
    have hall : delivered fd st.size s.calls = contents :=
      hpre.eq_of_length_le (by omega)
    exact ⟨by rw [htotal, hall], by rw [htake, hall]⟩

/-- Write a file, append to it, copy it and read the copy: if every call reports success, the bytes
are those of the two texts, however the transfers were cut into pieces. -/
theorem files_read_back {w₁ w₂ w₃ : Sink} {src fd : Descriptor} {st : Stat} {a : Allocator}
    {old old' data₁ data₂ c₁ c₂ c₃ : Text} {fill : UInt8} {s : Reading} {f₁ f₂ f₃ f₄ : ℕ}
    (h₁ : data₁.length < 2 ^ 64) (h₂ : data₂.length < 2 ^ 64)
    (hwrite : zenitFileWrite (some w₁) old data₁ f₁ = .ok (.ok, c₁))
    (happend : zenitFileAppend (some w₂) c₁ data₂ f₂ = .ok (.ok, c₂))
    (hsrc : HoldsText (fun k => src.read k ioCopyBufSize) c₂)
    (hcopy : zenitFileCopy (some src) (some w₃) old' fill f₃ = .ok (.ok, c₃))
    (hfd : HoldsText (answer fd st.size) c₃) (hsize : st.size = c₃.length)
    (hread : zenitFileReadWithAllocator (some fd) (some st) a f₄ = .ok (.ok, some s)) :
    s.totalRead = (data₁ ++ data₂).length ∧ s.buf.take s.totalRead = data₁ ++ data₂ := by
  have hc₁ : c₁ = data₁ := fileWrite_ok h₁ hwrite
  have hc₂ : c₂ = c₁ ++ data₂ := fileWrite_ok h₂ happend
  have hc₃ : c₃ = c₂ := copy_ok hsrc hcopy
  obtain ⟨htotal, htake⟩ := fileRead_ok hfd hsize hread
  rw [hc₃, hc₂, hc₁] at htotal htake
  exact ⟨htotal, htake⟩

/-- A file that arrives in pieces serves the pieces one after the other. -/
theorem holds_ofChunks {chunks : List Text} {hne : ∀ c ∈ chunks, c ≠ []} {req : ℕ → ℕ}
    (hreq : ∀ k, k < chunks.length → (chunks[k]?.getD []).length ≤ req k) :
    HoldsText (fun k => (Descriptor.ofChunks chunks hne).read k (req k)) chunks.flatten := by
  have hanswer : ∀ k, (Descriptor.ofChunks chunks hne).read k (req k) =
      some (chunks[k]?.getD []) := by
    intro k
    refine congrArg some (List.take_of_length_le ?_)
    rcases Nat.lt_or_ge k chunks.length with hlt | hge
    · exact hreq k hlt
    · rw [List.getElem?_eq_none hge]
      exact Nat.zero_le _
  have hgathered : ∀ k, gathered (fun k => (Descriptor.ofChunks chunks hne).read k (req k)) k =
      (chunks.take k).flatten := by
    intro k
    induction k with
    | zero => rfl
    | succ k ih =>
      rw [gathered, ih, hanswer, Option.getD_some]
      rcases Nat.lt_or_ge k chunks.length with hlt | hge
      · rw [List.getElem?_eq_getElem hlt, Option.getD_some, List.take_succ_eq_append_getElem hlt,
          List.flatten_append]
        simp
      · rw [List.getElem?_eq_none hge, List.take_of_length_le hge,
          List.take_of_length_le (Nat.le_succ_of_le hge)]
        simp
  constructor
  · intro k data h
    have hsucc := hgathered (k + 1)
    rw [gathered, h, Option.getD_some] at hsucc
    rw [hsucc]
    exact ⟨(chunks.drop (k + 1)).flatten, by rw [← List.flatten_append, List.take_append_drop]⟩
  · intro k h
    rw [hgathered, List.take_of_length_le]
    by_contra hlt
    have hget : chunks[k]?.getD [] ∈ chunks := by
      rw [List.getElem?_eq_getElem (by omega)]
      exact List.getElem_mem _
    rw [hanswer] at h
    exact hne _ hget (Option.some.inj h)

theorem accepts_atMost {n : ℕ} (hn : 0 < n) : (Sink.atMost n).Accepts := by
  intro i request hpos h
  have hmin := Option.some.inj h
  omega

/-- The text `Hi` is written and `!` appended, byte by byte; the copy and the reader get it in other
pieces. -/
theorem greeting_reads_back : ∃ c₃ s,
    zenitFileCopy (some (.ofChunks [[72], [105, 33]] (by decide))) (some (.atMost 1)) [7] 0 70000 =
      .ok (.ok, c₃) ∧
    zenitFileReadWithAllocator (some (.ofChunks [[72, 105], [33]] (by decide)))
      (some ⟨3, by decide⟩) .willing 5 = .ok (.ok, some s) ∧
    s.totalRead = 3 ∧ s.buf.take s.totalRead = [72, 105, 33] := by
  have hchunks : ∀ c ∈ [[72], [105, 33]], c ≠ ([] : Text) := by decide
  have hsrc : HoldsText (fun k => (Descriptor.ofChunks _ hchunks).read k ioCopyBufSize)
    [72, 105, 33] := holds_ofChunks (by decide)
  have hfd : HoldsText (answer (.ofChunks [[72, 105], [33]] (by decide)) 3) [72, 105, 33] :=
    holds_ofChunks (by decide)
  obtain ⟨⟨code, c₃⟩, hcopy⟩ : ∃ r, zenitFileCopy (some (.ofChunks _ hchunks)) (some (.atMost 1))
      [7] 0 70000 = .ok r := copy_returns (accepts_atMost one_pos) (Or.inr rfl) (k := 2) (by decide)
  have hcode : code = .ok := by
    cases copy_sound hcopy with
    | complete hpassed hend => rfl
    | unread hpassed herror => cases herror
    | unwritten hpassed hread hn hbreaks =>
      obtain ⟨i, -, hfails⟩ := hbreaks
      cases hfails
  subst hcode
  have hc₃ : c₃ = [72, 105, 33] := copy_ok hsrc hcopy
  subst hc₃
  have hread : zenitFileReadWithAllocator (some (.ofChunks [[72, 105], [33]] (by decide)))
    (some ⟨3, by decide⟩) .willing 5 = .ok (.ok, some ⟨[72, 105, 33, 0], 3, 2⟩) := rfl
  have hwrite : zenitFileWrite (some (.atMost 1)) [1, 2, 3] [72, 105] 5 =
    .ok (.ok, [72, 105]) := rfl
  have happend : zenitFileAppend (some (.atMost 1)) [72, 105] [33] 5 =
    .ok (.ok, [72, 105, 33]) := rfl
  exact ⟨_, _, hcopy, hread,
    files_read_back (by decide) (by decide) hwrite happend hsrc hcopy hfd rfl hread⟩

end LibZenit.Io
