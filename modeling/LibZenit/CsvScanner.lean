import Mathlib.Data.Nat.Size
import LibZenit.CsvModel

/-!
# What the parser reads

The readers of `csv.c` on a line without NUL, stripped of the memory they use. A call either runs
out of memory or returns what the scan says, for every outcome of the requests to the allocator.
-/
namespace LibZenit.Csv

variable {α β : Type} {w w' : World} {out : Record} {buf : Buffer} {delim : UInt8} {s rest : Text}

/-! ## The scan -/

/-- The text of a quoted field and what is behind its closing quote. -/
def scanQuoted : Text → Text × Text
  | [] => ([], [])
  | c :: p =>
    if c ≠ chQuote then (c :: (scanQuoted p).1, (scanQuoted p).2)
    else match p with
      | [] => ([], [])
      | d :: p =>
        if d = chQuote then (chQuote :: (scanQuoted p).1, (scanQuoted p).2) else ([], d :: p)

/-- A byte that does not end a field without quotes. -/
def isPlain (delim c : UInt8) : Bool := c != delim && c != chNewline && c != chReturn

def scanField (delim : UInt8) (line : Text) : Text × Text :=
  match line with
  | [] => ([], [])
  | c :: p =>
    if c = chQuote then scanQuoted p
    else ((c :: p).takeWhile (isPlain delim), (c :: p).dropWhile (isPlain delim))

theorem scanQuoted_suffix (p : Text) : (scanQuoted p).2 <:+ p := by
  fun_induction scanQuoted p with
  | case1 => exact List.suffix_refl _
  | case2 c p hc ih => exact ih.trans (List.suffix_cons c p)
  | case3 c hc => exact List.nil_suffix
  | case4 c hc p ih =>
    exact ih.trans ((List.suffix_cons chQuote p).trans (List.suffix_cons c _))
  | case5 c hc d p hd => exact List.suffix_cons c (d :: p)

theorem scanField_suffix (delim : UInt8) (p : Text) : (scanField delim p).2 <:+ p := by
  cases p with
  | nil => exact List.suffix_refl _
  | cons c p =>
    rw [scanField]
    split_ifs with hc
    · exact (scanQuoted_suffix p).trans (List.suffix_cons c p)
    · exact List.dropWhile_suffix _

/-- The fields up to the first one that no delimiter follows. -/
def scanRecord (delim : UInt8) (line : Text) : List Text :=
  match _ : (scanField delim line).2 with
  | [] => [(scanField delim line).1]
  | d :: p =>
    if d = delim then (scanField delim line).1 :: scanRecord delim p
    else [(scanField delim line).1]
termination_by line.length
decreasing_by
  rename_i h _
  have hle := (scanField_suffix delim line).length_le
  rw [h, List.length_cons] at hle
  omega

/-! ## Requests -/

/-- How often a buffer of `c` units is doubled to have room for `n + 1` of them. -/
def doublings (c n : ℕ) : ℕ := Nat.size (n / c)

theorem lt_doubled {c : ℕ} (hc : 0 < c) (n : ℕ) : n < c * 2 ^ doublings c n := by
  have h := Nat.lt_size_self (n / c)
  rwa [Nat.div_lt_iff_lt_mul hc, mul_comm] at h

theorem doublings_le_iff {c : ℕ} (hc : 0 < c) {n k : ℕ} :
    doublings c n ≤ k ↔ n < c * 2 ^ k := by
  rw [doublings, Nat.size_le, Nat.div_lt_iff_lt_mul hc, mul_comm]

/-- A further unit doubles the buffer when it would fill it. -/
theorem doublings_succ {c : ℕ} (hc : 0 < c) (n : ℕ) : doublings c (n + 1) =
    doublings c n + if n + 1 ≥ c * 2 ^ doublings c n then 1 else 0 := by
  have hle : doublings c n ≤ doublings c (n + 1) :=
    (doublings_le_iff hc).mpr ((Nat.lt_succ_self n).trans (lt_doubled hc (n + 1)))
  have hroom := lt_doubled hc n
  split_ifs with hfull
  · have hmore : ¬doublings c (n + 1) ≤ doublings c n := by
      rw [doublings_le_iff hc]
      omega
    have hone : doublings c (n + 1) ≤ doublings c n + 1 := by
      rw [doublings_le_iff hc, pow_succ, ← mul_assoc]
      omega
    omega
  · have hsame : doublings c (n + 1) ≤ doublings c n := by
      rw [doublings_le_iff hc]
      omega
    omega

theorem doublings_mono (c : ℕ) {m n : ℕ} (h : m ≤ n) : doublings c m ≤ doublings c n :=
  Nat.size_le_size (Nat.div_le_div_right h)

/-- A field takes its first buffer and the doublings of it. -/
def fieldRequests (s : Text) : ℕ := 1 + doublings 64 s.length

/-- The doublings of the array of eight entries for `n` fields. -/
def arrayDoublings (n : ℕ) : ℕ := doublings 8 (n - 1)

/-- The requests that the fields of a line need when all of them are granted. -/
def fieldsRequests (fields : List Text) : ℕ := (fields.map fieldRequests).sum

/-! ## Calls that may run out of memory -/

/-- Every request for memory is granted. -/
def Willing (w : World) : Prop := ∀ n, w.ok n = true

/-- The call ends. What it returns meets `Q`, and it returns something if memory is granted. -/
def Yields (w : World) (call : Step α) (Q : α → Prop) : Prop :=
  ∃ w' r, call = .ok (w', r) ∧ w'.ok = w.ok ∧ (∀ a, r = some a → Q a) ∧
    (Willing w → ∃ a, r = some a)

/-- The next `k` requests are granted. -/
def Grants (w : World) (k : ℕ) : Prop := ∀ n < k, w.ok (w.requests + n) = true

/-- A block of the allocator has gone to `free`. -/
def Misfreed (trace : List Event) : Prop := ∃ b, .alloc b ∈ trace ∧ .libcFree b ∈ trace

/-- The call makes `k` requests, unless one of them is refused: then it returns nothing, and
has released a block past the allocator. -/
def Spends (w : World) (call : Step α) (k : ℕ) (Q : World → α → Prop) : Prop :=
  ∃ w' r, call = .ok (w', r) ∧ w'.ok = w.ok ∧ w.trace <:+ w'.trace ∧
    (Grants w k → w'.requests = w.requests + k ∧ ∃ a, r = some a ∧ Q w' a) ∧
    (¬Grants w k → r = none ∧ Misfreed w'.trace)

theorem grants_add {k : ℕ} (hok : w'.ok = w.ok) (hreq : w'.requests = w.requests + k)
    (hg : Grants w k) (k' : ℕ) : Grants w (k + k') ↔ Grants w' k' := by
  constructor
  · intro h n hn
    rw [hok, hreq, add_assoc]
    exact h (k + n) (by omega)
  · intro h n hn
    rcases Nat.lt_or_ge n k with hlt | hge
    · exact hg n hlt
    · have hrest := h (n - k) (by omega)
      rwa [hok, hreq, show w.requests + k + (n - k) = w.requests + n by omega] at hrest

theorem Spends.pure {a : α} {Q : World → α → Prop} (h : Q w a) :
    Spends w (.ok (w, some a)) 0 Q := by
  refine ⟨w, some a, rfl, rfl, List.suffix_refl _, fun _ => ⟨rfl, a, rfl, h⟩, fun hno => ?_⟩
  exact absurd (fun n hn => absurd hn (Nat.not_lt_zero n)) hno

theorem Spends.andThen {x : Step α} {f : World → α → Step β} {k k' : ℕ}
    {Q : World → α → Prop} {R : World → β → Prop} (hx : Spends w x k Q)
    (hf : ∀ w' a, w.trace <:+ w'.trace → Q w' a → Spends w' (f w' a) k' R) :
    Spends w (andThen x f) (k + k') R := by
  obtain ⟨w₁, r, rfl, hok, htrace, hyes, hno⟩ := hx
  by_cases hg : Grants w k
  · obtain ⟨hreq, a, rfl, ha⟩ := hyes hg
    obtain ⟨w₂, r₂, hcall, hok₂, htrace₂, hyes₂, hno₂⟩ := hf w₁ a htrace ha
    have hiff := grants_add hok hreq hg k'
    refine ⟨w₂, r₂, hcall, hok₂.trans hok, htrace.trans htrace₂, fun hg' => ?_, fun hg' => ?_⟩
    · obtain ⟨hreq₂, hret⟩ := hyes₂ (hiff.mp hg')
      exact ⟨by omega, hret⟩
    · exact hno₂ (mt hiff.mpr hg')
  · obtain ⟨rfl, hmis⟩ := hno hg
    refine ⟨w₁, none, rfl, hok, htrace, fun hg' => ?_, fun _ => ⟨rfl, hmis⟩⟩
    exact absurd (fun n hn => hg' n (by omega)) hg

theorem Spends.mono {x : Step α} {k : ℕ} {Q R : World → α → Prop} (h : Spends w x k Q)
    (hQR : ∀ w' a, Q w' a → R w' a) : Spends w x k R := by
  obtain ⟨w', r, hcall, hok, htrace, hyes, hno⟩ := h
  refine ⟨w', r, hcall, hok, htrace, fun hg => ?_, hno⟩
  obtain ⟨hreq, a, ha, hQ⟩ := hyes hg
  exact ⟨hreq, a, ha, hQR w' a hQ⟩

theorem Spends.congr {x : Step α} {k k' : ℕ} {Q : World → α → Prop} (h : Spends w x k Q)
    (hk : k = k') : Spends w x k' Q := hk ▸ h

theorem Spends.yields {x : Step α} {k : ℕ} {Q : α → Prop} (h : Spends w x k fun _ => Q) :
    Yields w x Q := by
  obtain ⟨w', r, hcall, hok, -, hyes, hno⟩ := h
  refine ⟨w', r, hcall, hok, fun a ha => ?_, fun hwill => ?_⟩
  · by_cases hg : Grants w k
    · obtain ⟨-, b, hb, hQ⟩ := hyes hg
      rw [ha] at hb
      cases hb
      exact hQ
    · rw [(hno hg).1] at ha
      cases ha
  · obtain ⟨-, a, ha, -⟩ := hyes fun n _ => hwill _
    exact ⟨a, ha⟩

/-! ## The allocator -/

theorem libcFree_fold (fields : List Buffer) (w : World) :
    (fields.foldl (fun w field => w.libcFree field.block) w).ok = w.ok ∧
      w.trace <:+ (fields.foldl (fun w field => w.libcFree field.block) w).trace := by
  induction fields generalizing w with
  | nil => exact ⟨rfl, List.suffix_refl _⟩
  | cons field fields ih =>
    obtain ⟨hok, htrace⟩ := ih (w.libcFree field.block)
    exact ⟨hok, (List.suffix_cons _ _).trans htrace⟩

theorem destroy_ok (w : World) (out : Record) : (zenitCsvRecordDestroy w out).ok = w.ok :=
  (libcFree_fold out.fields w).1

theorem destroy_trace (w : World) (out : Record) :
    w.trace <:+ (zenitCsvRecordDestroy w out).trace :=
  (libcFree_fold out.fields w).2.trans (List.suffix_cons _ _)

/-- The array of the record came from the allocator. -/
def Obtained (out : Record) (w : World) : Prop := .alloc out.block ∈ w.trace

theorem Obtained.later (h : Obtained out w) (htrace : w.trace <:+ w'.trace) : Obtained out w' :=
  htrace.subset h

theorem Obtained.misfreed (h : Obtained out w) :
    Misfreed (zenitCsvRecordDestroy w out).trace :=
  ⟨out.block, (destroy_trace w out).subset h, List.mem_cons_self⟩

theorem grants_one : Grants w 1 ↔ w.ok w.requests = true := by
  constructor
  · exact fun h => h 0 Nat.one_pos
  · intro h n hn
    obtain rfl : n = 0 := by omega
    exact h

/-- A request that is granted, and one that is refused. -/
theorem alloc_cases (w : World) : ∃ w' r, w.alloc = (w', r) ∧ w'.ok = w.ok ∧
    w.trace <:+ w'.trace ∧ w'.requests = w.requests + 1 ∧
    (Grants w 1 → ∃ block, r = some block ∧ .alloc block ∈ w'.trace) ∧
    (¬Grants w 1 → r = none ∧ w'.trace = w.trace) := by
  rw [World.alloc, grants_one]
  split_ifs with hok
  · exact ⟨_, _, rfl, rfl, List.suffix_cons _ _, rfl, fun _ => ⟨_, rfl, List.mem_cons_self⟩,
      fun h => absurd hok h⟩
  · exact ⟨_, _, rfl, rfl, List.suffix_refl _, rfl, fun h => absurd h hok, fun _ => ⟨rfl, rfl⟩⟩

theorem alloc_yields (w : World) : ∃ w' r, w.alloc = (w', r) ∧ w'.ok = w.ok ∧
    (Willing w → ∃ block, r = some block) := by
  obtain ⟨w', r, halloc, hok, -, -, hyes, -⟩ := alloc_cases w
  refine ⟨w', r, halloc, hok, fun h => ?_⟩
  obtain ⟨block, hblock, -⟩ := hyes fun n _ => h _
  exact ⟨block, hblock⟩

theorem realloc_cases (w : World) (old : ℕ) : ∃ w' r, w.realloc old = (w', r) ∧ w'.ok = w.ok ∧
    w.trace <:+ w'.trace ∧ w'.requests = w.requests + 1 ∧
    (Grants w 1 → ∃ block, r = some block ∧ .alloc block ∈ w'.trace) ∧
    (¬Grants w 1 → r = none) := by
  obtain ⟨w₁, r, halloc, hok, htrace, hreq, hyes, hno⟩ := alloc_cases w
  rw [World.realloc, halloc]
  cases r with
  | none =>
    refine ⟨_, _, rfl, hok, htrace, hreq, fun hg => ?_, fun _ => rfl⟩
    obtain ⟨block, hblock, -⟩ := hyes hg
    cases hblock
  | some block =>
    refine ⟨_, _, rfl, hok, htrace.trans (List.suffix_cons _ _), hreq, fun hg => ?_, fun hg => ?_⟩
    · obtain ⟨b, hb, hmem⟩ := hyes hg
      cases hb
      exact ⟨block, rfl, List.mem_cons_of_mem _ hmem⟩
    · exact absurd (hno hg).1 (by simp)

/-! ## Buffers -/

/-- There is room for a further byte. -/
def HasRoom (buf : Buffer) : Prop := buf.bytes.length < buf.cap

/-- A buffer with room behind the given bytes. -/
def Holding (s : Text) (buf : Buffer) : Prop := HasRoom buf ∧ buf.bytes = s

/-- The capacity is the one that its bytes have made necessary. -/
def Sized (buf : Buffer) : Prop := buf.cap = 64 * 2 ^ doublings 64 buf.bytes.length

theorem Sized.hasRoom (h : Sized buf) : HasRoom buf := by
  rw [HasRoom, h]
  exact lt_doubled (by norm_num) _

theorem newBuffer_spends (hout : Obtained out w) :
    Spends w (.ok (newBuffer out w)) 1 fun _ buf => Holding [] buf ∧ Sized buf := by
  obtain ⟨w', r, halloc, hok, htrace, hreq, hyes, hno⟩ := alloc_cases w
  rw [newBuffer, halloc]
  cases r with
  | none =>
    refine ⟨_, none, rfl, (destroy_ok w' out).trans hok, htrace.trans (destroy_trace w' out),
      fun hg => ?_, fun _ => ⟨rfl, (hout.later htrace).misfreed⟩⟩
    obtain ⟨block, hblock, -⟩ := hyes hg
    cases hblock
  | some block =>
    have hsized : Sized ⟨block, 64, []⟩ := by
      simp [Sized, doublings]
    refine ⟨_, _, rfl, hok, htrace, fun _ => ⟨hreq, _, rfl, ⟨hsized.hasRoom, rfl⟩, hsized⟩,
      fun hg => ?_⟩
    exact absurd (hno hg).1 (by simp)

theorem growBuf_spends (hout : Obtained out w) (buf : Buffer) (newCap : ℕ) :
    Spends w (.ok (growBuf out w buf newCap)) 1 fun _ buf' =>
      buf'.cap = newCap ∧ buf'.bytes = buf.bytes.take (newCap / 2) := by
  obtain ⟨w', r, hrealloc, hok, htrace, hreq, hyes, hno⟩ := realloc_cases w buf.block
  rw [growBuf, hrealloc]
  cases r with
  | none =>
    have hfreed : w.trace <:+ (w'.free buf.block).trace := htrace.trans (List.suffix_cons _ _)
    refine ⟨_, none, rfl, (destroy_ok _ out).trans hok, hfreed.trans (destroy_trace _ out),
      fun hg => ?_, fun _ => ⟨rfl, (hout.later hfreed).misfreed⟩⟩
    obtain ⟨block, hblock, -⟩ := hyes hg
    cases hblock
  | some block =>
    refine ⟨_, _, rfl, hok, htrace, fun _ => ⟨hreq, _, rfl, rfl, rfl⟩, fun hg => ?_⟩
    exact absurd (hno hg) (by simp)

/-- A byte behind the last one: the block is doubled in time. -/
theorem bufAppend_spends (hout : Obtained out w) (hsized : Sized buf) (c : UInt8) :
    Spends w (bufAppend out w buf c)
      (doublings 64 (buf.bytes.length + 1) - doublings 64 buf.bytes.length)
      fun _ buf' => Holding (buf.bytes ++ [c]) buf' ∧ Sized buf' := by
  have hroom := hsized.hasRoom
  have hsucc := doublings_succ (by norm_num : 0 < 64) buf.bytes.length
  rw [← hsized] at hsucc
  unfold HasRoom at hroom
  have hput : ∀ (w' : World) (buf' : Buffer), buf'.bytes = buf.bytes →
      buf'.cap = 64 * 2 ^ doublings 64 (buf.bytes.length + 1) →
      Spends w' ((buf'.put c).map fun buf => (w', some buf)) 0
        fun _ buf' => Holding (buf.bytes ++ [c]) buf' ∧ Sized buf' := by
    intro w' buf' hbytes hcap
    have hlt := lt_doubled (by norm_num : 0 < 64) (buf.bytes.length + 1)
    rw [← hcap] at hlt
    rw [Buffer.put, if_pos (by rw [hbytes]; omega)]
    have hsized' : Sized { buf' with bytes := buf'.bytes ++ [c] } := by
      rw [Sized, List.length_append, hbytes]
      exact hcap
    exact Spends.pure ⟨⟨hsized'.hasRoom, by rw [hbytes]⟩, hsized'⟩
  rw [bufAppend]
  split_ifs at hsucc ⊢ with hfull
  · rw [show doublings 64 (buf.bytes.length + 1) - doublings 64 buf.bytes.length = 1 + 0 by omega]
    refine (growBuf_spends hout buf (buf.cap * 2)).andThen ?_
    rintro w' buf' - ⟨hcap, hbytes⟩
    refine hput w' buf' ?_ ?_
    · rw [hbytes, List.take_of_length_le (by omega)]
    · rw [hcap, hsucc, hsized, pow_succ]
      ring
  · refine Spends.congr (hput w buf rfl ?_) (by omega)
    rw [hsucc, add_zero]
    exact hsized

/-! ## The readers -/

/-- A reader returns a buffer with the given bytes and stops in front of the given rest. -/
def Stopping (s rest : Text) (r : Buffer × Text) : Prop := Holding s r.1 ∧ r.2 = rest ++ [0]

/-- A reader appends the bytes `s` and stops in front of `rest`, growing the buffer for them. -/
def Reads (w : World) (call : Step (Buffer × Text)) (buf : Buffer) (s rest : Text) : Prop :=
  Spends w call (doublings 64 (buf.bytes.length + s.length) - doublings 64 buf.bytes.length)
    fun _ r => Stopping (buf.bytes ++ s) rest r ∧ Sized r.1

/-- One byte, then the rest of the field. -/
theorem append_reads {c : UInt8} (hout : Obtained out w) (hsized : Sized buf)
    {go : World → Buffer → Step (Buffer × Text)}
    (hgo : ∀ w' buf, Obtained out w' → Sized buf → Reads w' (go w' buf) buf s rest) :
    Reads w (andThen (bufAppend out w buf c) go) buf (c :: s) rest := by
  have hmono := doublings_mono 64 (Nat.le_add_right buf.bytes.length 1)
  have hmono' := doublings_mono 64 (Nat.le_add_right (buf.bytes.length + 1) s.length)
  have hsplit : doublings 64 (buf.bytes.length + (c :: s).length) - doublings 64 buf.bytes.length =
      doublings 64 (buf.bytes.length + 1) - doublings 64 buf.bytes.length +
        (doublings 64 (buf.bytes.length + 1 + s.length) - doublings 64 (buf.bytes.length + 1)) := by
    rw [List.length_cons, show buf.bytes.length + (s.length + 1) =
      buf.bytes.length + 1 + s.length by omega]
    omega
  rw [Reads, hsplit]
  refine (bufAppend_spends hout hsized c).andThen ?_
  rintro w' buf' htrace ⟨⟨-, hbytes⟩, hsized'⟩
  have h := hgo w' buf' (hout.later htrace) hsized'
  rwa [Reads, hbytes, List.append_assoc, List.singleton_append, List.length_append] at h

theorem stop_reads (rest : Text) (hsized : Sized buf) :
    Reads w (.ok (w, some (buf, rest ++ [0]))) buf [] rest :=
  (Spends.pure ⟨⟨⟨hsized.hasRoom, (List.append_nil _).symm⟩, rfl⟩, hsized⟩).congr (Nat.sub_self _).symm

theorem readUnquoted_reads {p : Text} (hp : 0 ∉ p) (hout : Obtained out w) (hsized : Sized buf) :
    Reads w (readUnquoted out delim (p ++ [0]) w buf) buf (p.takeWhile (isPlain delim))
      (p.dropWhile (isPlain delim)) := by
  induction p generalizing w buf with
  | nil =>
    rw [List.nil_append, readUnquoted, if_neg (by simp)]
    exact stop_reads [] hsized
  | cons c p ih =>
    obtain ⟨hc, hp⟩ := not_or.mp (mt List.mem_cons.mpr hp)
    have hplain : (c ≠ 0 ∧ c ≠ delim ∧ c ≠ chNewline ∧ c ≠ chReturn) ↔ isPlain delim c = true := by
      simp [isPlain, Ne.symm hc, and_assoc]
    rw [List.cons_append, readUnquoted]
    split_ifs with h
    · rw [List.takeWhile_cons_of_pos (hplain.mp h), List.dropWhile_cons_of_pos (hplain.mp h)]
      exact append_reads hout hsized fun w' buf hout hsized => ih hp hout hsized
    · rw [List.takeWhile_cons_of_neg (mt hplain.mpr h), List.dropWhile_cons_of_neg (mt hplain.mpr h)]
      exact stop_reads (c :: p) hsized

theorem readQuoted_byte {c : UInt8} (hzero : c ≠ 0) (hquote : c ≠ chQuote) (p : Text) :
    readQuoted out (c :: p) w buf = andThen (bufAppend out w buf c) (readQuoted out p) := by
  rw [readQuoted.eq_def]
  simp only [if_neg hzero, if_pos hquote]

theorem readQuoted_quote (d : UInt8) (p : Text) : readQuoted out (chQuote :: d :: p) w buf =
    if d = chQuote then andThen (bufAppend out w buf chQuote) (readQuoted out p)
    else .ok (w, some (buf, d :: p)) := by
  rw [readQuoted, if_neg (by decide), if_neg (not_not.mpr rfl)]

theorem readQuoted_reads {p : Text} (hp : 0 ∉ p) (hout : Obtained out w) (hsized : Sized buf) :
    Reads w (readQuoted out (p ++ [0]) w buf) buf (scanQuoted p).1 (scanQuoted p).2 := by
  fun_induction scanQuoted p generalizing w buf with
  | case1 =>
    rw [List.nil_append, readQuoted, if_pos rfl]
    exact stop_reads [] hsized
  | case2 c p hc ih =>
    obtain ⟨hzero, hp⟩ := not_or.mp (mt List.mem_cons.mpr hp)
    rw [List.cons_append, readQuoted_byte (Ne.symm hzero) hc]
    exact append_reads hout hsized fun w' buf hout hsized => ih hp hout hsized
  | case3 c hc =>
    obtain rfl := not_not.mp hc
    rw [List.singleton_append, readQuoted_quote, if_neg (by decide)]
    exact stop_reads [] hsized
  | case4 c hc p ih =>
    obtain rfl := not_not.mp hc
    have hp' : 0 ∉ p := fun h => hp (List.mem_cons_of_mem _ (List.mem_cons_of_mem _ h))
    rw [List.cons_append, List.cons_append, readQuoted_quote, if_pos rfl]
    exact append_reads hout hsized fun w' buf hout hsized => ih hp' hout hsized
  | case5 c hc d p hd =>
    obtain rfl := not_not.mp hc
    rw [List.cons_append, List.cons_append, readQuoted_quote, if_neg hd]
    exact stop_reads (d :: p) hsized

theorem readField_reads {p : Text} (hp : 0 ∉ p) (hout : Obtained out w) (hsized : Sized buf) :
    Reads w (readField out delim (p ++ [0]) w buf) buf (scanField delim p).1
      (scanField delim p).2 := by
  cases p with
  | nil =>
    rw [List.nil_append, readField, if_neg (by decide)]
    exact readUnquoted_reads hp hout hsized
  | cons c p =>
    rw [List.cons_append, readField, scanField]
    split_ifs with hc
    · exact readQuoted_reads (fun h => hp (List.mem_cons_of_mem c h)) hout hsized
    · exact readUnquoted_reads hp hout hsized

/-! ## The loop over the fields -/

def texts (out : Record) : List Text := out.fields.map Buffer.bytes

/-- The array has been doubled for its entries, and no more. -/
def ArraySized (out : Record) : Prop := out.cap = 8 * 2 ^ arrayDoublings out.fields.length

theorem newArray_sized (block : ℕ) : ArraySized ⟨block, 8, []⟩ := by
  simp [ArraySized, arrayDoublings, doublings]

theorem arrayDoublings_succ (n : ℕ) : arrayDoublings (n + 1) =
    arrayDoublings n + if n ≥ 8 * 2 ^ arrayDoublings n then 1 else 0 := by
  cases n with
  | zero => rfl
  | succ n => exact doublings_succ (by norm_num) n

/-- The array is doubled in time for a further entry. -/
theorem growFields_spends (hout : Obtained out w) (hsized : ArraySized out) :
    Spends w (.ok (if out.fields.length ≥ out.cap then growFields w out else (w, some out)))
      (arrayDoublings (out.fields.length + 1) - arrayDoublings out.fields.length)
      fun w' out' => out'.fields = out.fields ∧ Obtained out' w' ∧
        out'.cap = 8 * 2 ^ arrayDoublings (out.fields.length + 1) := by
  have hsucc := arrayDoublings_succ out.fields.length
  rw [← hsized] at hsucc
  split_ifs at hsucc ⊢ with hfull
  · obtain ⟨w', r, hrealloc, hok, htrace, hreq, hyes, hno⟩ := realloc_cases w out.block
    rw [growFields, hrealloc, show arrayDoublings (out.fields.length + 1) -
      arrayDoublings out.fields.length = 1 by omega]
    cases r with
    | none =>
      refine ⟨_, none, rfl, (destroy_ok w' out).trans hok, htrace.trans (destroy_trace w' out),
        fun hg => ?_, fun _ => ⟨rfl, (hout.later htrace).misfreed⟩⟩
      obtain ⟨block, hblock, -⟩ := hyes hg
      cases hblock
    | some block =>
      refine ⟨_, _, rfl, hok, htrace, fun hg => ?_, fun hg => absurd (hno hg) (by simp)⟩
      obtain ⟨b, hb, hmem⟩ := hyes hg
      cases hb
      refine ⟨hreq, _, rfl, rfl, hmem, ?_⟩
      rw [hsucc, pow_succ, hsized]
      ring
  · refine (Spends.pure ⟨rfl, hout, ?_⟩).congr (by omega)
    rw [hsucc, add_zero]
    exact hsized

theorem finishBuffer_spends (hsized : Sized buf) (out : Record) (w : World) :
    Spends w (finishBuffer out w buf) 0 fun _ => Holding buf.bytes := by
  have hroom := hsized.hasRoom
  unfold HasRoom at hroom
  rw [finishBuffer, if_neg (by omega)]
  simp only [andThen, Except.bind, Option.elim_some, Buffer.terminate]
  rw [if_pos hroom]
  exact Spends.pure ⟨hroom, rfl⟩

theorem andThen_assoc {γ : Type} (x : Step α) (f : World → α → Step β) (g : World → β → Step γ) :
    andThen (andThen x f) g = andThen x fun w a => andThen (f w a) g := by
  rcases x with e | ⟨w, _ | a⟩ <;> rfl

theorem andThen_map {γ : Type} (x : Exec α) (w : World) (f : α → β) (g : World → β → Step γ) :
    andThen (x.map fun a => (w, some (f a))) g = x.bind fun a => g w (f a) := by
  cases x <;> rfl

/-- The field in front, stored in the record, and where its reader stopped. -/
def parseField (delim : UInt8) (w : World) (out : Record) (p : Text) : Step (Record × Text) :=
  andThen (.ok (if out.fields.length ≥ out.cap then growFields w out else (w, some out)))
    fun w out =>
  andThen (.ok (newBuffer out w)) fun w buf =>
  andThen (readField out delim p w buf) fun w r =>
  andThen (finishBuffer out w r.1) fun w buf =>
  (storeField out buf).map fun out => (w, some (out, r.2))

/-- `if (*p == delimiter)` behind a field. -/
def parseNext (delim : UInt8) (fuel : ℕ) (w : World) (r : Record × Text) : Step Record :=
  match r.2 with
  | [] => .error .outOfBounds
  | c :: p => if c = delim then parseLoop delim fuel w r.1 p else .ok (w, some r.1)

theorem parseLoop_succ (delim : UInt8) (fuel : ℕ) (w : World) (out : Record) (p : Text) :
    parseLoop delim (fuel + 1) w out p =
      andThen (parseField delim w out p) (parseNext delim fuel) := by
  simp only [parseLoop, parseField, andThen_assoc, andThen_map]
  rfl

/-- What one round does with the field in front. -/
theorem parseField_spends {p : Text} (hp : 0 ∉ p) (hout : Obtained out w) (hsized : ArraySized out) :
    Spends w (parseField delim w out (p ++ [0]))
      (arrayDoublings (out.fields.length + 1) - arrayDoublings out.fields.length +
        fieldRequests (scanField delim p).1)
      fun w' r => Obtained r.1 w' ∧ ArraySized r.1 ∧
        texts r.1 = texts out ++ [(scanField delim p).1] ∧ r.2 = (scanField delim p).2 ++ [0] := by
  refine (growFields_spends hout hsized).andThen ?_
  rintro w₁ out₁ - ⟨hfields, hout₁, hcap⟩
  refine (newBuffer_spends hout₁).andThen ?_
  rintro w₂ buf htrace₂ ⟨⟨-, hempty⟩, hbuf⟩
  have hout₂ := hout₁.later htrace₂
  have hread : Reads w₂ (readField out₁ delim (p ++ [0]) w₂ buf) buf (scanField delim p).1
    (scanField delim p).2 := readField_reads hp hout₂ hbuf
  have hnone : doublings 64 0 = 0 := rfl
  rw [Reads, hempty, List.length_nil, Nat.zero_add, hnone, Nat.sub_zero] at hread
  refine Spends.congr (hread.andThen ?_) (Nat.add_zero _)
  rintro w₃ ⟨buf₃, p₃⟩ htrace₃ ⟨⟨⟨-, hbytes⟩, hrest⟩, hbuf₃⟩
  simp only at hbytes hrest hbuf₃
  refine Spends.congr ((finishBuffer_spends hbuf₃ out₁ w₃).andThen ?_) (Nat.zero_add 0)
  rintro w₄ buf₄ htrace₄ ⟨-, hbytes₄⟩
  have hlt : out₁.fields.length < out₁.cap := by
    rw [hfields, hcap]
    exact lt_doubled (by norm_num) _
  have hstore : storeField out₁ buf₄ = .ok { out₁ with fields := out₁.fields ++ [buf₄] } :=
    if_pos hlt
  rw [hstore]
  refine Spends.pure ⟨(hout₂.later htrace₃).later htrace₄, ?_, ?_, hrest⟩
  · rw [ArraySized, List.length_append, hfields]
    exact hcap
  · simp only [texts, List.map_append, hfields, List.map_cons, List.map_nil, hbytes₄, hbytes,
      List.nil_append]

/-- One round, and the rounds behind it. -/
theorem parseLoop_round {p : Text} (hp : 0 ∉ p) (hout : Obtained out w) (hsized : ArraySized out)
    {fuel k : ℕ} {c : UInt8} (hnext : (scanField delim p).2 ++ [0] = c :: rest)
    {Q : World → Record → Prop}
    (hgo : ∀ w' out', Obtained out' w' → ArraySized out' →
      texts out' = texts out ++ [(scanField delim p).1] →
      Spends w' (if c = delim then parseLoop delim fuel w' out' rest else .ok (w', some out')) k Q) :
    Spends w (parseLoop delim (fuel + 1) w out (p ++ [0]))
      (arrayDoublings (out.fields.length + 1) - arrayDoublings out.fields.length +
        (fieldRequests (scanField delim p).1 + k)) Q := by
  rw [parseLoop_succ, ← add_assoc]
  refine (parseField_spends hp hout hsized).andThen ?_
  rintro w' ⟨out', p'⟩ - ⟨hout', hsized', htexts, hrest⟩
  simp only at hrest
  rw [hrest, hnext]
  exact hgo w' out' hout' hsized' htexts

theorem arrayDoublings_mono {m n : ℕ} (h : m ≤ n) : arrayDoublings m ≤ arrayDoublings n :=
  doublings_mono 8 (Nat.sub_le_sub_right h 1)

theorem length_texts (out : Record) : (texts out).length = out.fields.length := List.length_map _

/-- The loop stores the fields of the scan. -/
theorem parseLoop_spends (hdelim : delim ≠ 0) {p : Text} (hp : 0 ∉ p) (hout : Obtained out w)
    (hsized : ArraySized out) {fuel : ℕ} (hfuel : p.length < fuel) :
    Spends w (parseLoop delim fuel w out (p ++ [0]))
      (arrayDoublings (out.fields.length + (scanRecord delim p).length) -
        arrayDoublings out.fields.length + fieldsRequests (scanRecord delim p))
      fun _ out' => texts out' = texts out ++ scanRecord delim p := by
  obtain ⟨n, rfl⟩ : ∃ n, fuel = n + 1 := ⟨fuel - 1, by omega⟩
  fun_induction scanRecord delim p generalizing w out n with
  | case1 p hrest =>
    refine parseLoop_round hp hout hsized (congrArg (· ++ [0]) hrest) ?_
    rintro w' out' - - htexts
    rw [if_neg (Ne.symm hdelim)]
    exact Spends.pure htexts
  | case2 p p' hrest ih =>
    have hsuffix := scanField_suffix delim p
    rw [hrest] at hsuffix
    have hp' : 0 ∉ p' := fun h => hp (hsuffix.subset (List.mem_cons_of_mem _ h))
    have hlen := hsuffix.length_le
    rw [List.length_cons] at hlen
    obtain ⟨m, rfl⟩ : ∃ m, n = m + 1 := ⟨n - 1, by omega⟩
    have hmono := arrayDoublings_mono (Nat.le_add_right out.fields.length 1)
    have hmono' := arrayDoublings_mono
      (Nat.le_add_right (out.fields.length + 1) (scanRecord delim p').length)
    have hsplit : arrayDoublings (out.fields.length + (scanRecord delim p').length.succ) -
        arrayDoublings out.fields.length +
          (fieldRequests (scanField delim p).1 + fieldsRequests (scanRecord delim p')) =
        arrayDoublings (out.fields.length + 1) - arrayDoublings out.fields.length +
          (fieldRequests (scanField delim p).1 +
            (arrayDoublings (out.fields.length + 1 + (scanRecord delim p').length) -
              arrayDoublings (out.fields.length + 1) + fieldsRequests (scanRecord delim p'))) := by
      rw [show out.fields.length + (scanRecord delim p').length.succ =
        out.fields.length + 1 + (scanRecord delim p').length by omega]
      omega
    rw [List.length_cons, fieldsRequests, List.map_cons, List.sum_cons]
    refine Spends.congr (parseLoop_round hp hout hsized (congrArg (· ++ [0]) hrest) ?_) hsplit.symm
    intro w' out' hout' hsized' htexts
    have hfields : out'.fields.length = out.fields.length + 1 := by
      rw [← length_texts out', htexts, List.length_append, length_texts, List.length_singleton]
    have hrec := ih hp' hout' hsized' m (by omega)
    rw [hfields] at hrec
    rw [if_pos rfl]
    refine hrec.mono ?_
    intro _ out'' h
    rw [h, htexts, List.append_assoc, List.singleton_append]
  | case3 p d p' hrest hd =>
    refine parseLoop_round hp hout hsized (congrArg (· ++ [0]) hrest) ?_
    rintro w' out' - - htexts
    rw [if_neg hd]
    exact Spends.pure htexts

/-- The requests that a line needs: the array, its doublings, and the buffers of the fields. -/
def recordRequests (delim : UInt8) (line : Text) : ℕ :=
  1 + (arrayDoublings (scanRecord delim line).length + fieldsRequests (scanRecord delim line))

/-- The loop from the array of eight entries. -/
theorem parse_spends (hdelim : delim ≠ 0) {line : Text} (hline : 0 ∉ line) {block : ℕ}
    (halloc : .alloc block ∈ w.trace) :
    Spends w (parseLoop delim ((line ++ [0]).length + 1) w ⟨block, 8, []⟩ (line ++ [0]))
      (arrayDoublings (scanRecord delim line).length + fieldsRequests (scanRecord delim line))
      fun _ out => texts out = scanRecord delim line := by
  have hfuel : line.length < (line ++ [0]).length + 1 := by
    rw [List.length_append]
    omega
  have hnone : arrayDoublings 0 = 0 := rfl
  have h := parseLoop_spends hdelim hline (show Obtained ⟨block, 8, []⟩ w from halloc)
    (newArray_sized block) hfuel
  rwa [List.length_nil, Nat.zero_add, hnone, Nat.sub_zero] at h

/-- Where it returns a record, the parser returns the fields of the scan. -/
theorem parse_scans (hdelim : delim ≠ 0) {line : Text} (hline : 0 ∉ line) (w : World) :
    ∃ w' r code, zenitCsvParseRecord w (line ++ [0]) delim = .ok (w', r, code) ∧
      (code = .ok ↔ ∃ out, r = some out) ∧ (∀ out, r = some out → texts out = scanRecord delim line) ∧
      (Willing w → code = .ok) := by
  obtain ⟨w₁, r₁, halloc, hok, -, -, hyes, hno⟩ := alloc_cases w
  rw [zenitCsvParseRecord, halloc]
  by_cases hg : Grants w 1
  · obtain ⟨block, rfl, hmem⟩ := hyes hg
    obtain ⟨w₂, r, hloop, -, hsome, hwill⟩ := (parse_spends hdelim hline hmem).yields
    simp only [hloop]
    refine ⟨w₂, r, if r.isSome then .ok else .alloc, rfl, ?_, hsome, fun h => ?_⟩
    · cases r <;> simp
    · obtain ⟨out, rfl⟩ := hwill (fun n => by rw [hok]; exact h n)
      rfl
  · obtain ⟨rfl, -⟩ := hno hg
    exact ⟨w₁, none, .alloc, rfl, by simp, by simp, fun h => absurd (fun n _ => h _) hg⟩

end LibZenit.Csv
