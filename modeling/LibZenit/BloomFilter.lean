import LibZenit.BloomModel
import LibZenit.Refinement
import LibZenit.WordBits

/-!
# The filter holds the positions of what has been inserted

The set of the bits that are 1 is the union of the positions of the elements inserted since the
filter was last cleared. What is asked of a Bloom filter follows from this alone.
-/
namespace LibZenit.Blooms
open Blocks HashCommon WordBits Refinement

/-! ## Positions -/

/-- The positions of an element in a filter of `m` bits with `k` hashes. -/
def positions (m k : ℕ) (data : Data) : Set ℕ := {p | ∃ i < k, index m data i = .ok p}

/-- The bits of a filter that holds the elements of `S`. -/
def cells (m k : ℕ) (S : Set Data) : Set ℕ := ⋃ data ∈ S, positions m k data

/-- The elements inserted since the last clearing. -/
def since (S : Set Data) : Call → Set Data
  | .insert (some data) => insert data S
  | .clear => ∅
  | _ => S

variable {bf bf' : Bloom} {m k : ℕ} {S S' : Set Data} {data : Data} {bits : List (BitVec 64)}
  {calls : List Call}

theorem index_eq (hm : m ≠ 0) (data : Data) (i : ℕ) : ∃ p < m, index m data i = .ok p := by
  rw [index, if_neg hm]
  exact ⟨_, Nat.mod_lt _ (Nat.pos_of_ne_zero hm), rfl⟩

theorem positions_nonempty (hm : m ≠ 0) (hk : k ≠ 0) (data : Data) :
    (positions m k data).Nonempty := by
  obtain ⟨p, -, hp⟩ := index_eq hm data 0
  exact ⟨p, 0, Nat.pos_of_ne_zero hk, hp⟩

/-! ## Words -/

theorem bitSet_eq {idx : ℕ} (h : idx < bits.length * 64) :
    bitSet bits idx = .ok (setBit bits idx) := by
  have hword : idx / 64 < bits.length := by omega
  rw [bitSet, readSlot_eq (List.getElem?_eq_getElem hword)]
  simp only [bind, Except.bind]
  rw [writeSlot_eq hword, setBit, List.getD_eq_getElem _ _ hword]

theorem shift_and_one_ne_zero (x : BitVec 64) (n : ℕ) :
    ((x >>> n) &&& 1#64 != 0#64) = x.getLsbD n := by
  rw [BitVec.and_one_eq_setWidth_ofBool_getLsbD, BitVec.getLsbD_ushiftRight, Nat.add_zero]
  cases x.getLsbD n <;> rfl

theorem bitTest_eq {idx : ℕ} (h : idx < bits.length * 64) :
    bitTest bits idx = .ok (bit bits idx) := by
  have hword : idx / 64 < bits.length := by omega
  rw [bitTest, readSlot_eq (List.getElem?_eq_getElem hword)]
  simp only [bind, Except.bind, pure, Except.pure]
  rw [shift_and_one_ne_zero, bit, List.getD_eq_getElem _ _ hword]

/-- The filter has `m` bits and `k` hashes, and holds the elements of `S`. -/
structure Represents (m k : ℕ) (bf : Bloom) (S : Set Data) : Prop where
  numBits : bf.numBits = m
  numHashes : bf.numHashes = k
  words : bf.bits.length * 64 = m
  nonzero : m ≠ 0
  hashes : k ≠ 0
  bits : ∀ p, bit bf.bits p = true ↔ p ∈ cells m k S

theorem cells_insert (m k : ℕ) (data : Data) (S : Set Data) :
    cells m k (insert data S) = positions m k data ∪ cells m k S := Set.biUnion_insert data S _

/-! ## Calls -/

theorem insertLoop_eq (hm : m ≠ 0) (hwords : bits.length * 64 = m) (data : Data) (is : List ℕ) :
    ∃ bits', is.foldlM (fun bits i => (index m data i).bind (bitSet bits)) bits = .ok bits' ∧
      bits'.length = bits.length ∧
      ∀ p, bit bits' p = true ↔ (∃ i ∈ is, index m data i = .ok p) ∨ bit bits p = true := by
  induction is generalizing bits with
  | nil => exact ⟨bits, rfl, rfl, by simp⟩
  | cons i is ih =>
    obtain ⟨q, hq, hindex⟩ := index_eq hm data i
    have hset := bitSet_eq (by omega : q < bits.length * 64)
    obtain ⟨bits', hloop, hlen, hbits⟩ := @ih (setBit bits q) (by rwa [length_setBit])
    refine ⟨bits', ?_, by rw [hlen, length_setBit], ?_⟩
    · rw [List.foldlM_cons, hindex]
      simp only [Except.bind, hset]
      exact hloop
    · intro p
      rw [hbits, bit_setBit (by norm_num) (by omega)]
      simp only [List.mem_cons, exists_eq_or_imp, hindex, Except.ok.injEq, Bool.or_eq_true,
        decide_eq_true_eq, eq_comm (a := q)]
      rw [or_assoc, or_left_comm]

theorem insert_represents (h : Represents m k bf S) (data : Data) :
    ∃ bf', zenitBloomInsert bf (some data) = .ok bf' ∧ Represents m k bf' (insert data S) := by
  obtain ⟨bits', hloop, hlen, hbits⟩ := insertLoop_eq h.nonzero h.words data (List.range k)
  refine ⟨{ bf with bits := bits', count := wrap (bf.count + 1) }, ?_, h.numBits, h.numHashes,
    by rw [hlen, h.words], h.nonzero, h.hashes, ?_⟩
  · rw [zenitBloomInsert, h.numBits, h.numHashes, hloop]
    rfl
  · intro p
    rw [cells_insert, Set.mem_union, ← h.bits, hbits]
    simp only [List.mem_range]
    exact Iff.rfl

theorem containsLoop_eq (hm : m ≠ 0) (hwords : bits.length * 64 = m) (data : Data) (is : List ℕ) :
    ∃ answer, is.allM (fun i => (index m data i).bind (bitTest bits)) = .ok answer ∧
      (answer = true ↔ ∀ i ∈ is, ∀ p, index m data i = .ok p → bit bits p = true) := by
  induction is with
  | nil => exact ⟨true, rfl, by simp⟩
  | cons i is ih =>
    obtain ⟨q, hq, hindex⟩ := index_eq hm data i
    have htest := bitTest_eq (by omega : q < bits.length * 64)
    rw [List.allM, hindex]
    simp only [Except.bind, htest, bind]
    cases hbit : bit bits q with
    | false =>
      refine ⟨false, rfl, ?_⟩
      simp only [Bool.false_eq_true, false_iff]
      intro hall
      have hset := hall i List.mem_cons_self q hindex
      rw [hbit] at hset
      cases hset
    | true =>
      obtain ⟨answer, hloop, hanswer⟩ := ih
      refine ⟨answer, hloop, ?_⟩
      rw [hanswer]
      simp only [List.mem_cons, forall_eq_or_imp, hindex, Except.ok.injEq, forall_eq', hbit,
        true_and]

/-- The answer is whether all positions of the element are among the bits that are set. -/
theorem contains_iff (h : Represents m k bf S) (data : Data) :
    ∃ answer, zenitBloomContains bf (some data) = .ok answer ∧
      (answer = true ↔ positions m k data ⊆ cells m k S) := by
  obtain ⟨answer, hloop, hanswer⟩ := containsLoop_eq h.nonzero h.words data (List.range k)
  refine ⟨answer, ?_, ?_⟩
  · rw [zenitBloomContains, h.numBits, h.numHashes]
    exact hloop
  · rw [hanswer]
    simp only [h.bits, List.mem_range]
    constructor
    · rintro hall p ⟨i, hi, hp⟩
      exact hall i hi p hp
    · intro hsub i hi p hp
      exact hsub ⟨i, hi, hp⟩

theorem zeros_represent (hm : m % 64 = 0) (hpos : m ≠ 0) (hlt : m < 2 ^ 64) (hk : k ≠ 0)
    (count : ℕ) :
    Represents m k ⟨List.replicate (slotsOf 8 (m / 64)) 0#64, m, k, count⟩ ∅ := by
  refine ⟨rfl, rfl, ?_, hpos, hk, ?_⟩
  · rw [List.length_replicate, slotsOf_eq (by norm_num) (by omega)]
    omega
  · intro p
    simp [bit_zeros, cells]

theorem clear_represents (h : Represents m k bf S) (hm : m < 2 ^ 64) :
    ∃ bf', zenitBloomClear bf = .ok bf' ∧ Represents m k bf' ∅ := by
  have hwords := h.words
  have hslots : slotsOf 8 (m / 64) = bf.bits.length := by
    rw [slotsOf_eq (by norm_num) (by omega)]
    omega
  have hwrite : writeSlots bf.bits 0 (List.replicate (slotsOf 8 (m / 64)) 0#64) =
      .ok (List.replicate (slotsOf 8 (m / 64)) 0#64) := by
    rw [writeSlots, if_pos (by simp [hslots]), patch]
    simp [hslots]
  refine ⟨_, ?_, zeros_represent (by omega) h.nonzero hm h.hashes 0⟩
  rw [zenitBloomClear, h.numBits, hwrite, ← h.numHashes]
  rfl

theorem step_represents (h : Represents m k bf S) (hm : m < 2 ^ 64) (call : Call) :
    ∃ bf' reply, step bf call = .ok (bf', reply) ∧ Represents m k bf' (since S call) := by
  match call with
  | .insert none => exact ⟨bf, none, rfl, h⟩
  | .insert (some data) =>
    obtain ⟨bf', hinsert, h'⟩ := insert_represents h data
    exact ⟨bf', none, by rw [step, hinsert]; rfl, h'⟩
  | .contains none => exact ⟨bf, some false, rfl, h⟩
  | .contains (some data) =>
    obtain ⟨answer, hcontains, -⟩ := contains_iff h data
    exact ⟨bf, some answer, by rw [step, hcontains]; rfl, h⟩
  | .clear =>
    obtain ⟨bf', hclear, h'⟩ := clear_represents h hm
    exact ⟨bf', none, by rw [step, hclear]; rfl, h'⟩

/-! ## Runs -/

theorem run_represents (h : Represents m k bf S) (hm : m < 2 ^ 64) (calls : List Call) :
    ∃ bf' replies, run step bf calls = .ok (bf', replies) ∧
      Represents m k bf' (calls.foldl since S) := by
  induction calls generalizing bf S with
  | nil => exact ⟨bf, [], rfl, h⟩
  | cons call calls ih =>
    obtain ⟨bf₁, reply, hstep, h₁⟩ := step_represents h hm call
    obtain ⟨bf', replies, hrun, h'⟩ := ih h₁
    exact ⟨bf', reply :: replies, run_cons hstep hrun, h'⟩

theorem subset_since {call : Call} (hcall : call ≠ .clear) (S : Set Data) : S ⊆ since S call := by
  match call with
  | .insert none => exact subset_rfl
  | .insert (some data) => exact Set.subset_insert data S
  | .contains _ => exact subset_rfl
  | .clear => exact absurd rfl hcall

theorem subset_foldl_since (hcalls : .clear ∉ calls) (S : Set Data) :
    S ⊆ calls.foldl since S := by
  induction calls generalizing S with
  | nil => exact subset_rfl
  | cons call calls ih =>
    rw [List.mem_cons, not_or] at hcalls
    exact (subset_since (Ne.symm hcalls.1) S).trans (ih hcalls.2 (since S call))

/-- The bits of a new filter, as the constructor rounds them. -/
def roundedBits (numBits : ℕ) : ℕ :=
  if numBits % 64 ≠ 0 then wrap ((numBits / 64 + 1) * 64) else numBits

theorem create_eq {okHandle okBits : Bool} {numBits numHashes : ℕ}
    (hcreate : bloomCreateCommon okHandle okBits numBits numHashes = some bf) :
    numBits ≠ 0 ∧ numHashes ≠ 0 ∧
      bf = ⟨List.replicate (slotsOf 8 (roundedBits numBits / 64)) 0#64, roundedBits numBits,
        numHashes, 0⟩ := by
  unfold bloomCreateCommon at hcreate
  split_ifs at hcreate with hzero hround
  · cases hcreate
    rw [not_or] at hzero
    exact ⟨hzero.1, hzero.2, by rw [roundedBits, if_pos hround]⟩
  · cases hcreate
    rw [not_or] at hzero
    exact ⟨hzero.1, hzero.2, by rw [roundedBits, if_neg hround]⟩

theorem roundedBits_lt {numBits : ℕ} (hsize : numBits < 2 ^ 64) :
    roundedBits numBits < 2 ^ 64 ∧ roundedBits numBits % 64 = 0 := by
  unfold roundedBits wrap
  split_ifs <;> omega

theorem create_represents {okHandle okBits : Bool} {numBits numHashes : ℕ}
    (hsize : numBits < 2 ^ 64)
    (hcreate : bloomCreateCommon okHandle okBits numBits numHashes = some bf)
    (hbits : bf.numBits ≠ 0) :
    Represents bf.numBits bf.numHashes bf ∅ ∧ bf.numBits < 2 ^ 64 := by
  obtain ⟨-, hk, rfl⟩ := create_eq hcreate
  obtain ⟨hlt, hmod⟩ := roundedBits_lt hsize
  exact ⟨zeros_represent hmod hbits hlt hk 0, hlt⟩

/-- A filter that has been created with some bits has no false negatives, answers no while nothing
has been inserted, depends on nothing but the set of what has been inserted, and loses no bit until
it is cleared. All its accesses are to its own bits. -/
theorem bloom_filter_runs {okHandle okBits : Bool} {numBits numHashes : ℕ}
    (hsize : numBits < 2 ^ 64)
    (hcreate : bloomCreateCommon okHandle okBits numBits numHashes = some bf)
    (hbits : bf.numBits ≠ 0) (calls : List Call) :
    ∃ bf' replies, run step bf calls = .ok (bf', replies) ∧
      (∀ data ∈ calls.foldl since ∅, zenitBloomContains bf' (some data) = .ok true) ∧
      (calls.foldl since ∅ = ∅ → ∀ data, zenitBloomContains bf' (some data) = .ok false) ∧
      (∀ calls₂ bf₂ replies₂, run step bf calls₂ = .ok (bf₂, replies₂) →
        calls₂.foldl since ∅ = calls.foldl since ∅ → bf₂.bits = bf'.bits) ∧
      (∀ more bf₂ replies₂, .clear ∉ more → run step bf' more = .ok (bf₂, replies₂) →
        ∀ p, bit bf'.bits p = true → bit bf₂.bits p = true) ∧
      ∀ data i, ∃ p, index bf'.numBits data i = .ok p ∧ p < bf'.numBits ∧
        p / 64 < bf'.bits.length := by
  obtain ⟨h, hlt⟩ := create_represents hsize hcreate hbits
  obtain ⟨bf', replies, hrun, h'⟩ := run_represents h hlt calls
  refine ⟨bf', replies, hrun, ?_, ?_, ?_, ?_, ?_⟩
  · intro data hdata
    obtain ⟨answer, hcontains, hanswer⟩ := contains_iff h' data
    rw [hcontains, hanswer.mpr (Set.subset_biUnion_of_mem hdata)]
  · intro hempty data
    obtain ⟨answer, hcontains, hanswer⟩ := contains_iff h' data
    have hno : answer ≠ true := by
      intro htrue
      obtain ⟨p, hp⟩ := positions_nonempty h.nonzero h.hashes data
      have hcell := hanswer.mp htrue hp
      simp [hempty, cells] at hcell
    rw [hcontains, Bool.eq_false_of_not_eq_true hno]
  · intro calls₂ bf₂ replies₂ hrun₂ hsame
    obtain ⟨bf₃, replies₃, hrun₃, h₃⟩ := run_represents h hlt calls₂
    rw [hrun₂] at hrun₃
    cases hrun₃
    have hlen₂ := h₃.words
    have hlen := h'.words
    refine words_ext (by norm_num) (by omega) fun p => ?_
    rw [Bool.eq_iff_iff, h₃.bits, h'.bits, hsame]
  · intro more bf₂ replies₂ hmore hrun₂ p hp
    obtain ⟨bf₃, replies₃, hrun₃, h₃⟩ := run_represents h' hlt more
    rw [hrun₂] at hrun₃
    cases hrun₃
    rw [h'.bits] at hp
    rw [h₃.bits]
    exact Set.biUnion_subset_biUnion_left (subset_foldl_since hmore _) hp
  · intro data i
    have hwords := h'.words
    rw [h'.numBits]
    obtain ⟨p, hp, hindex⟩ := index_eq h.nonzero data i
    exact ⟨p, hindex, hp, by omega⟩

/-- A filter of 100 bits, that is 128, with three hashes. -/
theorem small_bloom_filter_runs : ∃ bf bf' replies,
    bloomCreateCommon true true 100 3 = some bf ∧ bf.numBits = 128 ∧
      run step bf [.insert (some [1]), .clear, .insert (some [2])] = .ok (bf', replies) ∧
      zenitBloomContains bf' (some [2]) = .ok true := by
  obtain ⟨bf', replies, hrun, hmember, -⟩ := @bloom_filter_runs
    ⟨List.replicate (slotsOf 8 2) 0#64, 128, 3, 0⟩ true true 100 3 (by norm_num) rfl (by simp)
    [.insert (some [1]), .clear, .insert (some [2])]
  exact ⟨_, bf', replies, rfl, rfl, hrun, hmember [2] (by simp [since])⟩

/-! ## Sizes -/

/-- The filter has at least the requested bits, in whole words that the array has, and every
remainder by their number is defined. -/
structure SizedFor (requested : ℕ) (bf : Bloom) : Prop where
  whole : 64 ∣ bf.numBits
  pos : 0 < bf.numBits
  enough : requested ≤ bf.numBits
  words : bf.bits.length = bf.numBits / 64
  divides : ∀ data i, ∃ p, index bf.numBits data i = .ok p

/-- The rounding wraps to zero for the last 63 sizes. -/
theorem le_roundedBits_iff {numBits : ℕ} (hsize : numBits < 2 ^ 64) :
    numBits ≤ roundedBits numBits ↔ numBits ≤ 2 ^ 64 - 64 := by
  unfold roundedBits wrap
  split_ifs <;> omega

theorem create_sized_iff {okHandle okBits : Bool} {numBits numHashes : ℕ}
    (hsize : numBits < 2 ^ 64)
    (hcreate : zenitBloomCreateExplicitWithAllocator okHandle okBits numBits numHashes = some bf) :
    SizedFor numBits bf ↔ numBits ≤ 2 ^ 64 - 64 := by
  obtain ⟨hpos, -, rfl⟩ := create_eq hcreate
  obtain ⟨hlt, hmod⟩ := roundedBits_lt hsize
  rw [← le_roundedBits_iff hsize]
  constructor
  · intro h
    exact h.enough
  · intro hle
    have hne : roundedBits numBits ≠ 0 := by omega
    refine ⟨Nat.dvd_of_mod_eq_zero hmod, Nat.pos_of_ne_zero hne, hle, ?_, fun data i => ?_⟩
    · rw [List.length_replicate, slotsOf_eq (by norm_num) (by omega)]
    · obtain ⟨p, -, hp⟩ := index_eq hne data i
      exact ⟨p, hp⟩

theorem create_sized_hundred : ∃ bf,
    zenitBloomCreateExplicitWithAllocator true true 100 3 = some bf ∧ SizedFor 100 bf := by
  have hcreate : zenitBloomCreateExplicitWithAllocator true true 100 3 =
      some ⟨List.replicate (slotsOf 8 2) 0#64, 128, 3, 0⟩ := rfl
  exact ⟨_, hcreate, (create_sized_iff (by norm_num) hcreate).mpr (by norm_num)⟩

/-- A filter of no bits: an insertion divides by zero. -/
theorem last_size_has_no_bits : ∃ bf,
    zenitBloomCreateExplicitWithAllocator true true (2 ^ 64 - 1) 1 = some bf ∧ bf.numBits = 0 ∧
      zenitBloomInsert bf (some [1]) = .error .outOfBounds ∧ ¬SizedFor (2 ^ 64 - 1) bf := by
  refine ⟨⟨[], 0, 1, 0⟩, rfl, rfl, rfl, fun h => ?_⟩
  exact absurd h.pos (lt_irrefl 0)

end LibZenit.Blooms
