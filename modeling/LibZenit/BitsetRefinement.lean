import LibZenit.BitsetPadding

/-!
# The bit set is a set

A bit set denotes the positions that it tests as 1. The bits that a shrink leaves behind the
capacity are not seen at once, but a later growth shows them.
-/
namespace LibZenit.Bitsets
open Blocks PackedBits

variable {bs bs' : Bitset} {pos n fuel : ℕ}

/-! ## The set -/

@[ext]
structure View where
  members : Set ℕ
  capacity : ℕ

def denoted (bs : Bitset) : View :=
  ⟨{pos | zenitBitsetTest bs pos = .ok 1}, zenitBitsetCapacity bs⟩

/-- The call changes the membership of one position, and makes room for it. -/
def Adjusts (change : Set ℕ → Set ℕ) (ok : Bool) (pos : ℕ) (v : View) (reply : Reply UInt8)
    (v' : View) : Prop :=
  (reply = ⟨.ok, none⟩ ∧ v'.members = change v.members ∧ pos < v'.capacity ∧
    v.capacity ≤ v'.capacity ∧ (pos < v.capacity → v'.capacity = v.capacity)) ∨
  (ok = false ∧ v.capacity ≤ pos ∧ reply = ⟨.alloc, none⟩ ∧ v' = v)

open Classical in
/-- What the calls promise. -/
def Conforms (v : View) : Call → Reply UInt8 → View → Prop
  | .set ok _ pos, reply, v' => Adjusts (insert pos ·) ok pos v reply v'
  | .clear ok _ pos, reply, v' => Adjusts (· \ {pos}) ok pos v reply v'
  | .toggle ok _ pos, reply, v' => Adjusts (symmDiff · {pos}) ok pos v reply v'
  | .test pos, reply, v' => reply = ⟨.ok, some (if pos ∈ v.members then 1 else 0)⟩ ∧ v' = v
  | .setAll, reply, v' => reply = ⟨.ok, none⟩ ∧ v' = ⟨{pos | pos < v.capacity}, v.capacity⟩
  | .clearAll, reply, v' => reply = ⟨.ok, none⟩ ∧ v' = ⟨∅, v.capacity⟩
  | .resize ok _ n, reply, v' =>
    (ok = true ∧ reply = ⟨.ok, none⟩ ∧ v' = ⟨{pos ∈ v.members | pos < n}, n⟩) ∨
    (ok = false ∧ reply = ⟨.alloc, none⟩ ∧ v' = v)

def Readable (bs : Bitset) : Prop := ∀ pos, ∃ b, zenitBitsetTest bs pos = .ok b

/-- Every call of the run does to the denoted set what it promises. -/
def ActsAsSet (fuel : ℕ) : Bitset → List Call → Prop
  | bs, [] => Readable bs
  | bs, call :: calls => Readable bs ∧ ∃ bs' reply, step fuel bs call = .ok (bs', reply) ∧
      Conforms (denoted bs) call reply (denoted bs') ∧ ActsAsSet fuel bs' calls

/-- Whatever size the set is given next, it keeps exactly the members below it. -/
def Lasting (fuel : ℕ) (bs : Bitset) : Prop :=
  ∀ junk m, m + 7 < 2 ^ 64 → ActsAsSet fuel bs [.resize true junk m]

/-! ## Padded sets -/

theorem Padded.readable (h : Padded bs) : Readable bs := fun pos => ⟨_, h.test pos⟩

theorem Padded.mem_denoted (h : Padded bs) (pos : ℕ) :
    pos ∈ (denoted bs).members ↔ bit bs.bits pos = true := by
  show zenitBitsetTest bs pos = .ok 1 ↔ bit bs.bits pos = true
  rw [h.test]
  cases bit bs.bits pos <;> simp

/-- What `adjust` does to a set is what `g` does to the bit of a position. -/
def Mirrors (pos : ℕ) (adjust : Set ℕ → Set ℕ) (g : Bool → Bool) : Prop :=
  ∀ s i b, (i ∈ s ↔ b = true) → (i ∈ adjust s ↔ (if i = pos then g b else b) = true)

theorem insert_mirrors (pos : ℕ) : Mirrors pos (insert pos ·) fun _ => true := by
  intro s i b hb
  by_cases hi : i = pos <;> simp [hi, hb]

theorem diff_mirrors (pos : ℕ) : Mirrors pos (· \ {pos}) fun _ => false := by
  intro s i b hb
  by_cases hi : i = pos <;> simp [hi, hb]

theorem symmDiff_mirrors (pos : ℕ) : Mirrors pos (symmDiff · {pos}) not := by
  intro s i b hb
  by_cases hi : i = pos
  · subst hi
    simp [Set.mem_symmDiff, hb]
  · simp [Set.mem_symmDiff, hi, hb]

theorem adjusts_of_changed {change : UInt8 → UInt8} {g : Bool → Bool} {adjust : Set ℕ → Set ℕ}
    (h : Padded bs) (hpos : pos < 2 ^ 60) (hchange : Changes pos change g)
    (hadjust : Mirrors pos adjust g) (fuel : ℕ) (ok : Bool) (junk : UInt8) :
    ∃ bs' code, changeBit change (fuel + 64) ok junk bs pos = .ok (bs', code) ∧
      Adjusts adjust ok pos (denoted bs) ⟨code, none⟩ (denoted bs') ∧ Padded bs' := by
  rcases changeBit_spec h hpos hchange fuel ok junk with ⟨hok, hout, heq⟩ | ⟨bs', heq, hnew⟩
  · exact ⟨bs, _, heq, .inr ⟨hok, hout, rfl, rfl⟩, h⟩
  · refine ⟨bs', _, heq, .inl ⟨rfl, ?_, hnew.room, hnew.grows, hnew.keeps⟩, hnew.padded⟩
    ext i
    rw [hnew.padded.mem_denoted, hnew.bits, hadjust _ i _ (h.mem_denoted i)]

theorem resized_test (bs : Bitset) (hn : n + 7 < 2 ^ 64) (pos : ℕ) :
    zenitBitsetTest (resized bs n) pos =
      .ok (if pos < n ∧ bit bs.bits pos = true then 1 else 0) := by
  have hfits := le_bytesNeeded_iff.mpr hn
  by_cases hpos : pos < n
  · have hlen : (resized bs n).bits.length = bytesNeeded n := length_resize 0 _ bs.bits
    have hbit : bit (resized bs n).bits pos = bit bs.bits pos :=
      (bit_resize bs.bits _ pos).trans (if_pos (by omega))
    rw [test_eq (by omega), hbit]
    rfl
  · have hout : pos ≥ (resized bs n).numBits := by
      show n ≤ pos
      omega
    rw [zenitBitsetTest, if_pos hout, if_neg (by simp [hpos])]

/-- Right after a resize the set is that of the members below its size, also where the resize is
not clean. -/
theorem Padded.denoted_resized (h : Padded bs) (hn : n + 7 < 2 ^ 64) :
    denoted (resized bs n) = ⟨{pos ∈ (denoted bs).members | pos < n}, n⟩ := by
  refine View.ext (Set.ext fun pos => ?_) rfl
  show zenitBitsetTest (resized bs n) pos = .ok 1 ↔ pos ∈ (denoted bs).members ∧ pos < n
  rw [resized_test bs hn, h.mem_denoted]
  split_ifs with hboth
  · exact iff_of_true rfl hboth.symm
  · exact iff_of_false (by simp) fun hand => hboth hand.symm

theorem Padded.step_conforms (h : Padded bs) (fuel : ℕ) {call : Call} (hrange : call.InRange)
    (hclean : Clean bs call) :
    ∃ bs' reply, step (fuel + 64) bs call = .ok (bs', reply) ∧
      Conforms (denoted bs) call reply (denoted bs') ∧ Padded bs' := by
  cases call with
  | set ok junk pos =>
    obtain ⟨bs', code, heq, hadjust, h'⟩ := adjusts_of_changed h hrange (set_changes pos)
      (insert_mirrors pos) fuel ok junk
    exact ⟨bs', _, congrArg (Except.map _) heq, hadjust, h'⟩
  | clear ok junk pos =>
    obtain ⟨bs', code, heq, hadjust, h'⟩ := adjusts_of_changed h hrange (clear_changes pos)
      (diff_mirrors pos) fuel ok junk
    exact ⟨bs', _, congrArg (Except.map _) heq, hadjust, h'⟩
  | toggle ok junk pos =>
    obtain ⟨bs', code, heq, hadjust, h'⟩ := adjusts_of_changed h hrange (toggle_changes pos)
      (symmDiff_mirrors pos) fuel ok junk
    exact ⟨bs', _, congrArg (Except.map _) heq, hadjust, h'⟩
  | test pos =>
    refine ⟨bs, _, congrArg (Except.map _) (h.test pos), ⟨?_, rfl⟩, h⟩
    simp [h.mem_denoted]
  | setAll =>
    have hnew := h.filled_iff.mpr hclean
    refine ⟨_, _, congrArg (Except.map _) (setAll_eq h.toShape), ⟨rfl, ?_⟩, hnew⟩
    refine View.ext (Set.ext fun pos => ?_) rfl
    show _ ↔ pos < bs.numBits
    have hfits := h.fits
    rw [h.bytes] at hfits
    rw [hnew.mem_denoted]
    by_cases hpos : pos < bs.numBits
    · exact iff_of_true (bit_replicate_ones (by omega)) hpos
    · rw [hnew.padding pos (not_lt.mp hpos)]
      simp [hpos]
  | clearAll =>
    refine ⟨_, _, congrArg (Except.map _) (clearAll_eq h.toShape), ⟨rfl, ?_⟩, h.cleared⟩
    refine View.ext (Set.ext fun pos => ?_) rfl
    rw [h.cleared.mem_denoted, bit_replicate_zero]
    simp
  | resize ok junk n =>
    cases ok with
    | false => exact ⟨bs, _, rfl, .inr ⟨rfl, rfl, rfl⟩, h⟩
    | true =>
      obtain ⟨hn, hdropped⟩ := hclean rfl
      refine ⟨_, _, congrArg (Except.map _) (resize_granted h.toShape junk n),
        .inl ⟨rfl, rfl, h.denoted_resized hn⟩, ?_⟩
      rw [resized_padded_iff]
      exact ⟨hn, fun i hi hlt => (h.test_ne_one i).mp (hdropped i hi hlt)⟩

/-! ## Runs -/

theorem Padded.lasting (h : Padded bs) : Lasting fuel bs := by
  intro junk m hm
  refine ⟨h.readable, _, _, congrArg (Except.map _) (resize_granted h.toShape junk m),
    .inl ⟨rfl, rfl, h.denoted_resized hm⟩, fun pos => ⟨_, resized_test bs hm pos⟩⟩

/-- A one behind the capacity is seen after a growth that makes room for it. -/
theorem lasting_iff (h : Shape bs) : Lasting fuel bs ↔ Padded bs := by
  refine ⟨fun hlast => ?_, Padded.lasting⟩
  have hread : Readable bs := (hlast 0 0 (by norm_num)).1
  have hfits := (tests_defined_iff h).mp fun pos _ => hread pos
  have hlen := h.bytes
  refine ⟨h, le_bytesNeeded_iff.mp (h.needed ▸ hfits), fun i hi => ?_⟩
  by_cases hin : i < 8 * bs.numBytes
  · have hlt := bytesNeeded_lt bs.numBits
    rw [← h.needed] at hlt
    have hm : i + 1 + 7 < 2 ^ 64 := by omega
    obtain ⟨-, bs', reply, hstep, hconf, -⟩ := hlast 0 (i + 1) hm
    rw [step, resize_granted h] at hstep
    cases hstep
    rcases hconf with ⟨-, -, hview⟩ | ⟨hok, -⟩
    · have hmem : i ∉ (denoted (resized bs (i + 1))).members := by
        rw [hview]
        rintro ⟨hold, -⟩
        have hout : zenitBitsetTest bs i = .ok 1 := hold
        rw [zenitBitsetTest, if_pos hi] at hout
        cases hout
      by_contra hone
      refine hmem ?_
      show zenitBitsetTest (resized bs (i + 1)) i = .ok 1
      rw [resized_test bs hm, if_pos ⟨by omega, by simpa using hone⟩]
    · cases hok
  · exact bit_eq_false (by omega)

theorem Padded.actsAsSet (h : Padded bs) {calls : List Call}
    (hrange : ∀ call ∈ calls, call.InRange)
    (hclean : Refinement.Along (step (fuel + 64)) Clean bs calls) :
    ActsAsSet (fuel + 64) bs calls := by
  induction calls generalizing bs with
  | nil => exact h.readable
  | cons call calls ih =>
    obtain ⟨bs', reply, hstep, hconf, h'⟩ :=
      h.step_conforms fuel (hrange call (by simp)) hclean.1
    exact ⟨h.readable, bs', reply, hstep, hconf,
      ih h' (fun c hc => hrange c (by simp [hc])) (hclean.2 bs' reply hstep)⟩

/-- All the calls of a run do to the denoted set what they promise, and so does any growth after
any of them, if and only if the bytes of the new set hold its bits and every call is clean. -/
theorem acts_as_set_iff {handle block : Bool} (fuel : ℕ)
    (hcreate : zenitBitsetCreate handle block n = some bs) {calls : List Call}
    (hrange : ∀ call ∈ calls, call.InRange) :
    (ActsAsSet (fuel + 64) bs calls ∧ ∀ before, before <+: calls → ∃ bs' replies,
      Refinement.run (step (fuel + 64)) bs before = .ok (bs', replies) ∧
        Lasting (fuel + 64) bs') ↔
    n + 7 < 2 ^ 64 ∧ Refinement.Along (step (fuel + 64)) Clean bs calls := by
  rw [← good_states_iff lasting_iff fuel hcreate hrange]
  refine ⟨fun h => h.2, fun hall => ⟨?_, hall⟩⟩
  obtain ⟨hsmall, hclean⟩ := (good_states_iff lasting_iff fuel hcreate hrange).mp hall
  exact ((create_padded_iff hcreate).mpr hsmall).actsAsSet hrange hclean

/-- A shrink to a whole byte, and a growth after it. -/
theorem whole_byte_shrink_acts_as_set :
    ActsAsSet 64 ⟨[0, 0], 2, 16⟩ [.set true 0 3, .resize true 0 8, .set true 0 20] := by
  have hcreate : zenitBitsetCreate true true 16 = some ⟨[0, 0], 2, 16⟩ := rfl
  have hrange : ∀ call ∈ [Call.set true 0 3, .resize true 0 8, .set true 0 20], call.InRange := by
    simp [Call.InRange]
  have hclean : Refinement.Along (step (0 + 64)) Clean ⟨[0, 0], 2, 16⟩
      [.set true 0 3, .resize true 0 8, .set true 0 20] := by
    refine ⟨trivial, fun bs _ _ => ⟨fun _ => ⟨by norm_num, fun pos hlow hhigh => ?_⟩,
      fun _ _ _ => ⟨trivial, fun _ _ _ => trivial⟩⟩⟩
    have hbytes : bytesNeeded 8 = 1 := by decide
    omega
  exact ((acts_as_set_iff 0 hcreate hrange).mpr ⟨by norm_num, hclean⟩).1

/-- A member is dropped inside the last byte, and is back after the next growth. -/
theorem dropped_member_returns :
    zenitBitsetCreate true true 16 = some ⟨[0, 0], 2, 16⟩ ∧
    ¬ActsAsSet 64 ⟨[0, 0], 2, 16⟩ [.set true 0 5, .resize true 0 3, .resize true 0 8] := by
  refine ⟨rfl, ?_⟩
  rintro ⟨-, bs₁, _, h₁, -, -, bs₂, _, h₂, -, -, bs₃, _, h₃, hconf, -⟩
  cases h₁
  cases h₂
  cases h₃
  rcases hconf with ⟨-, -, hview⟩ | ⟨hok, -⟩
  · have hback : 5 ∈ (denoted ⟨[32], 1, 8⟩).members := rfl
    have hview' : denoted ⟨[32], 1, 8⟩ =
        ⟨{pos ∈ (denoted ⟨[32], 1, 3⟩).members | pos < 8}, 8⟩ := hview
    rw [hview'] at hback
    have hgone : zenitBitsetTest ⟨[32], 1, 3⟩ 5 = .ok 1 := hback.1
    cases hgone
  · cases hok

end LibZenit.Bitsets
