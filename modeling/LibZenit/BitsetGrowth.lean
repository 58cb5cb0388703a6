import LibZenit.BitsetPadding

/-!
# Which positions a bit set can grow to

The growth loop doubles the capacity as a `size_t`. A capacity that wraps may still come to exceed
the position, else it becomes zero and starts again at one word. The capacities next to `2 ^ 64`
wrap once more when they are rounded to bytes, and then one byte is taken for all the bits.
-/
namespace LibZenit.Bitsets
open Blocks PackedBits

variable {bs bs' : Bitset} {c cap fuel k needed pos : ℕ}

/-! ## Doubling -/

theorem wrap_wrap_mul (n m : ℕ) : wrap (wrap n * m) = wrap (n * m) :=
  (Nat.mod_modEq n _).mul_right m

theorem wrap_double (c k : ℕ) : wrap (wrap (c * 2) * 2 ^ k) = wrap (c * 2 ^ (k + 1)) := by
  rw [wrap_wrap_mul, pow_succ']
  congr 1
  ring

theorem growLoop_first (hc : c < 2 ^ 64) (hneeded : 0 < needed) (hreach : needed ≤ wrap (c * 2 ^ k))
    (hbefore : ∀ j < k, wrap (c * 2 ^ j) < needed) (fuel : ℕ) :
    growLoop needed (fuel + k + 1) c = .ok (wrap (c * 2 ^ k)) := by
  induction k generalizing c with
  | zero =>
    rw [pow_zero, mul_one, wrap_of_lt hc] at hreach ⊢
    rw [growLoop, if_neg (by omega)]
  | succ k ih =>
    have hlt : c < needed := by
      have hzero := hbefore 0 (Nat.succ_pos k)
      rwa [pow_zero, mul_one, wrap_of_lt hc] at hzero
    have hne : c ≠ 0 := by
      rintro rfl
      have hzero : wrap (0 * 2 ^ (k + 1)) = 0 := by rw [Nat.zero_mul]; rfl
      omega
    rw [growLoop, if_pos hlt, if_neg hne, ← wrap_double] at *
    refine ih (Nat.mod_lt _ (by norm_num)) hreach fun j hj => ?_
    rw [wrap_double]
    exact hbefore (j + 1) (by omega)

/-- No power of two is above `2 ^ 63`. -/
theorem wrap_two_pow_le (k : ℕ) : wrap (2 ^ k) ≤ 2 ^ 63 := by
  by_cases hk : k ≤ 63
  · exact (Nat.mod_le _ _).trans (Nat.pow_le_pow_right (by norm_num) hk)
  · have hzero : wrap (2 ^ k) = 0 := Nat.mod_eq_zero_of_dvd (pow_dvd_pow 2 (by omega))
    omega

theorem wrap_word (k : ℕ) : wrap (64 * 2 ^ k) ≤ 2 ^ 63 := by
  have hpow : 64 * 2 ^ k = 2 ^ (6 + k) := by
    rw [pow_add]
    norm_num
  rw [hpow]
  exact wrap_two_pow_le _

theorem growLoop_hangs (hc : c < 2 ^ 64) (hneeded : 2 ^ 63 < needed)
    (h : ∀ k, wrap (c * 2 ^ k) < needed) (fuel : ℕ) :
    growLoop needed fuel c = .error .hang := by
  induction fuel generalizing c with
  | zero => rfl
  | succ fuel ih =>
    have hlt : c < needed := by
      have hzero := h 0
      rwa [pow_zero, mul_one, wrap_of_lt hc] at hzero
    rw [growLoop, if_pos hlt]
    split_ifs with hc0
    · exact ih (by norm_num) fun k => (wrap_word k).trans_lt hneeded
    · refine ih (Nat.mod_lt _ (by norm_num)) fun k => ?_
      rw [wrap_double]
      exact h (k + 1)

theorem growLoop_mono {m : ℕ} (h : growLoop needed fuel c = .ok cap) :
    growLoop needed (fuel + m) c = .ok cap := by
  induction fuel generalizing c with
  | zero => cases h
  | succ fuel ih =>
    rw [show fuel + 1 + m = (fuel + m) + 1 by omega, growLoop]
    rw [growLoop] at h
    by_cases hlt : c < needed
    · rw [if_pos hlt] at h ⊢
      exact ih h
    · rw [if_neg hlt] at h ⊢
      exact h

theorem growLoop_unique {fuel' cap' : ℕ} (h : growLoop needed fuel c = .ok cap)
    (h' : growLoop needed fuel' c = .ok cap') : cap' = cap := by
  have hsame := growLoop_mono (m := fuel) h'
  rw [Nat.add_comm, growLoop_mono h] at hsame
  exact (Except.ok.inj hsame).symm

theorem growLoop_lt (h : growLoop needed fuel c = .ok cap) (hc : c < 2 ^ 64) : cap < 2 ^ 64 := by
  induction fuel generalizing c with
  | zero => cases h
  | succ fuel ih =>
    rw [growLoop] at h
    split_ifs at h with hlt hzero
    · exact ih h (by norm_num)
    · exact ih h (Nat.mod_lt _ (by norm_num))
    · cases h
      exact hc

/-! ## Capacities -/

/-- Some left shift of the capacity, as a `size_t`, is above the position. Below `2 ^ 63` there
always is one; a capacity of zero starts at one word. -/
def Reaches (numBits pos : ℕ) : Prop := pos < 2 ^ 63 ∨ ∃ k < 64, pos < wrap (numBits * 2 ^ k)

/-- The first such shift is one of the numbers that wrap when they are rounded to bytes. -/
def Spills (numBits pos : ℕ) : Prop :=
  (2 ^ 63 - 3 ≤ numBits ∧ numBits < 2 ^ 63 ∧ pos < 2 * numBits) ∨
    ((numBits = 2 ^ 62 - 1 ∨ numBits = 3 * 2 ^ 62 - 1) ∧ 2 ^ 63 - 2 ≤ pos ∧ pos < 2 ^ 64 - 4)

theorem exists_double (hpos : 0 < c) (hc : c < 2 ^ 64) (hreach : Reaches c pos) :
    ∃ k, pos < wrap (c * 2 ^ k) := by
  rcases hreach with hsmall | ⟨k, -, hk⟩
  · have hex : ∃ k, pos < c * 2 ^ k :=
      ⟨pos, Nat.lt_two_pow_self.trans_le (Nat.le_mul_of_pos_left _ hpos)⟩
    refine ⟨Nat.find hex, ?_⟩
    have hfound := Nat.find_spec hex
    rw [wrap_of_lt]
    · exact hfound
    · -- the capacity before the first sufficient one is still below the position
      cases hk : Nat.find hex with
      | zero => simpa using hc
      | succ k =>
        have hbefore := Nat.find_min hex (by omega : k < Nat.find hex)
        rw [pow_succ, ← mul_assoc]
        omega
  · exact ⟨k, hk⟩

/-- The loop ends with the first sufficient capacity. -/
theorem growLoop_double (hpos : 0 < c) (hc : c < 2 ^ 64) (hreach : Reaches c pos) :
    ∃ k, pos < wrap (c * 2 ^ k) ∧ (∀ j < k, wrap (c * 2 ^ j) ≤ pos) ∧
      growLoop (pos + 1) (k + 1) c = .ok (wrap (c * 2 ^ k)) := by
  have hex := exists_double hpos hc hreach
  have hbefore : ∀ j < Nat.find hex, wrap (c * 2 ^ j) ≤ pos :=
    fun j hj => not_lt.mp (Nat.find_min hex hj)
  refine ⟨Nat.find hex, Nat.find_spec hex, hbefore, ?_⟩
  have hloop := growLoop_first hc (Nat.succ_pos pos) (Nat.find_spec hex)
    (fun j hj => Nat.lt_succ_of_le (hbefore j hj)) 0
  rwa [Nat.zero_add] at hloop

theorem spills_iff (hle : c ≤ pos) (hfound : pos < wrap (c * 2 ^ k))
    (hbefore : ∀ j < k, wrap (c * 2 ^ j) ≤ pos) :
    2 ^ 64 ≤ wrap (c * 2 ^ k) + 7 ↔ Spills c pos := by
  unfold Spills
  match k with
  | 0 =>
    rw [pow_zero, mul_one] at hfound
    exact absurd (hfound.trans_le (Nat.mod_le c _)) (not_lt.mpr hle)
  | 1 =>
    unfold wrap at *
    omega
  | 2 =>
    have hone := hbefore 1 (by omega)
    unfold wrap at *
    omega
  | k + 3 =>
    have htwo := hbefore 2 (by omega)
    have hone := hbefore 1 (by omega)
    rw [pow_add, ← mul_assoc]
    generalize c * 2 ^ k = t
    unfold wrap at *
    omega

theorem growLoop_reaches (hc : c < 2 ^ 64) (hle : c ≤ pos) (hreach : Reaches c pos) :
    ∃ fuel cap, growLoop (pos + 1) fuel c = .ok cap ∧ pos < cap ∧
      (2 ^ 64 ≤ cap + 7 ↔ Spills c pos) := by
  rcases Nat.eq_zero_or_pos c with rfl | hpos
  · have hword : Reaches 64 pos := by
      rcases hreach with hsmall | ⟨k, -, hk⟩
      · exact .inl hsmall
      · rw [Nat.zero_mul] at hk
        exact absurd hk (Nat.not_lt_zero pos)
    obtain ⟨k, hfound, -, hloop⟩ := growLoop_double (by norm_num) (by norm_num) hword
    refine ⟨k + 2, _, ?_, hfound, ?_⟩
    · rw [growLoop, if_pos (Nat.succ_pos pos), if_pos rfl]
      exact hloop
    · have hle := wrap_word k
      unfold Spills
      omega
  · obtain ⟨k, hfound, hbefore, hloop⟩ := growLoop_double hpos hc hreach
    exact ⟨_, _, hloop, hfound, spills_iff hle hfound hbefore⟩

theorem growLoop_of_not_reaches (hc : c < 2 ^ 64) (h : ¬Reaches c pos) (fuel : ℕ) :
    growLoop (pos + 1) fuel c = .error .hang := by
  unfold Reaches at h
  push Not at h
  refine growLoop_hangs hc (by omega) (fun k => ?_) fuel
  by_cases hk : k < 64
  · exact Nat.lt_succ_of_le (h.2 k hk)
  · have hzero : wrap (c * 2 ^ k) = 0 :=
      Nat.mod_eq_zero_of_dvd (Dvd.dvd.mul_left (pow_dvd_pow 2 (by omega)) c)
    omega

/-! ## Accesses -/

section Access

variable {change : UInt8 → UInt8} {ok : Bool} {junk : UInt8} {code : ZenitError}
  {p : Bitset × ZenitError}

theorem ensureCapacity_cases (h : Shape bs) (hdone : ensureCapacity fuel ok junk bs pos = .ok p) :
    (wrap (pos + 1) ≤ bs.numBits ∧ p = (bs, .ok)) ∨
    ∃ cap, bs.numBits < wrap (pos + 1) ∧ growLoop (wrap (pos + 1)) fuel bs.numBits = .ok cap ∧
      p = if ok then (resized bs cap, .ok) else (bs, .alloc) := by
  unfold ensureCapacity at hdone
  by_cases hle : wrap (pos + 1) ≤ bs.numBits
  · rw [if_pos hle] at hdone
    exact .inl ⟨hle, (Except.ok.inj hdone).symm⟩
  · rw [if_neg hle] at hdone
    obtain ⟨cap, hloop, hresize⟩ := bind_eq_ok hdone
    refine .inr ⟨cap, not_le.mp hle, hloop, ?_⟩
    cases ok with
    | false => exact (Except.ok.inj hresize).symm
    | true =>
      rw [resize_granted h] at hresize
      exact (Except.ok.inj hresize).symm

/-- A call that ends without a fault has been denied memory or has found its byte. -/
theorem changeBit_cases (hdone : changeBit change fuel ok junk bs pos = .ok (bs', code)) :
    (code ≠ .ok ∧ ensureCapacity fuel ok junk bs pos = .ok (bs', code)) ∨
    ∃ bs₁, code = .ok ∧ ensureCapacity fuel ok junk bs pos = .ok (bs₁, .ok) ∧
      pos / 8 < bs₁.bits.length ∧
      bs' = { bs₁ with bits := bs₁.bits.modify (pos / 8) change } := by
  have hcall := hdone
  unfold changeBit at hdone
  obtain ⟨⟨bs₁, code₁⟩, hroom, hrest⟩ := bind_eq_ok hdone
  split_ifs at hrest with hcode
  · cases hrest
    exact .inl ⟨hcode, hroom⟩
  · obtain rfl : code₁ = .ok := not_not.mp hcode
    obtain ⟨byte, hread, -⟩ := bind_eq_ok hrest
    have hbyte : pos / 8 < bs₁.bits.length := by
      by_contra hout
      rw [readSlot, List.getElem?_eq_none (not_lt.mp hout)] at hread
      cases hread
    rw [changeBit_room hroom hbyte] at hcall
    cases hcall
    exact .inr ⟨bs₁, rfl, hroom, hbyte, rfl⟩

/-- The call returns, and unless it was denied memory its position is below the capacity and its
byte is one of the block. -/
def InBounds (pos : ℕ) (call : ℕ → Exec (Bitset × ZenitError)) : Prop :=
  ∃ fuel bs code, call fuel = .ok (bs, code) ∧
    (code = .alloc ∨ (code = .ok ∧ pos < bs.numBits ∧ pos / 8 < bs.numBytes))

theorem inBounds_iff {bs₁ : Bitset} (h : Shape bs₁)
    (hroom : ensureCapacity fuel ok junk bs pos = .ok (bs₁, .ok))
    (hunique : ∀ fuel p, ensureCapacity fuel ok junk bs pos = .ok p → p = (bs₁, .ok)) :
    InBounds pos (fun fuel => changeBit change fuel ok junk bs pos) ↔
      pos < bs₁.numBits ∧ pos / 8 < bs₁.numBytes := by
  constructor
  · rintro ⟨fuel', bs', code, hdone, hresult⟩
    rcases changeBit_cases hdone with ⟨hcode, hroom'⟩ | ⟨bs₂, rfl, hroom', -, rfl⟩
    · exact absurd (Prod.ext_iff.mp (hunique _ _ hroom')).2 hcode
    · obtain rfl : bs₂ = bs₁ := (Prod.ext_iff.mp (hunique _ _ hroom')).1
      rcases hresult with hcode | ⟨-, hheld⟩
      · cases hcode
      · exact hheld
  · rintro ⟨hlt, hbyte⟩
    have hin : pos / 8 < bs₁.bits.length := by
      rw [h.bytes]
      exact hbyte
    exact ⟨fuel, _, _, changeBit_room hroom hin change, .inr ⟨rfl, hlt, hbyte⟩⟩

theorem byte_held_iff {n : ℕ} (hpos : pos < n) (hn : n < 2 ^ 64) :
    pos / 8 < bytesNeeded n ↔ n + 7 < 2 ^ 64 ∨ pos < 8 := by
  by_cases hsmall : n + 7 < 2 ^ 64
  · have hheld := le_bytesNeeded_iff.mpr hsmall
    exact iff_of_true (by omega) (.inl hsmall)
  · have hone : bytesNeeded n = 1 := by
      unfold bytesNeeded wrap
      dsimp only
      split_ifs <;> omega
    rw [hone]
    omega

/-- The position is not the last `size_t`; below the capacity it has a byte; from the capacity on
the doubling comes to exceed it, and what is then allocated has a byte for it. -/
structure HasRoom (ok : Bool) (numBits pos : ℕ) : Prop where
  next : pos + 1 < 2 ^ 64
  held : pos < numBits → numBits + 7 < 2 ^ 64 ∨ pos < 8
  reached : numBits ≤ pos → Reaches numBits pos
  rounded : numBits ≤ pos → ok = true → ¬Spills numBits pos

theorem inBounds_of_last (h : Shape bs) (hpos : pos + 1 = 2 ^ 64) :
    ¬InBounds pos (fun fuel => changeBit change fuel ok junk bs pos) := by
  have hzero : wrap (pos + 1) ≤ bs.numBits := by
    rw [hpos, wrap, Nat.mod_self]
    exact Nat.zero_le _
  have hroom : ensureCapacity 0 ok junk bs pos = .ok (bs, .ok) := if_pos hzero
  rw [inBounds_iff h hroom fun fuel p hdone => ?_]
  · have hbytes := bytesNeeded_lt bs.numBits
    rw [← h.needed] at hbytes
    omega
  · rw [ensureCapacity, if_pos hzero] at hdone
    exact (Except.ok.inj hdone).symm

theorem inBounds_of_lt (h : Shape bs) (hsmall : bs.numBits < 2 ^ 64) (hlt : pos < bs.numBits) :
    InBounds pos (fun fuel => changeBit change fuel ok junk bs pos) ↔
      bs.numBits + 7 < 2 ^ 64 ∨ pos < 8 := by
  have hle : wrap (pos + 1) ≤ bs.numBits := (Nat.mod_le _ _).trans hlt
  have hroom : ensureCapacity 0 ok junk bs pos = .ok (bs, .ok) := if_pos hle
  rw [inBounds_iff h hroom fun fuel p hdone => ?_, h.needed, byte_held_iff hlt hsmall]
  · exact and_iff_right hlt
  · rw [ensureCapacity, if_pos hle] at hdone
    exact (Except.ok.inj hdone).symm

theorem ensureCapacity_of_grown (h : Shape bs) (hroom : bs.numBits < wrap (pos + 1))
    (hloop : growLoop (wrap (pos + 1)) fuel bs.numBits = .ok cap) :
    ensureCapacity fuel ok junk bs pos =
      .ok (if ok then (resized bs cap, .ok) else (bs, .alloc)) := by
  rw [ensureCapacity, if_neg (not_le.mpr hroom), hloop]
  cases ok with
  | false => rfl
  | true => exact resize_granted h junk cap

theorem inBounds_of_ge (h : Shape bs) (hpos : pos + 1 < 2 ^ 64) (hge : bs.numBits ≤ pos) :
    InBounds pos (fun fuel => changeBit change fuel ok junk bs pos) ↔
      Reaches bs.numBits pos ∧ (ok = true → ¬Spills bs.numBits pos) := by
  have hsmall : bs.numBits < 2 ^ 64 := by omega
  have hwrap : wrap (pos + 1) = pos + 1 := wrap_of_lt hpos
  by_cases hreach : Reaches bs.numBits pos
  · obtain ⟨fuel, cap, hloop, hlt, hspills⟩ := growLoop_reaches hsmall hge hreach
    rw [← hwrap] at hloop
    have hroom : ensureCapacity fuel ok junk bs pos =
        .ok (if ok then (resized bs cap, .ok) else (bs, .alloc)) :=
      ensureCapacity_of_grown h (by omega) hloop
    have hunique : ∀ fuel' p, ensureCapacity fuel' ok junk bs pos = .ok p →
        p = if ok then (resized bs cap, .ok) else (bs, .alloc) := by
      intro fuel' p hdone
      rcases ensureCapacity_cases h hdone with ⟨hle, -⟩ | ⟨cap', -, hloop', rfl⟩
      · omega
      · rw [growLoop_unique hloop hloop']
    cases ok with
    | false =>
      refine iff_of_true ⟨fuel, bs, .alloc, ?_, .inl rfl⟩ ⟨hreach, fun hok => by cases hok⟩
      show changeBit change fuel false junk bs pos = .ok (bs, .alloc)
      rw [changeBit, hroom]
      rfl
    | true =>
      rw [inBounds_iff (resized_shape bs cap) hroom hunique]
      show pos < cap ∧ pos / 8 < bytesNeeded cap ↔ _
      rw [byte_held_iff hlt (growLoop_lt hloop hsmall)]
      have hfar : Spills bs.numBits pos → 8 ≤ pos := by
        unfold Spills
        omega
      constructor
      · rintro ⟨-, hfits | hnear⟩
        · exact ⟨hreach, fun _ hspill => absurd (hspills.mpr hspill) (not_le.mpr hfits)⟩
        · exact ⟨hreach, fun _ hspill => absurd (hfar hspill) (not_le.mpr hnear)⟩
      · rintro ⟨-, hfits⟩
        exact ⟨hlt, .inl (not_le.mp fun hwraps => hfits rfl (hspills.mp hwraps))⟩
  · refine iff_of_false ?_ fun hroom => hreach hroom.1
    rintro ⟨fuel, bs', code, hdone, -⟩
    have hroom : ∃ p, ensureCapacity fuel ok junk bs pos = .ok p := by
      obtain ⟨p, hroom, -⟩ := bind_eq_ok hdone
      exact ⟨p, hroom⟩
    obtain ⟨p, hroom⟩ := hroom
    rcases ensureCapacity_cases h hroom with ⟨hle, -⟩ | ⟨cap, -, hloop, -⟩
    · omega
    · rw [hwrap, growLoop_of_not_reaches hsmall hreach] at hloop
      cases hloop

theorem changeBit_inBounds_iff (h : Shape bs) (hsmall : bs.numBits < 2 ^ 64)
    (hpos : pos < 2 ^ 64) :
    InBounds pos (fun fuel => changeBit change fuel ok junk bs pos) ↔
      HasRoom ok bs.numBits pos := by
  by_cases hlast : pos + 1 = 2 ^ 64
  · refine iff_of_false (inBounds_of_last h hlast) fun hroom => ?_
    have hnext := hroom.next
    omega
  · have hnext : pos + 1 < 2 ^ 64 := by omega
    by_cases hlt : pos < bs.numBits
    · rw [inBounds_of_lt h hsmall hlt]
      constructor
      · intro hheld
        exact ⟨hnext, fun _ => hheld, fun hge => absurd hlt (not_lt.mpr hge),
          fun hge => absurd hlt (not_lt.mpr hge)⟩
      · intro hroom
        exact hroom.held hlt
    · have hge := not_lt.mp hlt
      rw [inBounds_of_ge h hnext hge]
      constructor
      · rintro ⟨hreach, hround⟩
        exact ⟨hnext, fun hin => absurd hin hlt, fun _ => hreach, fun _ => hround⟩
      · intro hroom
        exact ⟨hroom.reached hge, hroom.rounded hge⟩

/-! ## Runs -/

/-- The arguments are of type `size_t`. -/
def Call.Sized : Call → Prop
  | .set _ _ pos => pos < 2 ^ 64
  | .clear _ _ pos => pos < 2 ^ 64
  | .toggle _ _ pos => pos < 2 ^ 64
  | .test pos => pos < 2 ^ 64
  | .resize _ _ n => n < 2 ^ 64
  | _ => True

inductive Reachable : Bitset → Prop
  | create {handle block : Bool} {n : ℕ} {bs : Bitset} (sized : n < 2 ^ 64)
      (made : zenitBitsetCreate handle block n = some bs) : Reachable bs
  | step {fuel : ℕ} {bs bs' : Bitset} {call : Call} {reply : Reply UInt8} (prior : Reachable bs)
      (sized : call.Sized) (done : step fuel bs call = .ok (bs', reply)) : Reachable bs'

/-- The block has the bytes that the capacity, a `size_t`, asks for. -/
def Formed (bs : Bitset) : Prop := Shape bs ∧ bs.numBits < 2 ^ 64

theorem changeBit_formed (h : Formed bs)
    (hdone : changeBit change fuel ok junk bs pos = .ok (bs', code)) : Formed bs' := by
  have hroom : ∀ {p}, ensureCapacity fuel ok junk bs pos = .ok p → Formed p.1 := by
    intro p hdone
    rcases ensureCapacity_cases h.1 hdone with ⟨-, rfl⟩ | ⟨cap, -, hloop, rfl⟩
    · exact h
    · cases ok with
      | false => exact h
      | true => exact ⟨resized_shape bs cap, growLoop_lt hloop h.2⟩
  rcases changeBit_cases hdone with ⟨-, hdone'⟩ | ⟨bs₁, -, hdone', -, rfl⟩
  · exact hroom hdone'
  · obtain ⟨hshape, hsmall⟩ := hroom hdone'
    exact ⟨⟨by simp [hshape.bytes], hshape.needed⟩, hsmall⟩

theorem step_formed {call : Call} {reply : Reply UInt8} (h : Formed bs) (hsized : call.Sized)
    (hdone : step fuel bs call = .ok (bs', reply)) : Formed bs' := by
  cases call with
  | set ok junk pos =>
    obtain ⟨p, hchange, hp⟩ := map_eq_ok hdone
    cases hp
    exact changeBit_formed h hchange
  | clear ok junk pos =>
    obtain ⟨p, hchange, hp⟩ := map_eq_ok hdone
    cases hp
    exact changeBit_formed h hchange
  | toggle ok junk pos =>
    obtain ⟨p, hchange, hp⟩ := map_eq_ok hdone
    cases hp
    exact changeBit_formed h hchange
  | test pos =>
    obtain ⟨b, -, hp⟩ := map_eq_ok hdone
    cases hp
    exact h
  | setAll =>
    rw [step, setAll_eq h.1] at hdone
    cases hdone
    exact ⟨⟨List.length_replicate, h.1.needed⟩, h.2⟩
  | clearAll =>
    rw [step, clearAll_eq h.1] at hdone
    cases hdone
    exact ⟨⟨List.length_replicate, h.1.needed⟩, h.2⟩
  | resize ok junk n =>
    cases ok with
    | false =>
      cases hdone
      exact h
    | true =>
      rw [step, resize_granted h.1] at hdone
      cases hdone
      exact ⟨resized_shape bs n, hsized⟩

theorem Reachable.formed (h : Reachable bs) : Formed bs := by
  induction h with
  | create sized made =>
    have hshape := create_shape made
    obtain rfl := create_eq made
    exact ⟨hshape, sized⟩
  | step prior sized done ih => exact step_formed ih sized done

/-- Setting, clearing or toggling a bit of a reachable set returns, and ends with the position
below the capacity and its byte in the block unless memory was denied, exactly if there is room. -/
theorem access_in_bounds_iff (h : Reachable bs) (hpos : pos < 2 ^ 64) (ok : Bool) (junk : UInt8) :
    (InBounds pos (fun fuel => zenitBitsetSet fuel ok junk bs pos) ↔
      HasRoom ok bs.numBits pos) ∧
    (InBounds pos (fun fuel => zenitBitsetClear fuel ok junk bs pos) ↔
      HasRoom ok bs.numBits pos) ∧
    (InBounds pos (fun fuel => zenitBitsetToggle fuel ok junk bs pos) ↔
      HasRoom ok bs.numBits pos) := by
  obtain ⟨hshape, hsmall⟩ := h.formed
  exact ⟨changeBit_inBounds_iff hshape hsmall hpos, changeBit_inBounds_iff hshape hsmall hpos,
    changeBit_inBounds_iff hshape hsmall hpos⟩

theorem access_in_bounds_grown :
    InBounds 20 (fun fuel => zenitBitsetSet fuel true 0 ⟨[0, 0], 2, 16⟩ 20) := by
  have hcreate : zenitBitsetCreate true true 16 = some ⟨[0, 0], 2, 16⟩ := rfl
  have hroom : HasRoom true 16 20 :=
    ⟨by norm_num, fun _ => .inl (by norm_num), fun _ => .inl (by norm_num),
      fun _ _ hspill => absurd hspill (by norm_num [Spills])⟩
  exact (access_in_bounds_iff (.create (by norm_num) hcreate) (by norm_num) true 0).1.mpr hroom

/-- One word of bits: no shift of it exceeds `2 ^ 63`, and the last position wraps to zero bits. -/
theorem far_positions_fail : Reachable ⟨List.replicate 8 0, 8, 64⟩ ∧
    (∀ fuel ok junk, zenitBitsetSet fuel ok junk ⟨List.replicate 8 0, 8, 64⟩ (2 ^ 63) =
      .error .hang) ∧
    (∀ fuel ok junk, zenitBitsetSet fuel ok junk ⟨List.replicate 8 0, 8, 64⟩ (2 ^ 64 - 1) =
      .error .outOfBounds) ∧
    ∀ ok junk, ¬InBounds (2 ^ 63)
      fun fuel => zenitBitsetSet fuel ok junk ⟨List.replicate 8 0, 8, 64⟩ (2 ^ 63) := by
  have hcreate : zenitBitsetCreate true true 64 = some ⟨List.replicate 8 0, 8, 64⟩ := rfl
  have hfar : ¬Reaches 64 (2 ^ 63) := by
    rintro (hlt | ⟨k, -, hk⟩)
    · exact absurd hlt (lt_irrefl _)
    · exact absurd hk (not_lt.mpr (wrap_word k))
  have hhang : ∀ fuel ok junk, zenitBitsetSet fuel ok junk ⟨List.replicate 8 0, 8, 64⟩ (2 ^ 63) =
      .error .hang := by
    intro fuel ok junk
    have hwrap : wrap (2 ^ 63 + 1) = 2 ^ 63 + 1 := wrap_of_lt (by norm_num)
    have hloop := growLoop_of_not_reaches (by norm_num) hfar fuel
    rw [zenitBitsetSet, changeBit, ensureCapacity, hwrap, if_neg (by norm_num), hloop]
    rfl
  refine ⟨.create (by norm_num) hcreate, hhang, fun fuel ok junk => ?_, fun ok junk h => ?_⟩
  · have hwrap : wrap (2 ^ 64 - 1 + 1) = 0 := by norm_num [wrap]
    have hread : readSlot (List.replicate 8 (0 : UInt8)) ((2 ^ 64 - 1) / 8) =
        .error .outOfBounds := by
      rw [readSlot, List.getElem?_eq_none (by norm_num)]
    rw [zenitBitsetSet, changeBit, ensureCapacity, hwrap, if_pos (Nat.zero_le _)]
    simp only [Except.bind, ne_eq, not_true_eq_false, if_false, hread]
  · obtain ⟨fuel, bs, code, hdone, -⟩ := h
    have hfault := hdone.symm.trans (hhang fuel ok junk)
    cases hfault

end Access

end LibZenit.Bitsets
