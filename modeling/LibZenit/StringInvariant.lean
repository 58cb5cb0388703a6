import LibZenit.StringModel
import LibZenit.VectorRefinement

/-!
# The terminator of a string

An append reserves room for all that it is going to push, and a string keeps the room of its
terminator when it is shrunk or cleared. So no push inside a call has to ask for memory, and the
results that the code does not look at are those of calls that have succeeded.
-/
namespace LibZenit.Strings
open Blocks CString Vectors Growth

variable {env : Setting} {s s' : ZString} {v : Vector UInt8} {l : Text}

/-! ## The contents -/

/-- The bytes that a call adds if it succeeds. -/
def appended : Call → Text
  | .append _ data len => (data.getD []).take len
  | .appendCstr _ cstr => (cstr.getD []).takeWhile (· != 0)
  | _ => []

def contents (l : Text) : Call → ZenitError → Text
  | .clear _, _ => []
  | call, .ok => l ++ appended call
  | _, _ => l

/-- The failures there are: NULL in place of data, and memory that cannot be had. -/
def Fails (l : Text) : Call → ZenitError → Prop
  | .append _ data len, .null => data = none ∧ 0 < len
  | .append mem data len, .alloc => data ≠ none ∧ granted mem.block (l.length + 1 + len) = false
  | .appendCstr mem cstr, .alloc =>
    granted mem.block (l.length + 1 + ((cstr.getD []).takeWhile (· != 0)).length) = false
  | .reserve ok capacity, .alloc => granted ok capacity = false
  | .shrinkToFit ok, .alloc => ok = false
  | _, _ => False

/-- The results that nobody looks at are those of a success. -/
def Conforms (l : Text) (call : Call) (out : Outcome) (l' : Text) : Prop :=
  l' = contents l call out.result ∧ (out.result = .ok ∨ Fails l call out.result) ∧
    ∀ r ∈ out.ignored, r = .ok

/-- Data is an object in memory, and a C string has a terminator. -/
def Call.Valid : Call → Prop
  | .append _ (some data) len => len ≤ data.length ∧ data.length < 2 ^ 63
  | .appendCstr _ (some cstr) => 0 ∈ cstr ∧ cstr.length < 2 ^ 63
  | _ => True

/-! ## The representation -/

structure Represents (s : ZString) (l : Text) : Prop where
  vec : Vectors.Represents s.vec (l ++ [0])
  byte : s.vec.elemSize = 1
  object : s.vec.capacity < 2 ^ 63

/-- A push into a vector that has room neither grows nor fails, whatever the allocator would say. -/
theorem push_spec (h : Vectors.Represents v l) (hroom : l.length < v.capacity) (env : Setting)
    (ok : Bool) (byte : UInt8) :
    ∃ v', env.call v (.push ok byte) = .ok (v', .ok) ∧ Vectors.Represents v' (l ++ [byte]) ∧
      v'.capacity = v.capacity ∧ v'.elemSize = v.elemSize := by
  have hcount := h.count
  obtain ⟨v', hput, h'⟩ := putLast_spec h hroom byte
  have hstep : stepBy env.hasRealloc env.fuel v (.push ok byte) = .ok (v', ⟨.ok, none⟩) :=
    (if_neg (by omega)).trans hput
  exact ⟨v', congrArg (Except.map _) hstep, h', putLast_frame hput⟩

theorem pushBytes_spec (h : Vectors.Represents v l) {bytes : Text} {len : ℕ}
    (hlen : len ≤ bytes.length) (hroom : l.length + len ≤ v.capacity) (env : Setting)
    (mem : Memory) :
    ∃ v', pushBytes env mem bytes v len = .ok (v', List.replicate len .ok) ∧
      Vectors.Represents v' (l ++ bytes.take len) ∧
      v'.capacity = v.capacity ∧ v'.elemSize = v.elemSize := by
  induction len with
  | zero => exact ⟨v, rfl, by simpa using h, rfl, rfl⟩
  | succ n ih =>
    obtain ⟨v₁, hloop, h₁, hcap, hsize⟩ := ih (by omega) (by omega)
    have hlength : (l ++ bytes.take n).length = l.length + n := by
      rw [List.length_append, List.length_take]
      omega
    have hread : readSlot bytes n = .ok bytes[n] :=
      readSlot_eq (List.getElem?_eq_getElem (by omega))
    obtain ⟨v₂, hpush, h₂, hcap₂, hsize₂⟩ :=
      push_spec h₁ (by omega) env (mem.push n) bytes[n]
    rw [pushBytes] at hloop
    refine ⟨v₂, ?_, ?_, hcap₂.trans hcap, hsize₂.trans hsize⟩
    · rw [pushBytes, List.range_succ, List.foldlM_append, hloop]
      simp only [bind, Except.bind, List.foldlM_cons, List.foldlM_nil, hread, hpush,
        List.replicate_succ']
      rfl
    · rw [List.take_succ_eq_append_getElem (by omega), ← List.append_assoc]
      exact h₂

theorem lt_of_granted {ok : Bool} {size : ℕ} (h : granted ok size = true) : size < 2 ^ 63 := by
  rw [granted, Bool.and_eq_true, decide_eq_true_eq] at h
  exact h.2

/-- A reservation makes the room it is asked for, or fails without effect. -/
theorem reserve_spec (h : Represents s l) (env : Setting) (ok : Bool) (n : ℕ) :
    ∃ v' r, env.call s.vec (.reserve (granted ok n) n) = .ok (v', r) ∧
      ((r = .alloc ∧ granted ok n = false ∧ v' = s.vec) ∨
        (r = .ok ∧ Represents ⟨v'⟩ l ∧ n ≤ v'.capacity)) := by
  have hfits := h.vec.fits
  rw [Setting.call, stepBy_eq h.vec.backed, Vectors.step, zenitVectorReserve]
  by_cases hle : n ≤ s.vec.capacity
  · rw [if_pos hle]
    exact ⟨s.vec, .ok, rfl, Or.inr ⟨rfl, h, hle⟩⟩
  rw [if_neg hle]
  cases hok : granted ok n with
  | false =>
    rw [reallocBuffer, if_neg (by omega), if_pos (by rfl)]
    exact ⟨s.vec, .alloc, rfl, Or.inl ⟨rfl, rfl, rfl⟩⟩
  | true =>
    have hn := lt_of_granted hok
    obtain ⟨v', r, heq, hres⟩ := reallocBuffer_spec h.vec (by omega : (l ++ [0]).length ≤ n)
      (by rw [h.byte]; omega) true
    rw [heq]
    obtain ⟨-, hfalse, -⟩ | ⟨rfl, h', hcap, hsize⟩ := hres
    · cases hfalse
    · exact ⟨v', .ok, rfl, Or.inr ⟨rfl, ⟨h', hsize.trans h.byte, by simp only; omega⟩, hcap.ge⟩⟩

/-! ## The calls -/

/-- One call keeps the terminator and changes the contents as its result says. -/
def StepsTo (env : Setting) (s : ZString) (call : Call) (l : Text) : Prop :=
  ∃ s' out l', step env s call = .ok (s', out) ∧ Conforms l call out l' ∧
    (out.result ≠ .ok → s' = s) ∧ Represents s' l'

/-- A call that does nothing, with success or without. -/
theorem stepsTo_same (h : Represents s l) {call : Call} {r : ZenitError}
    (hstep : step env s call = .ok (s, ⟨r, []⟩)) (hsame : contents l call r = l)
    (hres : r = .ok ∨ Fails l call r) : StepsTo env s call l :=
  ⟨s, ⟨r, []⟩, l, hstep, ⟨hsame.symm, hres, by simp⟩, fun _ => rfl, h⟩

/-- The bytes are stored, or there is no memory for them and the string stays as it is. -/
theorem appendBytes_spec (h : Represents s l) {bytes : Text} {len : ℕ} (hlen : len ≤ bytes.length)
    (hbytes : bytes.length < 2 ^ 63) (env : Setting) (mem : Memory) :
    ∃ s' out, appendBytes env mem s bytes len = .ok (s', out) ∧
      ((out.result = .alloc ∧ out.ignored = [] ∧
          granted mem.block (l.length + 1 + len) = false ∧ s' = s) ∨
        (out.result = .ok ∧ (∀ r ∈ out.ignored, r = .ok) ∧
          Represents s' (l ++ bytes.take len))) := by
  have hcount := h.vec.count
  have hfits := h.vec.fits
  have hobject := h.object
  rw [List.length_append, List.length_singleton] at hcount hfits
  have hneeded : wrap (s.vec.count + len) = l.length + 1 + len := by
    rw [hcount, wrap_of_lt (by omega)]
  unfold appendBytes
  simp only [hneeded]
  obtain ⟨v₁, r, hreserve, ⟨rfl, hdenied, rfl⟩ | ⟨rfl, h₁, hroom⟩⟩ :=
    reserve_spec h env mem.block (l.length + 1 + len)
  · rw [hreserve]
    exact ⟨s, ⟨.alloc, []⟩, rfl, Or.inl ⟨rfl, rfl, hdenied, rfl⟩⟩
  have hvec : Vectors.Represents v₁ (l ++ [0]) := h₁.vec
  have hbyte : v₁.elemSize = 1 := h₁.byte
  have hsmall : v₁.capacity < 2 ^ 63 := h₁.object
  obtain ⟨v₂, hpop, h₂⟩ := pop_spec hvec
  obtain ⟨hcap₂, hsize₂⟩ := pop_frame hpop
  have hpopped : env.call v₁ .pop = .ok (v₂, .ok) := congrArg (Except.map _) hpop
  obtain ⟨v₃, hpush, h₃, hcap₃, hsize₃⟩ := pushBytes_spec h₂ hlen (by omega) env mem
  have hlength : (l ++ bytes.take len).length = l.length + len := by
    rw [List.length_append, List.length_take]
    omega
  obtain ⟨v₄, hnull, h₄, hcap₄, hsize₄⟩ := push_spec h₃ (by omega) env (mem.push len) 0
  rw [hreserve]
  simp only [Except.bind, hpopped, hpush, pushNull, hnull]
  refine ⟨⟨v₄⟩, _, rfl, Or.inr ⟨rfl, ?_, h₄, ?_, ?_⟩⟩
  · intro r hr
    simp only [List.cons_append, List.mem_cons, List.mem_append, List.mem_replicate,
      List.not_mem_nil, or_false] at hr
    obtain rfl | ⟨-, rfl⟩ | rfl := hr
    · rfl
    · rfl
    · rfl
  · simp only [hsize₄, hsize₃, hsize₂, hbyte]
  · simp only [hcap₄, hcap₃, hcap₂]
    exact hsmall

theorem append_steps (h : Represents s l) {mem : Memory} {data : Option Text} {len : ℕ}
    (hvalid : (Call.append mem data len).Valid) (env : Setting) :
    StepsTo env s (.append mem data len) l := by
  cases data with
  | none =>
    cases len with
    | zero => exact stepsTo_same h rfl (by simp [contents, appended]) (Or.inl rfl)
    | succ n => exact stepsTo_same h rfl rfl (Or.inr ⟨rfl, n.succ_pos⟩)
  | some bytes =>
    by_cases hzero : len = 0
    · subst hzero
      exact stepsTo_same h rfl (by simp [contents, appended]) (Or.inl rfl)
    rw [StepsTo, step, zenitStringAppend, if_neg (by simp)]
    rw [if_neg hzero]
    obtain ⟨s', out, heq, ⟨hres, hig, hdenied, rfl⟩ | ⟨hres, hig, h'⟩⟩ :=
      appendBytes_spec h hvalid.1 hvalid.2 env mem
    · refine ⟨s', out, l, heq, ⟨?_, Or.inr ?_, by simp [hig]⟩, fun _ => rfl, h⟩
      · rw [hres, contents]
        all_goals simp
      · rw [hres]
        exact ⟨by simp, hdenied⟩
    · refine ⟨s', out, _, heq, ⟨?_, Or.inl hres, hig⟩, absurd hres, h'⟩
      rw [hres, contents]
      · rfl
      · simp

/-- The bytes of a string before its terminator are the first `strlen` of them. -/
theorem take_strlen (cstr : Text) : cstr.take (strlen cstr) = cstr.takeWhile (· != 0) :=
  (List.prefix_iff_eq_take.mp (List.takeWhile_prefix _)).symm

theorem Conforms.cstr {mem : Memory} {cstr : Text} {out : Outcome} {l' : Text}
    (h : Conforms l (.append mem (some cstr) (strlen cstr)) out l') :
    Conforms l (.appendCstr mem (some cstr)) out l' := by
  obtain ⟨hcontents, hres, hig⟩ := h
  have hsame : contents l (.append mem (some cstr) (strlen cstr)) out.result =
      contents l (.appendCstr mem (some cstr)) out.result := by
    cases out.result <;> simp [contents, appended, take_strlen]
  refine ⟨hcontents.trans hsame, hres.imp_right ?_, hig⟩
  cases out.result with
  | null => exact fun hfail => absurd hfail.1 (by simp)
  | alloc => exact fun hfail => hfail.2
  | _ => exact id

theorem appendCstr_steps (h : Represents s l) {mem : Memory} {cstr : Option Text}
    (hvalid : (Call.appendCstr mem cstr).Valid) (env : Setting) :
    StepsTo env s (.appendCstr mem cstr) l := by
  cases cstr with
  | none =>
    exact stepsTo_same h rfl (by simp [contents, appended]) (Or.inl rfl)
  | some cstr =>
    obtain ⟨hterm, hobject⟩ := hvalid
    cases cstr with
    | nil => cases hterm
    | cons first rest =>
      by_cases hzero : first = 0
      · subst hzero
        exact stepsTo_same h rfl (by simp [contents, appended]) (Or.inl rfl)
      have hread : readSlot (first :: rest) 0 = .ok first := rfl
      rw [StepsTo, step, zenitStringAppendCstr, hread]
      simp only [Except.bind, if_neg hzero]
      have hlen : strlen (first :: rest) ≤ (first :: rest).length :=
        (List.takeWhile_prefix _).length_le
      have hbytes : (Call.append mem (some (first :: rest)) (strlen (first :: rest))).Valid :=
        ⟨hlen, hobject⟩
      obtain ⟨s', out, l', hstep, hconf, herror, h'⟩ := append_steps h hbytes env
      exact ⟨s', out, l', hstep, hconf.cstr, herror, h'⟩

/-- What is left of the block has room for the terminator. -/
theorem clear_steps (h : Represents s l) (ok : Bool) (env : Setting) :
    StepsTo env s (.clear ok) l := by
  have hroom : 0 < (zenitVectorClear s.vec).capacity :=
    Nat.lt_of_lt_of_le (by simp) h.vec.fits
  obtain ⟨v', hpush, h', hcap, hsize⟩ := push_spec (clear_represents h.vec) hroom env ok 0
  refine ⟨⟨v'⟩, ⟨.ok, [.ok]⟩, [], congrArg (Except.map _) hpush, ⟨rfl, Or.inl rfl, by simp⟩,
    absurd rfl, h', hsize.trans h.byte, ?_⟩
  exact hcap.trans_lt h.object

theorem reserve_steps (h : Represents s l) (ok : Bool) (capacity : ℕ) (env : Setting) :
    StepsTo env s (.reserve ok capacity) l := by
  obtain ⟨v', r, heq, ⟨rfl, hdenied, rfl⟩ | ⟨rfl, h', -⟩⟩ := reserve_spec h env ok capacity
  · exact stepsTo_same h (congrArg (Except.map _) heq) rfl (Or.inr hdenied)
  · exact ⟨⟨v'⟩, ⟨.ok, []⟩, l, congrArg (Except.map _) heq,
      ⟨by simp [contents, appended], Or.inl rfl, by simp⟩, absurd rfl, h'⟩

theorem shrinkToFit_steps (h : Represents s l) (ok : Bool) (env : Setting) :
    StepsTo env s (.shrinkToFit ok) l := by
  have hcount := h.vec.count
  have hfits := h.vec.fits
  have hobject := h.object
  have hcall : step env s (.shrinkToFit ok) =
      .ok (⟨(zenitVectorShrinkToFit ok s.vec).1⟩, ⟨(zenitVectorShrinkToFit ok s.vec).2, []⟩) := by
    rw [step, zenitStringShrinkToFit, Setting.call, stepBy_eq h.vec.backed]
    rfl
  rw [zenitVectorShrinkToFit] at hcall
  by_cases hfull : s.vec.count = s.vec.capacity
  · rw [if_pos hfull] at hcall
    exact stepsTo_same h hcall (by simp [contents, appended]) (Or.inl rfl)
  obtain ⟨v', r, heq, hres⟩ :=
    reallocBuffer_spec h.vec hcount.ge (by rw [h.byte]; omega) ok
  rw [if_neg hfull, heq] at hcall
  obtain ⟨rfl, hok, rfl⟩ | ⟨rfl, h', hcap, hsize⟩ := hres
  · exact stepsTo_same h hcall rfl (Or.inr hok)
  · exact ⟨⟨v'⟩, ⟨.ok, []⟩, l, hcall, ⟨by simp [contents, appended], Or.inl rfl, by simp⟩,
      absurd rfl, h', hsize.trans h.byte, by simp only; omega⟩

theorem step_steps (h : Represents s l) {call : Call} (hvalid : call.Valid) (env : Setting) :
    StepsTo env s call l := by
  cases call with
  | append mem data len => exact append_steps h hvalid env
  | appendCstr mem cstr => exact appendCstr_steps h hvalid env
  | clear ok => exact clear_steps h ok env
  | reserve ok capacity => exact reserve_steps h ok capacity env
  | shrinkToFit ok => exact shrinkToFit_steps h ok env

/-! ## Creation -/

/-- The first push takes the vector from no slot to eight. -/
theorem first_push_spec {hasRealloc ok : Bool} {fuel : ℕ} {v v' : Vector UInt8}
    (h : Vectors.Represents v []) (hcap : v.capacity = 0) (hsize : v.elemSize = 1)
    {reply : Reply UInt8} (hpush : stepBy hasRealloc fuel v (.push ok 0) = .ok (v', reply))
    (hok : reply.code = .ok) : Represents ⟨v'⟩ [] := by
  have hfull : v.count = v.capacity := h.count.trans hcap.symm
  have hgrow : growthFactor v.capacity = 8 := by rw [hcap]; rfl
  rw [stepBy_eq h.backed] at hpush
  match fuel with
  | 0 | 1 =>
    rw [Vectors.step, zenitVectorPush, withRoom, if_pos hfull, grow, hcap] at hpush
    cases hpush
  | fuel + 2 =>
    obtain ⟨heq, -⟩ | ⟨v₁, heq, h₁, hroom, hle, hsize₁⟩ := withRoom_spec h (fun _ => rfl)
      (fun _ => by rw [hgrow, hcap, hsize]; omega) fuel ok (putLast · 0)
    · cases heq.symm.trans hpush
      cases hok
    · have hput : putLast v₁ 0 = .ok (v', reply) := heq.symm.trans hpush
      obtain ⟨v₂, hput₂, h₂⟩ := putLast_spec h₁ hroom 0
      cases hput₂.symm.trans hput
      obtain ⟨hcap₂, hsize₂⟩ := putLast_frame hput
      exact ⟨h₂, by simp only; omega, by simp only; omega⟩

theorem create_represents {handle vecHandle block : Bool}
    (h : stringCreateEmpty env handle vecHandle block = .ok (some s)) : Represents s [] := by
  cases handle with
  | false => cases h
  | true =>
    cases vecHandle with
    | false => cases h
    | true =>
      have hnull : (pushNull env block ⟨[], 1, 0, 0⟩).map
          (fun p => if p.2 ≠ .ok then none else some (⟨p.1⟩ : ZString)) = .ok (some s) := h
      obtain ⟨p, hcall, hs⟩ := map_eq_ok hnull
      obtain ⟨⟨v₁, reply⟩, hpush, rfl⟩ := map_eq_ok hcall
      split_ifs at hs with hres
      cases hs
      exact first_push_spec ⟨Nat.one_pos, by simp, rfl, rfl, le_rfl, rfl⟩ rfl rfl hpush
        (not_not.mp hres)

/-- Behind an empty string, the text is appended as `zenit_string_append_cstr` does. -/
theorem createFrom_eq (env : Setting) (handle vecHandle block : Bool) (mem : Memory)
    (cstr : Option Text) :
    zenitStringCreateFromWithAllocator env handle vecHandle block mem cstr =
      (stringCreateEmpty env handle vecHandle block).bind fun made => made.elim (.ok none) fun s =>
        (zenitStringAppendCstr env mem s cstr).map fun p =>
          if p.2.result ≠ .ok then none else some p.1 := by
  rw [zenitStringCreateFromWithAllocator]
  cases cstr with
  | none => rfl
  | some text =>
    simp only [zenitStringAppendCstr, Option.elim_some]
    cases readSlot text 0 with
    | error e => rfl
    | ok first =>
      simp only [Except.bind]
      by_cases hzero : first = 0
      · simp only [if_pos hzero]
        rfl
      · simp only [if_neg hzero]

/-- A string made from a C string holds its bytes. -/
theorem createFrom_represents {handle vecHandle block : Bool} {mem : Memory} {cstr : Option Text}
    (hvalid : (Call.appendCstr mem cstr).Valid)
    (h : zenitStringCreateFromWithAllocator env handle vecHandle block mem cstr = .ok (some s)) :
    Represents s (appended (.appendCstr mem cstr)) := by
  rw [createFrom_eq] at h
  obtain ⟨made, hmade, h⟩ := bind_eq_ok h
  cases made with
  | none => cases h
  | some s₀ =>
    obtain ⟨s', out, l', hstep, hconf, -, h'⟩ :=
      appendCstr_steps (create_represents hmade) hvalid env
    obtain ⟨p, hcall, hs⟩ := map_eq_ok h
    cases hstep.symm.trans hcall
    split_ifs at hs with hres
    cases hs
    have hcontents := hconf.1
    rw [not_not.mp hres] at hcontents
    subst hcontents
    exact h'

/-! ## Runs -/

/-- The bytes in the vector, the terminator included. -/
def stored (s : ZString) : Text := s.vec.buffer.take s.vec.count

/-- The data that was appended with success, from the last clear on. -/
def written (l : Text) (calls : List Call) (outs : List Outcome) : Text :=
  Refinement.history (fun l call out => contents l call out.result) l calls outs

theorem written_eq {calls : List Call} {outs : List Outcome} {l' : Text}
    (h : Refinement.Conforming Conforms l calls outs l') : written l calls outs = l' := by
  refine h.history (fun l₀ l call out l' heq hcall => ?_) rfl
  rw [heq]
  exact hcall.1.symm

/-- A string holds what was appended to it since the last clear, and one terminator behind it. No
push inside a call needs the growth loop, which is given no more rounds than `env` says. -/
theorem string_builder_invariant {made : Setting}
    (hcreate : (∃ handle vecHandle block,
        stringCreateEmpty made handle vecHandle block = .ok (some s) ∧ l = []) ∨
      ∃ handle vecHandle block mem cstr, (Call.appendCstr mem cstr).Valid ∧
        zenitStringCreateFromWithAllocator made handle vecHandle block mem cstr = .ok (some s) ∧
        l = appended (.appendCstr mem cstr))
    (env : Setting) {calls : List Call} (hvalid : ∀ call ∈ calls, call.Valid) :
    ∃ s' outs, Refinement.run (step env) s calls = .ok (s', outs) ∧
      Refinement.Conforming Conforms l calls outs (written l calls outs) ∧
      stored s' = written l calls outs ++ [0] ∧
      zenitStringLength s' = (written l calls outs).length ∧
      ∀ call s'' out, call.Valid → step env s' call = .ok (s'', out) → out.result ≠ .ok →
        s'' = s' := by
  have h : Represents s l := by
    obtain ⟨handle, vecHandle, block, hmade, rfl⟩ |
      ⟨handle, vecHandle, block, mem, cstr, hcstr, hmade, rfl⟩ := hcreate
    · exact create_represents hmade
    · exact createFrom_represents hcstr hmade
  have hstep : ∀ (s : ZString) l call, Represents s l → call.Valid →
      ∃ s' out l', step env s call = .ok (s', out) ∧ Conforms l call out l' ∧ Represents s' l' := by
    intro s l call h hcall
    obtain ⟨s', out, l', hdone, hconf, -, h'⟩ := step_steps h hcall env
    exact ⟨s', out, l', hdone, hconf, h'⟩
  obtain ⟨s', outs, l', hrun, hconf, h'⟩ :=
    Refinement.run_refines hstep h (Refinement.along_of_forall hvalid s)
  obtain rfl := written_eq hconf
  have hcount := h'.vec.count
  have hfits := h'.vec.fits
  have hobject := h'.object
  refine ⟨s', outs, hrun, hconf, ?_, ?_, ?_⟩
  · rw [stored, hcount]
    exact h'.vec.holds
  · rw [List.length_append, List.length_singleton] at hcount hfits
    rw [zenitStringLength, subSize_of_le (by omega) (by omega), hcount, Nat.add_sub_cancel]
  · intro call s'' out hcall hdone hres
    obtain ⟨s₁, out₁, l₁, hdone₁, -, herror, -⟩ := step_steps h' hcall env
    cases hdone₁.symm.trans hdone
    exact herror hres

/-- Two letters, and a clear with no round left to the growth loop and no memory to be had. -/
theorem short_string_builder_invariant : ∃ s s' : ZString, ∃ outs,
    stringCreateEmpty ⟨true, 2⟩ true true true = .ok (some s) ∧
    Refinement.run (step ⟨true, 0⟩) s [.appendCstr ⟨true, fun _ => false⟩ (some [65, 66, 0]),
      .shrinkToFit true, .clear false] = .ok (s', outs) ∧
    stored s' = written [] [.appendCstr ⟨true, fun _ => false⟩ (some [65, 66, 0]),
      .shrinkToFit true, .clear false] outs ++ [0] := by
  have hcreate : stringCreateEmpty ⟨true, 2⟩ true true true =
      .ok (some ⟨⟨List.replicate 8 0, 1, 1, 8⟩⟩) := rfl
  have hvalid : ∀ call ∈ [Call.appendCstr ⟨true, fun _ => false⟩ (some [65, 66, 0]),
      .shrinkToFit true, .clear false], call.Valid := by
    intro call hcall
    simp only [List.mem_cons, List.not_mem_nil, or_false] at hcall
    obtain rfl | rfl | rfl := hcall
    · exact ⟨by simp, by simp⟩
    · trivial
    · trivial
  obtain ⟨s', outs, hrun, -, hstored, -⟩ := string_builder_invariant
    (Or.inl ⟨true, true, true, hcreate, rfl⟩) ⟨true, 0⟩ hvalid
  exact ⟨_, s', outs, hcreate, hrun, hstored⟩

end LibZenit.Strings
