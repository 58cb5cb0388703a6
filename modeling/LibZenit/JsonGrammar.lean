import LibZenit.JsonParser

/-!
# The grammar of JSON texts

`Derives p x q` says that the bytes from `p` up to `q` are a phrase `x` of the grammar of RFC 8259,
with the string and number tokens as given. White space stands around the six structural bytes, as
the RFC writes it.
-/
namespace LibZenit.Json

inductive Phrase (D : Type) where
  | value (v : Value D)
  | elements (vs : List (Value D))
  | members (ms : List (List UInt8 × Value D))

section Grammar

variable {D : Type} (mem : List UInt8) (len : ℕ) (str : ℕ → Option (List UInt8 × ℕ))
  (num : ℕ → Option (D × ℕ))

/-- Only white space from `p` up to `q`. -/
def WsRun (p q : ℕ) : Prop :=
  p ≤ q ∧ ∀ i, p ≤ i → i < q → ∃ c, peek mem len i = some c ∧ isWs c = true

inductive Derives : ℕ → Phrase D → ℕ → Prop
  | litNull {p : ℕ} (lit : matchLiteral mem len wordNull p = true) :
      Derives p (.value .null) (p + 4)
  | litTrue {p : ℕ} (lit : matchLiteral mem len wordTrue p = true) :
      Derives p (.value (.bool true)) (p + 4)
  | litFalse {p : ℕ} (lit : matchLiteral mem len wordFalse p = true) :
      Derives p (.value (.bool false)) (p + 5)
  | string {p q : ℕ} {s : List UInt8} (first : peek mem len p = some chQuote)
      (tok : str p = some (s, q)) : Derives p (.value (.str s)) q
  | number {p q : ℕ} {c : UInt8} {d : D} (first : peek mem len p = some c)
      (start : c = chMinus ∨ isDigit c = true) (tok : num p = some (d, q)) :
      Derives p (.value (.num d)) q
  | emptyArray {p q : ℕ} (opening : peek mem len p = some chLBracket)
      (ws : WsRun mem len (p + 1) q) (closing : peek mem len q = some chRBracket) :
      Derives p (.value (.arr [])) (q + 1)
  | array {p q r : ℕ} {vs : List (Value D)} (opening : peek mem len p = some chLBracket)
      (ws : WsRun mem len (p + 1) q) (items : Derives q (.elements vs) r)
      (closing : peek mem len r = some chRBracket) : Derives p (.value (.arr vs)) (r + 1)
  | emptyObject {p q : ℕ} (opening : peek mem len p = some chLBrace)
      (ws : WsRun mem len (p + 1) q) (closing : peek mem len q = some chRBrace) :
      Derives p (.value (.obj [])) (q + 1)
  | object {p q r : ℕ} {ms : List (List UInt8 × Value D)}
      (opening : peek mem len p = some chLBrace) (ws : WsRun mem len (p + 1) q)
      (items : Derives q (.members ms) r) (closing : peek mem len r = some chRBrace) :
      Derives p (.value (.obj ms)) (r + 1)
  | lastElement {p q r : ℕ} {v : Value D} (item : Derives p (.value v) q)
      (ws : WsRun mem len q r) : Derives p (.elements [v]) r
  | nextElement {p q r s t : ℕ} {v : Value D} {vs : List (Value D)}
      (item : Derives p (.value v) q) (before : WsRun mem len q r)
      (comma : peek mem len r = some chComma) (after : WsRun mem len (r + 1) s)
      (rest : Derives s (.elements vs) t) : Derives p (.elements (v :: vs)) t
  | lastMember {p q r s t u : ℕ} {k : List UInt8} {v : Value D}
      (quote : peek mem len p = some chQuote) (name : str p = some (k, q))
      (before : WsRun mem len q r) (colon : peek mem len r = some chColon)
      (after : WsRun mem len (r + 1) s) (item : Derives s (.value v) t) (ws : WsRun mem len t u) :
      Derives p (.members [(k, v)]) u
  | nextMember {p q r s t u w x : ℕ} {k : List UInt8} {v : Value D}
      {ms : List (List UInt8 × Value D)} (quote : peek mem len p = some chQuote)
      (name : str p = some (k, q)) (before : WsRun mem len q r)
      (colon : peek mem len r = some chColon) (after : WsRun mem len (r + 1) s)
      (item : Derives s (.value v) t) (ws : WsRun mem len t u)
      (comma : peek mem len u = some chComma) (gap : WsRun mem len (u + 1) w)
      (rest : Derives w (.members ms) x) : Derives p (.members ((k, v) :: ms)) x

/-- The whole input is `ws value ws`. -/
def JsonText (v : Value D) : Prop :=
  ∃ p q, WsRun mem len 0 p ∧ Derives mem len str num p (.value v) q ∧ WsRun mem len q len

/-- Tokens consume at least one byte and stay within the input. -/
structure TokensBounded : Prop where
  str_lt : ∀ {p s q}, str p = some (s, q) → p < q ∧ q ≤ len
  num_lt : ∀ {p d q}, num p = some (d, q) → p < q ∧ q ≤ len

end Grammar

/-! ## White space -/

section Ws

variable {mem : List UInt8} {len p q r : ℕ} {c : UInt8}

theorem peek_lt (h : peek mem len p = some c) : p < len := by
  unfold peek at h
  split_ifs at h with hp
  exact hp

theorem WsRun.refl : WsRun mem len p p := ⟨le_rfl, fun i h1 h2 => by omega⟩

theorem WsRun.trans (h : WsRun mem len p q) (h' : WsRun mem len q r) : WsRun mem len p r := by
  refine ⟨h.1.trans h'.1, fun i hi hr => ?_⟩
  by_cases hq : i < q
  · exact h.2 i hi hq
  · exact h'.2 i (by omega) hr

theorem WsRun.cons (hc : peek mem len p = some c) (hw : isWs c = true)
    (h : WsRun mem len (p + 1) q) : WsRun mem len p q := by
  refine ⟨by have := h.1; omega, fun i hi hq => ?_⟩
  by_cases hip : i = p
  · exact ⟨c, hip ▸ hc, hw⟩
  · exact h.2 i (by omega) hq

theorem WsRun.le_len (h : WsRun mem len p q) (hp : p ≤ len) : q ≤ len := by
  by_contra hgt
  obtain ⟨c, hc, -⟩ := h.2 (q - 1) (by have := h.1; omega) (by have := h.1; omega)
  have := peek_lt hc
  omega

theorem wsRun_skipWsFrom (fuel : ℕ) : WsRun mem len p (skipWsFrom mem len fuel p) := by
  induction fuel generalizing p with
  | zero => exact WsRun.refl
  | succ fuel ih =>
    rw [skipWsFrom]
    cases hc : peek mem len p with
    | none => exact WsRun.refl
    | some c =>
      dsimp only
      split_ifs with hw
      · exact ih.cons hc hw
      · exact WsRun.refl

/-- What is skipped is white space. -/
theorem wsRun_skipWs : WsRun mem len p (skipWs mem len p) := wsRun_skipWsFrom _

theorem skipWsFrom_eq {fuel : ℕ} (h : WsRun mem len p q) (hf : q - p ≤ fuel)
    (hstop : ∀ c, peek mem len q = some c → isWs c = false) : skipWsFrom mem len fuel p = q := by
  induction fuel generalizing p with
  | zero =>
    have := h.1
    simp only [skipWsFrom]
    omega
  | succ fuel ih =>
    rw [skipWsFrom]
    by_cases hpq : p = q
    · subst hpq
      cases hc : peek mem len p with
      | none => rfl
      | some c => simp [hstop c hc]
    · have hlt : p < q := by
        have := h.1
        omega
      obtain ⟨c, hc, hw⟩ := h.2 p le_rfl hlt
      simp only [hc, hw, if_true]
      exact ih ⟨by omega, fun i hi hiq => h.2 i (by omega) hiq⟩ (by omega)

/-- Skipping is maximal. -/
theorem skipWs_eq (h : WsRun mem len p q)
    (hstop : ∀ c, peek mem len q = some c → isWs c = false) : skipWs mem len p = q := by
  by_cases hpq : p = q
  · subst hpq
    exact skipWsFrom_eq h (by omega) hstop
  · have hle : q ≤ len := by
      obtain ⟨c, hc, -⟩ := h.2 (q - 1) (by have := h.1; omega) (by have := h.1; omega)
      have := peek_lt hc
      omega
    exact skipWsFrom_eq h (by omega) hstop

theorem skipWs_eq_of_byte (h : WsRun mem len p q) (hc : peek mem len q = some c)
    (hw : isWs c = false) : skipWs mem len p = q :=
  skipWs_eq h fun d hd => by
    rw [hc] at hd
    obtain rfl : c = d := by simpa using hd
    exact hw

theorem skipWs_eq_end (h : WsRun mem len p len) : skipWs mem len p = len :=
  skipWs_eq h fun _ hc => absurd (peek_lt hc) (lt_irrefl _)

theorem le_skipWs : p ≤ skipWs mem len p := wsRun_skipWs.1

theorem skipWs_le (h : p ≤ len) : skipWs mem len p ≤ len := wsRun_skipWs.le_len h

end Ws

/-! ## Backing arrays -/

/-- Growing a backing array always makes room for one more slot. -/
structure Growable.Ready {α : Type} (g : Growable α) : Prop where
  fits : g.items.length ≤ g.capacity
  capacity : g.capacity = 0 ∨ 8 ≤ g.capacity

theorem Growable.Ready.empty {α : Type} : Growable.Ready (⟨[], 0⟩ : Growable α) :=
  ⟨le_rfl, Or.inl rfl⟩

theorem Growable.Ready.push {α : Type} {g : Growable α} (h : g.Ready) (a : α) :
    ∃ g', g.push a = some g' ∧ g'.items = g.items ++ [a] ∧ g'.Ready := by
  have hfits := h.fits
  have hcap := h.capacity
  unfold Growable.push growCapacity
  dsimp only
  rw [if_pos (by split_ifs <;> omega)]
  refine ⟨_, rfl, rfl, ?_, ?_⟩
  · simp only [List.length_append, List.length_singleton]
    split_ifs <;> omega
  · dsimp only
    split_ifs <;> omega

end LibZenit.Json
