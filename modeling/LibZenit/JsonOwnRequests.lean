import LibZenit.JsonDomDoc
import LibZenit.JsonHeapInvariant

/-!
# The requests of a call

A call meets only the answers to its own requests. If none of them is refused, it does what it does
with an allocator that refuses nothing; so a failure for want of memory comes with a refusal among
them.
-/
namespace LibZenit.JsonHeap
open Json BlockLedger

/-- A request made between two states of the ledger was refused. -/
def Refused (a : Allocator) (l l' : Ledger) : Prop :=
  ∃ n ∈ Finset.Ico l.requests l'.requests, a.grants n = false

instance (a : Allocator) (l l' : Ledger) : Decidable (Refused a l l') :=
  inferInstanceAs (Decidable (∃ n ∈ Finset.Ico l.requests l'.requests, a.grants n = false))

/-- The same allocator with all requests granted. -/
def Allocator.willing (a : Allocator) : Allocator := ⟨fun _ => true, a.hasRealloc⟩

variable {D β γ : Type} {a : Allocator} {n n' : ℕ} {h : Heap D}

/-- A run `x` with requests from number `n` on, and the run `y` of the same call with the willing
allocator: unless `x` meets a refusal they are the same. -/
structure Agrees (a : Allocator) (n : ℕ) (x y : β × Heap D) : Prop where
  le : n ≤ x.2.ledger.requests
  eq : (∀ i, n ≤ i → i < x.2.ledger.requests → a.grants i = true) → y = x

theorem Refused.le {l l' : Ledger} (hrefused : Refused a l l') : l.requests ≤ l'.requests := by
  obtain ⟨n, hn, -⟩ := hrefused
  have hbounds := Finset.mem_Ico.mp hn
  omega

/-- Requests made before do not matter. -/
theorem Refused.mono {l₀ l l' : Ledger} (hrefused : Refused a l l')
    (hle : l₀.requests ≤ l.requests) : Refused a l₀ l' := by
  obtain ⟨n, hn, hgrant⟩ := hrefused
  have hbounds := Finset.mem_Ico.mp hn
  exact ⟨n, Finset.mem_Ico.mpr ⟨by omega, hbounds.2⟩, hgrant⟩

theorem Refused.congr {l l' l'' : Ledger} (hrefused : Refused a l l')
    (heq : l''.requests = l'.requests) : Refused a l l'' := by
  unfold Refused
  rwa [heq]

theorem granted_of_not_refused {l l' : Ledger} (hnone : ¬ Refused a l l') {i : ℕ}
    (hle : l.requests ≤ i) (hlt : i < l'.requests) : a.grants i = true := by
  by_contra hi
  exact hnone ⟨i, Finset.mem_Ico.mpr ⟨hle, hlt⟩, by simpa using hi⟩

/-- Without a refusal of its own the run is that of the willing allocator. -/
theorem Agrees.eq_willing {x y : β × Heap D} (hxy : Agrees a h.ledger.requests x y)
    (hnone : ¬ Refused a h.ledger x.2.ledger) : y = x :=
  hxy.eq fun _ hle hlt => granted_of_not_refused hnone hle hlt

/-! ## Rules -/

theorem Agrees.same {x : β × Heap D} (hle : n ≤ x.2.ledger.requests) : Agrees a n x x :=
  ⟨hle, fun _ => rfl⟩

theorem Agrees.mono {x y : β × Heap D} (hxy : Agrees a n x y) (hn : n' ≤ n) : Agrees a n' x y :=
  ⟨hn.trans hxy.le, fun hall => hxy.eq fun i hi => hall i (hn.trans hi)⟩

/-- After a first part the rest starts with the requests that are left. -/
theorem Agrees.step {p q : β × Heap D} {x y y' : γ × Heap D} (hfirst : Agrees a n p q)
    (hrest : Agrees a p.2.ledger.requests x y') (hy : q = p → y = y') : Agrees a n x y := by
  refine ⟨hfirst.le.trans hrest.le, fun hall => ?_⟩
  have hq : q = p := hfirst.eq fun i hi hlt => hall i hi (hlt.trans_le hrest.le)
  rw [hy hq]
  exact hrest.eq fun i hi => hall i (hfirst.le.trans hi)

/-! ## Requests made -/

section Requests

variable {b : ℕ} {p : Option ℕ} {payload : Payload D}

theorem requests_use_ledger {l : Ledger} : (l.use b).requests = l.requests := by
  unfold Ledger.use
  split_ifs <;> rfl

theorem requests_free_ledger {l : Ledger} : (l.free b).requests = l.requests := by
  unfold Ledger.free
  split_ifs <;> rfl

@[simp]
theorem requests_use : (h.use b).ledger.requests = h.ledger.requests := requests_use_ledger

@[simp]
theorem requests_usePtr : (h.usePtr p).ledger.requests = h.ledger.requests := by
  cases p with
  | none => rfl
  | some b => exact requests_use_ledger

@[simp]
theorem requests_free : (h.free b).ledger.requests = h.ledger.requests := requests_free_ledger

@[simp]
theorem requests_setPayload : (h.setPayload b payload).ledger.requests = h.ledger.requests :=
  requests_use_ledger

@[simp]
theorem requests_clear : (h.clear b).ledger.requests = h.ledger.requests := requests_use_ledger

@[simp]
theorem requests_link : (h.link b).ledger.requests = h.ledger.requests := by
  unfold Heap.link
  split
  · exact requests_use_ledger
  · rfl

@[simp]
theorem requests_moveArray : (moveArray p b h).ledger.requests = h.ledger.requests := by
  cases p <;> simp [moveArray]

theorem requests_alloc (l : Ledger) (grants : ℕ → Bool) :
    (l.alloc grants).2.requests = l.requests + 1 := by
  unfold Ledger.alloc
  split_ifs <;> rfl

/-- A request that is granted is answered as any granted request. -/
theorem alloc_willing {l : Ledger} {grants : ℕ → Bool} (hgrant : grants l.requests = true) :
    l.alloc (fun _ => true) = l.alloc grants := by
  unfold Ledger.alloc
  simp only [hgrant]

theorem agrees_alloc : Agrees a h.ledger.requests (h.alloc a) (h.alloc a.willing) := by
  have hone : (h.alloc a).2.ledger.requests = h.ledger.requests + 1 := requests_alloc _ _
  refine ⟨by omega, fun hall => ?_⟩
  have hgrant := hall h.ledger.requests le_rfl (by omega)
  simp only [Heap.alloc, Allocator.willing, alloc_willing hgrant]

theorem requests_realloc : (h.realloc a b).2.ledger.requests = h.ledger.requests + 1 := by
  unfold Heap.realloc zenitAllocatorRealloc Ledger.realloc
  split_ifs
  · have hone := requests_alloc (h.ledger.use b) a.grants
    rw [requests_use_ledger] at hone
    rcases heq : (h.ledger.use b).alloc a.grants with ⟨_ | c, l⟩
    · rwa [heq] at hone
    · rw [heq] at hone
      exact requests_free_ledger.trans hone
  · have hone := requests_alloc h.ledger a.grants
    rcases heq : h.ledger.alloc a.grants with ⟨_ | c, l⟩
    · rwa [heq] at hone
    · rw [heq] at hone
      dsimp only
      rw [requests_free_ledger, requests_use_ledger, requests_use_ledger]
      exact hone

theorem agrees_realloc : Agrees a h.ledger.requests (h.realloc a b) (h.realloc a.willing b) := by
  have hone := requests_realloc (a := a) (h := h) (b := b)
  refine ⟨by omega, fun hall => ?_⟩
  have hgrant := hall h.ledger.requests le_rfl (by omega)
  have hgrant' : a.grants (h.ledger.use b).requests = true := by rwa [requests_use_ledger]
  simp only [Heap.realloc, zenitAllocatorRealloc, Ledger.realloc, Allocator.willing,
    alloc_willing hgrant, alloc_willing hgrant']

/-- A request is refused and changes nothing else, or it adds a block. -/
theorem alloc_cases {m : Multiset ℕ} (hl : Owns h.ledger m) (a : Allocator) :
    (∃ l, h.alloc a = (none, { h with ledger := l }) ∧ Owns l m ∧ Refused a h.ledger l) ∨
      ∃ b l, h.alloc a = (some b, { h with ledger := l }) ∧ Owns l ({b} + m) ∧
        h.ledger.requests ≤ l.requests := by
  have hone := requests_alloc h.ledger a.grants
  unfold Heap.alloc
  rcases hl.alloc a.grants with ⟨l, heq, hl', -⟩ | ⟨b, l, heq, hl', -⟩
  · rw [heq] at hone ⊢
    dsimp only at hone
    refine Or.inl ⟨l, rfl, hl', h.ledger.requests, Finset.mem_Ico.mpr ⟨le_rfl, by omega⟩, ?_⟩
    by_contra hgrant
    rw [Ledger.alloc, if_pos (by simpa using hgrant)] at heq
    cases heq
  · rw [heq] at hone ⊢
    dsimp only at hone
    exact Or.inr ⟨b, l, rfl, hl', by omega⟩

theorem realloc_cases {m : Multiset ℕ} (hl : Owns h.ledger ({b} + m)) (a : Allocator) :
    (∃ l, h.realloc a b = (none, { h with ledger := l }) ∧ Owns l ({b} + m) ∧
        Refused a h.ledger l) ∨
      ∃ c l, h.realloc a b = (some c, { h with ledger := l }) ∧ Owns l ({c} + m) ∧
        h.ledger.requests ≤ l.requests := by
  have hone := requests_realloc (a := a) (h := h) (b := b)
  by_cases hrefused : Refused a h.ledger (h.realloc a b).2.ledger
  · unfold Heap.realloc at hone hrefused ⊢
    rcases owns_realloc hl a with ⟨l, heq, hl', -⟩ | ⟨c, l, heq, hl'⟩
    · rw [heq] at hrefused ⊢
      exact Or.inl ⟨l, rfl, hl', hrefused⟩
    · rw [heq] at hone ⊢
      dsimp only at hone
      exact Or.inr ⟨c, l, rfl, hl', by omega⟩
  · -- the willing allocator grants it
    have hwilling := agrees_realloc.eq_willing hrefused
    rw [← hwilling] at hone ⊢
    unfold Heap.realloc at hone ⊢
    rcases owns_realloc hl a.willing with ⟨l, -, -, n, hn⟩ | ⟨c, l, heq, hl'⟩
    · cases hn
    · rw [heq] at hone ⊢
      dsimp only at hone
      exact Or.inr ⟨c, l, rfl, hl', by omega⟩

/-! ## Records and arrays -/

theorem agrees_valueAlloc :
    Agrees a h.ledger.requests (valueAlloc a h) (valueAlloc a.willing h) := by
  unfold valueAlloc
  refine Agrees.step (agrees_alloc.mono ?_) ?_ fun heq => by rw [heq]
  · simp
  · rcases (h.use h.doc).alloc a with ⟨_ | b, h₁⟩
    · exact .same le_rfl
    · exact .same (by simp)

theorem agrees_valueOf :
    Agrees a h.ledger.requests (valueOf a payload h) (valueOf a.willing payload h) := by
  unfold valueOf
  refine agrees_valueAlloc.step ?_ fun heq => by rw [heq]
  rcases valueAlloc a h with ⟨_ | b, h₁⟩
  · exact .same le_rfl
  · exact .same (by simp)

theorem agrees_strDup {s : List UInt8} :
    Agrees a h.ledger.requests (strDup a s h) (strDup a.willing s h) := by
  unfold strDup
  refine agrees_alloc.step ?_ fun heq => by rw [heq]
  rcases h.alloc a with ⟨_ | b, h₁⟩
  · exact .same le_rfl
  · exact .same (by simp)

theorem agrees_valueString {s : Option (List UInt8)} : Agrees a h.ledger.requests
    (zenitJsonValueString a s h) (zenitJsonValueString a.willing s h) := by
  unfold zenitJsonValueString
  refine agrees_valueAlloc.step ?_ fun heq => by rw [heq]
  rcases valueAlloc a h with ⟨_ | b, h₁⟩
  · exact .same le_rfl
  · dsimp only
    refine Agrees.step (agrees_strDup.mono ?_) ?_ fun heq => by rw [heq]
    · simp
    · rcases strDup a (s.getD []) (h₁.setPayload b (.str none)) with ⟨_ | c, h₂⟩
      · exact .same le_rfl
      · exact .same (by simp)

theorem agrees_arrayGrow {x : ℕ} {r : ArrayRec} :
    Agrees a h.ledger.requests (arrayGrow a x r h) (arrayGrow a.willing x r h) := by
  unfold arrayGrow
  cases r.block with
  | none =>
    dsimp only
    refine agrees_alloc.step ?_ fun heq => by rw [heq]
    rcases h.alloc a with ⟨_ | b, h₁⟩
    · exact .same le_rfl
    · exact .same (by simp)
  | some b =>
    dsimp only
    refine agrees_realloc.step ?_ fun heq => by rw [heq]
    rcases h.realloc a b with ⟨_ | b, h₁⟩
    · exact .same le_rfl
    · exact .same (by simp)

theorem agrees_objectGrow {x : ℕ} {r : ObjectRec} :
    Agrees a h.ledger.requests (objectGrow a x r h) (objectGrow a.willing x r h) := by
  unfold objectGrow
  refine agrees_alloc.step ?_ fun heq => by rw [heq]
  rcases h.alloc a with ⟨_ | k, h₁⟩
  · exact .same le_rfl
  · dsimp only
    refine Agrees.step (agrees_alloc.mono ?_) ?_ fun heq => by rw [heq]
    · simp
    · rcases (h₁.use k).alloc a with ⟨_ | v, h₂⟩
      · exact .same (by simp)
      · exact .same (by simp)

theorem agrees_arrayRoom {x : ℕ} {r : ArrayRec} :
    Agrees a h.ledger.requests (arrayRoom a x r h) (arrayRoom a.willing x r h) := by
  unfold arrayRoom
  split_ifs
  · exact agrees_arrayGrow
  · exact .same le_rfl

end Requests

/-! ## Calls -/

section Calls

variable {arr obj val item : Option ℕ} {key : Option (List UInt8)} {index : ℕ}

theorem agrees_make {mk : Made D} :
    Agrees a h.ledger.requests (make a h mk) (make a.willing h mk) := by
  cases mk with
  | string s => exact agrees_valueString
  | _ => exact agrees_valueOf

theorem agrees_arrayAppend {x elem : ℕ} {r : ArrayRec} : Agrees a h.ledger.requests
    (arrayAppend a x elem r h) (arrayAppend a.willing x elem r h) := by
  unfold arrayAppend
  by_cases hfull : r.items.items.length ≥ r.items.capacity
  · simp only [if_pos hfull]
    refine agrees_arrayGrow.step ?_ fun heq => by rw [heq]
    rcases arrayGrow a x r h with ⟨_ | r', h₁⟩
    · exact .same le_rfl
    · dsimp only
      split_ifs
      · exact .same (by simp)
      · exact .same le_rfl
  · simp only [if_neg hfull]
    split_ifs
    · exact .same (by simp)
    · exact .same le_rfl

theorem agrees_zenitJsonArrayAppend : Agrees a h.ledger.requests
    (zenitJsonArrayAppend a arr item h) (zenitJsonArrayAppend a.willing arr item h) := by
  unfold zenitJsonArrayAppend
  split
  · rename_i arr item
    dsimp only
    split
    · rename_i r hr
      refine Agrees.step (agrees_arrayAppend.mono ?_) ?_ fun heq => by rw [heq]
      · simp
      · rcases arrayAppend a arr item r (h.use arr) with ⟨_ | _ | _, h₁⟩ <;> exact .same le_rfl
    · exact .same (by simp)
  · exact .same le_rfl

theorem agrees_zenitJsonArrayInsert : Agrees a h.ledger.requests
    (zenitJsonArrayInsert a arr index item h)
    (zenitJsonArrayInsert a.willing arr index item h) := by
  unfold zenitJsonArrayInsert
  split
  · rename_i arr item
    dsimp only
    split
    · rename_i r hr
      split_ifs with hindex
      · exact .same (by simp)
      · refine Agrees.step (agrees_arrayRoom.mono ?_) ?_ fun heq => by rw [heq]
        · simp
        · rcases arrayRoom a arr r (h.use arr) with ⟨_ | r', h₁⟩
          · exact .same le_rfl
          · dsimp only
            split_ifs
            · exact .same (by simp)
            · exact .same le_rfl
    · exact .same (by simp)
  · exact .same le_rfl

theorem requests_scanKeys (keys : Option ℕ) (key : List UInt8) (ms : List (CString × ℕ))
    (h : Heap D) :
    (scanKeys keys key ms h).2.ledger.requests = h.ledger.requests := by
  induction ms generalizing h with
  | nil => rfl
  | cons m ms ih =>
    unfold scanKeys
    dsimp only
    split_ifs
    · simp
    · simp [ih]

theorem requests_scanned {keys found : Option ℕ} {key : List UInt8} {ms : List (CString × ℕ)}
    {b : ℕ} {h₁ : Heap D} (hres : scanKeys keys key ms (h.use b) = (found, h₁)) :
    h₁.ledger.requests = h.ledger.requests := by
  have hscan := requests_scanKeys keys key ms (h.use b)
  rw [hres] at hscan
  exact hscan.trans requests_use

/-- Growing the arrays of an object if they are full. -/
theorem agrees_objectRoom {x : ℕ} {r : ObjectRec} : Agrees a h.ledger.requests
    (if r.members.items.length ≥ r.members.capacity then objectGrow a x r h else (some r, h))
    (if r.members.items.length ≥ r.members.capacity then objectGrow a.willing x r h
      else (some r, h)) := by
  split_ifs
  · exact agrees_objectGrow
  · exact .same le_rfl

theorem agrees_zenitJsonObjectSet : Agrees a h.ledger.requests
    (zenitJsonObjectSet a obj key val h) (zenitJsonObjectSet a.willing obj key val h) := by
  unfold zenitJsonObjectSet
  split
  · rename_i obj key val
    dsimp only
    split
    · rename_i r hr
      rcases hres : scanKeys r.keys key r.members.items (h.use obj) with ⟨_ | i, h₁⟩
      · have hscan := requests_scanned hres
        dsimp only
        have hroom := (agrees_objectRoom (a := a) (h := h₁) (x := obj) (r := r)).mono hscan.ge
        refine hroom.step ?_ fun heq => by rw [heq]
        generalize (if r.members.items.length ≥ r.members.capacity then objectGrow a obj r h₁
          else (some r, h₁)) = res
        rcases res with ⟨_ | r', h₂⟩
        · exact .same le_rfl
        · dsimp only
          refine agrees_strDup.step ?_ fun heq => by rw [heq]
          rcases strDup a key h₂ with ⟨_ | copy, h₃⟩
          · exact .same le_rfl
          · dsimp only
            split_ifs
            · exact .same (by simp)
            · exact .same le_rfl
      · exact .same (by simpa using (requests_scanned hres).ge)
    · exact .same (by simp)
  · exact .same le_rfl

/-- Calls that need no memory make no requests. -/
theorem requests_arrayRemove :
    (zenitJsonArrayRemove arr index h).2.ledger.requests = h.ledger.requests := by
  unfold zenitJsonArrayRemove
  split
  · rfl
  · dsimp only
    split
    · split_ifs <;> simp
    · simp

theorem requests_objectRemove :
    (zenitJsonObjectRemove obj key h).2.ledger.requests = h.ledger.requests := by
  unfold zenitJsonObjectRemove
  split
  · rename_i obj key
    dsimp only
    split
    · rename_i r hr
      rcases hres : scanKeys r.keys key r.members.items (h.use obj) with ⟨_ | i, h₁⟩
      · exact requests_scanned hres
      · have hscan := requests_scanned hres
        dsimp only
        rw [requests_setPayload]
        cases r.members.items[i]? <;> dsimp only <;> split_ifs <;> simp [hscan]
    · simp
  · rfl

/-- The calls that may ask for memory. -/
def DomOp.requests : DomOp D → Bool
  | .make _ => true
  | op => op.allocates

/-- The others make no requests. -/
theorem requests_call {op : DomOp D} (hop : op.requests = false) :
    (call a h op).2.ledger.requests = h.ledger.requests := by
  cases op with
  | make mk => cases hop
  | arrayAppend arr item => cases hop
  | arrayInsert arr index item => cases hop
  | objectSet obj key val => cases hop
  | arrayRemove arr index => exact requests_arrayRemove
  | objectRemove obj key => exact requests_objectRemove
  | setRoot val => exact requests_use
  | root => exact requests_use
  | arrayCount val =>
    rcases val with _ | val
    · rfl
    · simp only [call, zenitJsonArrayCount]
      split <;> simp
  | arrayGet val index =>
    rcases val with _ | val
    · rfl
    · simp only [call, zenitJsonArrayGet]
      split
      · split_ifs <;> simp
      · simp
  | objectCount val =>
    rcases val with _ | val
    · rfl
    · simp only [call, zenitJsonObjectCount]
      split <;> simp
  | objectKey val index =>
    rcases val with _ | val
    · rfl
    · simp only [call, zenitJsonObjectKey]
      split
      · split_ifs <;> simp
      · simp
  | objectValueAt val index =>
    rcases val with _ | val
    · rfl
    · simp only [call, zenitJsonObjectValueAt]
      split
      · split_ifs <;> simp
      · simp
  | objectGet val key =>
    rcases val with _ | val
    · rfl
    · simp only [call, zenitJsonObjectGet]
      split
      · rename_i r key _
        rcases hres : scanKeys r.keys key r.members.items (h.use val) with ⟨_ | i, h₁⟩
        · exact requests_scanned hres
        · exact requests_usePtr.trans (requests_scanned hres)
      · simp
  | getString val =>
    rcases val with _ | val
    · rfl
    · simp only [call, zenitJsonValueGetString]
      split <;> simp
  | getBool val =>
    rcases val with _ | val
    · rfl
    · simp only [call, zenitJsonValueGetBool]
      split <;> simp
  | getNumber val =>
    rcases val with _ | val
    · rfl
    · simp only [call, zenitJsonValueGetNumber]
      split <;> simp
  | valueType val =>
    rcases val with _ | val
    · rfl
    · exact requests_use
  | isNull val =>
    rcases val with _ | val
    · rfl
    · exact requests_use

theorem agrees_call {op : DomOp D} :
    Agrees a h.ledger.requests (call a h op) (call a.willing h op) := by
  cases op with
  | make mk => exact agrees_make.step (.same le_rfl) fun heq => by simp only [call, heq]
  | arrayAppend arr item => exact agrees_zenitJsonArrayAppend
  | arrayInsert arr index item => exact agrees_zenitJsonArrayInsert
  | objectSet obj key val => exact agrees_zenitJsonObjectSet
  | _ => exact .same (requests_call rfl).ge

end Calls

/-! ## The parser -/

section Parser

variable {mem : List UInt8} {len : ℕ} {num : ℕ → Option (D × ℕ)} {pos b fuel : ℕ}

theorem agrees_bufGrow {cap text needed : ℕ} : Agrees a h.ledger.requests
    (bufGrow a b cap text needed h) (bufGrow a.willing b cap text needed h) := by
  unfold bufGrow
  split_ifs
  · exact .same le_rfl
  · refine agrees_realloc.step ?_ fun heq => by rw [heq]
    rcases h.realloc a b with ⟨_ | c, h₁⟩
    · exact .same (by simp)
    · exact .same le_rfl

theorem agrees_parseStringFrom {cap : ℕ} {text : List UInt8} : Agrees a h.ledger.requests
    (parseStringFrom a mem len fuel pos b cap text h)
    (parseStringFrom a.willing mem len fuel pos b cap text h) := by
  induction fuel generalizing pos b cap text h with
  | zero => exact .same le_rfl
  | succ fuel ih =>
    rw [parseStringFrom, parseStringFrom]
    cases peek mem len pos with
    | none => exact .same (by simp)
    | some c =>
      dsimp only
      split_ifs
      · exact .same (by simp)
      · refine agrees_bufGrow.step ?_ fun heq => by rw [heq]
        rcases bufGrow a b cap text.length 1 h with ⟨_ | ⟨buf, cap'⟩, h₁⟩
        · exact .same le_rfl
        · exact ih.mono (by simp)
      · rcases parseEscapeSeq mem len (pos + 1) with _ | ⟨cp, pos'⟩
        · exact .same (by simp)
        · dsimp only
          refine agrees_bufGrow.step ?_ fun heq => by rw [heq]
          rcases bufGrow a b cap text.length (encodeUtf8 cp).length h with ⟨_ | ⟨buf, cap'⟩, h₁⟩
          · exact .same le_rfl
          · exact ih.mono (by simp)

theorem agrees_parseStringRaw : Agrees a h.ledger.requests
    (parseStringRaw a mem len pos h) (parseStringRaw a.willing mem len pos h) := by
  unfold parseStringRaw
  refine Agrees.step (agrees_alloc.mono ?_) ?_ fun heq => by rw [heq]
  · simp
  · rcases (h.use h.doc).alloc a with ⟨_ | buf, h₁⟩
    · exact .same le_rfl
    · exact agrees_parseStringFrom

theorem agrees_parseLiteral {word : List UInt8} {payload : Payload D} :
    Agrees a h.ledger.requests (parseLiteral a mem len word payload pos h)
      (parseLiteral a.willing mem len word payload pos h) := by
  unfold parseLiteral
  split_ifs
  · refine agrees_valueAlloc.step ?_ fun heq => by rw [heq]
    rcases valueAlloc a h with ⟨_ | b, h₁⟩
    · exact .same le_rfl
    · exact .same (by simp)
  · exact .same le_rfl

theorem agrees_parseStringValue : Agrees a h.ledger.requests
    (parseStringValue a mem len pos h) (parseStringValue a.willing mem len pos h) := by
  unfold parseStringValue
  refine agrees_parseStringRaw.step ?_ fun heq => by rw [heq]
  rcases parseStringRaw a mem len pos h with ⟨_ | _ | ⟨s, pos'⟩, h₁⟩
  · exact .same le_rfl
  · exact .same le_rfl
  · dsimp only
    refine agrees_valueAlloc.step ?_ fun heq => by rw [heq]
    rcases valueAlloc a h₁ with ⟨_ | b, h₂⟩
    · exact .same (by simp)
    · exact .same (by simp)

theorem agrees_parseNumberValue : Agrees a h.ledger.requests
    (parseNumberValue a num pos h) (parseNumberValue a.willing num pos h) := by
  unfold parseNumberValue
  refine agrees_valueAlloc.step ?_ fun heq => by rw [heq]
  rcases valueAlloc a h with ⟨_ | b, h₁⟩
  · exact .same le_rfl
  · cases num pos with
    | none => exact .same (by simp)
    | some r => exact .same (by simp)

theorem agrees_objectAppend {x val : ℕ} {key : CString} {r : ObjectRec} :
    Agrees a h.ledger.requests (objectAppend a x key val r h)
      (objectAppend a.willing x key val r h) := by
  unfold objectAppend
  dsimp only
  refine (agrees_objectRoom (x := x) (r := r)).step ?_ fun heq => by rw [heq]
  generalize (if r.members.items.length ≥ r.members.capacity then objectGrow a x r h
    else (some r, h)) = res
  rcases res with ⟨_ | r', h₁⟩
  · exact .same le_rfl
  · dsimp only
    split_ifs
    · exact .same (by simp)
    · exact .same le_rfl

/-- The functions that call each other, with the same fuel. -/
structure ParserAgrees (a : Allocator) (mem : List UInt8) (len : ℕ) (num : ℕ → Option (D × ℕ))
    (fuel : ℕ) : Prop where
  value : ∀ pos h, Agrees a h.ledger.requests (parseValue a mem len num fuel pos h)
    (parseValue a.willing mem len num fuel pos h)
  array : ∀ pos h, Agrees a h.ledger.requests (parseArray a mem len num fuel pos h)
    (parseArray a.willing mem len num fuel pos h)
  elements : ∀ pos arr h, Agrees a h.ledger.requests (parseElements a mem len num fuel pos arr h)
    (parseElements a.willing mem len num fuel pos arr h)
  object : ∀ pos h, Agrees a h.ledger.requests (parseObject a mem len num fuel pos h)
    (parseObject a.willing mem len num fuel pos h)
  members : ∀ pos obj h, Agrees a h.ledger.requests (parseMembers a mem len num fuel pos obj h)
    (parseMembers a.willing mem len num fuel pos obj h)

theorem ParserAgrees.value_succ (ih : ParserAgrees a mem len num fuel) :
    Agrees a h.ledger.requests (parseValue a mem len num (fuel + 1) pos h)
      (parseValue a.willing mem len num (fuel + 1) pos h) := by
  rw [parseValue, parseValue]
  cases peek mem len (skipWs mem len pos) with
  | none => exact .same le_rfl
  | some c =>
    dsimp only
    split_ifs
    · exact agrees_parseLiteral
    · exact agrees_parseLiteral
    · exact agrees_parseLiteral
    · exact ih.array _ _
    · exact ih.object _ _
    · exact agrees_parseStringValue
    · exact agrees_parseNumberValue
    · exact .same le_rfl

theorem ParserAgrees.array_succ (ih : ParserAgrees a mem len num fuel) :
    Agrees a h.ledger.requests (parseArray a mem len num (fuel + 1) pos h)
      (parseArray a.willing mem len num (fuel + 1) pos h) := by
  rw [parseArray, parseArray]
  split_ifs
  · exact .same le_rfl
  · refine agrees_valueAlloc.step ?_ fun heq => by rw [heq]
    rcases valueAlloc a h with ⟨_ | arr, h₁⟩
    · exact .same le_rfl
    · dsimp only
      split_ifs
      · exact .same (by simp)
      · exact (ih.elements _ _ _).mono (by simp)

theorem ParserAgrees.elements_succ (ih : ParserAgrees a mem len num fuel) {arr : ℕ} :
    Agrees a h.ledger.requests (parseElements a mem len num (fuel + 1) pos arr h)
      (parseElements a.willing mem len num (fuel + 1) pos arr h) := by
  rw [parseElements, parseElements]
  refine (ih.value pos h).step ?_ fun heq => by rw [heq]
  rcases parseValue a mem len num fuel pos h with ⟨_ | _ | ⟨elem, pos'⟩, h₁⟩
  · exact .same le_rfl
  · exact .same le_rfl
  · dsimp only
    split
    · rename_i r hr
      refine Agrees.step (agrees_arrayAppend.mono ?_) ?_ fun heq => by rw [heq]
      · simp
      · rcases arrayAppend a arr elem r (h₁.use arr) with ⟨_ | _ | _, h₂⟩
        · exact .same le_rfl
        · exact .same le_rfl
        · dsimp only
          split
          · exact .same le_rfl
          · exact ih.elements _ _ _
          · exact .same le_rfl
    · exact .same le_rfl

theorem ParserAgrees.object_succ (ih : ParserAgrees a mem len num fuel) :
    Agrees a h.ledger.requests (parseObject a mem len num (fuel + 1) pos h)
      (parseObject a.willing mem len num (fuel + 1) pos h) := by
  rw [parseObject, parseObject]
  split_ifs
  · exact .same le_rfl
  · refine agrees_valueAlloc.step ?_ fun heq => by rw [heq]
    rcases valueAlloc a h with ⟨_ | obj, h₁⟩
    · exact .same le_rfl
    · dsimp only
      split_ifs
      · exact .same (by simp)
      · exact (ih.members _ _ _).mono (by simp)

theorem ParserAgrees.members_succ (ih : ParserAgrees a mem len num fuel) {obj : ℕ} :
    Agrees a h.ledger.requests (parseMembers a mem len num (fuel + 1) pos obj h)
      (parseMembers a.willing mem len num (fuel + 1) pos obj h) := by
  rw [parseMembers, parseMembers]
  dsimp only
  split_ifs
  · exact .same le_rfl
  · refine agrees_parseStringRaw.step ?_ fun heq => by rw [heq]
    rcases parseStringRaw a mem len (skipWs mem len pos) h with ⟨_ | _ | ⟨key, pos'⟩, h₁⟩
    · exact .same le_rfl
    · exact .same le_rfl
    · dsimp only
      split_ifs
      · exact .same (by simp)
      · refine (ih.value _ h₁).step ?_ fun heq => by rw [heq]
        rcases parseValue a mem len num fuel (skipWs mem len pos' + 1) h₁ with
          ⟨_ | _ | ⟨val, pos''⟩, h₂⟩
        · exact .same le_rfl
        · exact .same (by simp)
        · dsimp only
          split
          · rename_i r hr
            refine Agrees.step (agrees_objectAppend.mono ?_) ?_ fun heq => by rw [heq]
            · simp
            · rcases objectAppend a obj key val r (h₂.use obj) with ⟨_ | _ | _, h₃⟩
              · exact .same le_rfl
              · exact .same (by simp)
              · dsimp only
                split
                · exact .same le_rfl
                · exact ih.members _ _ _
                · exact .same le_rfl
          · exact .same le_rfl

theorem parserAgrees (fuel : ℕ) : ParserAgrees a mem len num fuel := by
  induction fuel with
  | zero =>
    exact ⟨fun _ _ => .same le_rfl, fun _ _ => .same le_rfl, fun _ _ _ => .same le_rfl,
      fun _ _ => .same le_rfl, fun _ _ _ => .same le_rfl⟩
  | succ fuel ih =>
    exact ⟨fun _ _ => ih.value_succ, fun _ _ => ih.array_succ, fun _ _ _ => ih.elements_succ,
      fun _ _ => ih.object_succ, fun _ _ _ => ih.members_succ⟩

theorem agrees_jsonParseInto : Agrees a h.ledger.requests
    (jsonParseInto a mem len num fuel h) (jsonParseInto a.willing mem len num fuel h) := by
  unfold jsonParseInto
  refine ((parserAgrees fuel).value 0 h).step ?_ fun heq => by rw [heq]
  rcases parseValue a mem len num fuel 0 h with ⟨_ | _ | ⟨val, pos⟩, h₁⟩
  · exact .same le_rfl
  · exact .same le_rfl
  · dsimp only
    split_ifs
    · exact .same le_rfl
    · exact .same (by simp)

end Parser

/-! ## Parsing into a new document -/

section Parse

variable {mem : List UInt8} {len fuel : ℕ} {num : ℕ → Option (D × ℕ)} {payload : Payload D}

theorem requests_freePtr {p : Option ℕ} : (h.freePtr p).ledger.requests = h.ledger.requests := by
  cases p with
  | none => rfl
  | some b => exact requests_free

theorem requests_freeKeys {keys : ℕ} {ms : List (CString × ℕ)} :
    (freeKeys keys ms h).ledger.requests = h.ledger.requests := by
  induction ms generalizing h with
  | nil => rfl
  | cons m ms ih => exact ih.trans (requests_free.trans requests_use)

theorem requests_freeBlocks : (freeBlocks payload h).ledger.requests = h.ledger.requests := by
  cases payload with
  | str s => exact requests_freePtr
  | arr r => exact requests_freePtr
  | obj r =>
    refine requests_freePtr.trans ?_
    unfold freeKeyArray
    split
    · exact requests_free.trans requests_freeKeys
    · rfl
  | _ => rfl

/-- The release of a document makes no requests. -/
theorem requests_valueDestroyChain {p : Option ℕ} {h' : Heap D}
    (hchain : valueDestroyChain fuel p h = some h') :
    h'.ledger.requests = h.ledger.requests := by
  induction fuel generalizing p h with
  | zero =>
    cases p with
    | none => rw [← Option.some.inj hchain]
    | some b => cases hchain
  | succ fuel ih =>
    cases p with
    | none => rw [← Option.some.inj hchain]
    | some b =>
      refine (ih hchain).trans ?_
      simp [valueFreePayload, requests_freeBlocks]

theorem requests_zenitJsonDestroy {l : Ledger} (hdestroy : zenitJsonDestroy h = some l) :
    l.requests = h.ledger.requests := by
  obtain ⟨h', hchain, rfl⟩ := Option.map_eq_some_iff.mp hdestroy
  have hrequests := requests_valueDestroyChain hchain
  simpa using hrequests

/-- What is released after a failure does not count. -/
theorem requests_parse {l l₁ : Ledger} (hcreate : zenitJsonCreateWithAllocator a l = (some h, l₁)) :
    (zenitJsonParseWithLengthAndAllocator a mem len num fuel l).2.requests =
      (jsonParseInto a mem len num fuel h).2.ledger.requests := by
  unfold zenitJsonParseWithLengthAndAllocator
  rw [hcreate]
  dsimp only
  rcases jsonParseInto a mem len num fuel h with ⟨_ | _ | _, h₁⟩
  · rfl
  · dsimp only
    cases hdestroy : zenitJsonDestroy h₁ with
    | none => rfl
    | some l₂ => exact requests_zenitJsonDestroy hdestroy
  · rfl

/-- A request that is granted makes a document. -/
theorem create_granted {l : Ledger} (hgrant : a.grants l.requests = true) :
    ∃ h : Heap D, zenitJsonCreateWithAllocator a l = (some h, h.ledger) ∧
      zenitJsonCreateWithAllocator a.willing l = (some h, h.ledger) ∧
      h.ledger.requests = l.requests + 1 := by
  have hone := requests_alloc l a.grants
  have hwilling := alloc_willing hgrant
  unfold zenitJsonCreateWithAllocator
  simp only [Allocator.willing, hwilling]
  rcases heq : l.alloc a.grants with ⟨_ | doc, l₁⟩
  · rw [Ledger.alloc, if_pos hgrant] at heq
    cases heq
  · rw [heq] at hone
    exact ⟨_, rfl, rfl, requests_use_ledger.trans hone⟩

/-- Without a refusal of its own the parser does what it does with the willing allocator. -/
theorem parse_willing {l : Ledger}
    (hnone : ¬ Refused a l (zenitJsonParseWithLengthAndAllocator a mem len num fuel l).2) :
    zenitJsonParseWithLengthAndAllocator a.willing mem len num fuel l =
      zenitJsonParseWithLengthAndAllocator a mem len num fuel l := by
  by_cases hgrant : a.grants l.requests = true
  · obtain ⟨h, hcreate, hwilling, hone⟩ := create_granted (D := D) hgrant
    have hinto : jsonParseInto a.willing mem len num fuel h =
        jsonParseInto a mem len num fuel h := by
      refine agrees_jsonParseInto.eq fun i hle hlt => ?_
      rw [← requests_parse hcreate] at hlt
      exact granted_of_not_refused hnone (by omega) hlt
    simp only [zenitJsonParseWithLengthAndAllocator, hcreate, hwilling, hinto]
  · refine absurd ⟨l.requests, Finset.mem_Ico.mpr ⟨le_rfl, ?_⟩, by simpa using hgrant⟩ hnone
    simp only [zenitJsonParseWithLengthAndAllocator, zenitJsonCreateWithAllocator, Ledger.alloc,
      if_neg hgrant]
    exact Nat.lt_succ_self _

end Parse

end LibZenit.JsonHeap
