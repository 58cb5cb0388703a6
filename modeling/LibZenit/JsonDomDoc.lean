import LibZenit.JsonDom
import LibZenit.JsonGrammar
import LibZenit.JsonHeapSteps

/-!
# What the records of a document mean

The abstract document forgets blocks and capacities: it has a content for each record and a root.
`Represents` ties it to the records on the chain and to the ownership of blocks.
-/
namespace LibZenit.JsonHeap
open Json BlockLedger

variable {D : Type}

/-! ## Abstract documents -/

/-- What a client sees of a record. Items and values are pointers to other records. -/
inductive Content (D : Type) where
  | null
  | bool (v : Bool)
  | num (d : Option D)
  | str (s : Option (List UInt8))
  | arr (items : List ℕ)
  | obj (members : List (List UInt8 × ℕ))

def memberTexts (ms : List (CString × ℕ)) : List (List UInt8 × ℕ) := ms.map fun m => (m.1.text, m.2)

def Payload.content : Payload D → Content D
  | .null => .null
  | .bool v => .bool v
  | .num d => .num d
  | .str s => .str (s.map CString.text)
  | .arr r => .arr r.items.items
  | .obj r => .obj (memberTexts r.members.items)

def Content.type : Content D → ZenitJsonType
  | .null => .null
  | .bool _ => .bool
  | .num _ => .number
  | .str _ => .string
  | .arr _ => .array
  | .obj _ => .object

theorem Payload.type_content (payload : Payload D) : payload.content.type = payload.type := by
  cases payload <;> rfl

def Made.content : Made D → Content D
  | .null => .null
  | .bool v => .bool (v ≠ 0)
  | .number d => .num (some d)
  | .string s => .str (some (cstr (s.getD [])))
  | .array => .arr []
  | .object => .obj []

structure Doc (D : Type) where
  values : ℕ → Option (Content D)
  root : Option ℕ

def Doc.put (d : Doc D) (p : ℕ) (c : Content D) : Doc D :=
  { d with values := Function.update d.values p (some c) }

/-- The items of a value, if it is an array. -/
def Doc.items (d : Doc D) (val : Option ℕ) : Option (List ℕ) :=
  match val.bind d.values with
  | some (.arr items) => some items
  | _ => none

/-- The members of a value, if it is an object. -/
def Doc.members (d : Doc D) (val : Option ℕ) : Option (List (List UInt8 × ℕ)) :=
  match val.bind d.values with
  | some (.obj ms) => some ms
  | _ => none

/-- The type of a value; what is not there has the type of `null`. -/
def Doc.type (d : Doc D) (val : Option ℕ) : ZenitJsonType :=
  ((val.bind d.values).getD .null).type

def Doc.append (d : Doc D) (arr item : ℕ) : Reply D × Doc D :=
  match d.items (some arr) with
  | some items => (.code .ok, d.put arr (.arr (items ++ [item])))
  | none => (.code .param, d)

def Doc.removeAt (d : Doc D) (arr index : ℕ) : Reply D × Doc D :=
  match d.items (some arr) with
  | some items =>
    if index < items.length then (.code .ok, d.put arr (.arr (items.eraseIdx index)))
    else (.code .param, d)
  | none => (.code .param, d)

def Doc.insertAt (d : Doc D) (arr index item : ℕ) : Reply D × Doc D :=
  match d.items (some arr) with
  | some items =>
    if index ≤ items.length then (.code .ok, d.put arr (.arr (items.insertIdx index item)))
    else (.code .param, d)
  | none => (.code .param, d)

def Doc.set (d : Doc D) (obj : ℕ) (key : List UInt8) (val : ℕ) : Reply D × Doc D :=
  match d.members (some obj) with
  | some ms => (.code .ok, d.put obj (.obj ((overwrite key val ms).getD (ms ++ [(cstr key, val)]))))
  | none => (.code .param, d)

def Doc.remove (d : Doc D) (obj : ℕ) (key : List UInt8) : Reply D × Doc D :=
  match d.members (some obj) with
  | some ms =>
    match shiftOut key ms with
    | some ms => (.code .ok, d.put obj (.obj ms))
    | none => (.code .notFound, d)
  | none => (.code .param, d)

/-- What a call other than a constructor answers when no request is refused. -/
def Doc.answer (d : Doc D) : DomOp D → Reply D × Doc D
  | .make _ => (.pointer none, d)
  | .arrayAppend (some arr) (some item) => d.append arr item
  | .arrayRemove (some arr) index => d.removeAt arr index
  | .arrayInsert (some arr) index (some item) => d.insertAt arr index item
  | .objectSet (some obj) (some key) (some val) => d.set obj key val
  | .objectRemove (some obj) (some key) => d.remove obj key
  | .setRoot val => (.code .ok, { d with root := val })
  | .root => (.pointer d.root, d)
  | .arrayCount val => (.count ((d.items val).getD []).length, d)
  | .arrayGet val index => (.pointer ((d.items val).getD [])[index]?, d)
  | .objectCount val => (.count ((d.members val).getD []).length, d)
  | .objectKey val index => (.text (((d.members val).getD [])[index]?.map Prod.fst), d)
  | .objectValueAt val index => (.pointer (((d.members val).getD [])[index]?.map Prod.snd), d)
  | .objectGet val (some key) => (.pointer (findValue key ((d.members val).getD [])), d)
  | .objectGet _ none => (.pointer none, d)
  | .getString val =>
    (.text (match val.bind d.values with
      | some (.str s) => s
      | _ => none), d)
  | .valueType val => (.kind (d.type val), d)
  | .isNull val => (.flag (d.type val = .null), d)
  | .getBool val =>
    (.flag (match val.bind d.values with
      | some (.bool v) => v
      | _ => false), d)
  | .getNumber val =>
    (.number (match val.bind d.values with
      | some (.num v) => v
      | _ => none), d)
  | _ => (.code .null, d)

/-- The calls that may need memory for an array or a key. -/
def DomOp.allocates : DomOp D → Bool
  | .arrayAppend _ _ => true
  | .arrayInsert _ _ _ => true
  | .objectSet _ _ _ => true
  | _ => false

/-- One call on the abstract document. A constructor makes a fresh value, or fails; then a string
may leave a value without content behind. Every other call answers, or it is refused and changes
nothing. -/
def Doc.Step (refuses : Prop) (d : Doc D) (op : DomOp D) (reply : Reply D) (d' : Doc D) : Prop :=
  match op with
  | .make m =>
    (∃ p, d.values p = none ∧ reply = .pointer (some p) ∧ d' = d.put p m.content) ∨
      (refuses ∧ reply = .pointer none ∧
        (d' = d ∨ ∃ p, d.values p = none ∧ d' = d.put p (.str none)))
  | op => (reply, d') = d.answer op ∨ (refuses ∧ op.allocates ∧ reply = .code .alloc ∧ d' = d)

/-! ## Representation -/

/-- Arrays always find room for one more slot after growing. -/
def Payload.Ready : Payload D → Prop
  | .arr r => r.items.Ready
  | .obj r => r.members.Ready
  | _ => True

/-- The records `xs` on the chain are the values of the abstract document. -/
structure Represents (h : Heap D) (xs : List ℕ) (m : Multiset ℕ) (d : Doc D) : Prop where
  holds : Holds h xs m
  ready : ∀ x ∈ xs, (h.nodes x).payload.Ready
  value : ∀ x ∈ xs, d.values x = some (h.nodes x).payload.content
  other : ∀ x ∉ xs, d.values x = none
  root : d.root = h.root

variable {h h' : Heap D} {xs : List ℕ} {m m' : Multiset ℕ} {d : Doc D} {a : Allocator} {x : ℕ}
  {payload : Payload D}

theorem put_self {c : Content D} (hx : d.values x = some c) : d.put x c = d := by
  unfold Doc.put
  rw [← hx, Function.update_eq_self]

/-- The record `x` has changed, and no other one. -/
theorem Represents.update (h₀ : Represents h xs m d) (hx : x ∈ xs) (hh : Holds h' xs m')
    (hkeep : KeepsBut x h h') (hpayload : (h'.nodes x).payload = payload)
    (hready : payload.Ready) (hroot : h'.root = h.root) :
    Represents h' xs m' (d.put x payload.content) where
  holds := hh
  ready y hy := by
    by_cases hyx : y = x
    · rw [hyx, hpayload]
      exact hready
    · rw [hkeep y hyx]
      exact h₀.ready y hy
  value y hy := by
    by_cases hyx : y = x
    · rw [hyx, hpayload]
      exact Function.update_self ..
    · rw [hkeep y hyx, ← h₀.value y hy]
      exact Function.update_of_ne hyx ..
  other y hy := by
    have hyx : y ≠ x := fun he => hy (he ▸ hx)
    rw [← h₀.other y hy]
    exact Function.update_of_ne hyx ..
  root := h₀.root.trans hroot.symm

/-- The content of the record `x` is what it was. -/
theorem Represents.keep (h₀ : Represents h xs m d) (hx : x ∈ xs) (hh : Holds h' xs m)
    (hkeep : KeepsBut x h h') (hready : (h'.nodes x).payload.Ready)
    (hcontent : (h'.nodes x).payload.content = (h.nodes x).payload.content)
    (hroot : h'.root = h.root) : Represents h' xs m d := by
  have hstep := h₀.update hx hh hkeep rfl hready hroot
  rwa [hcontent, put_self (h₀.value x hx)] at hstep

/-- Nothing a client sees has changed. -/
theorem Represents.same (h₀ : Represents h xs m d) (hh : Holds h' xs m') (hkeep : Keeps h h' xs)
    (hroot : h'.root = h.root) : Represents h' xs m' d where
  holds := hh
  ready y hy := by
    rw [hkeep y hy]
    exact h₀.ready y hy
  value y hy := by
    rw [hkeep y hy]
    exact h₀.value y hy
  other := h₀.other
  root := h₀.root.trans hroot.symm

theorem Keeps.of_nodes (hnodes : h'.nodes = h.nodes) : Keeps h h' xs := fun x _ => by rw [hnodes]

/-- A record has been added to the chain. -/
theorem Represents.extend (h₀ : Represents h xs m d) {b : ℕ} (hb : b ∉ xs)
    (hh : Holds h' (xs ++ [b]) m) (hkeep : Keeps h h' xs)
    (hpayload : (h'.nodes b).payload = payload) (hready : payload.Ready)
    (hroot : h'.root = h.root) : Represents h' (xs ++ [b]) m (d.put b payload.content) where
  holds := hh
  ready y hy := by
    rcases List.mem_append.mp hy with hy | hy
    · rw [hkeep y hy]
      exact h₀.ready y hy
    · rw [List.mem_singleton.mp hy, hpayload]
      exact hready
  value y hy := by
    rcases List.mem_append.mp hy with hy | hy
    · have hyb : y ≠ b := fun he => hb (he ▸ hy)
      rw [hkeep y hy, ← h₀.value y hy]
      exact Function.update_of_ne hyb ..
    · rw [List.mem_singleton.mp hy, hpayload]
      exact Function.update_self ..
  other y hy := by
    simp only [List.mem_append, List.mem_singleton, not_or] at hy
    rw [← h₀.other y hy.1]
    exact Function.update_of_ne hy.2 ..
  root := h₀.root.trans hroot.symm

/-! ## The root stays -/

section Root

@[simp]
theorem use_root (b : ℕ) : (h.use b).root = h.root := rfl

@[simp]
theorem usePtr_root (p : Option ℕ) : (h.usePtr p).root = h.root := by cases p <;> rfl

@[simp]
theorem free_root (b : ℕ) : (h.free b).root = h.root := rfl

@[simp]
theorem setPayload_root (b : ℕ) : (h.setPayload b payload).root = h.root := rfl

@[simp]
theorem alloc_root : (h.alloc a).2.root = h.root := rfl

@[simp]
theorem realloc_root (b : ℕ) : (h.realloc a b).2.root = h.root := rfl

@[simp]
theorem link_root (b : ℕ) : (h.link b).root = h.root := by
  unfold Heap.link
  split <;> rfl

@[simp]
theorem moveArray_root (old : Option ℕ) (new : ℕ) : (moveArray old new h).root = h.root := by
  cases old <;> rfl

theorem alloc_root_of {b : Option ℕ} (heq : h.alloc a = (b, h')) : h'.root = h.root := by
  have hroot := alloc_root (h := h) (a := a)
  rwa [heq] at hroot

theorem valueAlloc_root : (JsonHeap.valueAlloc a h).2.root = h.root := by
  unfold JsonHeap.valueAlloc
  rcases heq : (h.use h.doc).alloc a with ⟨_ | b, h₁⟩
  · have hroot := alloc_root_of heq
    exact hroot
  · have hroot := alloc_root_of heq
    exact (link_root b).trans hroot

theorem arrayGrow_root (arr : ℕ) (r : ArrayRec) :
    (JsonHeap.arrayGrow a arr r h).2.root = h.root := by
  unfold JsonHeap.arrayGrow
  cases r.block with
  | none =>
    rcases heq : h.alloc a with ⟨_ | b, h₁⟩
    · have hroot := alloc_root_of heq
      exact hroot
    · have hroot := alloc_root_of heq
      exact hroot
  | some b =>
    have hroot := realloc_root (h := h) (a := a) b
    rcases heq : h.realloc a b with ⟨_ | c, h₁⟩
    · dsimp only
      rwa [heq] at hroot ⊢
    · dsimp only
      rw [heq] at hroot ⊢
      exact hroot

theorem objectGrow_root (obj : ℕ) (r : ObjectRec) :
    (JsonHeap.objectGrow a obj r h).2.root = h.root := by
  unfold JsonHeap.objectGrow
  rcases heq : h.alloc a with ⟨_ | k, h₁⟩
  · have hroot := alloc_root_of heq
    exact hroot
  · have hroot := alloc_root_of heq
    dsimp only
    rcases heq₂ : (h₁.use k).alloc a with ⟨_ | v, h₂⟩
    · have hroot₂ := alloc_root_of heq₂
      exact hroot₂.trans hroot
    · have hroot₂ := alloc_root_of heq₂
      simpa using hroot₂.trans hroot

theorem strDup_root (s : List UInt8) : (strDup a s h).2.root = h.root := by
  unfold strDup
  rcases heq : h.alloc a with ⟨_ | b, h₁⟩
  · have hroot := alloc_root_of heq
    exact hroot
  · have hroot := alloc_root_of heq
    exact hroot

end Root

end LibZenit.JsonHeap
