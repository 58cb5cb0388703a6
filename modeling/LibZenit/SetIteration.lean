import LibZenit.ErasingWalks
import LibZenit.MapEnumeration

/-!
# Walking a set while keys are removed

The iterator of `set.c` reads the set as it is at each call. A removal leaves a tombstone and moves
nothing, so that the iterator goes on to meet what is left, every key once.
-/
namespace LibZenit.HashTable
open HashCommon Slots ErasingWalks

variable {keySize : ℕ} {σ : Type}

/-! ## The walks of `set.c` -/

def zenitSetForeach (set : KeySet keySize) (visit : Option (Bytes keySize → σ → σ)) (ctx : σ) :
    Option σ :=
  match visit with
  | none => some ctx
  | some visit => walkSlots set (fun ctx slot => some (visit slot ctx)) ctx

/-- `zenit_iter_t` without the pointer to the set. -/
structure SetIter where
  index : ℕ
  count : ℕ
  isValid : Bool

def zenitSetIter (set : Option (KeySet keySize)) : SetIter where
  index := 0
  count := (set.map Table.count).getD 0
  isValid := set.isSome

/-- `set` is what `container` points to at the time of the call. -/
def zenitSetIterNext (set : KeySet keySize) (iter : SetIter) :
    Option (SetIter × Option (Bytes keySize)) :=
  if !iter.isValid then some (iter, none)
  else do
    let (index, slot) ← iterScan set (set.capacity - iter.index) iter.index
    some ({ iter with index := index }, slot)

def zenitSetToArray (granted : Bool) (outs : Bool × Bool) (set : KeySet keySize) :
    Option (ZenitError × Option (Listing (Bytes keySize))) := listing id granted outs set

/-! ## Calls during a walk -/

/-- What may happen between two steps of the iterator. The visitor of `foreach` notes the keys. -/
inductive WalkCall (keySize : ℕ) where
  | next
  | remove (key : Option (Bytes keySize))
  | contains (key : Option (Bytes keySize))
  | foreach
  | toArray (granted : Bool) (outs : Bool × Bool)
  | clear

inductive WalkReply (keySize : ℕ) where
  | key (key : Option (Bytes keySize))
  | code (code : ZenitError)
  | found (found : Bool)
  | visited (keys : List (Bytes keySize))
  | array (code : ZenitError) (listing : Option (Listing (Bytes keySize)))
  | done

def walkCall (set : KeySet keySize) (iter : SetIter) :
    WalkCall keySize → Option (KeySet keySize × SetIter × WalkReply keySize)
  | .next => (zenitSetIterNext set iter).map fun r => (set, r.1, .key r.2)
  | .remove key => (zenitSetRemove set key).map fun r => (r.2, iter, .code r.1)
  | .contains key => (zenitSetContains set key).map fun found => (set, iter, .found found)
  | .foreach =>
    (zenitSetForeach set (some fun key keys => keys ++ [key]) []).map fun keys =>
      (set, iter, .visited keys)
  | .toArray granted outs =>
    (zenitSetToArray granted outs set).map fun r => (set, iter, .array r.1 r.2)
  | .clear => (zenitSetClear set).map fun set => (set, iter, .done)

/-- The replies to a sequence of calls, and the set at its end. -/
def walkCalls (set : KeySet keySize) (iter : SetIter) :
    List (WalkCall keySize) → Option (List (WalkReply keySize) × KeySet keySize)
  | [] => some ([], set)
  | call :: calls => do
    let (set, iter, reply) ← walkCall set iter call
    let (replies, set) ← walkCalls set iter calls
    some (reply :: replies, set)

/-! ## The abstract walk -/

def WalkCall.act : WalkCall keySize → Option (Act (Bytes keySize))
  | .next => some .next
  | .remove key => key.map .erase
  | .contains _ => none
  | .foreach => none
  | .toArray _ _ => none
  | .clear => some .clear

def WalkReply.handed : WalkReply keySize → Option (Bytes keySize)
  | .key k => k
  | _ => none

/-- What `zenit_set_to_array` reports of the keys that are stored. -/
def arrayReply (stored : List (Bytes keySize)) (granted : Bool) (outs : Bool × Bool) :
    WalkReply keySize :=
  if !outs.1 || !outs.2 then .array .null none
  else if stored = [] then .array .ok (some (none, 0))
  else if !granted then .array .alloc (some (none, 0))
  else .array .ok (some (some (stored.map some), stored.length))

/-- The reply that the two lists of keys call for. -/
def replyOf (w : Walk (Bytes keySize)) : WalkCall keySize → WalkReply keySize
  | .next => .key w.todo.head?
  | .remove none => .code .null
  | .remove (some key) => .code (if key ∈ w.stored then .ok else .notFound)
  | .contains none => .found false
  | .contains (some key) => .found (decide (key ∈ w.stored))
  | .foreach => .visited w.stored
  | .toArray granted outs => arrayReply w.stored granted outs
  | .clear => .done

def advance (w : Walk (Bytes keySize)) (call : WalkCall keySize) : Walk (Bytes keySize) :=
  w.acts call.act.toList

/-- The walk after a sequence of calls. -/
def advances (w : Walk (Bytes keySize)) (calls : List (WalkCall keySize)) : Walk (Bytes keySize) :=
  w.acts (calls.filterMap WalkCall.act)

def repliesOf (w : Walk (Bytes keySize)) : List (WalkCall keySize) → List (WalkReply keySize)
  | [] => []
  | call :: calls => replyOf w call :: repliesOf (advance w call) calls

theorem advances_cons (w : Walk (Bytes keySize)) (call : WalkCall keySize)
    (calls : List (WalkCall keySize)) :
    advances w (call :: calls) = advances (advance w call) calls := by
  unfold advances advance
  cases hact : call.act with
  | none => rw [List.filterMap_cons_none hact]; rfl
  | some a => rw [List.filterMap_cons_some hact]; rfl

/-! ## Slots after a removal -/

variable {set set' : KeySet keySize} {iter : SetIter} {w : Walk (Bytes keySize)}
  {key : Bytes keySize} {i : ℕ}

theorem entries_eq_from (set : KeySet keySize) : entries set = entriesFrom set 0 set.capacity := by
  rw [entries, entriesFrom, List.range_eq_range']

theorem entriesFrom_filter {p : Bytes keySize → Bool}
    (h : ∀ j, entryAt set' j = (entryAt set j).filter p) (index left : ℕ) :
    entriesFrom set' index left = (entriesFrom set index left).filter p := by
  unfold entriesFrom
  rw [List.filter_filterMap]
  exact List.filterMap_congr fun j _ => h j

/-- A tombstone hides one key and leaves the other slots alone. -/
theorem Wf.entryAt_tombstone (h : Wf id set) (hentry : entryAt set i = some key)
    (hslots : set'.slots = set.slots) (hstates : set'.states = set.states.set i .deleted) (j : ℕ) :
    entryAt set' j = (entryAt set j).filter (· ≠ key) := by
  have hi := entryAt_lt h hentry
  rw [← h.statesLen] at hi
  have hset' : entryAt set' j = if j = i then none else entryAt set j := by
    simp only [entryAt, hslots, hstates, getElem?_set_eq hi]
    by_cases hj : j = i <;> simp [hj]
  rw [hset']
  by_cases hj : j = i
  · rw [if_pos hj, hj, hentry, Option.filter_some, if_neg (by simp)]
  · rw [if_neg hj]
    cases he : entryAt set j with
    | none => rfl
    | some e =>
      have hne : e ≠ key := by
        rintro rfl
        exact hj (h.probed.unique j (entryAt_lt h he) i (entryAt_lt h hentry) e
          (by simp [keyAt, he]) (by simp [keyAt, hentry]))
      rw [Option.filter_some, if_pos (by simpa using hne)]

theorem Light.contains_eq (h : Light keySize id set) (key : Bytes keySize) :
    zenitSetContains set (some key) = some (decide (key ∈ entries set)) := by
  have hans := h.wf.probeSlot_answers key
  cases hp : probeSlot id set key with
  | none =>
    rw [hp] at hans
    exact hans.elim
  | some answer =>
    obtain ⟨state, i⟩ := answer
    rw [hp] at hans
    have hcontains : zenitSetContains set (some key) = some (decide (state = .occupied)) := by
      simp [zenitSetContains, contains, hp]
    have habsent : (∀ e, Stores set e → id e ≠ key) → key ∉ entries set := fun hne hmem =>
      hne key ((h.wf.mem_entries key).mp hmem) rfl
    rw [hcontains]
    cases state with
    | occupied =>
      obtain ⟨slot, hentry, rfl⟩ := hans
      simp [(h.wf.mem_entries slot).mpr ⟨i, hentry⟩]
    | empty => simp [habsent hans.2.2.2]
    | deleted => simp [habsent hans.2.2.2]

theorem Light.remove_eq (h : Light keySize id set) (key : Bytes keySize) :
    ∃ set', zenitSetRemove set (some key) =
        some (if key ∈ entries set then .ok else .notFound, set') ∧
      Light keySize id set' ∧ set'.capacity = set.capacity ∧
      ∀ j, entryAt set' j = (entryAt set j).filter (· ≠ key) := by
  have hans := h.wf.probeSlot_answers key
  have hkept : (∀ e, Stores set e → id e ≠ key) →
      key ∉ entries set ∧ ∀ j, entryAt set j = (entryAt set j).filter (· ≠ key) := by
    intro hne
    refine ⟨fun hmem => hne key ((h.wf.mem_entries key).mp hmem) rfl, fun j => ?_⟩
    cases he : entryAt set j with
    | none => rfl
    | some e => rw [Option.filter_some, if_pos (by simpa using hne e ⟨j, he⟩)]
  cases hp : probeSlot id set key with
  | none =>
    rw [hp] at hans
    exact hans.elim
  | some answer =>
    obtain ⟨state, i⟩ := answer
    rw [hp] at hans
    cases state with
    | occupied =>
      obtain ⟨slot, hentry, hslot⟩ := hans
      obtain rfl : slot = key := hslot
      obtain ⟨states, set', hstore, hset', hwf, hcap, -, hused, -⟩ :=
        h.wf.tombstone_spec hentry
      have hi := entryAt_lt h.wf hentry
      rw [← h.wf.statesLen] at hi
      obtain rfl : set.states.set i .deleted = states :=
        Option.some.inj ((store_eq hi _).symm.trans hstore)
      refine ⟨set', ?_, ⟨hwf, hcap.symm ▸ h.big, ?_, h.sized, hcap.symm ▸ h.bytes⟩, hcap, ?_⟩
      · rw [if_pos ((h.wf.mem_entries slot).mpr ⟨i, hentry⟩)]
        simp [zenitSetRemove, remove, hp, hstore, hset']
      · rw [hcap, hused]
        exact h.load
      · exact h.wf.entryAt_tombstone hentry (by rw [← hset']) (by rw [← hset'])
    | empty =>
      obtain ⟨habs, hentries⟩ := hkept hans.2.2.2
      exact ⟨set, by simp [zenitSetRemove, remove, hp, habs], h, rfl, hentries⟩
    | deleted =>
      obtain ⟨habs, hentries⟩ := hkept hans.2.2.2
      exact ⟨set, by simp [zenitSetRemove, remove, hp, habs], h, rfl, hentries⟩

/-! ## The iterator follows the abstract walk -/

structure Follows (set : KeySet keySize) (iter : SetIter) (w : Walk (Bytes keySize)) : Prop where
  light : Light keySize id set
  valid : iter.isValid = true
  within : iter.index ≤ set.capacity
  todo : w.todo = entriesFrom set iter.index (set.capacity - iter.index)
  stored : w.stored = entries set

theorem Light.follows (h : Light keySize id set) :
    Follows set (zenitSetIter (some set)) ⟨entries set, entries set⟩ :=
  ⟨h, rfl, Nat.zero_le _, entries_eq_from set, rfl⟩

theorem Follows.next (h : Follows set iter w) :
    ∃ iter', zenitSetIterNext set iter = some (iter', w.todo.head?) ∧
      Follows set iter' (w.act .next) := by
  have hleft : iter.index + (set.capacity - iter.index) = set.capacity := by
    have := h.within
    omega
  have hnext : zenitSetIterNext set iter = (iterScan set (set.capacity - iter.index) iter.index).map
      fun r => ({ iter with index := r.1 }, r.2) := by
    rw [zenitSetIterNext, h.valid]
    cases iterScan set (set.capacity - iter.index) iter.index with
    | none => rfl
    | some r => rfl
  rcases h.light.wf.iterScan_spec hleft with ⟨hscan, hnil⟩ | ⟨j, left, e, hj, hscan, hcons⟩
  · refine ⟨{ iter with index := set.capacity }, ?_, h.light, h.valid, le_rfl, ?_, h.stored⟩
    · rw [hnext, hscan, h.todo, hnil]
      rfl
    · rw [Walk.act, h.todo, hnil, Nat.sub_self]
      rfl
  · refine ⟨{ iter with index := j }, ?_, h.light, h.valid, hj ▸ Nat.le_add_right j left, ?_,
      h.stored⟩
    · rw [hnext, hscan, h.todo, hcons]
      rfl
    · rw [Walk.act, h.todo, hcons, show set.capacity - j = left by omega]
      rfl

theorem Follows.remove (h : Follows set iter w) (key : Bytes keySize) :
    ∃ set', zenitSetRemove set (some key) =
        some (if key ∈ w.stored then .ok else .notFound, set') ∧
      Follows set' iter (w.act (.erase key)) := by
  obtain ⟨set', hrun, hlight, hcap, hentries⟩ := h.light.remove_eq key
  refine ⟨set', by rw [hrun, h.stored], hlight, h.valid, hcap.symm ▸ h.within, ?_, ?_⟩
  · rw [Walk.act, h.todo, hcap, entriesFrom_filter hentries]
  · rw [Walk.act, h.stored, entries_eq_from, entries_eq_from, hcap, entriesFrom_filter hentries]

theorem Follows.clear (h : Follows set iter w) :
    ∃ set', zenitSetClear set = some set' ∧ Follows set' iter (w.act .clear) := by
  obtain ⟨set', hrun, hlight, hcap, -, hnone⟩ := h.light.clear_spec
  have hnil : ∀ index left, entriesFrom set' index left = [] := fun index left =>
    List.filterMap_eq_nil_iff.mpr fun j _ => by
      cases he : entryAt set' j with
      | none => rfl
      | some e => exact absurd ⟨j, he⟩ (hnone e)
  refine ⟨set', hrun, hlight, h.valid, hcap.symm ▸ h.within, (hnil _ _).symm, ?_⟩
  rw [Walk.act, entries_eq_from, hnil]

theorem Follows.foreach (h : Follows set iter w) :
    zenitSetForeach set (some fun key keys => keys ++ [key]) [] = some w.stored := by
  rw [zenitSetForeach, h.light.wf.walkSlots_eq, h.stored]
  refine (List.foldlM_pure ..).trans (congrArg some ?_)
  rw [List.foldl_append_eq_append, List.nil_append, ← List.flatMap_def,
    List.flatMap_singleton']

theorem Follows.toArray (h : Follows set iter w) (granted : Bool) (outs : Bool × Bool) :
    (zenitSetToArray granted outs set).map (fun r => (set, iter, WalkReply.array r.1 r.2)) =
      some (set, iter, arrayReply w.stored granted outs) := by
  have hcount : set.count = 0 ↔ w.stored = [] := by
    rw [← h.light.wf.length_entries, h.stored, List.length_eq_zero_iff]
  unfold zenitSetToArray listing arrayReply
  simp only [hcount]
  split_ifs with houts hnil hgrant
  · rfl
  · rfl
  · rfl
  · rw [h.light.wf.copyOut_eq, ← h.light.wf.length_entries, h.stored]
    rfl

/-- One call. -/
theorem Follows.call (h : Follows set iter w) (call : WalkCall keySize) :
    ∃ set' iter', walkCall set iter call = some (set', iter', replyOf w call) ∧
      Follows set' iter' (advance w call) := by
  cases call with
  | next =>
    obtain ⟨iter', hrun, hf⟩ := h.next
    exact ⟨set, iter', by rw [walkCall, hrun]; rfl, hf⟩
  | remove key =>
    cases key with
    | none => exact ⟨set, iter, rfl, h⟩
    | some key =>
      obtain ⟨set', hrun, hf⟩ := h.remove key
      exact ⟨set', iter, by rw [walkCall, hrun]; rfl, hf⟩
  | contains key =>
    cases key with
    | none => exact ⟨set, iter, rfl, h⟩
    | some key =>
      refine ⟨set, iter, ?_, h⟩
      rw [walkCall, h.light.contains_eq, replyOf, h.stored]
      rfl
  | foreach => exact ⟨set, iter, by rw [walkCall, h.foreach]; rfl, h⟩
  | toArray granted outs => exact ⟨set, iter, h.toArray granted outs, h⟩
  | clear =>
    obtain ⟨set', hrun, hf⟩ := h.clear
    exact ⟨set', iter, by rw [walkCall, hrun]; rfl, hf⟩

theorem Follows.calls (h : Follows set iter w) (calls : List (WalkCall keySize)) :
    ∃ set' iter', walkCalls set iter calls = some (repliesOf w calls, set') ∧
      Follows set' iter' (advances w calls) := by
  induction calls generalizing set iter w with
  | nil => exact ⟨set, iter, rfl, h⟩
  | cons call calls ih =>
    obtain ⟨set₁, iter₁, hcall, hf₁⟩ := h.call call
    obtain ⟨set₂, iter₂, hcalls, hf₂⟩ := ih hf₁
    refine ⟨set₂, iter₂, ?_, by rwa [advances_cons]⟩
    rw [walkCalls, hcall, Option.bind_eq_bind, Option.bind_some]
    simp only [hcalls]
    rfl

/-! ## What the replies hand out -/

theorem handed_replyOf (w : Walk (Bytes keySize)) (call : WalkCall keySize) :
    (replyOf w call).handed = call.act.bind w.given := by
  cases call with
  | next => rfl
  | remove key =>
    cases key with
    | none => rfl
    | some key => rfl
  | contains key =>
    cases key with
    | none => rfl
    | some key => rfl
  | foreach => rfl
  | toArray granted outs =>
    simp only [replyOf, arrayReply]
    split_ifs <;> rfl
  | clear => rfl

theorem handed_repliesOf (w : Walk (Bytes keySize)) (calls : List (WalkCall keySize)) :
    (repliesOf w calls).filterMap WalkReply.handed = w.handed (calls.filterMap WalkCall.act) := by
  induction calls generalizing w with
  | nil => rfl
  | cons call calls ih =>
    have hreply := handed_replyOf w call
    have hrest := ih (advance w call)
    cases hact : call.act with
    | none =>
      rw [hact] at hreply
      rw [advance, hact] at hrest
      rw [repliesOf, List.filterMap_cons_none hreply, List.filterMap_cons_none hact, advance, hact]
      exact hrest
    | some a =>
      rw [hact, Option.bind_some] at hreply
      rw [advance, hact] at hrest
      rw [repliesOf, List.filterMap_cons_some hact, Walk.handed, advance, hact]
      cases hgiven : w.given a with
      | none =>
        rw [hgiven] at hreply
        rw [List.filterMap_cons_none hreply]
        exact hrest
      | some key =>
        rw [hgiven] at hreply
        rw [List.filterMap_cons_some hreply]
        exact congrArg (key :: ·) hrest

theorem repliesOf_append (w : Walk (Bytes keySize)) (before after : List (WalkCall keySize)) :
    repliesOf w (before ++ after) = repliesOf w before ++ repliesOf (advances w before) after := by
  induction before generalizing w with
  | nil => rfl
  | cons call before ih =>
    rw [List.cons_append, repliesOf, repliesOf, ih, List.cons_append, advances_cons]

theorem length_repliesOf (w : Walk (Bytes keySize)) (calls : List (WalkCall keySize)) :
    (repliesOf w calls).length = calls.length := by
  induction calls generalizing w with
  | nil => rfl
  | cons call calls ih => rw [repliesOf, List.length_cons, List.length_cons, ih]

theorem todo_of_null (call : WalkCall keySize) (h : replyOf w call = .key none) : w.todo = [] := by
  cases call with
  | next =>
    rw [replyOf] at h
    exact List.head?_eq_none_iff.mp (WalkReply.key.inj h)
  | remove key => cases key <;> cases h
  | contains key => cases key <;> cases h
  | foreach => cases h
  | toArray granted outs =>
    simp only [replyOf, arrayReply] at h
    split_ifs at h
  | clear => cases h

/-- A `NULL` from the iterator means that nothing is to come, then and later. -/
theorem todo_of_ended (w : Walk (Bytes keySize)) (calls : List (WalkCall keySize))
    (h : .key none ∈ repliesOf w calls) : (advances w calls).todo = [] := by
  induction calls generalizing w with
  | nil => cases h
  | cons call calls ih =>
    rcases List.mem_cons.mp h with hnow | hlater
    · have hsub := todo_acts_sublist w ((call :: calls).filterMap WalkCall.act)
      rw [todo_of_null call hnow.symm] at hsub
      exact List.sublist_nil.mp hsub
    · rw [advances_cons]
      exact ih (advance w call) hlater

/-- In every reachable set, and through every sequence of removals, lookups, visits and copies, the
iterator behaves like a walk over a list of keys: it hands out no key twice and none after its
removal, and once it has returned `NULL`, it has handed out every key that is left. -/
theorem iterator_survives_removals {granted : Bool × Bool × Bool} {capacity : ℕ}
    {set₀ set : KeySet keySize} (h5 : 5 ≤ capacity) (hc : capacity ≤ 2 ^ 63)
    (hbytes : roundPow2 capacity * keySize < 2 ^ 64)
    (hset : zenitSetCreateWithCapacityAndAllocator keySize granted capacity = some set₀)
    (hreach : Reached stepSet SetFits set₀ set) (calls : List (WalkCall keySize)) :
    ∃ es replies set',
      es.Nodup ∧ (∀ key, zenitSetContains set (some key) = some (decide (key ∈ es))) ∧
      walkCalls set (zenitSetIter (some set)) calls = some (replies, set') ∧
      replies = repliesOf ⟨es, es⟩ calls ∧
      (replies.filterMap WalkReply.handed).Nodup ∧
      (∀ key ∈ replies.filterMap WalkReply.handed, key ∈ es) ∧
      (∀ before key after, calls = before ++ .remove (some key) :: after →
        key ∉ (replies.drop before.length).filterMap WalkReply.handed) ∧
      (.key none ∈ replies → ∀ key, zenitSetContains set' (some key) = some true →
        key ∈ replies.filterMap WalkReply.handed) := by
  have hsize : capacity ≤ sizeMax := by
    unfold sizeMax
    omega
  have hl := (light_set_create hsize (roundPow2_ge_eight h5 hc) hbytes hset).reachedSet hreach
  have hnodup : (entries set).Nodup := by simpa using hl.wf.keys_nodup
  obtain ⟨set', iter', hrun, hf⟩ := hl.follows.calls calls
  refine ⟨entries set, _, set', hnodup, hl.contains_eq, hrun, rfl, ?_, ?_, ?_, ?_⟩
  · rw [handed_repliesOf]
    exact handed_nodup hnodup
  · rw [handed_repliesOf]
    exact fun key hkey => mem_todo_of_handed hkey
  · rintro before key after rfl
    rw [repliesOf_append, List.drop_left' (length_repliesOf _ before), handed_repliesOf]
    exact erased_not_handed _ key _
  · intro hended key hkey
    rw [hf.light.contains_eq, ← hf.stored] at hkey
    have hleft : key ∈ (advances ⟨entries set, entries set⟩ calls).stored := by simpa using hkey
    rw [handed_repliesOf]
    rcases met_or_todo [] (fun k hk => .inr hk) key hleft with hmet | htodo
    · exact hmet
    · have hnil := todo_of_ended ⟨entries set, entries set⟩ calls hended
      rw [advances] at hnil
      rw [hnil] at htodo
      cases htodo

/-- The keys 1 and 2 are stored. One is handed out, the other removed before its turn. -/
theorem iterator_survives_one_removal : ∃ (set set' : KeySet 1) (replies : List (WalkReply 1)),
    zenitSetContains set (some (List.Vector.replicate 1 2)) = some true ∧
    walkCalls set (zenitSetIter (some set))
      [.next, .remove (some (List.Vector.replicate 1 2)), .next] = some (replies, set') ∧
    replies = [.key (some (List.Vector.replicate 1 1)), .code .ok, .key none] ∧
    ∀ key, zenitSetContains set' (some key) = some true →
      key ∈ replies.filterMap WalkReply.handed := by
  obtain ⟨one, two, left, hfirst, hcap, hsecond, hfound, hwalk⟩ : ∃ one two left : KeySet 1,
      stepSet (fresh 1 zeroKey 8) (.insert (some (List.Vector.replicate 1 1)) (true, true)) =
        some one ∧ one.capacity = 8 ∧
      stepSet one (.insert (some (List.Vector.replicate 1 2)) (true, true)) = some two ∧
      zenitSetContains two (some (List.Vector.replicate 1 2)) = some true ∧
      walkCalls two (zenitSetIter (some two))
        [.next, .remove (some (List.Vector.replicate 1 2)), .next] =
        some ([.key (some (List.Vector.replicate 1 1)), .code .ok, .key none], left) :=
    ⟨_, _, _, rfl, rfl, rfl, rfl, rfl⟩
  have hfits : SetFits (fresh 1 zeroKey 8)
      (.insert (some (List.Vector.replicate 1 1)) (true, true)) :=
    fun hover => absurd hover (by decide)
  have hfits' : SetFits one (.insert (some (List.Vector.replicate 1 2)) (true, true)) :=
    fun _ _ => by
      rw [hcap]
      decide
  have htwo : Reached stepSet SetFits (fresh 1 zeroKey 8) two :=
    .step (.step .refl hfits hfirst) hfits' hsecond
  obtain ⟨es, replies, set', -, -, hrun, -, -, -, -, hended⟩ := @iterator_survives_removals 1
    (true, true, true) 5 _ two (by norm_num) (by norm_num) (by decide) rfl htwo
    [.next, .remove (some (List.Vector.replicate 1 2)), .next]
  rw [hwalk] at hrun
  cases hrun
  exact ⟨two, left, _, hfound, hwalk, rfl, hended (by simp)⟩

end LibZenit.HashTable
