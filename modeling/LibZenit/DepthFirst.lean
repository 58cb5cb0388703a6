import LibZenit.Worklists

/-!
# Depth-first order

The recursive search enters a vertex, and then its neighbours one by one, as far as they are still
new when it comes to them. A search with a stack that lists a vertex when it first comes across it
keeps to that order as long as the vertex to enter next is the one it has listed last.
-/
namespace LibZenit.Worklists

variable {V : Type*} {adj : V → List V} {start u v w : V}
  {acc acc₁ acc₂ todo vs pre post done pending rest : List V} {bound : Finset V}

/-! ## The recursive search -/

/-- `Visits adj acc todo acc'`: after the vertices `acc`, the search goes through `todo`, and then
it has entered `acc'`. -/
inductive Visits (adj : V → List V) : List V → List V → List V → Prop
  | nil {acc : List V} : Visits adj acc [] acc
  | skip {acc acc' rest : List V} {v : V} :
      v ∈ acc → Visits adj acc rest acc' → Visits adj acc (v :: rest) acc'
  | enter {acc acc₁ acc' rest : List V} {v : V} :
      v ∉ acc → Visits adj (acc ++ [v]) (adj v) acc₁ → Visits adj acc₁ rest acc' →
        Visits adj acc (v :: rest) acc'

theorem Visits.unique (h₁ : Visits adj acc todo acc₁) (h₂ : Visits adj acc todo acc₂) :
    acc₁ = acc₂ := by
  induction h₁ generalizing acc₂ with
  | nil =>
    cases h₂
    rfl
  | skip hmem _ ih =>
    cases h₂ with
    | skip _ hrest => exact ih hrest
    | enter hnew _ _ => exact absurd hmem hnew
  | enter hnew _ _ ihv ihr =>
    cases h₂ with
    | skip hmem _ => exact absurd hmem hnew
    | enter _ hv hrest =>
      cases ihv hv
      exact ihr hrest

theorem Visits.isPrefix (h : Visits adj acc todo vs) : acc <+: vs := by
  induction h with
  | nil => exact List.prefix_rfl
  | skip _ _ ih => exact ih
  | enter _ _ _ ihv ihr => exact ((List.prefix_append _ _).trans ihv).trans ihr

theorem Visits.nodup (h : Visits adj acc todo vs) (hacc : acc.Nodup) : vs.Nodup := by
  induction h with
  | nil => exact hacc
  | skip _ _ ih => exact ih hacc
  | enter hnew _ _ ihv ihr =>
    refine ihr (ihv ?_)
    rw [← List.concat_eq_append]
    exact hacc.concat hnew

/-- The search leaves nothing out: neither of its list nor of the lists of what it enters. -/
theorem Visits.complete (h : Visits adj acc todo vs) :
    (∀ v ∈ todo, v ∈ vs) ∧ ∀ v ∈ vs, v ∈ acc ∨ ∀ u ∈ adj v, u ∈ vs := by
  induction h with
  | nil => exact ⟨fun v hv => absurd hv List.not_mem_nil, fun v hv => .inl hv⟩
  | skip hmem hrest ih =>
    exact ⟨List.forall_mem_cons.mpr ⟨hrest.isPrefix.subset hmem, ih.1⟩, ih.2⟩
  | @enter acc acc₁ acc' rest v hnew hv hrest ihv ihr =>
    have hsub := hrest.isPrefix.subset
    have hvmem : v ∈ acc₁ := hv.isPrefix.subset (by simp)
    refine ⟨List.forall_mem_cons.mpr ⟨hsub hvmem, ihr.1⟩, fun w hw => ?_⟩
    rcases ihr.2 w hw with hold | hclosed
    · rcases ihv.2 w hold with hacc | hclosed
      · rcases List.mem_append.mp hacc with hacc | hwv
        · exact .inl hacc
        · rw [List.mem_singleton] at hwv
          exact .inr fun u hu => hsub (ihv.1 u (hwv ▸ hu))
      · exact .inr fun u hu => hsub (hclosed u hu)
    · exact .inr hclosed

/-- A vertex is entered from the list itself or from a vertex that was entered before. -/
theorem Visits.source (h : Visits adj acc todo vs) {i : ℕ} (hacc : acc.length ≤ i)
    (hu : vs[i]? = some u) : u ∈ todo ∨ ∃ j < i, ∃ v, vs[j]? = some v ∧ u ∈ adj v := by
  induction h generalizing i with
  | nil => exact absurd (List.getElem?_eq_some_iff.mp hu).1 (not_lt.mpr hacc)
  | skip _ _ ih => exact (ih hacc hu).imp_left (List.mem_cons_of_mem _)
  | @enter acc acc₁ acc' rest v hnew hv hrest ihv ihr =>
    by_cases hlater : acc₁.length ≤ i
    · exact (ihr hlater hu).imp_left (List.mem_cons_of_mem _)
    obtain ⟨tail, rfl⟩ := hrest.isPrefix
    have hvat : acc₁[acc.length]? = some v := by
      obtain ⟨front, rfl⟩ := hv.isPrefix
      simp
    rw [List.getElem?_append_left (not_le.mp hlater)] at hu
    by_cases hfirst : i = acc.length
    · rw [hfirst, hvat] at hu
      exact .inl (by simp [Option.some.inj hu])
    · right
      rcases ihv (by simp; omega) hu with hmem | ⟨j, hj, w, hw, hedge⟩
      · refine ⟨acc.length, by omega, v, ?_, hmem⟩
        rw [List.getElem?_append_left (List.getElem?_eq_some_iff.mp hvat).1, hvat]
      · refine ⟨j, hj, w, ?_, hedge⟩
        rw [List.getElem?_append_left (List.getElem?_eq_some_iff.mp hw).1, hw]

/-- Entering a vertex leaves fewer to enter. -/
theorem card_sdiff_append_lt [DecidableEq V] (hv : v ∈ bound) (hnew : v ∉ acc) :
    (bound \ (acc ++ [v]).toFinset).card < (bound \ acc.toFinset).card := by
  refine Finset.card_lt_card ⟨fun u hu => ?_, fun hsub => ?_⟩
  · simp only [Finset.mem_sdiff, List.mem_toFinset, List.mem_append] at hu ⊢
    exact ⟨hu.1, fun h => hu.2 (.inl h)⟩
  · have hv' := hsub (Finset.mem_sdiff.mpr ⟨hv, fun h => hnew (List.mem_toFinset.mp h)⟩)
    simp at hv'

/-- The induction is on the number of vertices that are still new, and then on the list. -/
theorem visits_exists [DecidableEq V] (acc todo : List V) (hb : Within adj bound) {n : ℕ}
    (hn : (bound \ acc.toFinset).card ≤ n) (hacc : ∀ v ∈ acc, v ∈ bound)
    (htodo : ∀ v ∈ todo, v ∈ bound) : ∃ vs, Visits adj acc todo vs ∧ ∀ v ∈ vs, v ∈ bound := by
  induction n generalizing acc todo with
  | zero =>
    have hall : ∀ v ∈ bound, v ∈ acc := by
      intro v hv
      by_contra hnew
      have hmem : v ∈ bound \ acc.toFinset :=
        Finset.mem_sdiff.mpr ⟨hv, fun h => hnew (List.mem_toFinset.mp h)⟩
      rw [Finset.card_eq_zero.mp (Nat.le_zero.mp hn)] at hmem
      exact Finset.notMem_empty v hmem
    induction todo with
    | nil => exact ⟨acc, .nil, hacc⟩
    | cons v rest ihr =>
      obtain ⟨hv, hrest⟩ := List.forall_mem_cons.mp htodo
      obtain ⟨vs, hvs, hin⟩ := ihr hrest
      exact ⟨vs, hvs.skip (hall v hv), hin⟩
  | succ n ih =>
    induction todo generalizing acc with
    | nil => exact ⟨acc, .nil, hacc⟩
    | cons v rest ihr =>
      obtain ⟨hv, hrest⟩ := List.forall_mem_cons.mp htodo
      by_cases hmem : v ∈ acc
      · obtain ⟨vs, hvs, hin⟩ := ihr acc hn hacc hrest
        exact ⟨vs, hvs.skip hmem, hin⟩
      · have hfewer : (bound \ (acc ++ [v]).toFinset).card ≤ n := by
          have hlt := card_sdiff_append_lt hv hmem
          omega
        have hacc' : ∀ w ∈ acc ++ [v], w ∈ bound := by
          intro w hw
          rcases List.mem_append.mp hw with hw | hw
          · exact hacc w hw
          · rw [List.mem_singleton] at hw
            exact hw ▸ hv
        obtain ⟨acc₁, hvisit, hin₁⟩ := ih (acc ++ [v]) (adj v) hfewer hacc'
          (hb.closed v hv)
        have hmono : (bound \ acc₁.toFinset).card ≤ n + 1 := by
          refine le_trans (Finset.card_le_card ?_) hn
          refine Finset.sdiff_subset_sdiff le_rfl fun u hu => ?_
          rw [List.mem_toFinset] at hu ⊢
          exact hvisit.isPrefix.subset (List.mem_append_left _ hu)
        obtain ⟨vs, hvs, hin⟩ := ihr acc₁ hmono hin₁ hrest
        exact ⟨vs, hvisit.enter hmem hvs, hin⟩

/-- What any search from `start` gives: the reachable vertices, `start` first, and the others from
a vertex that was entered before. -/
structure SearchOrder (adj : V → List V) (start : V) (vs : List V) : Prop where
  nodup : vs.Nodup
  mem_iff : ∀ v, v ∈ vs ↔ Reaches adj start v
  first : ∃ rest, vs = start :: rest
  source : ∀ pre u post, vs = pre ++ u :: post → pre ≠ [] → ∃ v ∈ pre, u ∈ adj v

theorem Visits.searchOrder (h : Visits adj [] [start] vs) : SearchOrder adj start vs := by
  obtain ⟨hlisted, hclosed⟩ := h.complete
  have hnodup := h.nodup List.nodup_nil
  have hstart : start ∈ vs := hlisted start (List.mem_singleton_self start)
  have hfirst : ∃ rest, vs = start :: rest := by
    cases h with
    | skip hmem _ => exact absurd hmem List.not_mem_nil
    | enter _ hv hrest =>
      obtain ⟨rest, heq⟩ := hv.isPrefix.trans hrest.isPrefix
      exact ⟨rest, heq.symm⟩
  have hsource : ∀ pre u post, vs = pre ++ u :: post → pre ≠ [] → ∃ v ∈ pre, u ∈ adj v := by
    rintro pre u post rfl hpre
    rcases h.source (Nat.zero_le pre.length) (by simp : _ = some u) with
      hmem | ⟨j, hj, v, hv, hedge⟩
    · -- `start` is the head, so it is not entered again
      obtain ⟨rest, hrest⟩ := hfirst
      obtain ⟨a, pre, rfl⟩ := List.exists_cons_of_ne_nil hpre
      rw [List.mem_singleton] at hmem
      rw [List.cons_append, hmem] at hrest hnodup
      rw [(List.cons.inj hrest).1] at hnodup
      simp at hnodup
    · rw [List.getElem?_append_left hj] at hv
      exact ⟨v, List.mem_of_getElem? hv, hedge⟩
  refine ⟨hnodup, fun v => ⟨fun hv => ?_, fun hv => ?_⟩, hfirst, hsource⟩
  · obtain ⟨i, hi⟩ := List.mem_iff_getElem?.mp hv
    induction i using Nat.strong_induction_on generalizing v with
    | _ i ih =>
      rcases h.source (Nat.zero_le i) hi with hmem | ⟨j, hj, w, hw, hedge⟩
      · rw [List.mem_singleton.mp hmem]
      · exact (ih j hj w (List.mem_of_getElem? hw) hw).tail hedge
  · induction hv with
    | refl => exact hstart
    | tail _ hedge ih => exact ((hclosed _ ih).resolve_left List.not_mem_nil) _ hedge

/-! ## The search with a stack -/

/-- The vertices that are come across while `vs` are entered, each list from its end. -/
def sightings (adj : V → List V) (vs : List V) : List V := vs.flatMap fun v => (adj v).reverse

theorem mem_sightings : u ∈ sightings adj vs ↔ ∃ v ∈ vs, u ∈ adj v := by
  simp [sightings]

theorem sightings_append (adj : V → List V) (vs : List V) (v : V) :
    sightings adj (vs ++ [v]) = sightings adj vs ++ (adj v).reverse := by
  simp [sightings]

variable [DecidableEq V]

/-- When `u` was come across first. -/
def sighted (adj : V → List V) (vs : List V) (u : V) : ℕ := (sightings adj vs).idxOf u

/-- Whenever a vertex is entered, all others that have been come across and still wait were come
across earlier. -/
def EntersLastSighted (adj : V → List V) (vs : List V) : Prop :=
  ∀ pre u post, vs = pre ++ u :: post → ∀ w ∈ post, w ∈ sightings adj pre →
    sighted adj pre w < sighted adj pre u

theorem sighted_append_of_mem (h : u ∈ sightings adj vs) (v : V) :
    sighted adj (vs ++ [v]) u = sighted adj vs u := by
  rw [sighted, sightings_append, List.idxOf_append_of_mem h, sighted]

theorem sighted_append_of_notMem (h : u ∉ sightings adj vs) (v : V) :
    sighted adj (vs ++ [v]) u = (sightings adj vs).length + (adj v).reverse.idxOf u := by
  rw [sighted, sightings_append, List.idxOf_append_of_notMem h]

/-- The stack holds what was come across last on top. -/
structure Stacked (adj : V → List V) (start : V) (done pending : List V) : Prop where
  sound : Sound adj start done pending
  initial : done = [] → pending = [start]
  crossed : done ≠ [] → ∀ u ∈ pending, u ∈ sightings adj done
  stacked : pending.Pairwise fun u w => sighted adj done w < sighted adj done u

theorem stacked_start (adj : V → List V) (start : V) : Stacked adj start [] [start] :=
  ⟨sound_start adj start, fun _ => rfl, fun h => absurd rfl h, List.pairwise_singleton _ _⟩

theorem Stacked.listed (hk : Stacked adj start done pending) (h : u ∈ sightings adj done) :
    u ∈ done ++ pending := by
  obtain ⟨v, hv, hedge⟩ := mem_sightings.mp h
  exact hk.sound.closed v hv u hedge

theorem pairwise_idxOf_reverse {l : List V} (h : l.Nodup) :
    l.Pairwise fun u w => l.reverse.idxOf w < l.reverse.idxOf u := by
  rw [List.pairwise_iff_getElem]
  intro i j hi hj hij
  have hidx : ∀ k, (hk : k < l.length) → l.reverse.idxOf l[k] = l.length - 1 - k := by
    intro k hk
    have hback : l.length - 1 - k < l.reverse.length := by
      rw [List.length_reverse]
      omega
    have hget : l.reverse[l.length - 1 - k] = l[k] := by
      rw [List.getElem_reverse]
      congr 1
      omega
    rw [← hget]
    exact (List.nodup_reverse.mpr h).idxOf_getElem _ hback
  rw [hidx i hi, hidx j hj]
  omega

theorem Stacked.step (hk : Stacked adj start done (v :: rest)) (hadj : (adj v).Nodup) :
    Stacked adj start (done ++ [v]) (fresh adj done (v :: rest) v ++ rest) := by
  have hold : ∀ u ∈ rest, u ∈ sightings adj done := by
    intro u hu
    refine hk.crossed (fun hnil => ?_) u (List.mem_cons_of_mem _ hu)
    have hone := hk.initial hnil
    rw [(List.cons.inj hone).2] at hu
    exact absurd hu List.not_mem_nil
  have hnew : ∀ u ∈ fresh adj done (v :: rest) v, u ∉ sightings adj done :=
    fun u hu hs => (mem_fresh.mp hu).2 (hk.listed hs)
  refine ⟨hk.sound.step hadj stack, fun h => by simp at h, fun _ u hu => ?_, ?_⟩
  · rw [mem_sightings]
    rcases List.mem_append.mp hu with hfresh | hrest
    · exact ⟨v, by simp, (mem_fresh.mp hfresh).1⟩
    · obtain ⟨w, hw, hedge⟩ := mem_sightings.mp (hold u hrest)
      exact ⟨w, List.mem_append_left _ hw, hedge⟩
  · rw [List.pairwise_append]
    refine ⟨?_, ?_, fun u hu w hw => ?_⟩
    · refine ((pairwise_idxOf_reverse hadj).filter _).imp_of_mem fun {u w} hu hw hlt => ?_
      rw [sighted_append_of_notMem (hnew u hu), sighted_append_of_notMem (hnew w hw)]
      omega
    · refine hk.stacked.of_cons.imp_of_mem fun {u w} hu hw hlt => ?_
      rwa [sighted_append_of_mem (hold u hu), sighted_append_of_mem (hold w hw)]
    · rw [sighted_append_of_notMem (hnew u hu), sighted_append_of_mem (hold w hw)]
      have hlt : sighted adj done w < (sightings adj done).length :=
        List.idxOf_lt_length_of_mem (hold w hw)
      omega

/-- In the order of the stack, the vertex that is entered was on top. -/
theorem Stacked.order_enters (hb : Within adj bound) (hstart : start ∈ bound) {fuel : ℕ}
    (hk : Stacked adj start done pending) (hfuel : bound.card < done.length + fuel)
    (hsplit : order stack adj fuel done pending = pre ++ u :: post) (hw : w ∈ post)
    (hcross : w ∈ sightings adj (done ++ pre)) :
    sighted adj (done ++ pre) w < sighted adj (done ++ pre) u := by
  induction fuel generalizing done pending pre with
  | zero => simp [order] at hsplit
  | succ fuel ih =>
    cases pending with
    | nil => simp [order] at hsplit
    | cons v rest =>
      have hv : v ∈ bound := hb.of_reaches hstart (hk.sound.reached v (by simp))
      have hnodup := (hk.sound.order_spec hb hstart stack hfuel).nodup
      rw [hsplit, List.append_nil] at hnodup
      cases pre with
      | nil =>
        rw [order, List.nil_append] at hsplit
        obtain ⟨rfl, hpost⟩ := List.cons.inj hsplit
        rw [List.append_nil] at hcross ⊢
        rw [List.nil_append, List.nodup_append', List.nodup_cons] at hnodup
        -- `w` has been come across, is not entered yet and is not the top
        have hrest : w ∈ rest := by
          rcases List.mem_append.mp (hk.listed hcross) with hdone | hpending
          · exact absurd (List.mem_cons_of_mem _ hw) (hnodup.2.2 hdone)
          · rcases List.mem_cons.mp hpending with rfl | hrest
            · exact absurd hw hnodup.2.1.1
            · exact hrest
        exact List.rel_of_pairwise_cons hk.stacked hrest
      | cons a pre =>
        rw [order, List.cons_append] at hsplit
        obtain ⟨rfl, htail⟩ := List.cons.inj hsplit
        have hnext := ih (hk.step (hb.nodup v hv)) (by simp; omega) htail (by simpa using hcross)
        simpa using hnext

/-- An order that enters what was come across last is the order of the stack. -/
theorem Stacked.order_eq (hb : Within adj bound) (hstart : start ∈ bound) {fuel : ℕ}
    (hk : Stacked adj start done pending) (hfuel : bound.card < done.length + fuel)
    (ho : SearchOrder adj start (done ++ post)) (hlast : EntersLastSighted adj (done ++ post)) :
    order stack adj fuel done pending = post := by
  induction fuel generalizing done pending post with
  | zero =>
    have hle := hk.sound.length_le hb hstart
    rw [List.length_append] at hle
    omega
  | succ fuel ih =>
    have hnodup := ho.nodup
    rw [List.nodup_append'] at hnodup
    cases pending with
    | nil =>
      rw [order]
      symm
      rw [List.eq_nil_iff_forall_not_mem]
      intro u hu
      have hreach := (ho.mem_iff u).mp (List.mem_append_right _ hu)
      exact hnodup.2.2 (hk.sound.mem_done_iff.mpr hreach) hu
    | cons v rest =>
      have hreach := hk.sound.reached v (by simp)
      have hsound := hk.sound.nodup
      rw [List.nodup_append', List.nodup_cons] at hsound
      have hvpost : v ∈ post := by
        have hmem := (ho.mem_iff v).mpr hreach
        exact (List.mem_append.mp hmem).resolve_left
          fun hdone => hsound.2.2 hdone (List.mem_cons_self ..)
      obtain ⟨u, post, rfl⟩ := List.exists_cons_of_ne_nil (List.ne_nil_of_mem hvpost)
      have huv : u = v := by
        by_cases hnil : done = []
        · obtain ⟨tail, hfirst⟩ := ho.first
          rw [hnil, List.nil_append] at hfirst
          rw [(List.cons.inj hfirst).1, (List.cons.inj (hk.initial hnil)).1]
        by_contra hne
        obtain ⟨w, hw, hedge⟩ := ho.source done u post rfl hnil
        -- both wait, and each of them would have been come across after the other
        have hbelow : u ∈ rest := by
          have hlisted := hk.listed (mem_sightings.mpr ⟨w, hw, hedge⟩)
          rcases List.mem_append.mp hlisted with hdone | hpending
          · exact absurd (List.mem_cons_self ..) (hnodup.2.2 hdone)
          · exact (List.mem_cons.mp hpending).resolve_left hne
        have hvlater : v ∈ post := (List.mem_cons.mp hvpost).resolve_left (Ne.symm hne)
        have hlt := hlast done u post rfl v hvlater (hk.crossed hnil v (List.mem_cons_self ..))
        have hgt := List.rel_of_pairwise_cons hk.stacked hbelow
        omega
      subst huv
      have hu : u ∈ bound := hb.of_reaches hstart hreach
      have hassoc : done ++ u :: post = done ++ [u] ++ post := by simp
      rw [hassoc] at ho hlast
      rw [order]
      exact congrArg (u :: ·) (ih (hk.step (hb.nodup u hu)) (by simp; omega) ho hlast)

/-- The stack enters the vertices in a given search order exactly if that always enters the vertex
that was come across last. -/
theorem order_stack_eq_iff (hb : Within adj bound) (hstart : start ∈ bound) {fuel : ℕ}
    (hfuel : bound.card < fuel) (ho : SearchOrder adj start vs) :
    order stack adj fuel [] [start] = vs ↔ EntersLastSighted adj vs := by
  constructor
  · rintro rfl pre u post hsplit w hw hcross
    exact (stacked_start adj start).order_enters hb hstart (by simpa using hfuel) hsplit hw hcross
  · intro hlast
    exact (stacked_start adj start).order_eq hb hstart (by simpa using hfuel) ho hlast

end LibZenit.Worklists
