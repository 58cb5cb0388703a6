import Mathlib.Data.List.Nodup

/-!
# Walks over a shrinking collection

A walk hands out the elements of a collection one by one while others are erased from it. It never
hands out one twice, nor one that has been erased, and at its end it has met all that is left.
-/
namespace LibZenit.ErasingWalks

/-- The elements that are still to come, and all those that the collection holds. -/
structure Walk (κ : Type*) where
  todo : List κ
  stored : List κ

inductive Act (κ : Type*) where
  | next
  | erase (key : κ)
  | clear

variable {κ : Type*} [DecidableEq κ]

def Walk.act (w : Walk κ) : Act κ → Walk κ
  | .next => { w with todo := w.todo.tail }
  | .erase key => ⟨w.todo.filter (· ≠ key), w.stored.filter (· ≠ key)⟩
  | .clear => ⟨[], []⟩

def Walk.acts (w : Walk κ) (as : List (Act κ)) : Walk κ := as.foldl Walk.act w

/-- What an action hands out. -/
def Walk.given (w : Walk κ) : Act κ → Option κ
  | .next => w.todo.head?
  | .erase _ => none
  | .clear => none

def Walk.handed (w : Walk κ) : List (Act κ) → List κ
  | [] => []
  | a :: as => (w.given a).toList ++ (w.act a).handed as

variable {w : Walk κ} {as : List (Act κ)} {key : κ}

theorem todo_act_sublist (a : Act κ) : (w.act a).todo.Sublist w.todo := by
  cases a with
  | next => exact List.tail_sublist _
  | erase key => exact List.filter_sublist
  | clear => exact List.nil_sublist _

theorem todo_acts_sublist (w : Walk κ) (as : List (Act κ)) : (w.acts as).todo.Sublist w.todo := by
  induction as generalizing w with
  | nil => exact .refl _
  | cons a as ih => exact (ih (w.act a)).trans (todo_act_sublist a)

theorem mem_todo_of_handed (h : key ∈ w.handed as) : key ∈ w.todo := by
  induction as generalizing w with
  | nil => cases h
  | cons a as ih =>
    rcases List.mem_append.mp h with h | h
    · cases a with
      | next => exact List.mem_of_mem_head? (Option.mem_toList.mp h)
      | erase key => cases h
      | clear => cases h
    · exact (todo_act_sublist a).subset (ih h)

theorem handed_nodup (h : w.todo.Nodup) : (w.handed as).Nodup := by
  induction as generalizing w with
  | nil => exact .nil
  | cons a as ih =>
    have hrest := ih (h.sublist (todo_act_sublist a))
    cases a with
    | next =>
      rw [Walk.handed, Walk.given]
      cases htodo : w.todo with
      | nil => exact hrest
      | cons k ks =>
        rw [htodo] at h
        refine List.nodup_cons.mpr ⟨fun hk => ?_, hrest⟩
        have hmem := mem_todo_of_handed hk
        rw [Walk.act, htodo] at hmem
        exact (List.nodup_cons.mp h).1 hmem
    | erase key => exact hrest
    | clear => exact hrest

/-- What has been erased is not handed out any more. -/
theorem erased_not_handed (w : Walk κ) (key : κ) (as : List (Act κ)) :
    key ∉ w.handed (.erase key :: as) := by
  intro h
  have hmem : key ∈ (w.act (.erase key)).todo := mem_todo_of_handed h
  simpa using (List.mem_filter.mp hmem).2

/-- Every element that is left has been handed out or is still to come. -/
theorem met_or_todo (met : List κ) (h : ∀ k ∈ w.stored, k ∈ met ∨ k ∈ w.todo) :
    ∀ k ∈ (w.acts as).stored, k ∈ met ++ w.handed as ∨ k ∈ (w.acts as).todo := by
  induction as generalizing w met with
  | nil =>
    rw [Walk.handed, List.append_nil]
    exact h
  | cons a as ih =>
    rw [Walk.handed, ← List.append_assoc]
    refine ih _ fun k hk => ?_
    cases a with
    | next =>
      rcases h k hk with hmet | htodo
      · exact .inl (List.mem_append_left _ hmet)
      · rw [Walk.act, Walk.given]
        cases hw : w.todo with
        | nil =>
          rw [hw] at htodo
          cases htodo
        | cons x xs =>
          rw [hw] at htodo
          rcases List.mem_cons.mp htodo with rfl | hxs
          · exact .inl (List.mem_append_right _ (List.mem_singleton_self _))
          · exact .inr hxs
    | erase key =>
      obtain ⟨hstored, hne⟩ := List.mem_filter.mp hk
      rcases h k hstored with hmet | htodo
      · exact .inl (List.mem_append_left _ hmet)
      · exact .inr (List.mem_filter.mpr ⟨htodo, hne⟩)
    | clear => cases hk

end LibZenit.ErasingWalks
