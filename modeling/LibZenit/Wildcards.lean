import Mathlib.Computability.Language

/-!
# Wildcard patterns

A symbol of a pattern stands for any run of letters or for one letter of a class. A pattern denotes
the product of the languages of its symbols.
-/
namespace LibZenit.Wildcards

variable {α : Type} {w : List α} {c : α} {s : List α}

inductive Symbol (α : Type) where
  | run
  | letter (holds : α → Bool)

def Symbol.language : Symbol α → Language α
  | .run => ⊤
  | .letter holds => {s | ∃ c, holds c = true ∧ s = [c]}

def language (symbols : List (Symbol α)) : Language α := (symbols.map Symbol.language).prod

variable {symbols : List (Symbol α)} {holds : α → Bool}

theorem mem_nil : s ∈ language ([] : List (Symbol α)) ↔ s = [] := Language.mem_one s

theorem language_cons (symbol : Symbol α) (symbols : List (Symbol α)) :
    language (symbol :: symbols) = symbol.language * language symbols := List.prod_cons

theorem nil_mem_letter : [] ∉ language (.letter holds :: symbols) := by
  rw [language_cons, Language.mem_mul]
  rintro ⟨_, ⟨c, -, rfl⟩, b, -, h⟩
  cases h

theorem cons_mem_letter :
    c :: s ∈ language (.letter holds :: symbols) ↔ holds c = true ∧ s ∈ language symbols := by
  rw [language_cons, Language.mem_mul]
  constructor
  · rintro ⟨_, ⟨d, hd, rfl⟩, b, hb, h⟩
    cases h
    exact ⟨hd, hb⟩
  · rintro ⟨hc, hs⟩
    exact ⟨[c], ⟨c, hc, rfl⟩, s, hs, rfl⟩

/-- A run leaves any suffix of the text to the symbols behind it. -/
theorem mem_run : s ∈ language (.run :: symbols) ↔ ∃ t, t <:+ s ∧ t ∈ language symbols := by
  rw [language_cons, Language.mem_mul]
  constructor
  · rintro ⟨a, -, t, ht, rfl⟩
    exact ⟨t, List.suffix_append a t, ht⟩
  · rintro ⟨t, ⟨a, rfl⟩, ht⟩
    exact ⟨a, trivial, t, ht, rfl⟩

end LibZenit.Wildcards
