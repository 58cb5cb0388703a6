import LibZenit.CsvScanner

/-!
# Blocks of a failed parse

`zenit_csv_record_destroy` does not know the allocator and gives the blocks to `free`. A parse
that fails behind its first request has called it, so its blocks do not go back to where they came
from.
-/
namespace LibZenit.Csv

variable {delim : UInt8} {line : Text}

/-- Every block of the allocator went back to it once, and in no other way. -/
def GivenBack (trace : List Event) : Prop :=
  ∀ b, .alloc b ∈ trace → trace.count (.free b) = 1 ∧ .libcFree b ∉ trace

/-- What a call that ran out of memory has to leave behind. -/
def CleanFailure (result : World × Option Record × ZenitError) : Prop :=
  result.2.2 = .alloc → GivenBack result.1.trace ∧ result.2.1 = none

theorem Misfreed.not_givenBack {trace : List Event} (h : Misfreed trace) : ¬GivenBack trace := by
  obtain ⟨b, halloc, hfree⟩ := h
  exact fun hback => (hback b halloc).2 hfree

/-- A failed parse is clean exactly when its first request is the one that was refused. A line
whose requests are all granted does not fail. -/
theorem failed_parse_clean_iff (hdelim : delim ≠ 0) (hline : 0 ∉ line) (ok : ℕ → Bool) :
    ∃ result, zenitCsvParseRecord ⟨ok, 0, []⟩ (line ++ [0]) delim = .ok result ∧
      (CleanFailure result ↔
        ok 0 = false ∨ ∀ n < recordRequests delim line, ok n = true) := by
  obtain ⟨w₁, r₁, halloc, hok, -, hreq, hyes, hno⟩ := alloc_cases ⟨ok, 0, []⟩
  rw [zenitCsvParseRecord, halloc]
  by_cases hg : Grants ⟨ok, 0, []⟩ 1
  · obtain ⟨block, rfl, hmem⟩ := hyes hg
    have hfirst : ok 0 = true := grants_one.mp hg
    obtain ⟨w₂, r, hloop, -, -, hdone, hfail⟩ := parse_spends hdelim hline hmem
    have hiff : Grants w₁ (arrayDoublings (scanRecord delim line).length +
        fieldsRequests (scanRecord delim line)) ↔
        ∀ n < recordRequests delim line, ok n = true := by
      rw [← grants_add hok hreq hg]
      simp only [Grants, Nat.zero_add, recordRequests]
    simp only [hloop]
    refine ⟨_, rfl, ?_⟩
    rw [← hiff, hfirst]
    simp only [CleanFailure, Bool.true_eq_false, false_or]
    constructor
    · intro hclean
      by_contra hrefused
      obtain ⟨rfl, hmis⟩ := hfail hrefused
      exact hmis.not_givenBack (hclean rfl).1
    · intro hgranted hcode
      obtain ⟨-, out, rfl, -⟩ := hdone hgranted
      cases hcode
  · obtain ⟨rfl, htrace⟩ := hno hg
    have hfirst : ok 0 = false := by
      rw [grants_one] at hg
      simpa using hg
    refine ⟨_, rfl, iff_of_true (fun _ => ⟨?_, rfl⟩) (Or.inl hfirst)⟩
    intro b hb
    simp [htrace] at hb

/-- No memory at all. -/
theorem refused_array_clean : ∃ result,
    zenitCsvParseRecord ⟨fun _ => false, 0, []⟩ ([97] ++ [0]) 44 = .ok result ∧
      CleanFailure result := by
  obtain ⟨result, hcall, hiff⟩ :=
    failed_parse_clean_iff (by decide : (44 : UInt8) ≠ 0) (by decide : (0 : UInt8) ∉ [97])
      fun _ => false
  exact ⟨result, hcall, hiff.mpr (Or.inl rfl)⟩

/-- The array is granted and the buffer of the first field refused. The array goes to `free`. -/
theorem refused_buffer_not_clean : ∃ result,
    zenitCsvParseRecord ⟨fun n => n == 0, 0, []⟩ ([97] ++ [0]) 44 = .ok result ∧
      result.2.2 = .alloc ∧ result.1.trace = [.libcFree 0, .alloc 0] ∧ ¬CleanFailure result := by
  refine ⟨_, rfl, rfl, rfl, fun hclean => ?_⟩
  have hback := (hclean rfl).1 0 (List.mem_cons_of_mem _ List.mem_cons_self)
  exact hback.2 List.mem_cons_self

end LibZenit.Csv
