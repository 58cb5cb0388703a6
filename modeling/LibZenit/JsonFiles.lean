import LibZenit.FileTransfers
import LibZenit.JsonPrinting

/-!
# Documents in files

A document that was built through the API is printed, the text written to a file, the file read and
what was read is parsed. If no step reports an error the new document is the old one again.
-/
namespace LibZenit.JsonHeap
open Json BlockLedger

variable {D : Type}

/-- The parse of a text fails for the text, or because one of its own requests was refused. -/
theorem parse_cases_refused (a : Allocator) (mem : List UInt8) {len : ℕ}
    (toDouble : List UInt8 → D) {l : Ledger} {m : Multiset ℕ} (hl : Owns l m) {fuel : ℕ}
    (hf : 3 * len + 1 ≤ fuel) :
    (∃ l', zenitJsonParseWithLengthAndAllocator a mem len (parseNumber toDouble mem) fuel l =
          (.fail, l') ∧ Owns l' m ∧
        (zenitJsonParseWithLength toDouble mem len fuel = .fail ∨ Refused a l l')) ∨
      ∃ h xs root v,
        zenitJsonParseWithLengthAndAllocator a mem len (parseNumber toDouble mem) fuel l =
          (.ok h, h.ledger) ∧ Holds h xs m ∧ h.root = some root ∧ Denotes h.nodes xs root v ∧
        zenitJsonParseWithLength toDouble mem len fuel = .ok v := by
  by_cases hrefused : Refused a l
    (zenitJsonParseWithLengthAndAllocator a mem len (parseNumber toDouble mem) fuel l).2
  · refine (parse_cases toDouble hl hf).imp_left fun ⟨l', heq, howns, _⟩ => ?_
    rw [heq] at hrefused
    exact ⟨l', heq, howns, Or.inr hrefused⟩
  · rw [← parse_willing hrefused]
    exact (parse_cases toDouble hl hf).imp_left fun ⟨l', heq, howns, hfail⟩ =>
      ⟨l', heq, howns, hfail.imp_right fun ⟨n, hn⟩ => nomatch hn⟩

/-- A built document without numbers, saved and loaded: if every call on the way reports success,
the parser makes a document with the tree of the first one out of the bytes in the file, unless one
of its own requests is refused, and then it has given everything back. -/
theorem saved_document_loads (formatNumber : D → List UInt8) (toDouble : List UInt8 → D)
    (a a₁ a' : Allocator) (l l₁ l' : Ledger) (h : Heap D) (ops : List (DomOp D))
    (hl : l.fault = false) (hcreate : zenitJsonCreateWithAllocator a l = (some h, l₁))
    (hops : SelfContained a h [] ops) (hnone : ∀ n, .make (.number n) ∉ ops) {p : ℕ}
    (hroot : (calls a h ops).2.root = some p) {f₁ f₂ f₃ fuel : ℕ} {text : CString} {h' : Heap D}
    (hprint : zenitJsonSerializeWithAllocator a₁ formatNumber f₁ (calls a h ops).2 =
      (.ok text, h'))
    (hlen : text.text.length < 2 ^ 64) {sink : Io.Sink} {old contents : CString.Text}
    (hwrite : Io.zenitFileWrite (some sink) old text.text f₂ = .ok (.ok, contents))
    {fd : Io.Descriptor} {st : Io.Stat} {m : Io.Allocator} {s : Io.Reading}
    (hfd : Io.HoldsText (Io.answer fd st.size) contents) (hsize : st.size = contents.length)
    (hread : Io.zenitFileReadWithAllocator (some fd) (some st) m f₃ = .ok (.ok, some s))
    (hl' : l'.fault = false) (hfuel : 3 * s.totalRead + 1 ≤ fuel) :
    (∃ l₂, zenitJsonParseWithLengthAndAllocator a' s.buf s.totalRead (parseNumber toDouble s.buf)
        fuel l' = (.fail, l₂) ∧ Restored l' l₂ ∧ Refused a' l' l₂) ∨
      ∃ h₂ xs xs₂ q v, zenitJsonParseWithLengthAndAllocator a' s.buf s.totalRead
          (parseNumber toDouble s.buf) fuel l' = (.ok h₂, h₂.ledger) ∧
        Holds (calls a h ops).2 xs l.live.val ∧ Holds h' xs ({text.block} + l.live.val) ∧
        Denotes (calls a h ops).2.nodes xs p v ∧
        Holds h₂ xs₂ l'.live.val ∧ h₂.root = some q ∧ Denotes h₂.nodes xs₂ q v := by
  have htidy : (Doc.empty : Doc D).Tidy False [] := ⟨nofun, nofun⟩
  obtain ⟨xs, d, known, h₁, ht, hsub⟩ := (represents_empty hl hcreate).tidy_calls htidy
    (List.nil_subset _) hops hnone
  have hserializes := h₁.serializes_judged (a := a₁) formatNumber ht hsub hroot f₁
  rw [hprint] at hserializes
  obtain ⟨hprinted, v, hv, htext⟩ := hserializes.ok text rfl
  have hp : p ∈ known := ht.root p (by rw [h₁.root, hroot]; rfl)
  rw [htext] at hlen hwrite
  obtain rfl := Io.fileWrite_ok hlen hwrite
  obtain ⟨htotal, htake⟩ := Io.fileRead_ok hfd hsize hread
  -- what was read stands at the front of the buffer
  have hplain := h₁.plain ht hsub v p hp hv
  have hbuf : s.buf = Json.zenitJsonValueSerialize formatNumber v ++ s.buf.drop s.totalRead := by
    conv_lhs => rw [← List.take_append_drop s.totalRead s.buf, htake]
    rfl
  have hparse : zenitJsonParseWithLength toDouble s.buf s.totalRead fuel = .ok v := by
    rw [hbuf, htotal]
    rw [htotal] at hfuel
    exact parse_text_within formatNumber toDouble hplain _ hfuel
  have howns : Owns l' l'.live.val := ⟨hl', rfl⟩
  rcases parse_cases_refused a' s.buf toDouble howns hfuel with
    ⟨l₂, heq, hl₂, hfail | hrefuses⟩ | ⟨h₂, xs₂, q, v₂, heq, hholds, hq, hv₂, hok⟩
  · rw [hparse] at hfail
    cases hfail
  · exact Or.inl ⟨l₂, heq, restored_of_owns hl₂, hrefuses⟩
  · rw [hparse] at hok
    cases hok
    exact Or.inr ⟨h₂, xs, xs₂, q, v, heq, h₁.holds, hprinted, hv, hholds, hq, hv₂⟩

/-- The text `["a","a"]` is written in two pieces and read in two others. -/
theorem twice_the_same_loads : ∃ (h : Heap ℕ) (l₁ : Ledger) (s : Io.Reading) (h₂ : Heap ℕ)
    (xs xs₂ : List ℕ) (q : ℕ) (v : Value ℕ),
    zenitJsonCreateWithAllocator ⟨fun _ => true, false⟩ ⟨{7}, 8, 0, false, by simp⟩ =
      (some h, l₁) ∧
    Io.zenitFileReadWithAllocator
      (some (.ofChunks [[91, 34, 97, 34], [44, 34, 97, 34, 93]] (by decide)))
      (some ⟨9, by decide⟩) .willing 5 = .ok (.ok, some s) ∧
    (zenitJsonParseWithLengthAndAllocator ⟨fun _ => true, true⟩ s.buf s.totalRead
      (parseNumber (fun _ => 0) s.buf) 28 ⟨∅, 0, 0, false, by simp⟩).1 = .ok h₂ ∧
    Denotes (calls ⟨fun _ => true, false⟩ h twiceTheSame).2.nodes xs 9 v ∧
    h₂.root = some q ∧ Denotes h₂.nodes xs₂ q v := by
  have hfd : Io.HoldsText
      (Io.answer (.ofChunks [[91, 34, 97, 34], [44, 34, 97, 34, 93]] (by decide)) 9)
      [91, 34, 97, 34, 44, 34, 97, 34, 93] :=
    Io.holds_ofChunks (by decide)
  have hwrite : Io.zenitFileWrite (some (.atMost 5)) [] [91, 34, 97, 34, 44, 34, 97, 34, 93] 10 =
    .ok (.ok, [91, 34, 97, 34, 44, 34, 97, 34, 93]) := rfl
  have hread : Io.zenitFileReadWithAllocator
      (some (.ofChunks [[91, 34, 97, 34], [44, 34, 97, 34, 93]] (by decide)))
      (some ⟨9, by decide⟩) .willing 5 =
    .ok (.ok, some ⟨[91, 34, 97, 34, 44, 34, 97, 34, 93, 0], 9, 2⟩) := rfl
  have hloads := @saved_document_loads ℕ (fun _ => []) (fun _ => 0) ⟨fun _ => true, false⟩
    ⟨fun _ => true, true⟩ ⟨fun _ => true, true⟩ ⟨{7}, 8, 0, false, by simp⟩ _
    ⟨∅, 0, 0, false, by simp⟩ _ twiceTheSame rfl
    rfl (by decide) (by simp [twiceTheSame]) 9 rfl 2 10 5 28 _ _ rfl (by decide) _ _ _ hwrite
    _ _ _ _ hfd rfl hread rfl (by decide)
  obtain ⟨l₂, -, -, n, -, hn⟩ | ⟨h₂, xs, xs₂, q, v, heq, -, -, hv, -, hq, hv₂⟩ := hloads
  · cases hn
  · exact ⟨_, _, _, h₂, xs, xs₂, q, v, rfl, hread, congrArg Prod.fst heq, hv, hq, hv₂⟩

end LibZenit.JsonHeap
