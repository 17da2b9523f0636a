import ExactlyOne.Proofs.CleanRun
import ExactlyOne.Proofs.PassingValues
import ExactlyOne.Proofs.Reading
import ExactlyOne.Proofs.WrittenText

/-!
# A catalog is read from the first value of a text

A reader of catalogs takes one JSON value from the front of a text and does not look at what stands
behind it. So a text that is read need not be one value: any text may follow the first one.
-/
namespace ExactlyOne

namespace Catalog

open Json

variable {α : Type} {read item : List UInt8 → Except Failure (α × List UInt8)} {a : α}
  {as : List α} {pairs : List (String × α)} {s rest front : List UInt8} {fuel position : Nat}

/-- These bytes are read for a value and passed as one, whatever stands behind them. -/
structure Spans (read : List UInt8 → Except Failure (α × List UInt8)) (front : List UInt8) (a : α) :
    Prop where
  reads : Reads read front a
  passes : ∀ next, PassesValue front next

/-- Whatever is read is the front of the text. -/
def Spanning (read : List UInt8 → Except Failure (α × List UInt8)) : Prop :=
  ∀ s a rest, read s = .ok (a, rest) → ∃ front, s = front ++ rest ∧ Spans read front a

/-! ## Names, arrays and objects -/

theorem spanning_readName : Spanning readName := by
  intro s name rest h
  obtain ⟨t, hs, ht⟩ := readFrom_eq_ok_iff.mp h
  obtain ⟨quote, hquote, rfl⟩ := exists_mark hs
  obtain ⟨front, rfl, hfront, hpass⟩ := exists_reads_readText (located_eq_ok_iff.mp ht)
  refine ⟨quote ++ front, (List.append_assoc ..).symm, ?_, fun next => ?_⟩
  · exact reads_readFrom hquote fun rest => located_eq_ok_iff.mpr (hfront rest)
  · have hscalar : ∀ t, skipScalar Byte.quote t = skipText .plain t := fun _ => rfl
    exact passesValue_scalar hquote (by decide) (by decide)
      fun rest _ => (hscalar _).trans (hpass rest)

theorem Spanning.exists_items (hitem : Spanning item)
    (h : readItems item fuel position s = .ok (as, rest)) :
    ∃ front, s = front ++ rest ∧ ReadsItems item front as ∧ PassesItems front := by
  induction fuel generalizing position s as with
  | zero => cases h
  | succ fuel ih =>
    obtain ⟨a, t, ha, hafter⟩ := readItems_eq_ok_iff.mp h
    obtain ⟨first, rfl, hfirst⟩ := hitem _ _ _ ha
    obtain ⟨hend, rfl⟩ | ⟨next, hnext, others, hothers, rfl⟩ := hafter
    · obtain ⟨mark, hmark, rfl⟩ := exists_mark (readAfterItem_done_iff.mp hend)
      exact ⟨first ++ mark, (List.append_assoc ..).symm, readsItems_last hfirst.reads hmark,
        passesItems_last (hfirst.passes _) hmark⟩
    · obtain ⟨mark, space, hmark, hspaces, hbegins, rfl⟩ := exists_mark_of_readAfterItem hnext
      obtain ⟨front, rfl, hfront, hpass⟩ := ih hothers
      refine ⟨first ++ (mark ++ (space ++ front)), by simp only [List.append_assoc], ?_, ?_⟩
      · exact readsItems_next hfirst.reads hmark hspaces (hbegins.of_append hpass.ne_nil) hfront
      · exact passesItems_next (hfirst.passes _) hmark (hpass.spaced hspaces)

theorem spanning_readSequence (hitem : Spanning item) : Spanning (readSequence item) := by
  intro s as rest h
  obtain ⟨t, hs, ht⟩ := readSequence_eq_ok_iff.mp h
  obtain ⟨opening, hopening, rfl⟩ := exists_mark hs
  obtain ⟨hend, rfl⟩ | ⟨first, hfirst, hitems⟩ := ht
  · obtain ⟨mark, hmark, rfl⟩ := exists_mark (readFirstItem_done_iff.mp hend)
    exact ⟨opening ++ mark, (List.append_assoc ..).symm, reads_readSequence_nil hopening hmark,
      passesValue_array_nil hopening hmark⟩
  · obtain ⟨space, hspaces, hbegins, rfl⟩ := exists_spaces_of_readFirstItem hfirst
    obtain ⟨front, rfl, hfront, hpass⟩ := hitem.exists_items hitems
    have hfrontBegins := hbegins.of_append hpass.ne_nil
    exact ⟨opening ++ (space ++ front), by simp only [List.append_assoc],
      reads_readSequence hopening hspaces hfrontBegins hfront,
      passesValue_array hopening hspaces hfrontBegins hpass⟩

theorem Spanning.exists_pairs (hitem : Spanning item)
    (h : readPairs item fuel s = .ok (pairs, rest)) :
    ∃ front, s = front ++ rest ∧ ReadsPairs item front pairs ∧ PassesPairs front := by
  induction fuel generalizing s pairs with
  | zero => cases h
  | succ fuel ih =>
    obtain ⟨key, _, hkey, _, hcolon, a, t, ha, hafter⟩ := readPairs_eq_ok_iff.mp h
    obtain ⟨text, rfl, htext, hpassText⟩ := exists_reads_readText hkey
    obtain ⟨colon, hmarkColon, rfl⟩ := exists_mark (readColon_eq_ok_iff.mp hcolon)
    obtain ⟨value, rfl, hvalue⟩ := hitem _ _ _ ha
    obtain ⟨hend, rfl⟩ | ⟨next, hnext, others, hothers, rfl⟩ := hafter
    · obtain ⟨mark, hmark, rfl⟩ := exists_mark (readAfterEntry_done_iff.mp hend)
      exact ⟨text ++ (colon ++ (value ++ mark)), by simp only [List.append_assoc],
        readsPairs_last htext hmarkColon hvalue.reads hmark,
        passesPairs_last hpassText hmarkColon (hvalue.passes _) hmark⟩
    · obtain ⟨mark, quote, hmark, hmarkQuote, rfl⟩ := exists_marks_of_readAfterEntry hnext
      obtain ⟨front, rfl, hfront, hpass⟩ := ih hothers
      exact ⟨text ++ (colon ++ (value ++ (mark ++ (quote ++ front)))),
        by simp only [List.append_assoc],
        readsPairs_next htext hmarkColon hvalue.reads hmark hmarkQuote hfront,
        passesPairs_next hpassText hmarkColon (hvalue.passes _) hmark hmarkQuote hpass⟩

theorem spanning_readMap (hitem : Spanning item) : Spanning (readMap item) := by
  intro s pairs rest h
  obtain ⟨t, hs, ht⟩ := readMap_eq_ok_iff.mp h
  obtain ⟨opening, hopening, rfl⟩ := exists_mark hs
  obtain ⟨hend, rfl⟩ | ⟨first, hfirst, entries, hentries, rfl⟩ := ht
  · obtain ⟨mark, hmark, rfl⟩ := exists_mark (readFirstEntry_done_iff.mp hend)
    exact ⟨opening ++ mark, (List.append_assoc ..).symm, reads_readMap_nil hopening hmark,
      passesValue_object_nil hopening hmark⟩
  · obtain ⟨quote, hquote, rfl⟩ := exists_mark (readFirstEntry_another_iff.mp hfirst)
    obtain ⟨front, rfl, hfront, hpass⟩ := hitem.exists_pairs hentries
    exact ⟨opening ++ (quote ++ front), by simp only [List.append_assoc],
      reads_readMap hopening hquote hfront, passesValue_object hopening hquote hpass⟩

theorem spanning_readTypes : Spanning readTypes :=
  spanning_readMap (spanning_readSequence (spanning_readSequence spanning_readName))

/-! ## Catalogs -/

variable {sections found : Sections} {key : String} {catalog : Catalog}

theorem exists_member (h : readMember sections key s = .ok (found, rest)) :
    ∃ colon value, Mark Byte.colon colon ∧ s = colon ++ (value ++ rest) ∧
      ReadsBefore (readMember sections key) (colon ++ value) found rest ∧
      PassesValue value rest := by
  obtain ⟨t, hcolon, hmember⟩ := readMember_eq_ok_iff.mp h
  obtain ⟨colon, hmark, rfl⟩ := exists_mark (readColon_eq_ok_iff.mp hcolon)
  have hread : ∀ next, readColon (colon ++ next) = .ok next :=
    fun next => readColon_eq_ok_iff.mpr (hmark.skipSpace next)
  obtain ⟨hkey, hskip, rfl⟩ | ⟨part, hkey, hnew, types, htypes, rfl⟩ := hmember
  · obtain ⟨value, rfl, hpass⟩ := exists_passesValue hskip
    refine ⟨colon, value, hmark, rfl, fun next hnext => ?_, hpass⟩
    rw [List.append_assoc]
    refine readMember_eq_ok_iff.mpr ⟨_, hread _, .inl ⟨hkey, ?_, rfl⟩⟩
    refine hpass _ ?_ next hnext
    rw [enoughFuel, List.length_append]
    omega
  · obtain ⟨value, rfl, hvalue⟩ := spanning_readTypes _ _ _ htypes
    refine ⟨colon, value, hmark, rfl, fun next _ => ?_, hvalue.passes rest⟩
    rw [List.append_assoc]
    exact readMember_eq_ok_iff.mpr ⟨_, hread _,
      .inr ⟨part, hkey, hnew, types, hvalue.reads next, rfl⟩⟩

theorem exists_members (h : readMembers fuel sections s = .ok (found, rest)) :
    ∃ front, s = front ++ rest ∧ ReadsMembers sections front found ∧ PassesPairs front := by
  induction fuel generalizing s sections with
  | zero => cases h
  | succ fuel ih =>
    obtain ⟨key, _, hkey, after, t, hmember, hafter⟩ := readMembers_eq_ok_iff.mp h
    obtain ⟨text, rfl, htext, hpassText⟩ := exists_reads_readText hkey
    obtain ⟨colon, value, hcolon, rfl, hread, hpass⟩ := exists_member hmember
    obtain ⟨hend, rfl⟩ | ⟨next, hnext, hmore⟩ := hafter
    · obtain ⟨mark, hmark, rfl⟩ := exists_mark (readAfterEntry_done_iff.mp hend)
      refine ⟨text ++ ((colon ++ value) ++ mark), by simp only [List.append_assoc], ?_, ?_⟩
      · exact readsMembers_last htext (hread.congr (hmark.head?_append rest)) hmark
      · rw [List.append_assoc colon]
        exact passesPairs_last hpassText hcolon (hpass.congr (hmark.head?_append rest)) hmark
    · obtain ⟨mark, quote, hmark, hmarkQuote, rfl⟩ := exists_marks_of_readAfterEntry hnext
      obtain ⟨front, rfl, hfront, hpassFront⟩ := ih hmore
      refine ⟨text ++ ((colon ++ value) ++ (mark ++ (quote ++ front))),
        by simp only [List.append_assoc], ?_, ?_⟩
      · exact readsMembers_next htext (hread.congr (hmark.head?_append _)) hmark hmarkQuote hfront
      · rw [List.append_assoc colon]
        exact passesPairs_next hpassText hcolon (hpass.congr (hmark.head?_append _)) hmark
          hmarkQuote hpassFront

theorem exists_sections (h : readSections s = .ok (found, rest)) :
    ∃ front, s = front ++ rest ∧ Reads readSections front found ∧
      ∀ opening, Mark Byte.openBracket opening → ∀ next, PassesValue (opening ++ front) next := by
  obtain ⟨hend, rfl⟩ | ⟨first, hfirst, resources, t, hresources, hafter⟩ :=
    readSections_eq_ok_iff.mp h
  · obtain ⟨mark, hmark, rfl⟩ := exists_mark (readFirstItem_done_iff.mp hend)
    refine ⟨mark, rfl, fun rest => ?_, fun opening ho => passesValue_array_nil ho hmark⟩
    refine readSections_eq_ok_iff.mpr (.inl ⟨?_, rfl⟩)
    exact readFirstItem_done_iff.mpr (hmark.skipSpace rest)
  · obtain ⟨space, hspaces, hbegins, rfl⟩ := exists_spaces_of_readFirstItem hfirst
    obtain ⟨types, rfl, htypes⟩ := spanning_readTypes _ _ _ hresources
    have htypesBegins := hbegins.of_append (htypes.passes []).ne_nil
    have hread : ∀ next, readFirstItem (space ++ (types ++ next)) = .ok (.another, types ++ next) :=
      fun next => readFirstItem_append hspaces (htypesBegins.append next)
    obtain ⟨hend, rfl⟩ | ⟨_, hnext, properties, u, hproperties, hend, rfl⟩ := hafter
    · obtain ⟨mark, hmark, rfl⟩ := exists_mark (readAfterItem_done_iff.mp hend)
      refine ⟨space ++ (types ++ mark), by simp only [List.append_assoc], fun rest => ?_,
        fun opening ho => ?_⟩
      · simp only [List.append_assoc]
        exact readSections_eq_ok_iff.mpr (.inr ⟨_, hread _, resources, _, htypes.reads _,
          .inl ⟨readAfterItem_done_iff.mpr (hmark.skipSpace rest), rfl⟩⟩)
      · exact passesValue_array ho hspaces (htypesBegins.append mark)
          (passesItems_last (htypes.passes _) hmark)
    · obtain ⟨mark, space', hmark, hspaces', hbegins', rfl⟩ := exists_mark_of_readAfterItem hnext
      obtain ⟨types', rfl, htypes'⟩ := spanning_readTypes _ _ _ hproperties
      obtain ⟨close, hclose, rfl⟩ := exists_mark hend
      have htypesBegins' := hbegins'.of_append (htypes'.passes []).ne_nil
      refine ⟨space ++ (types ++ (mark ++ (space' ++ (types' ++ close)))),
        by simp only [List.append_assoc], fun rest => ?_, fun opening ho => ?_⟩
      · simp only [List.append_assoc]
        refine readSections_eq_ok_iff.mpr (.inr ⟨_, hread _, resources, _, htypes.reads _,
          .inr ⟨_, ?_, properties, _, htypes'.reads _, hclose.skipSpace rest, rfl⟩⟩)
        exact readAfterItem_append hmark hspaces' (htypesBegins'.append _)
      · refine passesValue_array ho hspaces (htypesBegins.append _)
          (passesItems_next (htypes.passes _) hmark (.spaced hspaces' ?_))
        exact passesItems_last (htypes'.passes _) hclose

theorem spanning_readCatalog : Spanning readCatalog := by
  intro s catalog rest h
  obtain ⟨sections, t, rfl, hread⟩ := readCatalog_eq_ok_iff.mp h
  obtain ⟨hs, hsections⟩ | ⟨hs, ⟨hend, rfl⟩ | ⟨first, hfirst, hmembers⟩⟩ := hread
  · obtain ⟨opening, hopening, rfl⟩ := exists_mark hs
    obtain ⟨front, rfl, hfront, hpass⟩ := exists_sections hsections
    refine ⟨opening ++ front, (List.append_assoc ..).symm, fun rest => ?_, hpass opening hopening⟩
    rw [List.append_assoc]
    exact readCatalog_eq_ok_iff.mpr ⟨sections, _, rfl, .inl ⟨hopening.skipSpace _, hfront rest⟩⟩
  · obtain ⟨opening, hopening, rfl⟩ := exists_mark hs
    obtain ⟨mark, hmark, rfl⟩ := exists_mark (readFirstEntry_done_iff.mp hend)
    exact ⟨opening ++ mark, (List.append_assoc ..).symm, reads_readCatalog_nil hopening hmark,
      passesValue_object_nil hopening hmark⟩
  · obtain ⟨opening, hopening, rfl⟩ := exists_mark hs
    obtain ⟨quote, hquote, rfl⟩ := exists_mark (readFirstEntry_another_iff.mp hfirst)
    obtain ⟨front, rfl, hfront, hpass⟩ := exists_members hmembers
    exact ⟨opening ++ (quote ++ front), by simp only [List.append_assoc],
      reads_readCatalog hopening hquote hfront, passesValue_object hopening hquote hpass⟩

theorem parseBytes_eq_ok_iff {bytes : List UInt8} :
    parseBytes bytes = .ok catalog ↔ ∃ rest, readCatalog bytes = .ok (catalog, rest) := by
  rw [parseBytes]
  cases readCatalog bytes with
  | error f => simp [Except.map]
  | ok r => simp [Except.map, Prod.ext_iff]

/-- A text is read as a catalog just if a value stands in front that is read so whatever follows it.
The text is that one value, with nothing but spaces behind it, just if nothing else is left. -/
theorem parseBytes_iff_first_value (bytes : List UInt8) (catalog : Catalog) :
    parseBytes bytes = .ok catalog ↔
      ∃ document rest, bytes = document ++ rest ∧ IsValue document ∧
        (∀ other, parseBytes (document ++ other) = .ok catalog) ∧
        (IsText bytes ↔ Spaces rest) := by
  constructor
  · intro h
    obtain ⟨rest, hread⟩ := parseBytes_eq_ok_iff.mp h
    obtain ⟨document, rfl, hspans⟩ := spanning_readCatalog _ _ _ hread
    exact ⟨document, rest, rfl, isValue_of_passes (hspans.passes []),
      fun other => parseBytes_eq_ok_iff.mpr ⟨other, hspans.reads other⟩,
      isText_append_iff hspans.passes⟩
  · rintro ⟨document, rest, rfl, -, h, -⟩
    exact h rest

def oneType : String := "\x7b\"ResourceTypes\":\x7b\"T\":[[\"A\",\"B\"]]\x7d\x7d"

def emptyFirst : String := "\x7b\x7d " ++ oneType

theorem utf8_emptyFirst :
    utf8 emptyFirst = [Byte.openBrace] ++ [Byte.closeBrace] ++ (0x20 :: utf8 oneType) := by
  rw [emptyFirst, utf8_append, utf8_eq_flatMap]
  rfl

theorem not_isText_emptyFirst : ¬ IsText (utf8 emptyFirst) := by
  have hopening : Mark Byte.openBrace [Byte.openBrace] := ⟨rfl, [], List.forall_mem_nil _, rfl⟩
  have hclosing : Mark Byte.closeBrace [Byte.closeBrace] := ⟨rfl, [], List.forall_mem_nil _, rfl⟩
  rw [utf8_emptyFirst, isText_append_iff (passesValue_object_nil hopening hclosing)]
  intro hspaces
  have hbrace : Byte.openBrace ∈ utf8 oneType := by
    rw [utf8_eq_flatMap]
    decide
  exact absurd (hspaces _ (List.mem_cons_of_mem _ hbrace)) (by decide)

/-- Two catalogs, one behind the other: the first is read, as a text and from a file, and the type
of the second is lost. A reader of documents refuses the text at the second one. -/
theorem emptyFirst_read_in_part :
    parse emptyFirst = .ok empty ∧
    catalogOf Disk.host (Disk.withFile (utf8 emptyFirst)) (some "a") = .ok empty ∧
    ¬ IsText (utf8 emptyFirst) ∧
    parse oneType = .ok ⟨[("T", [["A", "B"]])], []⟩ ∧
    Json.parse emptyFirst = .error (.behind .trailingCharacters (utf8 oneType)) := by
  have hparse : parse emptyFirst = .ok empty := by
    rw [parse, utf8_eq_flatMap]
    rfl
  refine ⟨hparse, ?_, not_isText_emptyFirst, ?_, ?_⟩
  · exact catalogOf_of_content (Disk.contentOf_withFile _) hparse
  · rw [parse, utf8_eq_flatMap]
    rfl
  · rw [Json.parse, utf8_eq_flatMap, utf8_eq_flatMap]
    rfl

end Catalog

end ExactlyOne
