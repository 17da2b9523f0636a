import ExactlyOne.Catalog.Reader
import ExactlyOne.Proofs.Fronts

/-!
# Reading a catalog, part by part

The readers of arrays, objects and catalogs take their parts and the marks between them in turn.
For each there is an equation that says when it succeeds, and from it what it takes once it is known
what the readers of its parts take.
-/
namespace ExactlyOne

namespace Catalog

open Json

/-! ## When a reader of arrays and objects succeeds -/

section

variable {α : Type} {item : List UInt8 → Except Failure (α × List UInt8)} {a : α} {as : List α}
  {key : String} {pairs : List (String × α)} {s rest : List UInt8} {fuel position : Nat}

@[simp] theorem located_eq_ok_iff {track : List Step} {x : Except Json.Failure α} :
    located track x = .ok a ↔ x = .ok a := by
  cases x <;> simp [located]

@[simp] theorem inside_eq_ok_iff {step : Step} {x : Except Failure α} :
    inside step x = .ok a ↔ x = .ok a := by
  cases x <;> simp [inside]

theorem refuse_ne_ok {wanted : Wanted} {b : UInt8} : refuse wanted b s ≠ .ok (a, rest) := by
  unfold refuse
  split
  · simp
  · split
    · simp
    · simp [bind_eq_ok]

theorem readFrom_eq_ok_iff {opening : UInt8} {wanted : Wanted} :
    readFrom opening wanted item s = .ok (a, rest) ↔
      ∃ t, skipSpace s = opening :: t ∧ item t = .ok (a, rest) := by
  rw [readFrom]
  rcases skipSpace s with _ | ⟨b, t⟩
  · simp
  · by_cases hb : b = opening <;> simp [hb, refuse_ne_ok]

theorem readItems_eq_ok_iff :
    readItems item (fuel + 1) position s = .ok (as, rest) ↔
      ∃ a t, item s = .ok (a, t) ∧
        (readAfterItem t = .ok (.done, rest) ∧ as = [a] ∨
          ∃ next, readAfterItem t = .ok (.another, next) ∧
            ∃ others, readItems item fuel (position + 1) next = .ok (others, rest) ∧
              as = a :: others) := by
  simp only [readItems, bind_eq_ok, located_eq_ok_iff, inside_eq_ok_iff, Prod.exists,
    AfterItem.exists_iff, pure_eq_ok_iff, Prod.mk.injEq, exists_eq_right_right']

theorem readSequence_eq_ok_iff :
    readSequence item s = .ok (as, rest) ↔
      ∃ t, skipSpace s = Byte.openBracket :: t ∧
        (readFirstItem t = .ok (.done, rest) ∧ as = [] ∨
          ∃ first, readFirstItem t = .ok (.another, first) ∧
            readItems item first.length 0 first = .ok (as, rest)) := by
  simp only [readSequence, readFrom_eq_ok_iff, bind_eq_ok, located_eq_ok_iff, Prod.exists,
    AfterItem.exists_iff, pure_eq_ok_iff, Prod.mk.injEq, exists_eq_right_right']

theorem readPairs_eq_ok_iff :
    readPairs item (fuel + 1) s = .ok (pairs, rest) ↔
      ∃ key text, readString s = .ok (key, text) ∧ ∃ value, readColon text = .ok value ∧
        ∃ a t, item value = .ok (a, t) ∧
          (readAfterEntry t = .ok (.done, rest) ∧ pairs = [(key, a)] ∨
            ∃ next, readAfterEntry t = .ok (.another, next) ∧
              ∃ others, readPairs item fuel next = .ok (others, rest) ∧
                pairs = (key, a) :: others) := by
  simp only [readPairs, bind_eq_ok, located_eq_ok_iff, inside_eq_ok_iff, Prod.exists,
    AfterItem.exists_iff, pure_eq_ok_iff, Prod.mk.injEq, exists_eq_right_right']

theorem readMap_eq_ok_iff :
    readMap item s = .ok (pairs, rest) ↔
      ∃ t, skipSpace s = Byte.openBrace :: t ∧
        (readFirstEntry t = .ok (.done, rest) ∧ pairs = [] ∨
          ∃ first, readFirstEntry t = .ok (.another, first) ∧
            ∃ entries, readPairs item first.length first = .ok (entries, rest) ∧
              pairs = Entries.ofPairs entries) := by
  simp only [readMap, readFrom_eq_ok_iff, bind_eq_ok, located_eq_ok_iff, Prod.exists,
    AfterItem.exists_iff, pure_eq_ok_iff, Prod.mk.injEq, exists_eq_right_right']

/-! ## When a reader of catalogs succeeds -/

variable {sections found : Sections} {types : List (String × List Group)} {part : Section}

theorem refuseRepeated_ne_ok : refuseRepeated part s ≠ .ok (a, rest) := by
  simp [refuseRepeated]

/-- A member that is no section is passed over, and no section is read twice. -/
theorem readMember_eq_ok_iff :
    readMember sections key s = .ok (found, rest) ↔
      ∃ t, readColon s = .ok t ∧
        (Section.ofKey? key = none ∧ skipValue (enoughFuel t) t = .ok rest ∧ found = sections ∨
          ∃ part, Section.ofKey? key = some part ∧ sections.get? part = none ∧
            ∃ types, readTypes t = .ok (types, rest) ∧ found = sections.set types part) := by
  rw [readMember]
  cases hkey : Section.ofKey? key with
  | none =>
    simp only [bind_eq_ok, located_eq_ok_iff, pure_eq_ok_iff, Prod.mk.injEq, reduceCtorEq,
      false_and, exists_false, or_false, true_and]
    refine exists_congr fun t => and_congr_right fun _ => ?_
    constructor
    · rintro ⟨rest', hskip, rfl, rfl⟩
      exact ⟨hskip, rfl⟩
    · rintro ⟨hskip, rfl⟩
      exact ⟨rest, hskip, rfl, rfl⟩
  | some part =>
    cases hpart : sections.get? part with
    | none =>
      simp only [hpart, bind_eq_ok, pure_eq_ok_iff, Option.isSome_none, Bool.false_eq_true,
        if_false, located_eq_ok_iff, inside_eq_ok_iff, Prod.exists, Prod.mk.injEq,
        exists_eq_right_right', reduceCtorEq, false_and, false_or, true_and, Option.some.injEq,
        exists_eq_left']
    | some before => simp [hpart, refuseRepeated_ne_ok]

theorem readMembers_eq_ok_iff :
    readMembers (fuel + 1) sections s = .ok (found, rest) ↔
      ∃ key text, readString s = .ok (key, text) ∧
        ∃ after t, readMember sections key text = .ok (after, t) ∧
          (readAfterEntry t = .ok (.done, rest) ∧ found = after ∨
            ∃ next, readAfterEntry t = .ok (.another, next) ∧
              readMembers fuel after next = .ok (found, rest)) := by
  simp only [readMembers, bind_eq_ok, located_eq_ok_iff, Prod.exists, AfterItem.exists_iff,
    pure_eq_ok_iff, Prod.mk.injEq, exists_eq_right_right']

theorem readSectionsEnd_eq_ok_iff :
    readSectionsEnd s = .ok rest ↔ skipSpace s = Byte.closeBracket :: rest := by
  rw [readSectionsEnd]
  rcases skipSpace s with _ | ⟨b, t⟩
  · simp
  · grind

theorem readSections_eq_ok_iff :
    readSections s = .ok (found, rest) ↔
      readFirstItem s = .ok (.done, rest) ∧ found = .none ∨
        ∃ first, readFirstItem s = .ok (.another, first) ∧
          ∃ resources t, readTypes first = .ok (resources, t) ∧
            (readAfterItem t = .ok (.done, rest) ∧ found = ⟨some resources, none⟩ ∨
              ∃ next, readAfterItem t = .ok (.another, next) ∧
                ∃ properties t', readTypes next = .ok (properties, t') ∧
                  skipSpace t' = Byte.closeBracket :: rest ∧
                  found = ⟨some resources, some properties⟩) := by
  simp only [readSections, bind_eq_ok, located_eq_ok_iff, inside_eq_ok_iff,
    readSectionsEnd_eq_ok_iff, Prod.exists, AfterItem.exists_iff, pure_eq_ok_iff, Prod.mk.injEq,
    exists_eq_right_right']

theorem readCatalog_eq_ok_iff {catalog : Catalog} :
    readCatalog s = .ok (catalog, rest) ↔
      ∃ sections t, catalog = sections.catalog ∧
        (skipSpace s = Byte.openBracket :: t ∧ readSections t = .ok (sections, rest) ∨
          skipSpace s = Byte.openBrace :: t ∧
            (readFirstEntry t = .ok (.done, rest) ∧ sections = .none ∨
              ∃ first, readFirstEntry t = .ok (.another, first) ∧
                readMembers first.length .none first = .ok (sections, rest))) := by
  have hbrace : Byte.openBrace ≠ Byte.openBracket := by decide
  rw [readCatalog]
  constructor
  · intro h
    split at h
    · cases h
    · rename_i b t hs
      split at h
      · rename_i hb
        obtain ⟨⟨sections, rest'⟩, hsections, h⟩ := bind_eq_ok.mp h
        cases h
        exact ⟨sections, t, rfl, .inl ⟨hb ▸ hs, hsections⟩⟩
      · split at h
        · rename_i hb
          obtain ⟨⟨next, first⟩, hfirst, h⟩ := bind_eq_ok.mp h
          rw [located_eq_ok_iff] at hfirst
          cases next with
          | done =>
            cases h
            exact ⟨.none, t, rfl, .inr ⟨hb ▸ hs, .inl ⟨hfirst, rfl⟩⟩⟩
          | another =>
            obtain ⟨⟨sections, rest'⟩, hsections, h⟩ := bind_eq_ok.mp h
            cases h
            exact ⟨sections, t, rfl, .inr ⟨hb ▸ hs, .inr ⟨first, hfirst, hsections⟩⟩⟩
        · obtain ⟨_, h, -⟩ := bind_eq_ok.mp h
          exact absurd h refuse_ne_ok
  · rintro ⟨sections, t, rfl, ⟨hs, h⟩ | ⟨hs, ⟨hfirst, rfl⟩ | ⟨first, hfirst, h⟩⟩⟩
    · simp only [hs, if_true, h]
      rfl
    · simp only [hs, hbrace, if_true, if_false, hfirst]
      rfl
    · simp only [hs, hbrace, if_true, if_false, hfirst, located]
      change (readMembers first.length .none first >>= _) = _
      rw [h]
      rfl

end

/-! ## Arrays and objects -/

section

variable {α : Type} {item : List UInt8 → Except Failure (α × List UInt8)} {a : α} {as : List α}
  {key : String} {pairs : List (String × α)}
  {space opening mark front others text colon quote : List UInt8}

/-- These bytes are read as the items of an array, from some item on, and the closing bracket. -/
def ReadsItems (item : List UInt8 → Except Failure (α × List UInt8)) (front : List UInt8)
    (as : List α) : Prop :=
  ∀ fuel position rest, front.length ≤ fuel →
    readItems item fuel position (front ++ rest) = .ok (as, rest)

/-- These bytes are read as the entries of an object, behind the quote of a key, and the closing
brace. -/
def ReadsPairs (value : List UInt8 → Except Failure (α × List UInt8)) (front : List UInt8)
    (pairs : List (String × α)) : Prop :=
  ∀ fuel rest, front.length ≤ fuel → readPairs value fuel (front ++ rest) = .ok (pairs, rest)

theorem reads_readFrom {first : UInt8} {wanted : Wanted} (hmark : Mark first mark)
    (h : Reads item front a) : Reads (readFrom first wanted item) (mark ++ front) a := by
  intro rest
  rw [List.append_assoc]
  exact readFrom_eq_ok_iff.mpr ⟨_, hmark.skipSpace _, h rest⟩

theorem readsItems_last (hitem : Reads item front a) (hmark : Mark Byte.closeBracket mark) :
    ReadsItems item (front ++ mark) [a] := by
  intro fuel position rest hfuel
  rw [List.length_append] at hfuel
  obtain ⟨fuel, rfl, -⟩ : ∃ k, fuel = k + 1 ∧ front.length ≤ k := hmark.exists_fuel (by omega)
  rw [List.append_assoc]
  refine readItems_eq_ok_iff.mpr ⟨a, _, hitem _, .inl ⟨?_, rfl⟩⟩
  exact readAfterItem_done_iff.mpr (hmark.skipSpace rest)

theorem readsItems_next (hitem : Reads item front a) (hmark : Mark Byte.comma mark)
    (hspace : Spaces space) (hbegins : Begins others) (h : ReadsItems item others as) :
    ReadsItems item (front ++ (mark ++ (space ++ others))) (a :: as) := by
  intro fuel position rest hfuel
  simp only [List.length_append] at hfuel
  obtain ⟨fuel, rfl, hothers⟩ : ∃ k, fuel = k + 1 ∧ others.length ≤ k :=
    hmark.exists_fuel (by omega)
  simp only [List.append_assoc]
  exact readItems_eq_ok_iff.mpr ⟨a, _, hitem _, .inr ⟨others ++ rest,
    readAfterItem_append hmark hspace (hbegins.append rest), as,
    h fuel (position + 1) rest hothers, rfl⟩⟩

theorem reads_readSequence_nil (hopening : Mark Byte.openBracket opening)
    (hmark : Mark Byte.closeBracket mark) : Reads (readSequence item) (opening ++ mark) [] := by
  intro rest
  rw [List.append_assoc]
  refine readSequence_eq_ok_iff.mpr ⟨_, hopening.skipSpace _, .inl ⟨?_, rfl⟩⟩
  exact readFirstItem_done_iff.mpr (hmark.skipSpace rest)

theorem reads_readSequence (hopening : Mark Byte.openBracket opening) (hspace : Spaces space)
    (hbegins : Begins front) (h : ReadsItems item front as) :
    Reads (readSequence item) (opening ++ (space ++ front)) as := by
  intro rest
  simp only [List.append_assoc]
  refine readSequence_eq_ok_iff.mpr ⟨_, hopening.skipSpace _,
    .inr ⟨front ++ rest, readFirstItem_append hspace (hbegins.append rest), ?_⟩⟩
  exact h _ 0 rest (List.prefix_append front rest).length_le

theorem readsPairs_last (hkey : Reads readString text key) (hcolon : Mark Byte.colon colon)
    (hvalue : Reads item front a) (hmark : Mark Byte.closeBrace mark) :
    ReadsPairs item (text ++ (colon ++ (front ++ mark))) [(key, a)] := by
  intro fuel rest hfuel
  simp only [List.length_append] at hfuel
  obtain ⟨fuel, rfl, -⟩ : ∃ k, fuel = k + 1 ∧ front.length ≤ k := hmark.exists_fuel (by omega)
  simp only [List.append_assoc]
  refine readPairs_eq_ok_iff.mpr ⟨key, _, hkey _, _,
    readColon_eq_ok_iff.mpr (hcolon.skipSpace _), a, _, hvalue _, .inl ⟨?_, rfl⟩⟩
  exact readAfterEntry_done_iff.mpr (hmark.skipSpace rest)

theorem readsPairs_next (hkey : Reads readString text key) (hcolon : Mark Byte.colon colon)
    (hvalue : Reads item front a) (hmark : Mark Byte.comma mark) (hquote : Mark Byte.quote quote)
    (h : ReadsPairs item others pairs) :
    ReadsPairs item (text ++ (colon ++ (front ++ (mark ++ (quote ++ others)))))
      ((key, a) :: pairs) := by
  intro fuel rest hfuel
  simp only [List.length_append] at hfuel
  obtain ⟨fuel, rfl, hothers⟩ : ∃ k, fuel = k + 1 ∧ others.length ≤ k :=
    hmark.exists_fuel (by omega)
  simp only [List.append_assoc]
  refine readPairs_eq_ok_iff.mpr ⟨key, _, hkey _, _,
    readColon_eq_ok_iff.mpr (hcolon.skipSpace _), a, _, hvalue _,
    .inr ⟨others ++ rest, ?_, pairs, h fuel rest hothers, rfl⟩⟩
  exact readAfterEntry_another_iff.mpr ⟨_, hmark.skipSpace _, hquote.skipSpace _⟩

theorem reads_readMap_nil (hopening : Mark Byte.openBrace opening)
    (hmark : Mark Byte.closeBrace mark) : Reads (readMap item) (opening ++ mark) [] := by
  intro rest
  rw [List.append_assoc]
  refine readMap_eq_ok_iff.mpr ⟨_, hopening.skipSpace _, .inl ⟨?_, rfl⟩⟩
  exact readFirstEntry_done_iff.mpr (hmark.skipSpace rest)

theorem reads_readMap (hopening : Mark Byte.openBrace opening) (hquote : Mark Byte.quote quote)
    (h : ReadsPairs item front pairs) :
    Reads (readMap item) (opening ++ (quote ++ front)) (Entries.ofPairs pairs) := by
  intro rest
  simp only [List.append_assoc]
  refine readMap_eq_ok_iff.mpr ⟨_, hopening.skipSpace _,
    .inr ⟨front ++ rest, readFirstEntry_another_iff.mpr (hquote.skipSpace _), pairs, ?_, rfl⟩⟩
  exact h _ rest (List.prefix_append front rest).length_le

/-! ## Catalogs -/

variable {sections after found : Sections}

/-- These bytes are read as members of a catalog that come after some sections, behind the quote of
a key, and the closing brace. -/
def ReadsMembers (sections : Sections) (front : List UInt8) (found : Sections) : Prop :=
  ∀ fuel rest, front.length ≤ fuel → readMembers fuel sections (front ++ rest) = .ok (found, rest)

theorem readsMembers_last (hkey : Reads readString text key)
    (hmember : ReadsBefore (readMember sections key) front after mark)
    (hmark : Mark Byte.closeBrace mark) :
    ReadsMembers sections (text ++ (front ++ mark)) after := by
  intro fuel rest hfuel
  simp only [List.length_append] at hfuel
  obtain ⟨fuel, rfl, -⟩ : ∃ k, fuel = k + 1 ∧ front.length ≤ k := hmark.exists_fuel (by omega)
  simp only [List.append_assoc]
  refine readMembers_eq_ok_iff.mpr ⟨key, _, hkey _, after, _,
    hmember _ (hmark.head?_append rest), .inl ⟨?_, rfl⟩⟩
  exact readAfterEntry_done_iff.mpr (hmark.skipSpace rest)

theorem readsMembers_next (hkey : Reads readString text key)
    (hmember : ReadsBefore (readMember sections key) front after mark)
    (hmark : Mark Byte.comma mark) (hquote : Mark Byte.quote quote)
    (h : ReadsMembers after others found) :
    ReadsMembers sections (text ++ (front ++ (mark ++ (quote ++ others)))) found := by
  intro fuel rest hfuel
  simp only [List.length_append] at hfuel
  obtain ⟨fuel, rfl, hothers⟩ : ∃ k, fuel = k + 1 ∧ others.length ≤ k :=
    hmark.exists_fuel (by omega)
  simp only [List.append_assoc]
  refine readMembers_eq_ok_iff.mpr ⟨key, _, hkey _, after, _,
    hmember _ (hmark.head?_append _), .inr ⟨others ++ rest, ?_, h fuel rest hothers⟩⟩
  exact readAfterEntry_another_iff.mpr ⟨_, hmark.skipSpace _, hquote.skipSpace _⟩

theorem reads_readCatalog_nil (hopening : Mark Byte.openBrace opening)
    (hmark : Mark Byte.closeBrace mark) : Reads readCatalog (opening ++ mark) empty := by
  intro rest
  rw [List.append_assoc]
  exact readCatalog_eq_ok_iff.mpr ⟨.none, _, rfl, .inr ⟨hopening.skipSpace _,
    .inl ⟨readFirstEntry_done_iff.mpr (hmark.skipSpace rest), rfl⟩⟩⟩

theorem reads_readCatalog (hopening : Mark Byte.openBrace opening) (hquote : Mark Byte.quote quote)
    (h : ReadsMembers .none front found) :
    Reads readCatalog (opening ++ (quote ++ front)) found.catalog := by
  intro rest
  simp only [List.append_assoc]
  refine readCatalog_eq_ok_iff.mpr ⟨found, _, rfl, .inr ⟨hopening.skipSpace _,
    .inr ⟨front ++ rest, readFirstEntry_another_iff.mpr (hquote.skipSpace _), ?_⟩⟩⟩
  exact h _ rest (List.prefix_append front rest).length_le

end

end Catalog

end ExactlyOne
