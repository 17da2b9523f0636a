import ExactlyOne.Proofs.CleanRun
import ExactlyOne.Proofs.UniqueTypes
import ExactlyOne.Proofs.WrittenText

/-!
# Catalogs, written and read

A catalog is written with one item a line. Each line reads back as what it was written for, whatever
the lines behind it are, so the whole reads back as the catalog: the types of each section in their
order, each with its groups, and every group with its names.
-/
namespace ExactlyOne

namespace Json

variable {level : Nat} {closing line : String} {lines : List String}

/-! ## Lines -/

theorem indentedItems_eq_map (items : List Json) :
    indentedItems level items = items.map (indented level) := by
  induction items with
  | nil => rfl
  | cons item rest ih => rw [indentedItems, ih, List.map_cons]

def entryLine (level : Nat) (entry : String × Json) : String :=
  quoted entry.1 ++ ": " ++ entry.2.indented level

theorem indentedEntries_eq_map (entries : List (String × Json)) :
    indentedEntries level entries = entries.map (entryLine level) := by
  induction entries with
  | nil => rfl
  | cons entry rest ih => rw [indentedEntries, ih, List.map_cons, entryLine]

/-- Lines at a level of nesting, from the first one on, and the closing bracket. -/
def linesFrom (level : Nat) (closing : String) : String → List String → List UInt8
  | line, [] => utf8 line ++ utf8 (lineBreak level ++ closing)
  | line, next :: rest =>
    utf8 line ++ (utf8 "," ++ (utf8 (lineBreak (level + 1)) ++ linesFrom level closing next rest))

theorem linesFrom_eq (level : Nat) (closing line : String) (rest : List String) :
    linesFrom level closing line rest =
      utf8 ((("," ++ lineBreak (level + 1)).intercalate (line :: rest)) ++
        (lineBreak level ++ closing)) := by
  induction rest generalizing line with
  | nil => rw [linesFrom, String.intercalate_singleton, utf8_append line]
  | cons next rest ih =>
    rw [linesFrom, ih, String.intercalate_cons_cons]
    simp only [utf8_append, List.append_assoc]

theorem utf8_bracketed_nil (opening : String) :
    utf8 (bracketed level opening closing []) = utf8 opening ++ utf8 closing := by
  rw [bracketed, if_pos List.isEmpty_nil, utf8_append]

theorem utf8_bracketed_cons (opening : String) (rest : List String) :
    utf8 (bracketed level opening closing (line :: rest)) =
      utf8 opening ++ (utf8 (lineBreak (level + 1)) ++ linesFrom level closing line rest) := by
  rw [bracketed, if_neg (by simp), linesFrom_eq]
  simp only [utf8_append, List.append_assoc]

theorem utf8_entryLine (level : Nat) (key : String) (value : Json) :
    utf8 (entryLine level (key, value)) = Byte.quote ::
      (quotedTail key ++ (utf8 ":" ++ (utf8 " " ++ utf8 (value.indented level)))) := by
  have hcolon : utf8 ": " = utf8 ":" ++ utf8 " " := (utf8_append ":" " ").symm ▸ rfl
  rw [entryLine, utf8_append, utf8_append, utf8_quoted, hcolon]
  simp only [List.cons_append, List.append_assoc]

/-! ## Spaces and marks -/

theorem spaces_lineBreak (level : Nat) : Spaces (utf8 (lineBreak level)) := by
  intro b hb
  simp only [utf8_eq_flatMap, lineBreak, String.toList_append, String.toList_ofList,
    List.flatMap_append, List.mem_append, List.mem_flatMap, List.mem_replicate] at hb
  obtain ⟨c, hc, hb⟩ | ⟨c, ⟨-, rfl⟩, hb⟩ := hb
  · have hnewline : c = '\n' := List.mem_singleton.mp hc
    subst hnewline
    rw [List.mem_singleton.mp hb]
    rfl
  · rw [List.mem_singleton.mp hb]
    rfl

theorem spaces_space : Spaces (utf8 " ") := by
  rw [utf8_eq_flatMap]
  exact List.forall_mem_singleton.mpr rfl

theorem mark_text {b : UInt8} {s : String} (h : s.toList.flatMap String.utf8EncodeChar = [b])
    (hb : Byte.isSpace b = false) : Mark b (utf8 s) :=
  ⟨hb, [], List.forall_mem_nil _, (utf8_eq_flatMap s).trans h⟩

theorem Mark.spaced {b : UInt8} {space mark : List UInt8} (hspace : Spaces space)
    (h : Mark b mark) : Mark b (space ++ mark) := by
  obtain ⟨hb, before, hbefore, rfl⟩ := h
  refine ⟨hb, space ++ before, ?_, (List.append_assoc _ _ _).symm⟩
  exact List.forall_mem_append.mpr ⟨hspace, hbefore⟩

theorem mark_lineBreak {b : UInt8} {s : String} (h : Mark b (utf8 s)) (level : Nat) :
    Mark b (utf8 (lineBreak level ++ s)) := by
  rw [utf8_append]
  exact h.spaced (spaces_lineBreak level)

theorem mark_quote (level : Nat) : Mark Byte.quote (utf8 (lineBreak level) ++ [Byte.quote]) :=
  ⟨rfl, _, spaces_lineBreak level, rfl⟩

end Json

namespace Catalog

open Json

variable {α : Type} {item : List UInt8 → Except Failure (α × List UInt8)} {level : Nat}

/-! ## Arrays -/

/-- A text may stand as an item of an array and reads as a value. -/
structure Written (item : List UInt8 → Except Failure (α × List UInt8)) (text : String) (a : α) :
    Prop where
  begins : Begins (utf8 text)
  reads : Reads item (utf8 text) a

theorem Written.begins_linesFrom {text : String} {a : α} (h : Written item text a) (level : Nat)
    (closing : String) (others : List String) : Begins (linesFrom level closing text others) := by
  cases others with
  | nil => exact h.begins.append _
  | cons next others => exact h.begins.append _

theorem readsItems_linesFrom {write : α → String} {first : α} {others : List α}
    (h : ∀ a ∈ first :: others, Written item (write a) a) :
    ReadsItems item (linesFrom level "]" (write first) (others.map write)) (first :: others) := by
  obtain ⟨hfirst, hothers⟩ := List.forall_mem_cons.mp h
  induction others generalizing first with
  | nil => exact readsItems_last hfirst.reads (mark_lineBreak (mark_text rfl rfl) level)
  | cons next others ih =>
    obtain ⟨hnext, hrest⟩ := List.forall_mem_cons.mp hothers
    exact readsItems_next hfirst.reads (mark_text rfl rfl) (spaces_lineBreak _)
      (hnext.begins_linesFrom ..) (ih hothers hnext hrest)

/-- An array whose items are written and read alike is written and read. -/
theorem Written.array {toJson : α → Json} {values : List α}
    (h : ∀ a ∈ values, Written item ((toJson a).indented (level + 1)) a) :
    Written (readSequence item) ((Json.array (values.map toJson)).indented level) values := by
  have hopening : Mark Byte.openBracket (utf8 "[") := mark_text rfl rfl
  have hbegins : Begins (utf8 "[") := ⟨Byte.openBracket, [], utf8_eq_flatMap "[", rfl, by decide⟩
  rw [indented, indentedItems_eq_map, List.map_map]
  cases values with
  | nil =>
    rw [List.map_nil]
    refine ⟨?_, ?_⟩ <;> rw [utf8_bracketed_nil]
    · exact hbegins.append _
    · exact reads_readSequence_nil hopening (mark_text rfl rfl)
  | cons first others =>
    rw [List.map_cons]
    refine ⟨?_, ?_⟩ <;> rw [utf8_bracketed_cons]
    · exact hbegins.append _
    · exact reads_readSequence hopening (spaces_lineBreak _)
        ((h first List.mem_cons_self).begins_linesFrom ..) (readsItems_linesFrom h)

theorem written_name (name : String) : Written readName ((Json.text name).indented level) name := by
  rw [indented]
  refine ⟨⟨Byte.quote, quotedTail name, utf8_quoted name, rfl, by decide⟩, ?_⟩
  have hquote : Mark Byte.quote [Byte.quote] := ⟨rfl, [], List.forall_mem_nil _, rfl⟩
  have hname : Reads readName ([Byte.quote] ++ quotedTail name) name :=
    reads_readFrom hquote fun rest => located_eq_ok_iff.mpr (readString_quotedTail name rest)
  rwa [utf8_quoted]

theorem written_group (group : Group) :
    Written (readSequence readName) ((groupToJson group).indented level) group :=
  .array fun name _ => written_name name

theorem written_groups (groups : List Group) :
    Written (readSequence (readSequence readName)) ((groupsToJson groups).indented level) groups :=
  .array fun group _ => written_group group

/-! ## Objects -/

theorem reads_spaced {opening : UInt8} {wanted : Wanted} {front space : List UInt8} {a : α}
    (hspace : Spaces space) (h : Reads (readFrom opening wanted item) front a) :
    Reads (readFrom opening wanted item) (space ++ front) a := by
  intro rest
  have hrest := h rest
  rw [readFrom] at hrest
  rwa [List.append_assoc, readFrom, skipSpace_append hspace]

theorem reads_groups (level : Nat) (groups : List Group) :
    Reads (readSequence (readSequence readName))
      (utf8 " " ++ utf8 ((groupsToJson groups).indented level)) groups :=
  reads_spaced spaces_space (written_groups groups).reads

def typeEntry (type : String × List Group) : String × Json := (type.1, groupsToJson type.2)

theorem typesToJson_eq (types : List (String × List Group)) :
    typesToJson types = .object (types.map typeEntry) := rfl

theorem readsPairs_linesFrom (level : Nat) (first : String × List Group)
    (others : List (String × List Group)) :
    ∃ front, linesFrom level "\x7d" (entryLine (level + 1) (typeEntry first))
        ((others.map typeEntry).map (entryLine (level + 1))) = Byte.quote :: front ∧
      ReadsPairs (readSequence (readSequence readName)) front (first :: others) := by
  have hcolon : Mark Byte.colon (utf8 ":") := mark_text rfl rfl
  have hcomma : Mark Byte.comma (utf8 ",") := mark_text rfl rfl
  have hbrace : Mark Byte.closeBrace (utf8 "\x7d") := mark_text rfl rfl
  induction others generalizing first with
  | nil =>
    refine ⟨_, ?_, readsPairs_last (readString_quotedTail first.1) hcolon
      (reads_groups (level + 1) first.2) (mark_lineBreak hbrace level)⟩
    rw [List.map_nil, List.map_nil, linesFrom, typeEntry, utf8_entryLine]
    simp only [List.cons_append, List.append_assoc]
  | cons next others ih =>
    obtain ⟨front, hfront, h⟩ := ih next
    refine ⟨_, ?_, readsPairs_next (readString_quotedTail first.1) hcolon
      (reads_groups (level + 1) first.2) hcomma (mark_quote (level + 1)) h⟩
    rw [List.map_cons, List.map_cons, linesFrom, hfront, typeEntry, utf8_entryLine]
    simp only [List.cons_append, List.append_assoc, List.nil_append]

theorem reads_types (level : Nat) (types : List (String × List Group)) :
    Reads readTypes (utf8 ((typesToJson types).indented level)) (Entries.ofPairs types) := by
  have hopening : Mark Byte.openBrace (utf8 "\x7b") := mark_text rfl rfl
  rw [typesToJson_eq, indented, indentedEntries_eq_map]
  cases types with
  | nil =>
    rw [List.map_nil, List.map_nil, utf8_bracketed_nil]
    exact reads_readMap_nil hopening (mark_text rfl rfl)
  | cons first others =>
    obtain ⟨front, hfront, h⟩ := readsPairs_linesFrom level first others
    rw [List.map_cons, List.map_cons, utf8_bracketed_cons, hfront]
    have hmap := reads_readMap hopening (mark_quote (level + 1)) h
    simp only [List.append_assoc, List.singleton_append] at hmap
    exact hmap

/-! ## Catalogs -/

theorem reads_section (sections : Sections) (part : Section) (level : Nat)
    (types : List (String × List Group)) (hnew : sections.get? part = none) :
    Reads (readMember sections part.key)
      (utf8 ":" ++ (utf8 " " ++ utf8 ((typesToJson types).indented level)))
      (sections.set (Entries.ofPairs types) part) := by
  intro rest
  have hcolon : Mark Byte.colon (utf8 ":") := mark_text rfl rfl
  have htypes := reads_spaced spaces_space (reads_types level types)
  rw [List.append_assoc]
  exact readMember_eq_ok_iff.mpr ⟨_, readColon_eq_ok_iff.mpr (hcolon.skipSpace _),
    .inr ⟨part, Section.ofKey?_key part, hnew, _, htypes rest, rfl⟩⟩

theorem reads_catalog (catalog : Catalog) :
    Reads readCatalog (utf8 catalog.toJson.pretty)
      ⟨Entries.ofPairs catalog.resourceTypes, Entries.ofPairs catalog.propertyTypes⟩ := by
  have hopening : Mark Byte.openBrace (utf8 "\x7b") := mark_text rfl rfl
  have hcomma : Mark Byte.comma (utf8 ",") := mark_text rfl rfl
  have hbrace : Mark Byte.closeBrace (utf8 "\x7d") := mark_text rfl rfl
  have hresources := reads_section .none .resources 1 catalog.resourceTypes rfl
  have hproperties := reads_section (Sections.none.set (Entries.ofPairs catalog.resourceTypes)
    .resources) .properties 1 catalog.propertyTypes rfl
  have hmembers := readsMembers_next (readString_quotedTail Section.resources.key)
    (hresources.before _) hcomma (mark_quote 1)
    (readsMembers_last (readString_quotedTail Section.properties.key) (hproperties.before _)
      (mark_lineBreak hbrace 0))
  have hcatalog := reads_readCatalog hopening (mark_quote 1) hmembers
  rw [pretty, toJson, indented, indentedEntries_eq_map, List.map_cons, List.map_cons, List.map_nil,
    utf8_bracketed_cons, linesFrom, linesFrom, utf8_entryLine, utf8_entryLine]
  simp only [List.append_assoc, List.cons_append, List.nil_append] at hcatalog ⊢
  exact hcatalog

theorem reads_catalog_of_unique {catalog : Catalog} (h : catalog.UniqueTypes) :
    Reads readCatalog (utf8 catalog.toJson.pretty) catalog := by
  have hresources : Entries.ofPairs catalog.resourceTypes = catalog.resourceTypes :=
    Entries.ofPairs_eq_self (h .resources)
  have hproperties : Entries.ofPairs catalog.propertyTypes = catalog.propertyTypes :=
    Entries.ofPairs_eq_self (h .properties)
  have hreads := reads_catalog catalog
  rwa [hresources, hproperties] at hreads

/-- What the command prints for a whole catalog. -/
def printedText (catalog : Catalog) : String := (catalogAnswer catalog none).pretty ++ "\n"

theorem parseBytes_printedText {catalog : Catalog} (h : catalog.UniqueTypes) :
    parseBytes (utf8 (printedText catalog)) = .ok catalog := by
  rw [printedText, catalogAnswer, utf8_append, parseBytes, reads_catalog_of_unique h]
  rfl

variable {World : Type} {host : Host (StateM World)} {w : World} {catalog : Catalog}

theorem run_catalog_printed {file : Option String} (palette : Palette)
    (h : catalogOf host w file = .ok catalog) :
    (((Command.catalog ⟨file, none⟩).run host palette).run w).1.printed = printedText catalog := by
  change ((runCatalog host ⟨file, none⟩).run w).1.printed = _
  cases file with
  | none =>
    cases h
    rfl
  | some file =>
    rw [catalogOf] at h
    simp only [runCatalog, withCatalog, run_bind_eq, h]
    rfl

/-- What the command prints for a whole catalog is read as that catalog again, as a text and from
any file that holds it: the same types in the same order in each section, with the same groups. -/
theorem parse_printedText (h : catalog.UniqueTypes) :
    parse (printedText catalog) = .ok catalog ∧
    ∀ (World : Type) (host : Host (StateM World)) (w : World),
      (∀ palette file, catalogOf host w file = .ok catalog →
        (((Command.catalog ⟨file, none⟩).run host palette).run w).1.printed =
          printedText catalog) ∧
      ∀ copy, contentOf host w copy = .ok (utf8 (printedText catalog)) →
        catalogOf host w (some copy) = .ok catalog := by
  refine ⟨parseBytes_printedText h, fun World host w => ⟨?_, ?_⟩⟩
  · exact fun palette file hcatalog => run_catalog_printed palette hcatalog
  · exact fun copy hcontent => catalogOf_of_content hcontent (parseBytes_printedText h)

/-- A type without groups, a type in both sections, a group without names, names that are written
with escapes and names that are not in ASCII. -/
def peculiar : Catalog where
  resourceTypes := [("A", []), ("A.B", [[], ["\"\\/", "\n\x01\x7f"]])]
  propertyTypes := [("", [["é", "é"], ["€", "𝄞"]]), ("A", [["x"]])]

theorem peculiar_reread :
    let disk := Disk.withFile (utf8 (printedText peculiar))
    peculiar.UniqueTypes ∧ parse (printedText peculiar) = .ok peculiar ∧
    contentOf Disk.host disk "a" = .ok (utf8 (printedText peculiar)) ∧
    catalogOf Disk.host disk (some "a") = .ok peculiar ∧
    (((Command.catalog ⟨some "a", none⟩).run Disk.host .plain).run disk).1.printed =
      printedText peculiar := by
  intro disk
  have hunique : peculiar.UniqueTypes := by
    intro part
    cases part <;> decide
  have hcontent : contentOf Disk.host disk "a" = .ok (utf8 (printedText peculiar)) :=
    Disk.contentOf_withFile _
  have hcatalog := ((parse_printedText hunique).2 _ Disk.host disk).2 "a" hcontent
  exact ⟨hunique, (parse_printedText hunique).1, hcontent, hcatalog,
    ((parse_printedText hunique).2 _ Disk.host disk).1 .plain (some "a") hcatalog⟩

end Catalog
end ExactlyOne
