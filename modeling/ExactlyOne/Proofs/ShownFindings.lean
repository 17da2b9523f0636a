import ExactlyOne.Proofs.CleanRun

/-!
# What the text of a report shows of what its summary counts

The text and the counts go over the documents on their own. A document that could not be read shows
that and nothing else, while the counts take in its findings too; so the text shows all that is
counted just if no such document has findings. In the report of a run none has.
-/
namespace ExactlyOne

/-! ## Labels -/

namespace ReportEntry

def label : ReportEntry → String
  | .failed .. => "failed"
  | .finding _ f => f.label

def isOnlyOne (entry : ReportEntry) : Bool := entry.label = "only-one"

def isObstacle (entry : ReportEntry) : Bool := entry.label = "structure" ∨ entry.label = "limit"

def isFailed (entry : ReportEntry) : Bool := entry.label = "failed"

theorem isOnlyOne_finding (source : String) (f : Finding) :
    isOnlyOne (.finding source f) = f.isViolation := by
  rcases f with v | _ | _ <;> rfl

theorem isObstacle_finding (source : String) (f : Finding) :
    isObstacle (.finding source f) = !f.isViolation := by
  rcases f with v | _ | _ <;> rfl

theorem isFailed_finding (source : String) (f : Finding) :
    isFailed (.finding source f) = false := by
  rcases f with v | _ | _ <;> rfl

theorem exists_label_in_line (palette : Palette) (entry : ReportEntry) :
    ∃ style front back,
      entry.line palette = front ++ palette.paint style entry.label ++ back := by
  rcases entry with ⟨source, error⟩ | ⟨source, f⟩
  · refine ⟨.boldRed, palette.paint .bold source ++ ": ", " " ++ error, ?_⟩
    simp only [line, label, String.append_assoc]
  · refine ⟨f.labelStyle, palette.paint .bold source ++ ":" ++
      palette.paint .dimmed f.location.text ++ " ", " " ++ f.message, ?_⟩
    simp only [line, label, String.append_assoc]

/-- A line has one label, so all lines are counted by the three sorts of labels. -/
theorem length_eq_countP_labels (entries : List ReportEntry) :
    entries.length =
      entries.countP isOnlyOne + entries.countP isObstacle + entries.countP isFailed := by
  induction entries with
  | nil => rfl
  | cons entry rest ih =>
    have hone : (if isOnlyOne entry then 1 else 0) + (if isObstacle entry then 1 else 0) +
        (if isFailed entry then 1 else 0) = 1 := by
      rcases entry with _ | ⟨_, _ | _ | _⟩ <;> rfl
    rw [List.length_cons, List.countP_cons, List.countP_cons, List.countP_cons, ih]
    omega

end ReportEntry

open ReportEntry

/-! ## One document -/

namespace DocumentReport

variable (d : DocumentReport)

/-- The lines for all that is counted of a document: that it could not be read, and each finding. -/
def countedEntries : List ReportEntry :=
  (d.error.map (ReportEntry.failed d.source)).toList ++
    d.findings.map (ReportEntry.finding d.source)

/-- If the document could not be read it has no findings. -/
def Separate : Prop := d.error.isSome = true → d.findings = []

theorem entries_sublist : d.entries.Sublist d.countedEntries := by
  unfold entries countedEntries
  cases d.error with
  | none => exact List.Sublist.refl _
  | some error => exact List.sublist_append_left ..

theorem entries_eq_iff : d.entries = d.countedEntries ↔ d.Separate := by
  unfold entries countedEntries Separate
  cases d.error with
  | none => simp
  | some error =>
    simp only [Option.map_some, Option.toList_some, Option.isSome_some, forall_const]
    exact List.self_eq_append_right.trans List.map_eq_nil_iff

theorem countP_countedEntries {p : ReportEntry → Bool} {q : Finding → Bool}
    (hf : ∀ source f, p (.finding source f) = q f)
    (he : ∀ source error, p (.failed source error) = false) :
    d.countedEntries.countP p = d.findings.countP q := by
  have hmap : p ∘ ReportEntry.finding d.source = q := funext (hf d.source)
  rw [countedEntries, List.countP_append, List.countP_map, hmap]
  cases d.error <;> simp [he]

theorem countP_isFailed : d.countedEntries.countP isFailed = if d.error.isSome then 1 else 0 := by
  have hmap : isFailed ∘ ReportEntry.finding d.source = fun _ => false :=
    funext (isFailed_finding d.source)
  rw [countedEntries, List.countP_append, List.countP_map, hmap]
  cases d.error <;> simp [isFailed, label]

theorem countP_isFailed_entries : d.entries.countP isFailed = d.countedEntries.countP isFailed := by
  rw [countP_isFailed]
  have hmap : isFailed ∘ ReportEntry.finding d.source = fun _ => false :=
    funext (isFailed_finding d.source)
  unfold entries
  cases d.error <;> simp [List.countP_map, hmap, isFailed, label]

end DocumentReport

/-! ## All documents -/

namespace Report

variable (report : Report)

def countedEntries : List ReportEntry := report.documents.flatMap (·.countedEntries)

theorem countP_countedEntries {p : ReportEntry → Bool} {q : Finding → Bool}
    (hf : ∀ source f, p (.finding source f) = q f)
    (he : ∀ source error, p (.failed source error) = false) :
    report.countedEntries.countP p = report.findings.countP q := by
  unfold countedEntries findings
  rw [List.countP_flatMap, List.countP_flatMap]
  congr 2
  funext d
  exact d.countP_countedEntries hf he

theorem countP_isFailed : report.countedEntries.countP isFailed = report.failedCount := by
  unfold countedEntries failedCount
  induction report.documents with
  | nil => rfl
  | cons d rest ih =>
    rw [List.flatMap_cons, List.countP_append, List.countP_cons, d.countP_isFailed, ih,
      Nat.add_comm]

theorem countP_isFailed_entries : report.entries.countP isFailed = report.failedCount := by
  rw [← countP_isFailed, entries, countedEntries, List.countP_flatMap, List.countP_flatMap]
  congr 2
  funext d
  exact d.countP_isFailed_entries

theorem length_countedEntries : report.countedEntries.length =
    report.violationCount + report.obstacleCount + report.failedCount := by
  have hone := report.countP_countedEntries isOnlyOne_finding fun _ _ => rfl
  have hobstacle := report.countP_countedEntries isObstacle_finding fun _ _ => rfl
  rw [length_eq_countP_labels, hone, hobstacle, countP_isFailed]
  rfl

/-- Nothing is shown that is not counted, and it is shown in the order of the documents and of
their findings. -/
theorem entries_sublist : report.entries.Sublist report.countedEntries := by
  unfold entries countedEntries
  induction report.documents with
  | nil => exact List.Sublist.refl _
  | cons d rest ih => exact d.entries_sublist.append ih

theorem entries_eq_iff :
    report.entries = report.countedEntries ↔ ∀ d ∈ report.documents, d.Separate := by
  constructor
  · intro h
    obtain ⟨documents⟩ := report
    induction documents with
    | nil => simp
    | cons d rest ih =>
      -- each part is at most as long as what is counted of it, and together they are as long
      have hlen : d.entries.length = d.countedEntries.length := by
        have hboth := congrArg List.length h
        have hd := d.entries_sublist.length_le
        have hrest := (entries_sublist ⟨rest⟩).length_le
        simp only [entries, countedEntries, List.flatMap_cons, List.length_append] at hboth hrest
        omega
      obtain ⟨hsame, hlater⟩ := List.append_inj h hlen
      exact List.forall_mem_cons.mpr ⟨d.entries_eq_iff.mp hsame, ih hlater⟩
  · intro h
    exact List.flatMap_congr fun d hd => d.entries_eq_iff.mpr (h d hd)

/-- There are as many lines with each label as the summary says. -/
structure ShowsCounts : Prop where
  violations : report.entries.countP isOnlyOne = report.violationCount
  obstacles : report.entries.countP isObstacle = report.obstacleCount
  failed : report.entries.countP isFailed = report.failedCount

theorem showsCounts_iff : report.ShowsCounts ↔ report.entries = report.countedEntries := by
  constructor
  · intro h
    refine report.entries_sublist.eq_of_length ?_
    rw [length_eq_countP_labels, h.violations, h.obstacles, h.failed, length_countedEntries]
  · intro h
    constructor
    · rw [h, report.countP_countedEntries isOnlyOne_finding fun _ _ => rfl]
      rfl
    · rw [h, report.countP_countedEntries isObstacle_finding fun _ _ => rfl]
      rfl
    · exact report.countP_isFailed_entries

theorem entries_eq_nil_iff : report.entries = [] ↔ report.hasFindings = false := by
  rw [hasFindings_eq_false_iff, entries, List.flatMap_eq_nil_iff]
  refine forall₂_congr fun d _ => ?_
  unfold DocumentReport.entries
  cases d.error <;> simp

theorem checkFile_separate (language : Filter.Language) (limits : Limits) (catalog : Catalog)
    (selection : Selection) (file : String) (content : Except OsError (List UInt8)) :
    ∀ d ∈ (checkFile language limits catalog selection file content).1, d.Separate := by
  unfold checkFile
  split
  next error _ =>
    intro d hd
    obtain rfl := List.mem_singleton.mp hd
    exact fun _ => rfl
  next documents _ =>
    intro d hd herror
    obtain ⟨named, -, rfl⟩ := List.mem_map.mp hd
    cases herror

/-- The report of a run shows all that it counts. -/
theorem checkFiles_showsCounts (language : Filter.Language) (limits : Limits) (catalog : Catalog)
    (selection : Selection) (files : List (String × Except OsError (List UInt8))) :
    (checkFiles language limits catalog selection files).1.ShowsCounts := by
  refine (showsCounts_iff _).mpr ((entries_eq_iff _).mpr fun d hd => ?_)
  simp only [checkFiles, List.mem_flatMap, List.mem_map] at hd
  obtain ⟨_, ⟨⟨file, content⟩, -, rfl⟩, hd⟩ := hd
  exact checkFile_separate language limits catalog selection file content d hd

theorem summary_of_hasFindings (h : report.hasFindings = true) :
    report.summary = toString report.documents.length ++ " file(s) checked: " ++
      toString report.violationCount ++ " violation(s), " ++ toString report.obstacleCount ++
      " error(s), " ++ toString report.failedCount ++ " unreadable file(s)" := by
  have hcolon : " file(s) checked: " = " file(s) checked" ++ ": " := rfl
  simp only [summary, h, if_true, hcolon, String.append_assoc]

/-- The text has its lines in the order of the documents and of their findings, with the summary
behind them, and none just if there is nothing to tell. It shows all that is counted, each in its
place and as often as the summary says, just if no document that could not be read has findings. -/
theorem text_shows_counts_iff (palette : Palette) :
    report.text palette =
      String.join (report.entries.map fun entry => entry.line palette ++ "\n") ++ report.summary ∧
    (report.hasFindings = true →
      report.summary = toString report.documents.length ++ " file(s) checked: " ++
        toString report.violationCount ++ " violation(s), " ++ toString report.obstacleCount ++
        " error(s), " ++ toString report.failedCount ++ " unreadable file(s)") ∧
    (∀ entry ∈ report.entries, ∃ style front back,
      entry.line palette = front ++ palette.paint style entry.label ++ back) ∧
    report.entries.Sublist report.countedEntries ∧
    report.entries.countP isFailed = report.failedCount ∧
    (report.entries = [] ↔ report.hasFindings = false) ∧
    (report.entries = report.countedEntries ↔ ∀ d ∈ report.documents, d.Separate) ∧
    (report.ShowsCounts ↔ ∀ d ∈ report.documents, d.Separate) :=
  ⟨rfl, report.summary_of_hasFindings, fun entry _ => entry.exists_label_in_line palette,
    report.entries_sublist, report.countP_isFailed_entries,
    report.entries_eq_nil_iff, report.entries_eq_iff,
    report.showsCounts_iff.trans report.entries_eq_iff⟩

/-- A document that could not be read and was checked all the same: of its one violation the summary
tells and the lines do not. -/
theorem exists_violation_not_shown :
    let report : Report :=
      ⟨[⟨"a.json", (Property.object []).check {} .root [["A", "B"]], some "boom"⟩]⟩
    report.violationCount = 1 ∧ report.entries.countP isOnlyOne = 0 ∧
    report.text .plain = "a.json: failed boom\n" ++
      "1 file(s) checked: 1 violation(s), 0 error(s), 1 unreadable file(s)" := by
  decide +kernel

end Report

end ExactlyOne
