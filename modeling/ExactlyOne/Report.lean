import ExactlyOne.Finding
import ExactlyOne.Json.Printer
import ExactlyOne.Text.Style

/-!
Reports: the findings of a run, document by document, for people and for programs.

The text has a line for each entry and ends with a summary. A document that could not be read has
one entry, and its findings, if it has any, are not shown.
-/

namespace ExactlyOne

structure DocumentReport where
  source : String
  findings : List Finding
  error : Option String
  deriving DecidableEq, Repr

namespace DocumentReport

def ofFindings (source : String) (findings : List Finding) : DocumentReport :=
  ⟨source, findings, none⟩

def failed (source error : String) : DocumentReport := ⟨source, [], some error⟩

def toJson (report : DocumentReport) : Json :=
  .object ([("source", .text report.source),
    ("findings", .array (report.findings.map Finding.toJson))] ++
    (report.error.map fun e => ("error", Json.text e)).toList)

end DocumentReport

inductive ReportEntry where
  | failed (source error : String)
  | finding (source : String) (finding : Finding)
  deriving DecidableEq, Repr

structure Report where
  documents : List DocumentReport
  deriving DecidableEq, Repr

def Finding.label : Finding → String
  | .violation _ => "only-one"
  | .obstacle (.structural ..) => "structure"
  | .obstacle (.limit ..) => "limit"

def Finding.labelStyle : Finding → Style
  | .violation _ => .boldRed
  | .obstacle _ => .boldYellow

def ReportEntry.line (palette : Palette) : ReportEntry → String
  | .failed source error =>
    palette.paint .bold source ++ ": " ++ palette.paint .boldRed "failed" ++ " " ++ error
  | .finding source f =>
    palette.paint .bold source ++ ":" ++ palette.paint .dimmed f.location.text ++ " " ++
      palette.paint f.labelStyle f.label ++ " " ++ f.message

def DocumentReport.entries (report : DocumentReport) : List ReportEntry :=
  match report.error with
  | some error => [.failed report.source error]
  | none => report.findings.map (.finding report.source)

namespace Report

def findings (report : Report) : List Finding := report.documents.flatMap (·.findings)

def violationCount (report : Report) : Nat := report.findings.countP Finding.isViolation

def obstacleCount (report : Report) : Nat := report.findings.countP (!·.isViolation)

def failedCount (report : Report) : Nat := report.documents.countP (·.error.isSome)

def hasFindings (report : Report) : Bool := !report.findings.isEmpty || 0 < report.failedCount

def summary (report : Report) : String :=
  let files := toString report.documents.length ++ " file(s) checked"
  if report.hasFindings then
    files ++ ": " ++ toString report.violationCount ++ " violation(s), " ++
      toString report.obstacleCount ++ " error(s), " ++ toString report.failedCount ++
      " unreadable file(s)"
  else files ++ ", no findings."

def entries (report : Report) : List ReportEntry := report.documents.flatMap (·.entries)

def text (palette : Palette) (report : Report) : String :=
  String.join (report.entries.map fun entry => entry.line palette ++ "\n") ++ report.summary

def toJson (report : Report) : Json :=
  .object [("files", .array (report.documents.map DocumentReport.toJson))]

end Report

end ExactlyOne
