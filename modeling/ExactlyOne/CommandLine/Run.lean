import ExactlyOne.Catalog.Reader
import ExactlyOne.CommandLine.Command
import ExactlyOne.CommandLine.Input
import ExactlyOne.Log
import ExactlyOne.Report

/-!
Running a command.

A run reads a catalog and the files of its inputs, checks every document in them, and prints a
report or writes it to a file. `Outcome.status` is zero only if there was nothing to report.
-/

namespace ExactlyOne

inductive CatalogError where
  | unreadable (error : OsError)
  | malformed (bytes : List UInt8) (failure : Catalog.Failure)

def CatalogError.message (file : String) : CatalogError → String
  | .unreadable error => "failed to read catalog " ++ file ++ ": " ++ error.message
  | .malformed bytes failure => failure.message bytes

def CatalogError.cause : CatalogError → Option OsError
  | .unreadable error => some error
  | .malformed .. => none

inductive RunError where
  | catalog (file : String) (error : CatalogError)
  | resolution (error : ResolutionError)
  | output (error : OsError)

def RunError.message : RunError → String
  | .catalog file error =>
    "failed to load catalog " ++ file ++ ": " ++ error.message file ++
      String.join (error.cause.toList.map fun e => ": " ++ e.message)
  | .resolution error => error.message
  | .output error => error.message

inductive Ending where
  | clean
  | findings
  | failed (error : RunError)

/-- What a run leaves behind, files apart. -/
structure Outcome where
  printed : String
  events : List Log.Event
  ending : Ending

namespace Outcome

def status (outcome : Outcome) : Nat :=
  match outcome.ending with
  | .clean => 0
  | .findings => 1
  | .failed _ => 2

def failure? (outcome : Outcome) : Option String :=
  match outcome.ending with
  | .failed error => some error.message
  | _ => none

def logText (palette : Palette) (verbose : Bool) (outcome : Outcome) : String :=
  Log.text (if verbose then .debug else .info) outcome.events ++
    match outcome.failure? with
    | some message => palette.paint .boldRed "error:" ++ " " ++ message ++ "\n"
    | none => ""

def failed (events : List Log.Event) (error : RunError) : Outcome := ⟨"", events, .failed error⟩

def after (events : List Log.Event) (outcome : Outcome) : Outcome :=
  { outcome with events := events ++ outcome.events }

end Outcome

/-! ## Checking -/

/-- The names of the documents in a file: numbered if there is more than one. -/
def documentSources (file : String) (documents : List Json) : List String :=
  if documents.length ≤ 1 then documents.map fun _ => file
  else (List.range documents.length).map fun n => file ++ "#" ++ toString n

def walkEvent (source : String) : Log.Event :=
  ⟨.debug, "walking document", [("source", .plain source)]⟩

def checkFile (language : Filter.Language) (limits : Limits) (catalog : Catalog)
    (selection : Selection) (file : String) (content : Except OsError (List UInt8)) :
    List DocumentReport × List Log.Event :=
  match content.mapError InputError.unreadable >>= selection.documents language with
  | .error error => ([.failed file (error.message file)], [])
  | .ok documents =>
    let named := (documentSources file documents).zip documents
    (named.map fun (source, document) =>
        .ofFindings source (Template.findings limits catalog document),
      named.flatMap fun (source, document) =>
        walkEvent source :: (Template.visits catalog document).map (Visit.event catalog))

def checkFiles (language : Filter.Language) (limits : Limits) (catalog : Catalog)
    (selection : Selection) (files : List (String × Except OsError (List UInt8))) :
    Report × List Log.Event :=
  let checked := files.map fun (file, content) =>
    checkFile language limits catalog selection file content
  (⟨checked.flatMap Prod.fst⟩, checked.flatMap Prod.snd)

def Report.render (report : Report) (palette : Palette) : ReportFormat → String
  | .text => report.text palette
  | .json => report.toJson.pretty

def Report.ending (report : Report) : Ending := if report.hasFindings then .findings else .clean

/-! ## Commands -/

section

variable {m : Type → Type} [Monad m] (host : Host m)

def Catalog.load (file : String) : m (Except CatalogError Catalog) := do
  match ← host.read file with
  | .error error => pure (.error (.unreadable error))
  | .ok bytes => pure ((Catalog.parseBytes bytes).mapError (.malformed bytes))

def loadEvent (file : String) (catalog : Catalog) : Log.Event :=
  ⟨.debug, "loaded catalog", [("path", .plain file),
    ("resource_types", .count catalog.resourceTypes.length),
    ("property_types", .count catalog.propertyTypes.length)]⟩

/-- Goes on with the catalog of a file, or with the bundled one. -/
def withCatalog (file : Option String) (next : Catalog → m Outcome) : m Outcome :=
  match file with
  | none => next .bundled
  | some file => do
    match ← Catalog.load host file with
    | .error error => pure (.failed [] (.catalog file error))
    | .ok catalog => do pure ((← next catalog).after [loadEvent file catalog])

def countEvent (files : List String) : Log.Event :=
  ⟨.info, "checking", [("files", .count files.length)]⟩

def deliver (out : Option String) (rendered : String) (events : List Log.Event)
    (ending : Ending) : m Outcome := do
  match out with
  | none => pure ⟨rendered ++ "\n", events, ending⟩
  | some path =>
    match ← host.write path rendered with
    | .ok () => pure ⟨"", events, ending⟩
    | .error error => pure (.failed events (.output error))

def runCheck (tools : Tools m) (palette : Palette) (options : CheckOptions) : m Outcome :=
  withCatalog host options.catalog fun catalog => do
    match ← resolveInputs tools options.inputs with
    | .error error => pure (.failed [] (.resolution error))
    | .ok files => do
      let contents ← files.mapM fun file => do pure (file, ← host.read file)
      let (report, events) :=
        checkFiles tools.language options.limits catalog ⟨options.pointer, options.filter⟩ contents
      deliver host options.out (report.render palette options.format)
        (countEvent files :: events) report.ending

/-- The groups of a type, those of a nested property first; all groups if no type is given. -/
def catalogAnswer (catalog : Catalog) : Option String → Json
  | none => catalog.toJson
  | some type =>
    Catalog.groupsToJson
      (if catalog.hasPropertyType type then catalog.propertyGroups type
        else catalog.resourceGroups type)

def runCatalog (options : CatalogOptions) : m Outcome :=
  withCatalog host options.catalog fun catalog =>
    deliver host none (catalogAnswer catalog options.type).pretty [] .clean

def Command.runWith (tools : Tools m) (palette : Palette) : Command → m Outcome
  | .check options =>
    if options.noOp then pure ⟨"", [], .clean⟩ else runCheck host tools palette options
  | .catalog options => runCatalog host options

/-- A run with the tools of the program. -/
def Command.run (palette : Palette) : Command → m Outcome :=
  Command.runWith host (.own host) palette

end

end ExactlyOne
