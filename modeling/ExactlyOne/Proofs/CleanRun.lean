import ExactlyOne.CommandLine.Run
import ExactlyOne.Proofs.Expansion
import ExactlyOne.Proofs.Observation

/-!
# When a check has nothing to tell

The status of a check is zero just if the catalog and all files could be read, the pointer and the
filter succeeded on every file, no document has a finding and the report was delivered. Each input
names a file, but a filter without outputs leaves no document of it. This is so however files are
found for patterns and whatever language the filters are written in.
-/
namespace ExactlyOne

variable {World : Type} {host : Host (StateM World)} {tools : Tools (StateM World)}
  {language : Filter.Language} {limits : Limits} {catalog : Catalog} {options : CheckOptions}

/-! ## Documents -/

theorem mapError_eq_ok_iff {ε ε' α : Type} {x : Except ε α} {f : ε → ε'} {a : α} :
    x.mapError f = .ok a ↔ x = .ok a := by
  cases x <;> simp [Except.mapError]

/-- From the content of a file to the value that a pointer leads to. -/
def Selection.Reads (selection : Selection) (bytes : List UInt8) (target : Json) : Prop :=
  (ofUtf8? bytes).isSome = true ∧
    ∃ value, Json.parseBytes bytes = .ok value ∧ selection.point value = .ok target

theorem Selection.documents_eq_ok_iff {selection : Selection} {bytes : List UInt8}
    {documents : List Json} :
    selection.documents language bytes = .ok documents ↔
      ∃ target, selection.Reads bytes target ∧ selection.apply language target = .ok documents := by
  unfold Selection.documents Selection.Reads
  cases hu : ofUtf8? bytes with
  | none =>
    simp only [Option.isNone_none, if_true, Option.isSome_none, Bool.false_eq_true, false_and,
      exists_false, iff_false]
    intro h
    cases h
  | some text =>
    simp only [Option.isNone_some, Bool.false_eq_true, if_false, Option.isSome_some, true_and]
    constructor
    · intro h
      obtain ⟨value, hv, h⟩ := bind_eq_ok.mp h
      obtain ⟨target, ht, hd⟩ := bind_eq_ok.mp h
      exact ⟨target, ⟨value, mapError_eq_ok_iff.mp hv, ht⟩, hd⟩
    · rintro ⟨target, ⟨value, hv, ht⟩, hd⟩
      refine bind_eq_ok.mpr ⟨value, mapError_eq_ok_iff.mpr hv, ?_⟩
      exact bind_eq_ok.mpr ⟨target, ht, hd⟩

/-- A filter gives some documents just if these are all of its outputs, none of them an error. -/
theorem Filter.Language.run_eq_ok_iff {source : String} {input : Json} {documents : List Json} :
    language.run source input = .ok documents ↔
      ∃ outputs, language.compile source = .ok outputs ∧
        outputs input = documents.map .ok := by
  have houtputs : ∀ outputs : List (Except String Json),
      (outputs.mapM fun output => output.mapError Fault.evaluation) = .ok documents ↔
        outputs = documents.map .ok := by
    intro outputs
    rw [mapM_eq_ok_iff, ← List.forall₂_eq_eq_eq, List.forall₂_map_right_iff]
    simp only [mapError_eq_ok_iff]
  simp only [Filter.Language.run, bind_eq_ok, houtputs]

theorem Selection.eq_nil_iff_of_apply {selection : Selection} {target : Json}
    {documents : List Json} (h : selection.apply language target = .ok documents) :
    documents = [] ↔
      ∃ source outputs, selection.filter = some source ∧
        language.compile source = .ok outputs ∧ outputs target = [] := by
  unfold Selection.apply at h
  cases hf : selection.filter with
  | none =>
    rw [hf] at h
    obtain rfl := Except.ok.inj h
    simp
  | some source =>
    simp only [hf] at h
    obtain ⟨outputs, hcompile, houtputs⟩ :=
      Filter.Language.run_eq_ok_iff.mp (mapError_eq_ok_iff.mp h)
    simp [hcompile, houtputs]

/-! ## Reports -/

theorem Report.hasFindings_eq_false_iff {report : Report} :
    report.hasFindings = false ↔
      ∀ document ∈ report.documents, document.findings = [] ∧ document.error = none := by
  unfold Report.hasFindings Report.findings Report.failedCount
  simp only [Bool.or_eq_false_iff, Bool.not_eq_false', List.isEmpty_iff, List.flatMap_eq_nil_iff,
    decide_eq_false_iff_not, Nat.not_lt, Nat.le_zero, List.countP_eq_zero,
    Option.not_isSome_iff_eq_none, ← forall₂_and]

theorem length_documentSources (file : String) (documents : List Json) :
    (documentSources file documents).length = documents.length := by
  unfold documentSources
  split <;> simp

theorem loaded_eq_ok_iff {selection : Selection} {content : Except OsError (List UInt8)}
    {documents : List Json} :
    content.mapError InputError.unreadable >>= selection.documents language = .ok documents ↔
      ∃ bytes, content = .ok bytes ∧ selection.documents language bytes = .ok documents := by
  simp only [bind_eq_ok, mapError_eq_ok_iff]

/-- What a file gives is clean just if it could be read and its documents have no findings. -/
theorem checkFile_clean_iff {selection : Selection} (file : String)
    {content : Except OsError (List UInt8)} :
    (∀ report ∈ (checkFile language limits catalog selection file content).1,
        report.findings = [] ∧ report.error = none) ↔
      ∃ bytes documents, content = .ok bytes ∧ selection.documents language bytes = .ok documents ∧
        ∀ document ∈ documents, Template.findings limits catalog document = [] := by
  unfold checkFile
  split
  next error he =>
    constructor
    · intro hclean
      have hnone := (hclean _ List.mem_cons_self).2
      cases hnone
    · rintro ⟨bytes, documents, hc, hd, -⟩
      cases he.symm.trans (loaded_eq_ok_iff.mpr ⟨bytes, hc, hd⟩)
  next documents he =>
    obtain ⟨bytes, hc, hd⟩ := loaded_eq_ok_iff.mp he
    have hzip := List.map_snd_zip (Nat.le_of_eq (length_documentSources file documents).symm)
    constructor
    · intro hclean
      refine ⟨bytes, documents, hc, hd, fun document hm => ?_⟩
      rw [← hzip] at hm
      obtain ⟨⟨source, document⟩, hpair, rfl⟩ := List.mem_map.mp hm
      exact (hclean _ (List.mem_map_of_mem hpair)).1
    · rintro ⟨bytes', documents', hc', hd', hnone⟩ report hm
      obtain ⟨⟨source, document⟩, hpair, rfl⟩ := List.mem_map.mp hm
      obtain rfl := Except.ok.inj (hc.symm.trans hc')
      obtain rfl := Except.ok.inj (hd.symm.trans hd')
      exact ⟨hnone document (List.of_mem_zip hpair).2, rfl⟩

/-! ## One run in one world -/

def contentOf (host : Host (StateM World)) (w : World) (file : String) :
    Except OsError (List UInt8) :=
  ((host.read file).run w).1

def catalogOf (host : Host (StateM World)) (w : World) : Option String →
    Except CatalogError Catalog
  | none => .ok .bundled
  | some file => ((Catalog.load host file).run w).1

theorem catalogOf_of_content {w : World} {file : String} {bytes : List UInt8}
    (hcontent : contentOf host w file = .ok bytes)
    (hparse : Catalog.parseBytes bytes = .ok catalog) :
    catalogOf host w (some file) = .ok catalog := by
  rw [contentOf] at hcontent
  simp only [catalogOf, Catalog.load, run_bind_eq, hcontent]
  rw [hparse]
  rfl

def CheckOptions.selection (options : CheckOptions) : Selection :=
  ⟨options.pointer, options.filter⟩

def reportOn (host : Host (StateM World)) (language : Filter.Language) (w : World)
    (options : CheckOptions) (catalog : Catalog) (files : List String) : Report :=
  (checkFiles language options.limits catalog options.selection
    (files.map fun file => (file, contentOf host w file))).1

/-- Where the output is a file, it can be written. -/
def Delivered (host : Host (StateM World)) (w : World) (out : Option String) (rendered : String) :
    Prop :=
  ∀ path, out = some path → ((host.write path rendered).run w).1 = .ok ()

theorem Outcome.status_eq_zero_iff {outcome : Outcome} :
    outcome.status = 0 ↔ outcome.ending = .clean := by
  unfold Outcome.status
  split <;> simp [*]

theorem Report.ending_eq_clean_iff {report : Report} :
    report.ending = .clean ↔ report.hasFindings = false := by
  unfold Report.ending
  cases report.hasFindings <;> simp

theorem deliver_status_iff {out : Option String} {rendered : String} {events : List Log.Event}
    {ending : Ending} {w : World} :
    ((deliver host out rendered events ending).run w).1.status = 0 ↔
      ending = .clean ∧ Delivered host w out rendered := by
  unfold deliver Delivered
  cases out with
  | none =>
    simp only [run_pure_eq, Outcome.status_eq_zero_iff]
    simp
  | some path =>
    simp only [run_bind_eq, Option.some.injEq, forall_eq']
    cases hw : ((host.write path rendered).run w).1 with
    | ok done =>
      simp only [run_pure_eq, Outcome.status_eq_zero_iff]
      simp
    | error error =>
      simp only [run_pure_eq, Outcome.status_eq_zero_iff, Outcome.failed]
      simp

theorem withCatalog_status_iff (h : ∀ path, Observing (host.read path)) {file : Option String}
    {next : Catalog → StateM World Outcome} {w : World} :
    ((withCatalog host file next).run w).1.status = 0 ↔
      ∃ catalog, catalogOf host w file = .ok catalog ∧ ((next catalog).run w).1.status = 0 := by
  cases file with
  | none =>
    change ((next .bundled).run w).1.status = 0 ↔ _
    simp [catalogOf]
  | some file =>
    have hload : Observing (Catalog.load host file) := by
      refine (h file).bind fun content => ?_
      cases content <;> exact .pure _
    unfold withCatalog catalogOf
    simp only [hload.run_bind]
    cases ((Catalog.load host file).run w).1 with
    | error error =>
      simp only [run_pure_eq, Outcome.status_eq_zero_iff, Outcome.failed]
      simp
    | ok catalog =>
      -- The event of the loading is put in front, and the ending stays.
      have hafter : ∀ outcome : Outcome,
          (outcome.after [loadEvent file catalog]).status = outcome.status := fun _ => rfl
      simp only [run_bind_eq, run_pure_eq, hafter, Except.ok.injEq, exists_eq_left']

theorem run_contents (h : ∀ path, Observing (host.read path)) (files : List String) (w : World) :
    (files.mapM fun file => do pure (file, ← host.read file) : StateM World _).run w =
      (files.map fun file => (file, contentOf host w file), w) := by
  induction files with
  | nil => rfl
  | cons file rest ih =>
    have hread : Observing (do pure (file, ← host.read file)) :=
      (h file).bind fun _ => .pure _
    rw [List.mapM_cons, hread.run_bind, run_bind_eq, ih]
    rfl

theorem runCheck_status_iff (hread : ∀ path, Observing (host.read path)) (htools : tools.Observes)
    (palette : Palette) (w : World) :
    ((runCheck host tools palette options).run w).1.status = 0 ↔
      ∃ catalog files, catalogOf host w options.catalog = .ok catalog ∧
        ((resolveInputs tools options.inputs).run w).1 = .ok files ∧
        (reportOn host tools.language w options catalog files).hasFindings = false ∧
        Delivered host w options.out
          ((reportOn host tools.language w options catalog files).render palette
            options.format) := by
  unfold runCheck
  simp only [withCatalog_status_iff hread, (observing_resolveInputs htools _).run_bind]
  cases ((resolveInputs tools options.inputs).run w).1 with
  | error error =>
    simp only [run_pure_eq, Outcome.status_eq_zero_iff, Outcome.failed]
    simp
  | ok files =>
    simp only [run_bind_eq, run_contents hread, deliver_status_iff, Report.ending_eq_clean_iff,
      Except.ok.injEq, exists_and_left, exists_eq_left']
    rfl

theorem reportOn_clean_iff {w : World} {files : List String} :
    (reportOn host language w options catalog files).hasFindings = false ↔
      ∀ file ∈ files, ∃ bytes documents, contentOf host w file = .ok bytes ∧
        options.selection.documents language bytes = .ok documents ∧
        ∀ document ∈ documents, Template.findings options.limits catalog document = [] := by
  rw [Report.hasFindings_eq_false_iff]
  constructor
  · intro hclean file hf
    refine (checkFile_clean_iff file).mp fun report hr => ?_
    have hm : report ∈ (reportOn host language w options catalog files).documents := by
      simp only [reportOn, checkFiles, List.map_map, List.mem_flatMap, List.mem_map]
      exact ⟨_, ⟨file, hf, rfl⟩, hr⟩
    exact hclean report hm
  · intro hclean report hm
    simp only [reportOn, checkFiles, List.map_map, List.mem_flatMap, List.mem_map] at hm
    obtain ⟨_, ⟨file, hf, rfl⟩, hr⟩ := hm
    exact (checkFile_clean_iff file).mpr (hclean file hf) report hr

/-- With any tools for patterns and filters, a check ends with nothing to tell just if it has a
catalog, every input names files, every file has been read up to its documents, none of which has a
finding, and the report is delivered. A file has no documents just if the filter has no outputs for
it: nothing is told of it then. -/
theorem check_status_zero_iff (hread : ∀ path, Observing (host.read path))
    (htools : tools.Observes) (hn : options.noOp = false) (palette : Palette) (w : World) :
    (((Command.check options).runWith host tools palette).run w).1.status = 0 ↔
      ∃ catalog resolved, catalogOf host w options.catalog = .ok catalog ∧
        List.Forall₂ (fun input files => filesOf tools w input = .ok files ∧ files ≠ [])
          options.inputs resolved ∧
        (∀ file ∈ resolved.flatten, ∃ bytes target documents, contentOf host w file = .ok bytes ∧
          options.selection.Reads bytes target ∧
          options.selection.apply tools.language target = .ok documents ∧
          (documents = [] ↔
            ∃ source outputs, options.filter = some source ∧
              tools.language.compile source = .ok outputs ∧ outputs target = []) ∧
          ∀ document ∈ documents, Template.findings options.limits catalog document = []) ∧
        Delivered host w options.out
          ((reportOn host tools.language w options catalog resolved.flatten).render palette
            options.format) := by
  have hrun : (Command.check options).runWith host tools palette =
      runCheck host tools palette options := by
    simp [Command.runWith, hn]
  rw [hrun, runCheck_status_iff hread htools]
  constructor
  · rintro ⟨catalog, files, hcatalog, hfiles, hclean, hout⟩
    obtain ⟨resolved, hr, rfl⟩ := (resolveInputs_eq_ok_iff htools).mp hfiles
    refine ⟨catalog, resolved, hcatalog, hr.imp ?_, ?_, hout⟩
    · intro input files hf
      exact ⟨hf, filesOf_ne_nil htools hf⟩
    · intro file hm
      obtain ⟨bytes, documents, hc, hd, hnone⟩ := reportOn_clean_iff.mp hclean file hm
      obtain ⟨target, hreads, happly⟩ := Selection.documents_eq_ok_iff.mp hd
      exact ⟨bytes, target, documents, hc, hreads, happly, Selection.eq_nil_iff_of_apply happly,
        hnone⟩
  · rintro ⟨catalog, resolved, hcatalog, hr, hfiles, hout⟩
    have hresolved :=
      (resolveInputs_eq_ok_iff htools).mpr ⟨resolved, hr.imp fun _ _ => And.left, rfl⟩
    refine ⟨catalog, resolved.flatten, hcatalog, hresolved, reportOn_clean_iff.mpr ?_, hout⟩
    intro file hm
    obtain ⟨bytes, target, documents, hc, hreads, happly, -, hnone⟩ := hfiles file hm
    exact ⟨bytes, documents, hc, Selection.documents_eq_ok_iff.mpr ⟨target, hreads, happly⟩, hnone⟩

/-! ## A disk with one file -/

namespace Disk

def withFile (content : List UInt8) : Disk := ⟨.directory [("a", .file content)], []⟩

theorem components_file : components "a" = ["a"] := by
  have hsplit : "a".splitOn "/" = ["a"] := by
    rw [String.splitOn, if_neg (by decide), String.splitOnAux, if_neg (by decide +kernel),
      if_neg (by decide +kernel), String.splitOnAux, if_pos (by decide +kernel)]
    decide +kernel
  rw [components, hsplit]
  decide

theorem read_withFile (content : List UInt8) : (withFile content).read "a" = .ok content := by
  have hstart : (withFile content).start "a" = [] := by
    rw [start, if_neg (by decide +kernel)]
    rfl
  have hend : "a".endsWith "/" = false := by decide +kernel
  rw [read, resolve, components_file, hstart, hend]
  rfl

theorem contentOf_withFile (content : List UInt8) :
    contentOf Disk.host (withFile content) "a" = .ok content := read_withFile content

theorem filesOf_withFile (content : List UInt8) :
    filesOf (.own Disk.host) (withFile content) "a" = .ok ["a"] := rfl

end Disk

def checkOfFile (filter : Option String) : CheckOptions where
  inputs := ["a"]
  pointer := none
  filter := filter
  catalog := none
  limits := {}
  format := .text
  out := none
  noOp := false

def emptyObject : List UInt8 := [123, 125]

/-- The file is read and checked as what the filter takes from it, which is all of it. -/
theorem emptyObject_status_zero :
    (∀ path, Observing (Disk.host.read path)) ∧ (Tools.own Disk.host).Observes ∧
    (checkOfFile (some ".")).noOp = false ∧
    (((Command.check (checkOfFile (some "."))).run Disk.host .plain).run
      (Disk.withFile emptyObject)).1.status = 0 := by
  have htools : (Tools.own Disk.host).Observes := Tools.own_observes Disk.host_observes
  refine ⟨Disk.host_observes.read, htools, rfl, ?_⟩
  rw [Command.run, check_status_zero_iff Disk.host_observes.read htools rfl]
  refine ⟨.bundled, [["a"]], rfl, .cons ⟨Disk.filesOf_withFile _, by simp⟩ .nil, ?_, ?_⟩
  · intro file hm
    obtain rfl : file = "a" := by simpa using hm
    have happly : (checkOfFile (some ".")).selection.apply Filter.fragment (.object []) =
        .ok [.object []] := rfl
    exact ⟨emptyObject, .object [], [.object []], Disk.contentOf_withFile _, ⟨rfl, _, rfl, rfl⟩,
      happly, Selection.eq_nil_iff_of_apply happly, by decide⟩
  · intro path hpath
    cases hpath

/-- A file from which a filter takes nothing: no document is checked, and nothing is told. -/
theorem exists_file_passed_over :
    let options := checkOfFile (some "empty")
    let disk := Disk.withFile emptyObject
    (((Command.check options).run Disk.host .plain).run disk).1.status = 0 ∧
    options.noOp = false ∧ filesOf (.own Disk.host) disk "a" = .ok ["a"] ∧
    contentOf Disk.host disk "a" = .ok emptyObject ∧
    options.selection.documents Filter.fragment emptyObject = .ok [] := by
  intro options disk
  have hdocuments : options.selection.documents Filter.fragment emptyObject = .ok [] := rfl
  have hclean : (reportOn Disk.host Filter.fragment disk options .bundled ["a"]).hasFindings =
      false := by
    rw [reportOn_clean_iff]
    intro file hm
    obtain rfl := List.mem_singleton.mp hm
    exact ⟨emptyObject, [], Disk.contentOf_withFile _, hdocuments, by simp⟩
  refine ⟨?_, rfl, Disk.filesOf_withFile _, Disk.contentOf_withFile _, hdocuments⟩
  change ((runCheck Disk.host (.own Disk.host) .plain options).run disk).1.status = 0
  rw [runCheck_status_iff Disk.host_observes.read (Tools.own_observes Disk.host_observes)]
  refine ⟨.bundled, ["a"], rfl, rfl, hclean, ?_⟩
  intro path hpath
  cases hpath

end ExactlyOne
