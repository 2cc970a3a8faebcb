import LatexLogic.Proofs.Command.Exit
import LatexLogic.Proofs.Session.Framing

/-!
# Runs that are given formulas

A run that is given formulas, as arguments or in a file, answers these and does not look at its
standard input: it does and prints the same whatever the input is (`Command.run_of_formulas`). The
formulas of a file are its lines without the blanks at their ends, those left out that are blank or
comments (`Session.formulasOfFile_eq`).

A file can be given that holds no formula, and then there may be none at all. Such a run is a dialogue
like one without a file (`Command.not_silent_of_file`).
-/

set_option autoImplicit false

namespace LatexLogic

namespace Session

/-- The formulas of a file are its lines, stripped, that are neither blank nor comments. -/
theorem formulasOfFile_eq (content : String) :
    formulasOfFile content = ((Text.lines content).map Text.strip).filter fun line =>
      !line.isEmpty && !line.startsWith "%" := by
  have hlines (lines : List String) : lines.filterMap formulaOfLine? =
      (lines.map Text.strip).filter fun line => !line.isEmpty := by
    induction lines with
    | nil => rfl
    | cons line lines ih =>
      rw [List.filterMap_cons, List.map_cons, List.filter_cons, ih]
      cases hempty : (Text.strip line).isEmpty <;> simp [formulaOfLine?, hempty]
  rw [formulasOfFile, formulasOfInput, hlines, List.filter_filter]
  simp only [Bool.and_comm]

section

variable {limits : Limits} {table : Table Data} {format : Format} {formulas : List String}

/-- Where nothing hinders an answer all formulas are answered. -/
theorem answered_eq_self (ht : table.WellFormed)
    (h : ∀ text ∈ formulas, ∀ o, ¬ Hinders limits table format text o) :
    answered limits table format formulas = formulas ∧
      unanswered? limits table format formulas = none := by
  rcases answered_cases ht formulas with hall | ⟨stop, rest, -, hformulas, hhinders⟩
  · exact hall
  · -- An obstacle would stand at one of the formulas.
    refine absurd hhinders (h stop.text ?_ stop.obstacle)
    rw [hformulas]
    exact List.mem_append_right _ List.mem_cons_self

end

end Session

namespace Command

/-- What an option gives that names a file of formulas: nothing without a path, and otherwise the
lines of the file, stripped, that are neither blank nor comments. -/
def FileGives (files : Files) (named : OptionValue) (formulas : List String) : Prop :=
  (∀ path, named = some path → path = "") ∧ formulas = [] ∨
    ∃ path bytes content, named = some path ∧ path ≠ "" ∧ files.read path = .ok bytes ∧
      String.fromUTF8? bytes = some content ∧
      formulas = ((Text.lines content).map Text.strip).filter fun line =>
        !line.isEmpty && !line.startsWith "%"

theorem fileGives_of_formulasOfInputFile {files : Files} {named : OptionValue}
    {formulas : List String} (h : formulasOfInputFile files named = .ok formulas) :
    FileGives files named formulas := by
  cases named with
  | none =>
    cases h
    exact Or.inl ⟨nofun, rfl⟩
  | some path =>
    unfold formulasOfInputFile at h
    dsimp only at h
    split at h
    · next hempty =>
      cases h
      exact Or.inl ⟨fun path' heq => Option.some.inj heq ▸ String.isEmpty_iff.1 hempty, rfl⟩
    · next hne =>
      split at h
      · cases h
      · next bytes hread =>
        split at h
        · cases h
        · next content hcontent =>
          cases h
          exact Or.inr ⟨path, bytes, content, rfl, fun heq => hne (String.isEmpty_iff.2 heq), hread,
            hcontent, Session.formulasOfFile_eq content⟩

/-- A setup that succeeds builds the table and puts the formulas of the file behind those among the
arguments. -/
theorem setUp_eq_ok {host : Host} {files : Files} {options : Options} {table : Table Data}
    {formulas : List String} (h : setUp host files options = .ok (table, formulas)) :
    buildTable host files options.syntaxFiles = .ok table ∧
      ∃ fromFile, FileGives files options.input fromFile ∧
        formulas = options.formulas ++ fromFile := by
  unfold setUp at h
  split at h
  · cases h
  · next table' htable =>
    split at h
    · cases h
    · next fromFile hfile =>
      cases h
      exact ⟨htable, fromFile, fileGives_of_formulasOfInputFile hfile, rfl⟩

/-! ## Answers -/

section

variable {limits : Session.Limits} {table : Table Data} {format : Session.Format}
  {formulas : List String}

/-- With formulas at hand a run answers these. -/
theorem asked_of_ne_nil (h : formulas ≠ []) (input : String) : asked formulas input = formulas :=
  if_neg (by simpa using h)

/-- Then the standard input plays no part. -/
theorem respond_of_ne_nil (h : formulas ≠ []) (input : String) :
    respond limits table format formulas input =
      (if Session.unanswered? limits table format formulas = none ∧
          Session.failures limits table format formulas = 0 then 0 else 1,
        Session.batch limits table format formulas,
        depthWarnings limits table format formulas) := by
  have hempty : formulas.isEmpty = false := by simpa using h
  simp [respond, exitCode, asked_of_ne_nil h, hempty]

/-- A batch that is answered to its end ends well if no formula is refused. -/
theorem respond_of_answerable (ht : table.WellFormed) (h : formulas ≠ [])
    (hanswerable : ∀ text ∈ formulas, ∀ o, ¬ Session.Hinders limits table format text o)
    (input : String) :
    respond limits table format formulas input =
      (if formulas.all fun text => (Session.result limits table text).isOk then 0 else 1,
        String.join (formulas.map fun text =>
          Session.render table format text (Session.result limits table text) ++ "\n"),
        depthWarnings limits table format formulas) := by
  obtain ⟨hanswered, hunanswered⟩ := Session.answered_eq_self ht hanswerable
  have hfailures : Session.failures limits table format formulas = 0 ↔
      (formulas.all fun text => (Session.result limits table text).isOk) = true := by
    simp [Session.failures_eq, hanswered, List.countP_eq_zero]
  rw [respond_of_ne_nil h, Session.batch_eq, hanswered]
  simp only [hunanswered, hfailures, true_and]

end

/-! ## Runs -/

section

variable {host : Host} {files : Files} {arguments : List String} {options : Options}
  {table : Table Data} {formulas : List String}

/-- A run that is set up responds. -/
theorem run_of_setUp (hoptions : Options.ofArguments arguments = .ok options)
    (hlog : (makeLogDirectory files options).error? = none)
    (hsetup : setUp host (files.withDirectories (makeLogDirectory files options).made) options =
      .ok (table, formulas))
    (input : String) :
    run host files arguments input =
      { outcome := .exit (respond host.limits table options.format formulas input).1
        output := (respond host.limits table options.format formulas input).2.1
        directories := (makeLogDirectory files options).made
        errorLog := none
        records := (respond host.limits table options.format formulas input).2.2
        unanswered :=
          Session.unanswered? host.limits table options.format (asked formulas input) } := by
  simp only [run, hoptions, runWith, hlog, hsetup]

/-- What a run does that is set up and given a formula. Its formulas are those among the arguments and
then those of the file, and it prints what a batch of them prints. If nothing hinders the answers this
is one for each, and the run exits with one if a formula is refused and with zero if none is. In any
case it does the same for every standard input. -/
theorem run_of_formulas (hoptions : Options.ofArguments arguments = .ok options)
    (hlog : (makeLogDirectory files options).error? = none)
    (hsetup : setUp host (files.withDirectories (makeLogDirectory files options).made) options =
      .ok (table, formulas))
    (hgiven : formulas ≠ []) :
    (∃ fromFile, FileGives (files.withDirectories (makeLogDirectory files options).made)
      options.input fromFile ∧ formulas = options.formulas ++ fromFile) ∧
    (∀ input, (run host files arguments input).output =
      Session.batch host.limits table options.format formulas) ∧
    ((∀ text ∈ formulas, ∀ o, ¬ Session.Hinders host.limits table options.format text o) →
      ∀ input,
        (run host files arguments input).output = String.join (formulas.map fun text =>
          Session.render table options.format text (Session.result host.limits table text) ++
            "\n") ∧
        (run host files arguments input).outcome = .exit
          (if formulas.all fun text => (Session.result host.limits table text).isOk then 0 else 1)) ∧
    ∀ input input', run host files arguments input = run host files arguments input' := by
  have hrun := run_of_setUp hoptions hlog hsetup
  have hwell := ((reachable_buildTable _ _ _).of_eq_ok (setUp_eq_ok hsetup).1).wellFormed
  refine ⟨(setUp_eq_ok hsetup).2, fun input => ?_, fun hanswerable input => ?_,
    fun input input' => ?_⟩
  · rw [hrun, respond_of_ne_nil hgiven]
  · rw [hrun, respond_of_answerable hwell hgiven hanswerable]
    exact ⟨rfl, rfl⟩
  · rw [hrun, hrun, respond_of_ne_nil hgiven, respond_of_ne_nil hgiven, asked_of_ne_nil hgiven,
      asked_of_ne_nil hgiven]

end

/-! ## Runs with one file -/

/-- The arguments of a run without an error log that takes formulas from a file. -/
def fileArguments : List String :=
  ["--no-log-file", "--format=sexpr", "--input", "s"]

/-- What these arguments ask for, with formulas behind them. -/
def fileOptions (formulas : List String) : Options :=
  { Options.initial with formulas, input := some "s", format := .sexpr, noLogFile := true }

/-- A setup with a file of formulas and no syntax file puts the formulas of the file last. -/
theorem setUp_single (host : Host) (content : String) (formulas : List String) :
    setUp host ((Files.single content).withDirectories []) (fileOptions formulas) =
      .ok (Table.standard.valued, formulas ++ Session.formulasOfFile content) := by
  have hdecoded : String.fromUTF8? content.toUTF8 = some content := by
    unfold String.fromUTF8?
    rw [String.toUTF8_eq_toByteArray, dif_pos content.isValidUTF8]
    rfl
  have hfile : formulasOfInputFile ((Files.single content).withDirectories []) (some "s") =
      .ok (Session.formulasOfFile content) := by
    have hnamed : "s".isEmpty = false := by decide
    simp only [formulasOfInputFile, hnamed, Files.read_single, hdecoded]
    rfl
  have hinput : (fileOptions formulas).input = some "s" := rfl
  have hsyntax : (fileOptions formulas).syntaxFiles = [] := rfl
  rw [setUp, hinput, hsyntax, hfile]
  rfl

/-- With a formula among the arguments and one in the file, behind a comment, a run prints both
answers whatever its standard input is. -/
theorem run_of_formulas_file :
    let files := Files.single "% c\n \\bot \n"
    let arguments := fileArguments ++ ["\\top"]
    (run levelHost files arguments "").output = "true\nfalse\n" ∧
      (run levelHost files arguments "").outcome = .exit 0 ∧
      run levelHost files arguments "" = run levelHost files arguments "\\phi" := by
  intro files arguments
  have hoptions : Options.ofArguments arguments = .ok (fileOptions ["\\top"]) := by decide +kernel
  have hformulas : ["\\top"] ++ Session.formulasOfFile "% c\n \\bot \n" = ["\\top", "\\bot"] := by
    decide +kernel
  have hsetup := setUp_single levelHost "% c\n \\bot \n" ["\\top"]
  rw [hformulas] at hsetup
  have hwell := Table.wellFormed_valued_iff.2 Table.standard_wellFormed
  have hanswerable : ∀ text ∈ ["\\top", "\\bot"], ∀ o,
      ¬ Session.Hinders levelHost.limits Table.standard.valued .sexpr text o := fun text htext =>
    (Session.isAnswerable_iff hwell).1 (by revert text; decide +kernel)
  obtain ⟨-, -, hanswered, hinputs⟩ := run_of_formulas hoptions rfl hsetup (by decide)
  obtain ⟨houtput, houtcome⟩ := hanswered hanswerable ""
  exact ⟨houtput.trans (by decide +kernel),
    houtcome.trans (congrArg Outcome.exit (if_pos (by decide +kernel))), hinputs "" "\\phi"⟩

/-- A run whose file holds only a comment prints a prompt, although a file is named. -/
theorem not_silent_of_file :
    ¬ ∀ (host : Host) (files : Files) (arguments : List String) (options : Options)
        (table : Table Data) (formulas : List String),
      Options.ofArguments arguments = .ok options →
      (makeLogDirectory files options).error? = none →
      setUp host (files.withDirectories (makeLogDirectory files options).made) options =
        .ok (table, formulas) →
      (options.formulas ≠ [] ∨ ∃ path, options.input = some path ∧ path ≠ "") →
      ∀ input, (run host files arguments input).output = String.join (formulas.map fun text =>
        Session.render table options.format text (Session.result host.limits table text) ++
          "\n") := by
  intro h
  have hoptions : Options.ofArguments fileArguments = .ok (fileOptions []) := by decide +kernel
  have hsetup := setUp_single levelHost "% c" []
  -- The comment is no formula, so the run is a dialogue and begins with a prompt.
  have hsilent := h levelHost (.single "% c") fileArguments _ _ _ hoptions rfl hsetup
    (Or.inr ⟨"s", rfl, by decide⟩) ""
  rw [run_of_setUp hoptions rfl hsetup] at hsilent
  revert hsilent
  decide +kernel

end Command

end LatexLogic
