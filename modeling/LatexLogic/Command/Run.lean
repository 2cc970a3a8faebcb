import LatexLogic.Command.Files
import LatexLogic.Command.Options

/-!
# Running the program

One run of the program as a function of its arguments, of the files it can see and of its standard
input. A run first makes the directory of the error log, then reads the syntax files and the file of
formulas, and then answers: the formulas it was given, or else its standard input line by line. The
error log itself appears only when an error is logged.

How documents are read, and how deeply formulas and values may be nested, is for the host of the run
to say (`Host`).

A run ends with an exit code, or it breaks off where a problem is not one that the program reports:
the directory of the error log cannot be made, a syntax file is nested too deeply or holds a scalar
that does not fit its tag, an entry of a table is malformed, a label is a list, or a message shows a
value that is nested too deeply.

A formula without an answer ends a run in the middle of its output, with the exit code of a run in
which a formula failed. The report names that formula.
-/

set_option autoImplicit false

namespace LatexLogic.Command

/-- How serious a logged event is. -/
inductive Severity where
  | warning
  | error
  deriving DecidableEq, Repr

/-- Which part of the program logs an event. -/
inductive Source where
  | fileReader
  | program
  deriving DecidableEq, Repr

/-- A logged event that is shown on the console. -/
structure Record where
  /-- How serious the event is. -/
  severity : Severity
  /-- Who logs it. -/
  source : Source
  /-- What is logged. -/
  message : String
  deriving DecidableEq, Repr

/-- Why a run breaks off. -/
inductive Break where
  | logDirectory (error : Files.DirectoryError)
  | syntaxFile (error : SyntaxFileError)
  deriving Repr

/-- How a run ends. -/
inductive Outcome where
  | exit (code : Nat)
  | breaks (reason : Break)
  deriving Repr

/-- What a run does. -/
structure Report where
  /-- How it ends. -/
  outcome : Outcome
  /-- What it prints. -/
  output : String
  /-- The directories that it makes, outer ones first. -/
  directories : List (List String)
  /-- The directory in which it starts an error log. -/
  errorLog : Option (List String)
  /-- The events that it logs, in order. -/
  records : List Record
  /-- The formula for which it has no answer, if there is one. -/
  unanswered : Option Session.Unanswered
  deriving Repr

/-! ## Preparation -/

/-- What a run takes from its host. -/
structure Host where
  /-- How deeply formulas may be nested. -/
  limits : Session.Limits
  /-- Whether a value is written into a message without calls that nest too deeply. -/
  shows : Data → Bool
  /-- The value of a document. -/
  readDocument : String → Except Yaml.YamlError Data

/-- Why the formulas of a run cannot be read or understood. -/
inductive SetupError where
  | syntaxFile (error : SyntaxFileError)
  | formulaFile (path : String) (error : PathError)
  | formulaFileNotUtf8 (path : String)
  deriving Repr

/-- A table extended by the syntax file under a path, if there is a path. -/
def extendByFile (host : Host) (files : Files) (table : Table Data) :
    OptionValue → Except SyntaxFileError (Table Data)
  | none => .error .unnamed
  | some path => Table.ofFile host.readDocument path (some table) (files.read path)

/-- The standard table, extended by each syntax file in turn. -/
def buildTable (host : Host) (files : Files) (paths : List OptionValue) :
    Except SyntaxFileError (Table Data) :=
  paths.foldlM (extendByFile host files) Table.standard.valued

/-- The formulas of the file that an option names. A name without characters names none. -/
def formulasOfInputFile (files : Files) : OptionValue → Except SetupError (List String)
  | none => .ok []
  | some path =>
    if path.isEmpty then .ok []
    else
      match files.read path with
      | .error e => .error (.formulaFile path e)
      | .ok bytes =>
        match String.fromUTF8? bytes with
        | none => .error (.formulaFileNotUtf8 path)
        | some content => .ok (Session.formulasOfFile content)

/-- The table of a run, and the formulas that it is given. -/
def setUp (host : Host) (files : Files) (options : Options) :
    Except SetupError (Table Data × List String) :=
  match buildTable host files options.syntaxFiles with
  | .error e => .error (.syntaxFile e)
  | .ok table =>
    match formulasOfInputFile files options.input with
    | .error e => .error e
    | .ok formulas => .ok (table, options.formulas ++ formulas)

namespace SetupError

/-- What is logged of an error. -/
def message : SetupError → String
  | syntaxFile e => e.message?.getD ""
  | formulaFile path error => error.message ++ ": " ++ path
  | formulaFileNotUtf8 path => "Not UTF-8 text: " ++ path

/-- The events that are logged for an error. -/
def records (e : SetupError) : List Record :=
  let final : Record := ⟨.error, .program, "Could not set up parser: " ++ e.message⟩
  match e with
  | syntaxFile fileError =>
    if fileError.isOfFile then [⟨.error, .fileReader, e.message⟩, final] else [final]
  | _ => [final]

/-- The problem of an error that is not reported. -/
def unreported? (shows : Data → Bool) : SetupError → Option SyntaxFileError
  | syntaxFile e => if e.isReported shows then none else some e
  | _ => none

end SetupError

/-! ## Answering -/

/-- The warning for a formula that is nested too deeply. -/
def depthWarning (text : String) : Record :=
  ⟨.warning, .program, s!"Formula of length {text.length} is nested too deeply to parse"⟩

/-- The formulas that a run answers: those it is given, or else those of its standard input. -/
def asked (formulas : List String) (input : String) : List String :=
  if formulas.isEmpty then Session.formulasOfInput input else formulas

section

variable (limits : Session.Limits) (table : Table Data) (format : Session.Format)

/-- The warnings for a list of formulas. -/
def depthWarnings (formulas : List String) : List Record :=
  ((Session.answered limits table format formulas).filter fun text =>
    (Session.answer limits table format text).tooDeep).map depthWarning

/-- The exit code of a run that answers formulas. A dialogue ends well unless it breaks off, and a
batch if moreover no formula is refused. -/
def exitCode (formulas : List String) (input : String) : Nat :=
  if (Session.unanswered? limits table format (asked formulas input)).isNone ∧
      (formulas.isEmpty ∨ Session.failures limits table format formulas = 0) then 0 else 1

/-- What a run that has its table and its formulas prints and logs. Without formulas it answers its
standard input. -/
def respond (formulas : List String) (input : String) : Nat × String × List Record :=
  (exitCode limits table format formulas input,
    if formulas.isEmpty then Session.transcript limits table format input
    else Session.batch limits table format formulas,
    depthWarnings limits table format (asked formulas input))

end

/-! ## Runs -/

/-- The exit code of a run that was not understood or could not be prepared. -/
def setupExitCode : Nat := 2

/-- The text that explains the options. -/
def helpText : String :=
  "usage: [options] [formulas]\n" ++
  "  -i, --input FILE    file with one formula per line\n" ++
  "  -s, --syntax FILE   YAML file with further syntax (repeatable)\n" ++
  "  -f, --format FORMAT json or sexpr\n" ++
  "  --log-dir DIR       directory of the error log\n" ++
  "  --no-log-file       keep no error log\n" ++
  "  -v, --verbose       report progress\n" ++
  "  -h, --help          show this text\n"

/-- The directories that are made for the error log. -/
def makeLogDirectory (files : Files) (options : Options) : Files.Making :=
  if options.noLogFile then ⟨[], none⟩ else files.makeDirectories options.logDirectory

/-- The directory in which an error log can be started. -/
def errorLogDirectory (files : Files) (options : Options) : Option (List String) :=
  if options.noLogFile then none
  else (options.logDirectory.map resolve).filter files.isDirectory

/-- The report of a run that could not be prepared, given the directories that it made and the one
in which it starts its error log. -/
def SetupError.report (shows : Data → Bool) (e : SetupError) (directories : List (List String))
    (errorLog : Option (List String)) : Report :=
  match e.unreported? shows with
  | some reason => ⟨.breaks (.syntaxFile reason), "", directories, none, [], none⟩
  | none => ⟨.exit setupExitCode, "", directories, errorLog, e.records, none⟩

/-- A run with the given options. Its files are looked up after the directory of the error log was
made. The log itself is started by the first error, and only a failed setup logs one. -/
def runWith (host : Host) (files : Files) (options : Options) (input : String) : Report :=
  let making := makeLogDirectory files options
  let files := files.withDirectories making.made
  match making.error? with
  | some e => ⟨.breaks (.logDirectory e), "", making.made, none, [], none⟩
  | none =>
    match setUp host files options with
    | .error e => e.report host.shows making.made (errorLogDirectory files options)
    | .ok (table, formulas) =>
      let (code, output, records) := respond host.limits table options.format formulas input
      ⟨.exit code, output, making.made, none, records,
        Session.unanswered? host.limits table options.format (asked formulas input)⟩

/-- The report of a run whose arguments are refused. -/
def Refusal.report : Refusal → Report
  | helpWanted => ⟨.exit 0, helpText, [], none, [], none⟩
  | usage => ⟨.exit setupExitCode, "", [], none, [], none⟩

/-- A run of the program. -/
def run (host : Host) (files : Files) (arguments : List String) (input : String) : Report :=
  match Options.ofArguments arguments with
  | .error refusal => refusal.report
  | .ok options => runWith host files options input

/-! ## What is left behind -/

/-- The name of an error log, given the time at which it was started. -/
def logFileName (time : String) : String :=
  "parse_formula_" ++ time ++ ".log"

/-- The paths that a run makes in its starting directory, in increasing order. -/
def Report.created (r : Report) (time : String) : List String :=
  let log := (r.errorLog.map fun place => place ++ [logFileName time]).toList
  (((r.directories ++ log).filter isInside).map joinParts).mergeSort (· ≤ ·)

end LatexLogic.Command
