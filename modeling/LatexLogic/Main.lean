import LatexLogic.Command.Levels
import Std.Time.Format
import Std.Time.Zoned

/-!
# The program

The outer layer of the program: it looks up on the disk what a run asks about, carries out what the
run reports, and holds the dialogue with the standard input line by line. What is read, printed and
made is decided by `Command.runWith`. As a host the program counts levels of nesting.
-/

set_option autoImplicit false

namespace LatexLogic.Command

/-! ## The disk -/

/-- The paths that a run looks up. -/
def Options.paths (options : Options) : List String :=
  let log := if options.noLogFile then none else options.logDirectory
  (options.syntaxFiles ++ [options.input, log]).filterMap id

/-- A place as a path that the system understands. -/
def diskPath (place : List String) : String :=
  if place.isEmpty then "." else if place = [""] then "/" else joinParts place

/-- What stands at a place on the disk. At a place that cannot be looked up there is nothing. -/
def entryOnDisk (place : List String) : IO (Option Entry) := do
  let path := diskPath place
  let isRefused := (pathFault? path path.utf8ByteSize).isSome
  if isRefused || place.any fun name => nameLimit < name.utf8ByteSize then return none
  try
    return some (.file (← IO.FS.readBinFile path))
  catch
    | .noFileOrDirectory .. => return none
    | .inappropriateType .. => return some .directory
    | e => throw e

/-- What stands on the disk along some paths. -/
def filesOnDisk (paths : List String) : IO Files := do
  let places := paths.flatMap fun path => placesAlong (startOf path) (partsOf path)
  let entries ← places.eraseDups.mapM fun place => return (place, ← entryOnDisk place)
  return ⟨fun place => (entries.find? (·.1 = place)).bind (·.2)⟩

/-! ## Reports -/

/-- The name of a severity in a log. -/
def Severity.name : Severity → String
  | warning => "WARNING"
  | error => "ERROR"

/-- The name of a part of the program in a log. -/
def Source.name : Source → String
  | fileReader => "files"
  | program => "program"

/-- A record as a line of a log, given the time of day. -/
def Record.line (time : String) (r : Record) : String :=
  String.intercalate " - " [time, r.severity.name, r.source.name, r.message] ++ "\n"

/-- The time, written after a pattern. -/
def timeText (pattern : String) : IO String := do
  return (← Std.Time.PlainDateTime.now).format pattern

/-- Shows records on the console. -/
def showRecords (records : List Record) : IO Unit := do
  let stderr ← IO.getStderr
  for record in records do
    stderr.putStr (record.line (← timeText "uuuu-MM-dd HH:mm:ss"))

/-- Makes directories, outer ones first. -/
def makeAll (directories : List (List String)) : IO Unit :=
  directories.forM fun place => IO.FS.createDirAll (diskPath place)

/-- Writes the errors of a run into its log. -/
def writeErrorLog (directory : List String) (records : List Record) : IO Unit := do
  let name := logFileName (← timeText "uuuuMMdd_HHmmss")
  let time ← timeText "uuuu-MM-dd HH:mm:ss"
  let errors := records.filter (·.severity = .error)
  IO.FS.writeFile (diskPath (directory ++ [name])) (String.join (errors.map (·.line time)))

/-- What is shown of the reason for which a run breaks off. -/
def Break.message : Break → String
  | logDirectory .fileExists => "A file has the name of the log directory"
  | logDirectory .unnamed => "The log directory has no name"
  | logDirectory .tooDeep => "The log directory is nested too deeply"
  | logDirectory (.path error) => "The log directory cannot be made: " ++ error.message
  | syntaxFile .unnamed => "A syntax file has no name"
  | syntaxFile _ =>
    "A syntax file is nested too deeply, or a scalar or an entry in it is malformed"

/-- What is shown of a formula that ends a run because it has no answer. -/
def unansweredMessage (formula : Session.Unanswered) : String :=
  match formula.obstacle with
  | .depth =>
    s!"The tree of a formula of length {formula.text.length} is nested too deeply to be written"
  | .digits => Numeral.tooLongMessage
  | .sort => s!"A label in a formula of length {formula.text.length} is no text"

/-- Carries out what a run reports. -/
def Report.carryOut (r : Report) : IO UInt32 := do
  makeAll r.directories
  IO.print r.output
  showRecords r.records
  if let some directory := r.errorLog then
    writeErrorLog directory r.records
  if let some formula := r.unanswered then
    IO.eprintln (unansweredMessage formula)
  match r.outcome with
  | .exit code => return code.toUInt32
  | .breaks reason =>
    IO.eprintln reason.message
    return 1

/-! ## Dialogues -/

/-- Answers the standard input line by line. A prompt has been shown for the next line. -/
partial def converse (table : Table Data) (format : Session.Format) (stdin stdout : IO.FS.Stream) :
    IO UInt32 := do
  stdout.flush
  let input ← stdin.getLine
  if input.isEmpty then
    stdout.putStr "\n"
    return 0
  else
    let lines := Text.lines input
    for line in lines.takeWhile (Session.goesOn levelLimits table format) do
      stdout.putStr (Session.reply levelLimits table format line ++ Session.prompt)
    showRecords (depthWarnings levelLimits table format (Session.formulasOfInput input))
    match Session.unanswered? levelLimits table format (Session.formulasOfInput input) with
    | some formula =>
      IO.eprintln (unansweredMessage formula)
      return 1
    | none => converse table format stdin stdout

/-- Runs the program with understood options. A run without formulas is a dialogue. -/
def runOnDisk (options : Options) : IO UInt32 := do
  let files ← filesOnDisk options.paths
  let making := makeLogDirectory files options
  match making.error?, setUp levelHost (files.withDirectories making.made) options with
  | none, .ok (table, []) =>
    makeAll making.made
    let stdout ← IO.getStdout
    stdout.putStr Session.prompt
    converse table options.format (← IO.getStdin) stdout
  | _, _ => (runWith levelHost files options "").carryOut

end LatexLogic.Command

open LatexLogic.Command in
/-- Parses the formulas that the arguments give, or else those of the standard input. -/
def main (arguments : List String) : IO UInt32 :=
  match Options.ofArguments arguments with
  | .error refusal => refusal.report.carryOut
  | .ok options => runOnDisk options
