import LatexLogic.Session.Answer
import LatexLogic.Text.Digit

/-!
# Command line options

The arguments of the program are formulas and options. A long option may be shortened as long as it
is unambiguous, and its value follows it as the next argument or after an equals sign. The value of
a short option may also follow at once, and short options without a value may be joined in one
argument; an equals sign counts for nothing directly behind the first letter, and is part of the
value behind a later one. A later value of an option replaces an earlier one, but syntax files add
up. Two dashes as a value in the argument of the option itself take the value away.

An argument is a formula if it does not start with a dash, if it is a lone dash or a negative
number, or if it holds a space and is no option. All arguments behind `--` are formulas. The
formulas have to stand together, without an option between them.
-/

set_option autoImplicit false

namespace LatexLogic.Command

/-- The options of the program. -/
inductive Flag where
  | help
  | input
  | syntaxFile
  | format
  | logDirectory
  | noLogFile
  | verbose
  deriving DecidableEq, Repr

namespace Flag

/-- All options. -/
def all : List Flag :=
  [help, input, syntaxFile, format, logDirectory, noLogFile, verbose]

/-- The long name of an option. -/
def longName : Flag → String
  | help => "--help"
  | input => "--input"
  | syntaxFile => "--syntax"
  | format => "--format"
  | logDirectory => "--log-dir"
  | noLogFile => "--no-log-file"
  | verbose => "--verbose"

/-- The letter of an option. -/
def letter? : Flag → Option Char
  | help => some 'h'
  | input => some 'i'
  | syntaxFile => some 's'
  | format => some 'f'
  | verbose => some 'v'
  | logDirectory | noLogFile => none

/-- Whether a value follows an option. -/
def takesValue : Flag → Bool
  | input | syntaxFile | format | logDirectory => true
  | help | noLogFile | verbose => false

/-- The option of a given letter. -/
def ofLetter? (c : Char) : Option Flag :=
  all.find? fun flag => flag.letter? = some c

/-- The options whose long names begin with given characters, or the one that has exactly this
name. -/
def ofLongName (name : List Char) : List Flag :=
  match all.find? fun flag => flag.longName.toList = name with
  | some flag => [flag]
  | none => all.filter fun flag => name.isPrefixOf flag.longName.toList

end Flag

/-! ## Single arguments -/

/-- The value of an option. Two dashes in its place are no value. -/
abbrev OptionValue := Option String

/-- The value that characters stand for. -/
def OptionValue.ofChars (cs : List Char) : OptionValue :=
  if cs = ['-', '-'] then none else some (String.ofList cs)

/-- The options that one argument gives: some without a value, and a last one, whose value may be
attached. -/
structure OptionUse where
  /-- The options in front, none of which takes a value. -/
  before : List Flag
  /-- The last option. -/
  last : Flag
  /-- The value in the same argument. -/
  attached? : Option OptionValue
  deriving DecidableEq, Repr

/-- One argument, as it is understood. -/
inductive Argument where
  | text (s : String)
  | option (use : OptionUse)
  /-- An option that gets a value without taking one, or gets joined to no option. -/
  | misused
  | unknown
  | ambiguous
  deriving DecidableEq, Repr

namespace Argument

/-- An option of a letter with the characters attached to it: its value, if it takes one, and
otherwise the letters of further options. -/
def joined (flag : Flag) (attached : List Char) : Option OptionUse :=
  if flag.takesValue then some ⟨[], flag, some (.ofChars attached)⟩
  else
    match attached with
    | [] => none
    | c :: rest =>
      match Flag.ofLetter? c with
      | none => none
      | some next =>
        if rest.isEmpty then some ⟨[flag], next, none⟩
        else (joined next rest).map fun use => { use with before := flag :: use.before }

/-- A short option with what follows its letter. -/
def short (flag : Flag) : List Char → Option OptionUse
  | [] => some ⟨[], flag, none⟩
  | c :: rest => joined flag (if c = '=' then rest else c :: rest)

/-- A long option with the characters behind the equals sign, if there is one. -/
def long (flag : Flag) (attached : Option (List Char)) : Option OptionUse :=
  if attached.isSome && !flag.takesValue then none
  else some ⟨[], flag, attached.map OptionValue.ofChars⟩

/-- Whether characters are nothing, or a single line end. -/
def isEnd (cs : List Char) : Bool :=
  cs = [] || cs = ['\n']

/-- Whether an argument is a negative number: a dash, digits, and possibly a point with digits
behind it. Without the point there has to be a digit in front; a line end may follow. -/
def isNegativeNumber (cs : List Char) : Bool :=
  match cs with
  | '-' :: rest =>
    let whole := rest.takeWhile Text.isScriptDigit
    match rest.dropWhile Text.isScriptDigit with
    | '.' :: places =>
      !(places.takeWhile Text.isScriptDigit).isEmpty &&
        isEnd (places.dropWhile Text.isScriptDigit)
    | ending => !whole.isEmpty && isEnd ending
  | _ => false

/-- An argument with a dash in front that names no option. -/
def unnamed (text : String) : Argument :=
  if isNegativeNumber text.toList || text.toList.contains ' ' then .text text else .unknown

/-- An argument that names an option. -/
def ofUse : Option OptionUse → Argument
  | some use => .option use
  | none => .misused

/-- How an argument is understood. -/
def ofText (text : String) : Argument :=
  match text.toList with
  | '-' :: '-' :: rest =>
    let name := '-' :: '-' :: rest.takeWhile (· ≠ '=')
    let attached : Option (List Char) :=
      match rest.dropWhile (· ≠ '=') with
      | [] => none
      | _ :: value => some value
    match Flag.ofLongName name with
    | [] => unnamed text
    | [flag] => ofUse (long flag attached)
    | _ => .ambiguous
  | '-' :: c :: rest =>
    match Flag.ofLetter? c with
    | some flag => ofUse (short flag rest)
    | none => unnamed text
  | _ => .text text

end Argument

/-! ## All arguments -/

/-- What the arguments ask for. -/
structure Options where
  /-- The formulas that are given as arguments. -/
  formulas : List String
  /-- The file with further formulas. -/
  input : Option String
  /-- The syntax files that extend the standard table, in order. -/
  syntaxFiles : List OptionValue
  /-- How answers are written. -/
  format : Session.Format
  /-- The directory of the error log. -/
  logDirectory : OptionValue
  /-- Whether there is no error log. -/
  noLogFile : Bool
  /-- Whether progress is reported. -/
  verbose : Bool
  deriving DecidableEq, Repr

/-- What holds when no option says otherwise. -/
def Options.initial : Options :=
  ⟨[], none, [], .json, some "logs", false, false⟩

/-- Why the arguments lead to no run. -/
inductive Refusal where
  | helpWanted
  | usage
  deriving DecidableEq, Repr

/-- Whether formulas may still come. -/
inductive FormulaPhase where
  | before
  | inside
  | after
  deriving DecidableEq, Repr

/-- The phase behind an option. -/
def FormulaPhase.behindOption : FormulaPhase → FormulaPhase
  | before => before
  | inside | after => after

/-- The format of a given name. -/
def formatOf? (name : String) : Option Session.Format :=
  if name = "json" then some .json else if name = "sexpr" then some .sexpr else none

namespace Options

/-- Sets an option that takes no value. -/
def setFlag (o : Options) : Flag → Except Refusal Options
  | .help => .error .helpWanted
  | .noLogFile => .ok { o with noLogFile := true }
  | .verbose => .ok { o with verbose := true }
  | .input | .syntaxFile | .format | .logDirectory => .error .usage

/-- Sets an option to a value. Without a value there is no file of formulas, and answers are written
as JSON. -/
def setValue (o : Options) (value : OptionValue) : Flag → Except Refusal Options
  | .input => .ok { o with input := value }
  | .syntaxFile => .ok { o with syntaxFiles := o.syntaxFiles ++ [value] }
  | .format =>
    match value with
    | none => .ok { o with format := .json }
    | some name =>
      match formatOf? name with
      | some format => .ok { o with format := format }
      | none => .error .usage
  | .logDirectory => .ok { o with logDirectory := value }
  | .help | .noLogFile | .verbose => .error .usage

/-- Sets the options of one argument, the last of them to a value if there is one. -/
def setAll (o : Options) (use : OptionUse) (value? : Option OptionValue) :
    Except Refusal Options := do
  let o ← use.before.foldlM setFlag o
  match value? with
  | some value => o.setValue value use.last
  | none => o.setFlag use.last

/-- The next argument as the value of an option: it has to be one that could be a formula. -/
def valueOfArgument? (argument : String) : Option OptionValue :=
  if argument = "--" then none
  else
    match Argument.ofText argument with
    | .text value => some (some value)
    | _ => none

/-- What has been read of the arguments. -/
structure Progress where
  /-- The options so far. -/
  options : Options
  /-- Whether formulas may still come. -/
  phase : FormulaPhase
  /-- Whether an argument found no use. Help is still given then. -/
  stray : Bool

namespace Progress

/-- Adds formulas. -/
def addFormulas (p : Progress) (formulas : List String) : Progress :=
  if p.phase = .after then { p with stray := true }
  else
    { p with
      options := { p.options with formulas := p.options.formulas ++ formulas }
      phase := .inside }

/-- Adds the options of one argument. -/
def addOptions (p : Progress) (use : OptionUse) (value? : Option OptionValue) :
    Except Refusal Progress := do
  return { p with options := ← p.options.setAll use value?, phase := p.phase.behindOption }

/-- Reads further arguments. An option that lacks its value is refused before anything in the same
argument takes effect. -/
def read (p : Progress) : List String → Except Refusal Progress
  | [] => .ok p
  | argument :: rest =>
    -- Whatever stands behind two dashes is a formula.
    if argument = "--" then .ok (p.addFormulas rest)
    else
      match Argument.ofText argument with
      | .misused | .ambiguous => .error .usage
      | .unknown => read { p with phase := p.phase.behindOption, stray := true } rest
      | .text s => read (p.addFormulas [s]) rest
      | .option use =>
        if use.attached?.isSome || !use.last.takesValue then
          match p.addOptions use use.attached? with
          | .ok p => read p rest
          | .error refusal => .error refusal
        else
          match rest with
          | [] => .error .usage
          | next :: rest =>
            match valueOfArgument? next with
            | none => .error .usage
            | some value =>
              match p.addOptions use (some value) with
              | .ok p => read p rest
              | .error refusal => .error refusal

end Progress

/-- Reads the arguments of the program. What an ambiguous argument means is not known, so it is
refused before all else. -/
def ofArguments (arguments : List String) : Except Refusal Options :=
  let beforeDashes := arguments.takeWhile (· ≠ "--")
  if beforeDashes.any fun argument => Argument.ofText argument = .ambiguous then .error .usage
  else
    match Progress.read ⟨.initial, .before, false⟩ arguments with
    | .error refusal => .error refusal
    | .ok p => if p.stray then .error .usage else .ok p.options

end Options

end LatexLogic.Command
