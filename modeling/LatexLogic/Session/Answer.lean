import LatexLogic.Formula.Labelled
import LatexLogic.Text.Line

/-!
# Answers

The one line that is printed for a formula, in one of two formats: a JSON object that repeats the
input, or the bare expression of the tree with `error:` in front of a message in its place. A
formula that is nested too deeply has an answer like any other.

How deeply formulas may be nested is for the host to say (`Limits`), for reading and for writing each
in its own way. So there can be formulas that are accepted, but whose tree is nested too deeply to be
written. Other answers cannot be written because a number has too many digits, or because the format
has no form for a label. The first formula without an answer ends whatever it belongs to.

`batch` answers a list of formulas, one line each, and counts the failures. `transcript` is a whole
dialogue: a prompt before each line that is read, an answer to each line that is not blank, and one
more prompt when the input ends.
-/

set_option autoImplicit false

namespace LatexLogic.Session

/-- How an answer is written. -/
inductive Format where
  | json
  | sexpr
  deriving DecidableEq, Repr

/-- What the host allows. A test fails if what it is about is given up because calls nest too
deeply. -/
structure Limits where
  /-- Whether a text can be parsed with a table. -/
  reads : Table Data → String → Bool
  /-- Whether a tree with the labels of a table can be written in a format. -/
  writes : Table Data → Format → Tree → Bool

/-- Limits that count levels: those of nesting while a text is read, and those of the tree that is
written. -/
def Limits.ofLevels (reading : Nat) (writing : Format → Nat) : Limits where
  reads table text := !(Formula.parseWithin reading table.named text matches .error .tooDeep)
  writes _ format tree := tree.depth ≤ writing format

/-- The result of parsing one formula in a session. -/
def result (limits : Limits) (table : Table Data) (text : String) :
    Except Formula.Problem Formula :=
  if limits.reads table text then Formula.parseLabelled table text
  else .error (.failure .tooDeep)

/-- The tag of an answer to a formula that is nested too deeply. -/
def tooDeepTag : String := "RecursionError"

/-- The message of an answer to a formula that is nested too deeply. -/
def tooDeepMessage : String := "Expression is nested too deeply"

/-- The entries of an answer in the JSON format, after the input. An obstacle has none. -/
def resultEntries (table : Table Data) : Except Formula.Problem Formula → List (String × Data)
  | .ok formula => formula.toEntries table.treeLabelNamed
  | .error (.failure (.fault error)) => error.toEntries
  | .error (.failure .tooDeep) => [("kind", .text "error"), ("msg", .text tooDeepTag)]
  | .error (.obstacle _) => []

/-- A result as a line of the given format. -/
def render (table : Table Data) (format : Format) (text : String)
    (result : Except Formula.Problem Formula) : String :=
  match format with
  | .json => (Data.object (("input", .text text) :: resultEntries table result)).json
  | .sexpr =>
    match result with
    | .ok formula => formula.expression table
    | .error (.failure (.fault error)) => "error: " ++ error.message
    | .error (.failure .tooDeep) => "error: " ++ tooDeepMessage
    | .error (.obstacle _) => ""

/-! ## Answers that cannot be written -/

/-- Whether a label can stand in a JSON text. A list is here what has become of a byte string. -/
def isJsonLabel : Data → Bool
  | .null | .bool _ | .int _ | .float _ | .text _ | .list _ => true
  | .pair a b => isJsonLabel a && isJsonLabel b
  | _ => false

/-- Whether a label consists of texts. -/
def isTextLabel : Data → Bool
  | .text _ => true
  | .pair a b => isTextLabel a && isTextLabel b
  | _ => false

/-- Whether a label can stand in a tree that is written. -/
def isWritable : Format → Data → Bool
  | .json => isJsonLabel
  | .sexpr => isTextLabel

/-- What stands in the way of writing a result, if anything does. -/
def obstacle? (limits : Limits) (table : Table Data) (format : Format) :
    Except Formula.Problem Formula → Option Obstacle
  | .ok formula =>
    if limits.writes table format formula.tree then
      if formula.tree.labels.all fun name => isWritable format (table.treeLabelNamed name) then none
      else some .sort
    else some .depth
  | .error (.obstacle o) => some o
  | .error (.failure _) => none

/-! ## Answers to formulas -/

/-- The answer to one formula. -/
structure Answer where
  /-- The line to print, without a line end. -/
  line : String
  /-- Whether the formula was refused. -/
  failed : Bool
  /-- Whether it was refused for its depth, which is worth a warning. -/
  tooDeep : Bool
  /-- Why the line cannot be written, if it cannot. -/
  obstacle? : Option Obstacle
  deriving DecidableEq, Repr

section

variable (limits : Limits) (table : Table Data) (format : Format)

/-- Answers one formula. -/
def answer (text : String) : Answer :=
  let result := result limits table text
  { line := render table format text result
    failed := result matches .error _
    tooDeep := result matches .error (.failure .tooDeep)
    obstacle? := obstacle? limits table format result }

/-- An answer as it is printed. -/
def Answer.printed (a : Answer) : String :=
  a.line ++ "\n"

/-- Whether a formula has an answer. -/
def isAnswerable (text : String) : Bool :=
  (answer limits table format text).obstacle?.isNone

/-! ## Batches -/

/-- The formulas of a list that are answered: those before the first one without an answer. -/
def answered (formulas : List String) : List String :=
  formulas.takeWhile (isAnswerable limits table format)

/-- A formula without an answer. -/
structure Unanswered where
  /-- The formula. -/
  text : String
  /-- Why there is no answer. -/
  obstacle : Obstacle
  deriving DecidableEq, Repr

/-- The first formula of a list that has no answer. -/
def unanswered? (formulas : List String) : Option Unanswered :=
  formulas.findSome? fun text => (answer limits table format text).obstacle?.map (⟨text, ·⟩)

/-- The answers to a list of formulas, in order. -/
def answers (formulas : List String) : List Answer :=
  (answered limits table format formulas).map (answer limits table format)

/-- What is printed for a list of formulas. -/
def batch (formulas : List String) : String :=
  String.join ((answers limits table format formulas).map Answer.printed)

/-- How many formulas of a list are refused. -/
def failures (formulas : List String) : Nat :=
  (answers limits table format formulas).countP Answer.failed

/-! ## Dialogues -/

/-- The text that asks for a formula. -/
def prompt : String := "fol-parser> "

/-- The formula on a line of input: the line without the blanks at its ends, if anything is left. -/
def formulaOfLine? (line : String) : Option String :=
  let text := Text.strip line
  if text.isEmpty then none else some text

/-- What is printed in reply to a line of input. -/
def reply (line : String) : String :=
  match formulaOfLine? line with
  | none => ""
  | some text => (answer limits table format text).printed

/-- Whether a dialogue goes on after a line of input. -/
def goesOn (line : String) : Bool :=
  match formulaOfLine? line with
  | none => true
  | some text => isAnswerable limits table format text

/-- What is printed in a dialogue over the lines of an input. It breaks off after the prompt for a
line without an answer. -/
def dialogue : List String → String
  | [] => prompt ++ "\n"
  | line :: lines =>
    if goesOn limits table format line then
      prompt ++ reply limits table format line ++ dialogue lines
    else prompt

/-- What is printed in a dialogue over a whole input. -/
def transcript (input : String) : String :=
  dialogue limits table format (Text.lines input)

end

/-- The formulas of an input, in order. -/
def formulasOfInput (input : String) : List String :=
  (Text.lines input).filterMap formulaOfLine?

/-- The formulas of a file: one on each line that is not blank and is no comment, which starts with
a percent sign. -/
def formulasOfFile (content : String) : List String :=
  (formulasOfInput content).filter fun text => !text.startsWith "%"

end LatexLogic.Session
