import LatexLogic.Text.Surrogate
import LatexLogic.Yaml.Cursor
import LatexLogic.Yaml.Error

/-!
# Scalars of YAML

The text of a scalar, in its four written forms: plain, in single quotes, in double quotes with
escapes, and as an indented block. Inside the first three a line end is folded into a space, or into
the empty lines that follow it.

Every reader answers with the text and the cursor behind it, or with what is wrong with the
document. Loops are bounded by the number of characters that are left.
-/

set_option autoImplicit false

namespace LatexLogic.Yaml

namespace Cursor

/-! ## Plain scalars -/

/-- The characters of a plain scalar up to the next white space or indicator. -/
def plainWord (inFlow : Bool) : List Char → List Char
  | [] => []
  | c :: cs =>
    let isIndicator (d : Char) : Bool := d = ',' || d = '[' || d = ']' || d = '\x7b' || d = '\x7d'
    let endsKey :=
      match cs with
      | [] => true
      | d :: _ => isSeparator d || (inFlow && isIndicator d)
    if isSeparator c || (c = ':' && endsKey) || (inFlow && (c = '?' || isIndicator c)) then []
    else c :: plainWord inFlow cs

/-- The empty lines after a line end of a plain scalar, unless a document mark follows one. -/
def plainBreaks : (limit : Nat) → Cursor → Option (List Char) × Cursor
  | 0, p => (some [], p)
  | limit + 1, p =>
    match p.takeBreak? with
    | some (b, p) =>
      if p.atDocumentMark then (none, p)
      else
        let (more, p) := plainBreaks limit p
        (more.map (b :: ·), p)
    | none => if p.peek = some ' ' then plainBreaks limit p.forward else (some [], p)

/-- The white space after a word of a plain scalar, as it is read, and whether a line ends in it.
Nothing is read where the scalar is at its end. -/
def plainGap (p : Cursor) : List Char × Bool × Cursor :=
  let (spaces, p) := p.takeWhile (· = ' ')
  match p.takeBreak? with
  | none => (spaces, false, p)
  | some (b, p) =>
    if p.atDocumentMark then ([], true, p)
    else
      match plainBreaks p.rest.length p with
      | (none, p) => ([], true, p)
      | (some breaks, p) => (foldBreak b breaks, true, p)

/-- Reads the words of a plain scalar after the given white space. -/
def plainWords (inFlow : Bool) (indent : Int) :
    (limit : Nat) → (gap : List Char) → (lineEnded : Bool) → Cursor → List Char × Bool × Cursor
  | 0, _, lineEnded, p => ([], lineEnded, p)
  | limit + 1, gap, lineEnded, p =>
    -- A number sign behind white space starts a comment.
    let word := if p.peek = some '#' then [] else plainWord inFlow p.rest
    if word.isEmpty then ([], lineEnded, p)
    else
      let (next, ended, p) := (p.skip word.length).plainGap
      if next.isEmpty || p.peek = some '#' || (!inFlow && p.column < indent) then
        (gap ++ word, ended, p)
      else
        let (more, ended, p) := plainWords inFlow indent limit next ended p
        (gap ++ word ++ more, ended, p)

/-- Reads a plain scalar, and whether a line ends after it. In a block its later lines stand at the
given column or further. -/
def plainScalar (p : Cursor) (inFlow : Bool) (indent : Int) : List Char × Bool × Cursor :=
  plainWords inFlow indent p.rest.length [] false p

/-! ## Quoted scalars -/

/-- The empty lines after a line end of a quoted scalar. -/
def quotedBreaks : (limit : Nat) → Cursor → Except YamlError (List Char × Cursor)
  | 0, p => .ok ([], p)
  | limit + 1, p =>
    if p.atDocumentMark then .error (.malformed "found unexpected document separator")
    else
      let p := p.skipWhile fun c => c = ' ' || c = '\t'
      match p.takeBreak? with
      | none => .ok ([], p)
      | some (b, p) =>
        match quotedBreaks limit p with
        | .ok (more, p) => .ok (b :: more, p)
        | .error e => .error e

/-- The white space inside a quoted scalar, as it is read. -/
def quotedGap (p : Cursor) : Except YamlError (List Char × Cursor) :=
  let (spaces, p) := p.takeWhile fun c => c = ' ' || c = '\t'
  match p.peek with
  | none => .error (.malformed "found unexpected end of stream")
  | some _ =>
    match p.takeBreak? with
    | none => .ok (spaces, p)
    | some (b, p) =>
      match quotedBreaks (p.rest.length + 1) p with
      | .ok (breaks, p) => .ok (foldBreak b breaks, p)
      | .error e => .error e

/-- The character that a single letter after a backslash stands for. -/
def escapedChar? : Char → Option Char
  | '0' => some '\x00'
  | 'a' => some '\x07'
  | 'b' => some '\x08'
  | 't' => some '\t'
  | '\t' => some '\t'
  | 'n' => some '\n'
  | 'v' => some '\x0b'
  | 'f' => some '\x0c'
  | 'r' => some '\r'
  | 'e' => some '\x1b'
  | ' ' => some ' '
  | '"' => some '"'
  | '\\' => some '\\'
  | '/' => some '/'
  | 'N' => some '\x85'
  | '_' => some '\xa0'
  | 'L' => some '\u2028'
  | 'P' => some '\u2029'
  | _ => none

/-- How many hexadecimal digits follow a letter that announces a code point. -/
def escapeWidth? : Char → Option Nat
  | 'x' => some 2
  | 'u' => some 4
  | 'U' => some 8
  | _ => none

/-- The value of a hexadecimal digit. -/
def hexValue? (c : Char) : Option Nat :=
  if '0' ≤ c && c ≤ '9' then some (c.toNat - '0'.toNat)
  else if 'a' ≤ c && c ≤ 'f' then some (c.toNat - 'a'.toNat + 10)
  else if 'A' ≤ c && c ≤ 'F' then some (c.toNat - 'A'.toNat + 10)
  else none

/-- The number that hexadecimal digits stand for. -/
def hexNumber? (cs : List Char) : Option Nat :=
  cs.foldl (fun n c => do return 16 * (← n) + (← hexValue? c)) (some 0)

/-- Reads what follows a backslash in double quotes. -/
def escape (p : Cursor) : Except YamlError (List Char × Cursor) :=
  match p.peek with
  | none => .error (.malformed "found unexpected end of stream")
  | some c =>
    match escapedChar? c, escapeWidth? c with
    | some d, _ => .ok ([d], p.forward)
    | none, some width =>
      let p := p.forward
      let digits := p.rest.take width
      match hexNumber? digits with
      | some n =>
        if digits.length < width then .error (.malformed "found an escape that is cut short")
        else if n < 0x110000 then .ok ([Text.ofCodePoint n], p.skip width)
        else .error (.value (.codePoint n))
      | none => .error (.malformed "expected an escape sequence of hexadecimal numbers")
    | none, none =>
      match p.takeBreak? with
      | some (_, p) => quotedBreaks (p.rest.length + 1) p
      | none => .error (.malformed "found unknown escape character")

/-- Reads the inside of a quoted scalar and the closing quote. -/
def quotedRest (quote : Char) : (limit : Nat) → Cursor → Except YamlError (List Char × Cursor)
  | 0, _ => .error (.malformed "found unexpected end of stream")
  | limit + 1, p =>
    let continued (part : List Char) (p : Cursor) : Except YamlError (List Char × Cursor) :=
      match quotedRest quote limit p with
      | .ok (more, p) => .ok (part ++ more, p)
      | .error e => .error e
    match p.rest with
    | [] => .error (.malformed "found unexpected end of stream")
    | c :: cs =>
      if c = quote then
        -- Two single quotes stand for one.
        if quote = '\'' && cs.head? = some '\'' then continued ['\''] (p.skip 2)
        else .ok ([], p.forward)
      else if isSeparator c then
        match p.quotedGap with
        | .ok (part, p) => continued part p
        | .error e => .error e
      else if c = '\\' && quote = '"' then
        match p.forward.escape with
        | .ok (part, p) => continued part p
        | .error e => .error e
      else continued [c] p.forward

/-- Reads a quoted scalar from its opening quote on. -/
def quotedScalar (p : Cursor) (quote : Char) : Except YamlError (List Char × Cursor) :=
  quotedRest quote p.rest.length p.forward

/-! ## Block scalars -/

/-- Which line ends at the end of a block are kept. -/
inductive Chomping where
  | strip
  | clip
  | keep

/-- Skips spaces up to a column. -/
def skipSpacesTo (indent : Nat) (p : Cursor) : Cursor :=
  p.skip (min (indent - p.column) (p.rest.takeWhile (· = ' ')).length)

/-- The empty lines in front of a line of a block, up to the given column of that line. -/
def blockBreaks (indent : Nat) : (limit : Nat) → Cursor → List Char × Cursor
  | 0, p => ([], skipSpacesTo indent p)
  | limit + 1, p =>
    let p := skipSpacesTo indent p
    match p.takeBreak? with
    | none => ([], p)
    | some (b, p) =>
      let (more, p) := blockBreaks indent limit p
      (b :: more, p)

/-- The empty lines in front of the first line of a block, and the greatest column that their spaces
reach. -/
def blockIndentation : (limit : Nat) → (deepest : Nat) → Cursor → List Char × Nat × Cursor
  | 0, deepest, p => ([], deepest, p)
  | limit + 1, deepest, p =>
    match p.takeBreak? with
    | some (b, p) =>
      let (more, deepest, p) := blockIndentation limit deepest p
      (b :: more, deepest, p)
    | none =>
      if p.peek = some ' ' then
        let p := p.forward
        blockIndentation limit (max deepest p.column) p
      else ([], deepest, p)

/-- Whether the cursor stands at the start of a line of a block. -/
def atBlockLine (indent : Nat) (p : Cursor) : Bool :=
  p.column = indent && p.peek.isSome

/-- Whether a line starts with more white space than its block. -/
def startsWithSpace (p : Cursor) : Bool :=
  p.peek = some ' ' || p.peek = some '\t'

/-- Reads the lines of a block. The first result is the text up to the last line, the second the
last line end and the third the empty lines behind it. -/
def blockLines (folded : Bool) (indent : Nat) :
    (limit : Nat) → (breaks : List Char) → Cursor → List Char × List Char × List Char × Cursor
  | 0, breaks, p => ([], [], breaks, p)
  | limit + 1, breaks, p =>
    if atBlockLine indent p then
      let indented := startsWithSpace p
      let (line, p) := p.takeWhile fun c => !isBreak c
      let (ending, p) : List Char × Cursor :=
        match p.takeBreak? with
        | some (b, p) => ([b], p)
        | none => ([], p)
      let (next, p) := blockBreaks indent p.rest.length p
      if atBlockLine indent p then
        let joint : List Char :=
          if folded && ending = ['\n'] && !indented && !startsWithSpace p then
            if next.isEmpty then [' '] else []
          else ending
        let (text, last, tail, p) := blockLines folded indent limit next p
        (breaks ++ line ++ joint ++ text, last, tail, p)
      else (breaks ++ line, ending, next, p)
    else ([], [], breaks, p)

/-- Reads the chomping and the indentation that the head of a block gives. -/
def blockHead (p : Cursor) : Except YamlError (Chomping × Option Nat × Cursor) :=
  let chomping (p : Cursor) : Option Chomping :=
    match p.peek with
    | some '+' => some .keep
    | some '-' => some .strip
    | _ => none
  let width (p : Cursor) : Option Nat :=
    p.peek.bind fun c => if '0' ≤ c && c ≤ '9' then some (c.toNat - '0'.toNat) else none
  let (style, increment, p) : Option Chomping × Option Nat × Cursor :=
    match chomping p with
    | some style =>
      match width p.forward with
      | some n => (some style, some n, p.skip 2)
      | none => (some style, none, p.forward)
    | none =>
      match width p with
      | some n =>
        match chomping p.forward with
        | some style => (some style, some n, p.skip 2)
        | none => (none, some n, p.forward)
      | none => (none, none, p)
  if increment = some 0 then .error (.malformed "expected an indentation indicator other than zero")
  else
    match p.peek with
    | none => .ok (style.getD .clip, increment, p)
    | some c =>
      if c = ' ' || isBreak c then .ok (style.getD .clip, increment, p)
      else .error (.malformed "expected chomping or indentation indicators")

/-- Skips spaces and a comment, and takes the line end that has to follow. -/
def restOfLine (p : Cursor) : Except YamlError Cursor :=
  let p := p.skipWhile (· = ' ')
  let p := if p.peek = some '#' then p.skipWhile fun c => !isBreak c else p
  match p.peek with
  | none => .ok p
  | some _ =>
    match p.takeBreak? with
    | some (_, p) => .ok p
    | none => .error (.malformed "expected a comment or a line break")

/-- Reads a block scalar from its indicator on, inside a collection of the given indentation. -/
def blockScalar (p : Cursor) (folded : Bool) (indent : Int) :
    Except YamlError (List Char × Cursor) := do
  let (chomping, increment, p) ← p.forward.blockHead
  let p ← p.restOfLine
  let least := (max (indent + 1) 1).toNat
  let (breaks, column, p) : List Char × Nat × Cursor :=
    match increment with
    | some n =>
      let column := least + n - 1
      let (breaks, p) := blockBreaks column p.rest.length p
      (breaks, column, p)
    | none =>
      let (breaks, deepest, p) := blockIndentation p.rest.length 0 p
      (breaks, max least deepest, p)
  let (text, ending, tail, p) := blockLines folded column (p.rest.length + 1) breaks p
  return (match chomping with
    | .strip => text
    | .clip => text ++ ending
    | .keep => text ++ ending ++ tail, p)

end Cursor

end LatexLogic.Yaml
