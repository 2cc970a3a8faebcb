import LatexLogic.Table.Basic
import LatexLogic.Yaml.Error

/-!
# Syntax files

A syntax file is a YAML document that maps spellings to constructs. It can describe a table of its
own or extend another one. A document without content, or with an empty value, describes no entries.

How a document is read is for the host to say; here only its value matters, or the error in its
place.
-/

set_option autoImplicit false

namespace LatexLogic

/-- Why a path leads to no content. -/
inductive PathError where
  /-- Nothing has this name. -/
  | missing
  /-- A directory has this name. -/
  | isDirectory
  /-- A file stands where the path needs a directory. -/
  | notADirectory
  /-- The path, or a name in it, has too many bytes. -/
  | tooLong
  /-- The path holds a null character. -/
  | nullCharacter
  /-- The path holds a code point that has no bytes. -/
  | notEncodable
  deriving DecidableEq, Repr

/-- What is said of an error, in front of the path. -/
def PathError.message : PathError → String
  | missing => "No such file"
  | isDirectory => "Is a directory"
  | notADirectory => "Not a directory"
  | tooLong => "File name too long"
  | nullCharacter => "Null character in a file name"
  | notEncodable => "File name that cannot be encoded"

/-- Why a syntax file gives no table. -/
inductive SyntaxFileError where
  /-- There is no path to it. -/
  | unnamed
  | unreadable (path : String) (error : PathError)
  | notUtf8
  | yaml (error : Yaml.YamlError)
  | notAMapping (path : String)
  | table (error : TableError)
  deriving Repr

namespace SyntaxFileError

/-- The message of an error, where it has one. -/
def message? : SyntaxFileError → Option String
  | unnamed => none
  | unreadable path .missing => some ("YAML file not found at " ++ path ++ ".")
  | unreadable path error => some (error.message ++ ": " ++ path)
  | notUtf8 => some "The file is not UTF-8 text"
  | yaml (.malformed problem) => some problem
  | yaml .tooDeep => none
  | yaml (.value fault) => fault.message?
  | notAMapping path =>
    some ("Syntax table at " ++ path ++ " must be a mapping from spelling to construct")
  | table error => error.message?

/-- Whether the error was met while the file itself was read, which is reported once more than an
error of the table in it. -/
def isOfFile : SyntaxFileError → Bool
  | unreadable _ .missing => true
  | yaml (.malformed _) => true
  | _ => false

/-- Whether a run reports the error. -/
def isReported (shows : Data → Bool) : SyntaxFileError → Bool
  | unnamed => false
  | yaml .tooDeep => false
  | yaml (.value fault) => fault.message?.isSome
  | table error => error.isReported shows
  | _ => true

end SyntaxFileError

namespace Table

/-- The entries that the value of a document describes. -/
def entriesOfDocument (path : String) (d : Data) : Except SyntaxFileError (List (Data × Data)) :=
  if d.isEmpty then .ok []
  else
    match d with
    | .map entries => .ok entries
    | _ => .error (.notAMapping path)

/-- The table of a syntax file, as an extension of another table if one is given. -/
def ofFile (readDocument : String → Except Yaml.YamlError Data) (path : String)
    (base? : Option (Table Data)) (content : Except PathError ByteArray) :
    Except SyntaxFileError (Table Data) :=
  match content with
  | .error e => .error (.unreadable path e)
  | .ok bytes =>
    match String.fromUTF8? bytes with
    | none => .error .notUtf8
    | some text =>
      match readDocument text with
      | .error e => .error (.yaml e)
      | .ok d =>
        match entriesOfDocument path d with
        | .error e => .error e
        | .ok entries =>
          let table :=
            match base? with
            | none => ofData entries
            | some base => base.extend entries
          match table with
          | .ok t => .ok t
          | .error e => .error (.table e)

end Table

end LatexLogic
