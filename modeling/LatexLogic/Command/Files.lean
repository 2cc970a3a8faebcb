import LatexLogic.Table.File
import LatexLogic.Text.Surrogate

/-!
# Paths

Where a path leads, and which directories have to be made so that a path leads to a directory. The
parts of a path stand between slashes, empty parts count for nothing, a single dot stays where it is
and two dots lead back. A path starts in the directory in which the program runs, or at the root if
it begins with a slash. A path is walked part by part: what is not there, and a file in its middle,
end the walk.

A path that holds a null character or a surrogate without a byte, or that is too long, is refused
before anything is looked up, and a name that is too long when it is looked up.
-/

set_option autoImplicit false

namespace LatexLogic.Command

/-- What a path leads to. -/
inductive Entry where
  | file (content : ByteArray)
  | directory

/-- What stands at each place, if anything. A place is told by the names on the way to it; at the
root the list begins with an empty name. -/
structure Files where
  /-- The entry at a place. -/
  entry? : List String → Option Entry

/-- The parts of a path between its slashes. -/
def partsOf (path : String) : List String :=
  (path.splitOn "/").filter (· ≠ "")

/-- The place at which a path starts. -/
def startOf (path : String) : List String :=
  if path.startsWith "/" then [""] else []

/-- The place that is one part further. Above the starting directory two dots are a name, and above
the root there is nothing else. -/
def step (place : List String) (part : String) : List String :=
  if part = "." then place
  else if part = ".." then
    match place.getLast? with
    | none | some ".." => place ++ [part]
    | some "" => place
    | some _ => place.dropLast
  else place ++ [part]

/-- The place to which a path leads, by its names alone. -/
def resolve (path : String) : List String :=
  (partsOf path).foldl step (startOf path)

/-- The places that a path passes, from the start on. -/
def placesAlong (place : List String) : List String → List (List String)
  | [] => [place]
  | part :: rest => place :: placesAlong (step place part) rest

/-- A place written as a path. -/
def joinParts (parts : List String) : String :=
  String.intercalate "/" parts

/-- How many bytes a path may have. -/
def pathLimit : Nat := 4095

/-- How many bytes a name may have. -/
def nameLimit : Nat := 255

/-- Whether a character has bytes in a path. Of the surrogates, the 128 from U+DC80 on stand for
single bytes. -/
def isEncodable (c : Char) : Bool :=
  !Text.isStandIn c || (0xDC80 ≤ Text.codePoint c && Text.codePoint c < 0xDD00)

/-- Why a path of a number of bytes is refused before it is looked up. -/
def pathFault? (path : String) (size : Nat) : Option PathError :=
  if path.toList.any fun c => !isEncodable c then some .notEncodable
  else if path.toList.contains '\x00' then some .nullCharacter
  else if pathLimit < size then some .tooLong
  else none

/-- Whether a place lies in the starting directory. -/
def isInside (place : List String) : Bool :=
  match place with
  | [] | "" :: _ | ".." :: _ => false
  | _ => true

namespace Files

/-- The files with the given names and contents, in the directories that these names tell. -/
def ofContents (contents : List (String × ByteArray)) : Files where
  entry? place :=
    if place.isEmpty || place = [""] || place.all (· = "..") then some .directory
    else
      match contents.find? fun c => resolve c.1 = place with
      | some c => some (.file c.2)
      | none =>
        if contents.any fun c => place.isPrefixOf (resolve c.1) then some .directory else none

/-- Whether a directory stands at a place. -/
def isDirectory (files : Files) (place : List String) : Bool :=
  match files.entry? place with
  | some .directory => true
  | _ => false

/-- The files after some directories have been made. -/
def withDirectories (files : Files) (made : List (List String)) : Files where
  entry? place := if made.contains place then some .directory else files.entry? place

/-! ## Reading -/

/-- What is found at the end of a walk. -/
def walk (files : Files) (place : List String) : List String → Except PathError Entry
  | [] => .ok .directory
  | part :: rest =>
    if nameLimit < part.utf8ByteSize then .error .tooLong
    else
      match files.entry? (step place part) with
      | none => .error .missing
      | some .directory => walk files (step place part) rest
      | some (.file content) =>
        if rest.isEmpty then .ok (.file content) else .error .notADirectory

/-- The content of the file under a path. -/
def read (files : Files) (path : String) : Except PathError ByteArray :=
  match pathFault? path path.utf8ByteSize with
  | some e => .error e
  | none =>
    if path.isEmpty then .error .missing
    else
      match files.walk (startOf path) (partsOf path) with
      | .error e => .error e
      | .ok .directory => .error .isDirectory
      | .ok (.file content) => if path.endsWith "/" then .error .notADirectory else .ok content

/-! ## Making directories -/

/-- Why a directory cannot be made. -/
inductive DirectoryError where
  | path (error : PathError)
  | fileExists
  /-- There is no path to it. -/
  | unnamed
  /-- Too many directories inside one another are missing. -/
  | tooDeep
  deriving DecidableEq, Repr

/-- What comes of making directories: those that are made, outer ones first, and the error that ends
it, if one does. -/
structure Making where
  /-- The directories that are made. -/
  made : List (List String)
  /-- Why no more are made. -/
  error? : Option DirectoryError
  deriving DecidableEq, Repr

/-- How many directories inside one another can be made at once. -/
def makingLimit : Nat := 950

/-- What becomes of the rest of a walk behind a file. The next part is refused for its own sake
first; single dots behind directories that had to be made are not looked at. -/
def behindFile (begun : Bool) (size : Nat) : List String → Option DirectoryError
  | [] => some .fileExists
  | next :: rest =>
    match pathFault? next (size + next.utf8ByteSize) with
    | some e => some (.path e)
    | none =>
      if begun && next = "." then
        if rest.isEmpty then none else behindFile begun (size + next.utf8ByteSize + 1) rest
      else some (.path .notADirectory)

/-- Makes the directories that are missing on a walk. Given are whether one was missing before, and
the bytes of the path up to here. -/
def makeAlong (files : Files) (place : List String) (begun : Bool) (size : Nat) :
    List String → Making
  | [] => ⟨[], none⟩
  | part :: rest =>
    let here := step place part
    let size := size + part.utf8ByteSize
    match pathFault? part size with
    | some e => ⟨[], some (.path e)⟩
    | none =>
      if nameLimit < part.utf8ByteSize then ⟨[], some (.path .tooLong)⟩
      else
        match files.entry? here with
        | some .directory => makeAlong files here begun (size + 1) rest
        | some (.file _) => ⟨[], behindFile begun (size + 1) rest⟩
        | none =>
          if makingLimit < rest.length then ⟨[], some .tooDeep⟩
          else
            -- A directory that was made stays, even if a later one cannot be made.
            let further := makeAlong files here true (size + 1) rest
            { further with made := here :: further.made }

/-- Makes the directories that are missing so that a path leads to a directory. -/
def makeDirectories (files : Files) : Option String → Making
  | none => ⟨[], some .unnamed⟩
  | some path =>
    if path.isEmpty then ⟨[], some (.path .missing)⟩
    else
      let start := if path.startsWith "/" then 1 else 0
      let making := files.makeAlong (startOf path) false start (partsOf path)
      { making with made := making.made.eraseDups }

end Files

end LatexLogic.Command
