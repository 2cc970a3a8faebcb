import LatexLogic.Yaml.Error

/-!
# Faults by depth

The values of a document are made collection by collection, an outer one before those inside it. So
of several faults the one in the outermost collection is met first, and of those in equally deep
collections the one that stands first. `Checked` is the result of making a value: the value, or the
fault that is met first.
-/

set_option autoImplicit false

namespace LatexLogic.Yaml

/-- Something wrong inside a collection. -/
structure Fault where
  /-- How many collections stand around it. -/
  depth : Nat
  /-- What is wrong. -/
  error : YamlError
  deriving DecidableEq, Repr

/-- A value, or the fault that keeps it from being made. -/
abbrev Checked (α : Type) := Except Fault α

namespace Checked

variable {α β : Type}

/-- A fault at a depth. -/
def fault (depth : Nat) (error : YamlError) : Checked α :=
  .error ⟨depth, error⟩

/-- What comes of a reading at a depth. -/
def ofExcept (depth : Nat) : Except YamlError α → Checked α
  | .ok a => .ok a
  | .error e => fault depth e

/-- A change of the value. -/
def map (f : α → β) : Checked α → Checked β
  | .ok a => .ok (f a)
  | .error e => .error e

/-- Two values, of which the first stands in front of the second. -/
def both : Checked α → Checked β → Checked (α × β)
  | .ok a, .ok b => .ok (a, b)
  | .error e, .error f => .error (if f.depth < e.depth then f else e)
  | .error e, .ok _ => .error e
  | .ok _, .error f => .error f

/-- The values of a list. -/
def all : List (Checked α) → Checked (List α)
  | [] => .ok []
  | a :: as => (both a (all as)).map fun (a, as) => a :: as

end Checked

end LatexLogic.Yaml
