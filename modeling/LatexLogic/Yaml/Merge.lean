import LatexLogic.Yaml.Node

/-!
# Merge keys

A mapping under a merge key lends its entries to the mapping around it, and a sequence there those
of its mappings, the last first. Lent entries stand in front of the own ones, which therefore
replace them. A mapping that lends entries has taken in its own lent ones before.

A reference may lead back to a mapping that is still taking in entries. It lends what it has left
then: its own entries, and the lent ones of its merge keys that have not come yet.
-/

set_option autoImplicit false

namespace LatexLogic.Yaml

/-- The entries of a mapping. -/
abbrev Entries := List (Node × Node)

namespace Entries

/-- Takes in the entries that values of merge keys lend. To know these, the entries that are left
without the key are given too. -/
def takeIn (lent : (left : Entries) → Node → Except YamlError Entries) (taken own : Entries) :
    Entries → Except YamlError Entries
  | [] => .ok (taken ++ own)
  | (key, value) :: rest =>
    if key.meaning = .mergeKey then
      match lent (own ++ rest) value with
      | .ok entries => takeIn lent (taken ++ entries) own rest
      | .error e => .error e
    else takeIn lent taken (own ++ [(key, value)]) rest

/-- The entries that the value of a merge key lends, if it is known which ones a mapping lends. -/
def lentBy (ofMapping : Nat → Entries → Except YamlError Entries) : Node → Except YamlError Entries
  | .mapping n _ entries => ofMapping n entries
  | .sequence _ _ items => do
    let lists ← items.mapM fun
      | .mapping n _ entries => ofMapping n entries
      | _ => throw (.malformed "expected a mapping for merging")
    return lists.reverse.flatten
  | _ => .error (.malformed "expected a mapping or a list of mappings for merging")

end Entries

namespace Document

/-- The collection to which a reference leads back; any other node is itself. -/
def resolve (d : Document) : Node → Node
  | .enclosing n =>
    let isMeant : Node → Bool
      | .enclosing _ => false
      | node => node.number? = some n
    (d.anchored.find? isMeant).getD (.enclosing n)
  | node => node

/-- The items of a collection with the collections to which references among them lead back. -/
def resolveItems (d : Document) : Node → Node
  | .sequence n tag items => .sequence n tag (items.map d.resolve)
  | node => node

/-- The entries of a mapping after it took in what is lent to it. Given are the mappings that are
still taking in, with what they have left, and a bound for their number. -/
def mergedEntries (d : Document) : (bound : Nat) → (waiting : List (Nat × Entries)) → Nat →
    Entries → Except YamlError Entries
  | 0, _, _, _ => .ok []
  | bound + 1, waiting, n, entries =>
    if entries.any fun entry => entry.1.meaning = .mergeKey then
      let lent (left : Entries) (value : Node) : Except YamlError Entries :=
        let waiting := (n, left) :: waiting
        Entries.lentBy
          (fun m entries => d.mergedEntries bound waiting m ((waiting.lookup m).getD entries))
          (d.resolveItems (d.resolve value))
      Entries.takeIn lent [] [] entries
    else .ok entries

end Document

end LatexLogic.Yaml
