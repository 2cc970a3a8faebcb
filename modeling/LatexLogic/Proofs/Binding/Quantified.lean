import LatexLogic.Proofs.Grammar.Built
import LatexLogic.Proofs.Table.Reachable

/-!
# Nodes of quantifiers

The checks on a tree take a node for a quantifier's if it has two arguments and carries the label of
a quantifier (`Tree.isQuantified`). Whether a quantifier was read is another question, which marked
trees answer: they remember the branch that built a node (`MarkedTree.isQuantifier`).

Over a well-formed table the two agree on every tree that is read (`MarkedTree.Built.isQuantified_eq`):
constructs that share a label are of one kind, and a node has as many arguments as its construct
takes. Both answers are the same at every path into the tree, before and after the declarations of
metavariables are stripped (`MarkedTree.SameQuantifiers`).
-/

set_option autoImplicit false

namespace LatexLogic

/-! ## Two ways to tell a quantifier -/

/-- The node of a quantifier, as the checks tell it: by the label and the number of arguments. -/
def Tree.isQuantified (isQuantifier : String → Bool) : Tree → Bool
  | .node label [_, _] => isQuantifier label
  | _ => false

/-- Only nodes are told to be those of quantifiers, so declarations do not matter. -/
theorem Tree.isQuantified_erased (isQuantifier : String → Bool) (t : Tree) :
    t.erased.isQuantified isQuantifier = t.isQuantified isQuantifier := by
  cases t with
  | atom label => rfl
  | metavar name declared => rfl
  | node label args =>
    rw [erased, erasedList_eq_map]
    rcases args with _ | ⟨_, _ | ⟨_, _ | _⟩⟩ <;> rfl

namespace MarkedTree

/-- The node was built by the branch that reads quantifiers. -/
def isQuantifier : MarkedTree → Bool
  | .node branch _ _ _ => branch = .quantifier
  | _ => false

/-! ## Paths -/

/-- The arguments of a node. -/
def args : MarkedTree → List MarkedTree
  | .node _ _ _ args => args
  | _ => []

/-- The part of a marked tree to which a path leads, if it stays inside the tree. -/
def at? (t : MarkedTree) : List Nat → Option MarkedTree
  | [] => some t
  | i :: p => t.args[i]?.bind fun arg => arg.at? p

@[simp] theorem at?_cons (t : MarkedTree) (i : Nat) (p : List Nat) :
    t.at? (i :: p) = t.args[i]?.bind fun arg => arg.at? p := rfl

@[simp] theorem args_unmarked (t : MarkedTree) : t.unmarked.args = t.args.map unmarked := by
  cases t with
  | atom label => rfl
  | metavar name declared => rfl
  | node branch lexeme c args =>
    rw [unmarked_node]
    rfl

/-- Paths lead to the same parts, without their marks. -/
theorem at?_unmarked (p : List Nat) :
    ∀ t : MarkedTree, t.unmarked.at? p = (t.at? p).map unmarked := by
  induction p with
  | nil =>
    intro t
    rfl
  | cons i p ih =>
    intro t
    rw [Tree.at?_cons, at?_cons, args_unmarked, List.getElem?_map]
    cases t.args[i]? with
    | none => rfl
    | some arg => exact ih arg

section Built

variable {has : Construct → Prop} {t : MarkedTree}

theorem Built.of_mem_args (h : Built has t) {arg : MarkedTree} (harg : arg ∈ t.args) :
    Built has arg := by
  cases h with
  | atom label => cases harg
  | metavar name declared => cases harg
  | node _ _ _ hargs => exact hargs arg harg

/-- Every part of a built tree is built. -/
theorem Built.at? (h : Built has t) {p : List Nat} {part : MarkedTree}
    (hpart : t.at? p = some part) :
    Built has part := by
  induction p generalizing t with
  | nil =>
    obtain rfl := Option.some.inj hpart
    exact h
  | cons i p ih =>
    obtain ⟨arg, harg, hpart⟩ := Option.bind_eq_some_iff.1 hpart
    exact ih (h.of_mem_args (List.mem_of_getElem? harg)) hpart

end Built

/-! ## Agreement -/

/-- The branch for quantifiers builds the nodes of quantifiers, and no other branch does. -/
theorem branch?_eq_quantifier_iff {c : Construct} :
    c.branch? = some .quantifier ↔ c.kind = .quantifier := by
  rcases c with ⟨_, _ | _ | _⟩ | _ | ⟨_, _ | _⟩ | ⟨_, _ | _⟩ <;>
    simp [Construct.branch?, Construct.kind]

/-- In a tree built over a well-formed table the checks take a node for a quantifier's exactly if the
branch for quantifiers built it. -/
theorem Built.isQuantified_eq {table : Table} (htable : table.WellFormed) {t : MarkedTree}
    (h : Built table.Has t) :
    t.unmarked.isQuantified table.isQuantifierLabel = t.isQuantifier := by
  cases h with
  | atom label => rfl
  | metavar name declared => rfl
  | @node branch lexeme c args hc hbranch hargs _ =>
    have hlabel := Table.isQuantifierLabel_eq htable hc
    have hkind : branch = .quantifier ↔ c.kind = .quantifier := by
      rw [← branch?_eq_quantifier_iff, hbranch, Option.some.injEq]
    rw [unmarked_node, isQuantifier]
    by_cases hquantifier : c.kind = .quantifier
    · -- A quantifier takes two arguments, and its label tells that it is one.
      have htwo : args.length = 2 := by
        cases c with
        | quantifier label => exact hargs
        | _ => cases hquantifier
      obtain ⟨bound, scope, rfl⟩ := List.length_eq_two.1 htwo
      simp only [List.map_cons, List.map_nil, Tree.isQuantified, hlabel, hquantifier, hkind]
    · -- The label of another construct is no quantifier's, whatever the number of arguments.
      have hnone : ∀ ts, (Tree.node c.label ts).isQuantified table.isQuantifierLabel = false := by
        intro ts
        unfold Tree.isQuantified
        split
        · next heq =>
          obtain ⟨rfl, -⟩ := Tree.node.inj heq
          rw [hlabel, decide_eq_false hquantifier]
        · rfl
      rw [hnone, decide_eq_false (mt hkind.1 hquantifier)]

/-- At every path the checks take the part of a tree for a quantifier's node exactly if the branch for
quantifiers built the part of the marked tree. -/
def SameQuantifiers (isQuantifierLabel : String → Bool) (marked : MarkedTree) (t : Tree) : Prop :=
  ∀ p, (t.at? p).map (Tree.isQuantified isQuantifierLabel) = (marked.at? p).map isQuantifier

theorem Built.sameQuantifiers {table : Table} (htable : table.WellFormed) {marked : MarkedTree}
    (h : Built table.Has marked) :
    marked.SameQuantifiers table.isQuantifierLabel marked.unmarked := by
  intro p
  rw [at?_unmarked, Option.map_map]
  cases hpart : marked.at? p with
  | none => rfl
  | some part => exact congrArg some ((h.at? hpart).isQuantified_eq htable)

/-- Stripping the declarations changes nothing. -/
theorem SameQuantifiers.erased {isQuantifierLabel : String → Bool} {marked : MarkedTree} {t : Tree}
    (h : marked.SameQuantifiers isQuantifierLabel t) :
    marked.SameQuantifiers isQuantifierLabel t.erased := by
  intro p
  rw [← h p, Tree.at?_erased, Option.map_map]
  congr 1
  funext part
  exact Tree.isQuantified_erased isQuantifierLabel part

end MarkedTree

/-! ## Trees of texts -/

/-- A tree that is read from a text has a marked tree, over the constructs of the table. -/
theorem Marked.exists_of_treeOfTokens {table : Table} {depth : Nat} {text : String} {raw : Tree}
    (h : Formula.treeOfTokens depth (tokenize table text) = .ok raw) :
    ∃ marked, treeOfTokens depth (tokenize table text) = .ok marked ∧ marked.unmarked = raw ∧
      marked.Built table.Has := by
  rw [treeOfTokens_eq_map] at h
  cases hmarked : treeOfTokens depth (tokenize table text) with
  | error failure =>
    rw [hmarked] at h
    cases h
  | ok marked =>
    rw [hmarked] at h
    exact ⟨marked, rfl, Except.ok.inj h,
      built_of_treeOfTokens hmarked fun _ ht => within_of_mem_tokenize ht⟩

/-- What holds of every table with text labels that is reached, and what the checks on trees get from
it. Spellings are not empty, every construct passes the checks of its kind, constructs that share a
label are of one kind, and the labels of quantifiers are those of the quantifiers that the table has
now. Hence in the tree of any text, as it is read and after its declarations are stripped, the checks
take exactly those nodes for quantifiers' that the branch for quantifiers built. -/
theorem Table.Reachable.tellsQuantifiers {table : Table} (h : table.valued.Reachable) :
    (∀ entry ∈ table.entries, entry.1 ≠ "" ∧
      Construct.ofEntries (Data.textKeyed entry.2.valued.toEntries) = .ok entry.2.valued) ∧
    (∀ a ∈ table.entries, ∀ b ∈ table.entries, a.2.label = b.2.label → a.2.kind = b.2.kind) ∧
    (∀ label, table.isQuantifierLabel label = true ↔
      ∃ s, table.get? s = some (.quantifier label)) ∧
    ∀ text raw, Formula.treeOfTokens (text.length + 1) (tokenize table text) = .ok raw →
      ∃ marked, Marked.treeOfTokens (text.length + 1) (tokenize table text) = .ok marked ∧
        marked.unmarked = raw ∧ marked.SameQuantifiers table.isQuantifierLabel raw ∧
        ∀ tree declarations, raw.strip = .ok (tree, declarations) →
          marked.SameQuantifiers table.isQuantifierLabel tree := by
  have htable := Table.wellFormed_valued_iff.1 h.wellFormed
  refine ⟨?checked, htable.kind_eq_of_label_eq, ?labels, ?trees⟩
  case checked =>
    intro entry hentry
    refine ⟨htable.spelling_ne_empty entry hentry, Construct.ofEntries_toEntries ?_⟩
    rw [Construct.label_valued]
    nofun
  case labels =>
    intro label
    exact htable.isQuantifierLabel_iff_get?
  case trees =>
    intro text raw hraw
    obtain ⟨marked, hmarked, rfl, hbuilt⟩ := Marked.exists_of_treeOfTokens hraw
    have hsame := hbuilt.sameQuantifiers htable
    refine ⟨marked, hmarked, rfl, hsame, ?_⟩
    intro tree declarations hstrip
    obtain ⟨rfl, -⟩ := marked.unmarked.strip_eq_ok tree declarations hstrip
    exact hsame.erased

/-- After the existential quantifier is replaced, its new label is a quantifier's and its old one is
not, and its nodes are told by the new one. -/
theorem Table.Reachable.tellsQuantifiers_some :
    let table : Table := ⟨Table.insert Table.standard.entries ("exists", .quantifier "some")⟩
    table.valued.Reachable ∧ table.isQuantifierLabel "some" = true ∧
      table.isQuantifierLabel "exists" = false ∧
      ∃ marked, Marked.treeOfTokens 18 (tokenize table "\\exists x \\phi(x)") = .ok marked ∧
        marked.SameQuantifiers table.isQuantifierLabel
          (.node "some" [.atom "x", .metavar "phi" ["x"]]) := by
  intro table
  have hitem : (Table.Item.construct (Construct.quantifier "some").valued).read =
      .ok (.construct (Construct.quantifier "some").valued) := rfl
  have hextended := Table.extendItems_singleton_valued (t := Table.standard) (s := "exists") hitem
    ⟨by decide, by decide, by decide⟩
  have hreachable : table.valued.Reachable :=
    .extended (Table.reachable_iff_wellFormed.2 Table.standard_wellFormed) hextended
  obtain ⟨-, -, hlabels, htrees⟩ := hreachable.tellsQuantifiers
  have hraw : Formula.treeOfTokens 18 (tokenize table "\\exists x \\phi(x)") =
      .ok (.node "some" [.atom "x", .metavar "phi" ["x"]]) := by decide +kernel
  obtain ⟨marked, hmarked, -, hsame, -⟩ := htrees "\\exists x \\phi(x)" _ hraw
  have hsome : table.get? "exists" = some (.quantifier "some") := by rfl
  exact ⟨hreachable, (hlabels "some").2 ⟨"exists", hsome⟩, by rfl, marked, hmarked, hsame⟩

end LatexLogic
