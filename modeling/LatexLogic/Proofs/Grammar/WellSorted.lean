import LatexLogic.Proofs.Binding.Scope
import LatexLogic.Proofs.Token.Layout

/-!
# What is read is well sorted

Whatever formula or term is read from the tokens of a text, at whatever place and up to whatever
threshold, is one over the table: its nodes are made of the constructs of the table, each with as
many arguments as the construct takes, and formulas, terms and names stand where they belong
(`wellSorted_of_read`).
-/

set_option autoImplicit false

namespace LatexLogic

namespace Tree

/-- Every node carries the label of a construct and has as many arguments as the construct takes. -/
def NodesDeclared (has : Construct → Prop) (t : Tree) : Prop :=
  ∀ p label args, t.at? p = some (.node label args) →
    ∃ c, has c ∧ c.label = label ∧ c.arity = args.length

section Parts

variable {has : Construct → Prop}

/-- Every part of a sorted tree is sorted. -/
theorem IsSorted.of_at? {has : Construct → Prop} (p : List Nat) :
    ∀ {t s : Tree}, t.IsSorted has → t.at? p = some s → s.IsSorted has := by
  induction p with
  | nil =>
    intro t s ht hs
    obtain rfl := Option.some.inj hs
    exact ht
  | cons i p ih =>
    intro t s ht hs
    obtain ⟨arg, harg, hs⟩ := at?_cons_eq_some_iff.1 hs
    exact ih (ht.of_mem_args (List.mem_of_getElem? harg)) hs

/-- The nodes of a sorted tree are those of constructs. -/
theorem IsSorted.nodesDeclared {t : Tree} (h : t.IsSorted has) : t.NodesDeclared has := by
  intro p label args hat
  obtain ⟨c, hc, hlabel, harity, -⟩ := (h.of_at? p hat).exists_construct
  exact ⟨c, hc, hlabel, harity⟩

end Parts

end Tree

/-- What is read from the tokens of a text, at any place and up to any threshold, is a formula or a
term over the table, and every node in it is that of a construct with its number of arguments. -/
theorem wellSorted_of_read (table : Table) (text : String) (cursor : Nat) (m : Threshold) :
    let ts := (tokenize table text).drop cursor
    (∀ tree rest, Reader.formula m ts = .ok tree rest →
      tree.IsFormula table.Has ∧ tree.NodesDeclared table.Has) ∧
    ∀ tree rest, Reader.term m ts = .ok tree rest →
      tree.IsTerm table.Has ∧ tree.NodesDeclared table.Has := by
  intro ts
  have hwithin : ∀ t ∈ ts, t.Within table.Has :=
    fun t ht => within_of_mem_tokenize (List.mem_of_mem_drop ht)
  constructor
  · intro tree rest hread
    have htree := Tree.isFormula_of_formula hread hwithin
    exact ⟨htree, Tree.IsSorted.nodesDeclared (Or.inl htree)⟩
  · intro tree rest hread
    have htree := Tree.isTerm_of_term hread hwithin
    exact ⟨htree, Tree.IsSorted.nodesDeclared (Or.inr htree)⟩

/-- The formula after the negation and the term after the quantifier in `\\neg\\forall x x=y`. -/
theorem wellSorted_of_read_neg :
    (Tree.node "forall" [.atom "x", .node "eq" [.atom "x", .atom "y"]]).IsFormula
        Table.standard.Has ∧
      (Tree.atom "x").IsTerm Table.standard.Has := by
  have htokens : tokenize Table.standard "\\neg\\forall x x=y" =
      [Lexeme.control "neg", .control "forall", .char 'x', .char 'x', .char '=', .char 'y'].map
        (Token.ofLexeme Table.standard) :=
    tokenize_of_layout (layout_iff_scan_eq.2 (by decide)) _
  have hformula : Reader.formula Level.whole
      ((tokenize Table.standard "\\neg\\forall x x=y").drop 1) =
      .ok (.node "forall" [.atom "x", .node "eq" [.atom "x", .atom "y"]]) [] := by
    rw [htokens]
    rfl
  have hterm : Reader.term .unreachable
      ((tokenize Table.standard "\\neg\\forall x x=y").drop 2) =
      .ok (.atom "x") ((tokenize Table.standard "\\neg\\forall x x=y").drop 3) := by
    rw [htokens]
    rfl
  exact ⟨((wellSorted_of_read _ _ _ _).1 _ _ hformula).1,
    ((wellSorted_of_read _ _ _ _).2 _ _ hterm).1⟩

end LatexLogic
