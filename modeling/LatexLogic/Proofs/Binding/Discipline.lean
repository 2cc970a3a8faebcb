import LatexLogic.Proofs.Binding.Binder
import LatexLogic.Proofs.Binding.Declaration
import LatexLogic.Proofs.Grammar.WellSorted
import LatexLogic.Proofs.Token.Layout

/-!
# Binding discipline

What the reader and the four checks guarantee together: every quantifier binds an ordinary variable,
each variable is bound at one place, every ordinary variable stands in the scope of the quantifier
for it, and a metavariable with a declared variable stands, wherever it occurs, in the scope of the
one quantifier for that variable (`Tree.Disciplined`, `Formula.disciplined_of_parse`).

The labels of a well-formed table tell quantifiers from all other constructs, so that the checks
find exactly the nodes that were read with a quantifier.
-/

set_option autoImplicit false

namespace LatexLogic

/-! ## Quantifiers of a table -/

theorem Table.isQuantifierLabel_iff {table : Table} {label : String} :
    table.isQuantifierLabel label = true ↔
      ∃ entry ∈ table.entries, entry.2 = .quantifier label := by
  simp only [Table.isQuantifierLabel, Table.quantifierLabels, List.contains_eq_mem,
    decide_eq_true_eq, List.mem_filterMap]
  refine exists_congr fun entry => and_congr_right fun _ => ?_
  rcases entry with ⟨spelling, ⟨_, _⟩ | _ | ⟨_, _⟩ | ⟨_, _⟩⟩ <;> simp [Table.quantifierLabel?]

namespace Tree

section Sorted

variable {table : Table} {t : Tree}

/-- In a tree over a well-formed table only quantifier nodes carry the label of a quantifier. -/
theorem IsSorted.quantifier_shape (htable : table.WellFormed) (ht : t.IsSorted table.Has)
    {q : List Nat} {label : String} {args : List Tree} (hat : t.at? q = some (.node label args))
    (hlabel : table.isQuantifierLabel label = true) :
    ∃ bound scope, args = [.atom bound, scope] ∧ isOrdinaryVariable bound = true := by
  obtain ⟨c, ⟨spelling, hget⟩, hc, -, hshape⟩ := (ht.of_at? q hat).exists_construct
  obtain ⟨⟨spelling', c'⟩, hmem, rfl⟩ := Table.isQuantifierLabel_iff.1 hlabel
  exact hshape (htable.kind_eq_of_label_eq _ (Table.exists_mem_of_get? hget) _ hmem hc)

theorem IsSorted.namesBinders (htable : table.WellFormed) (ht : t.IsSorted table.Has) :
    t.NamesBinders table.isQuantifierLabel := by
  intro q label binder scope hat hlabel
  obtain ⟨bound, scope', hargs, -⟩ := ht.quantifier_shape htable hat hlabel
  exact ⟨bound, (List.cons.inj hargs).1⟩

/-- The variables that a metavariable of a sorted tree declares are variables. -/
theorem IsSorted.isVariable_of_declared {has : Construct → Prop} (ht : t.IsSorted has)
    {p : List Nat} {m : String} {declared : List String}
    (hat : t.at? p = some (.metavar m declared)) : ∀ v ∈ declared, isVariable v = true := by
  rcases ht.of_at? p hat with h | h
  · cases h with
    | metavariable _ hdeclared => exact hdeclared
  · cases h

end Sorted

/-! ## Discipline -/

/-- How a formula that passes all checks uses its variables, said of the tree that was read and of
the declarations that were found in it. -/
structure Disciplined (isQuantifier : String → Bool) (raw : Tree) (declarations : Declarations) :
    Prop where
  /-- A quantifier node binds an ordinary variable in its scope. -/
  binds_ordinary : ∀ q label args, raw.at? q = some (.node label args) →
    isQuantifier label = true → ∃ bound scope, args = [.atom bound, scope] ∧
      isOrdinaryVariable bound = true ∧ isEigenvariable bound = false
  /-- Two quantifier nodes bind different variables. -/
  binds_once : raw.BindsOnce isQuantifier
  /-- An ordinary variable stands in the scope of exactly one quantifier that binds it. -/
  bound_once : ∀ p name, raw.OccursAt isQuantifier p name → isOrdinaryVariable name = true →
    ∃! q, raw.BindsAt isQuantifier q name ∧ InScope q p
  /-- Only ordinary variables are declared free. -/
  declares_ordinary : ∀ m allowed, (m, allowed) ∈ declarations → ∀ v ∈ allowed,
    isOrdinaryVariable v = true
  /-- A metavariable that is declared to have a variable free occurs only in the scope of the one
  quantifier that binds the variable. -/
  declares_bound : ∀ m allowed, (m, allowed) ∈ declarations → ∀ v ∈ allowed,
    ∃! q, raw.BindsAt isQuantifier q v ∧
      ∀ p declared, raw.at? p = some (.metavar m declared) → InScope q p

end Tree

namespace Formula

section

variable {isQuantifier : String → Bool} {raw : Tree} {f : Formula}

/-- The results of the four checks on a tree that passes them. -/
theorem ofTree_eq_ok (h : ofTree isQuantifier raw = .ok f) :
    raw.freeVariables isQuantifier = [] ∧ raw.strip = .ok (f.tree, f.declarations) ∧
      (∃ bound, f.tree.boundVariables isQuantifier = .ok bound) ∧
      raw.declaredEigenvariable? = none := by
  unfold ofTree at h
  split at h
  · cases h
  · next hfree =>
    split at h
    · cases h
    · next tree declarations hstrip =>
      split at h
      · cases h
      · next bound hbound =>
        split at h
        · cases h
        · next heigen =>
          cases h
          exact ⟨hfree, hstrip, ⟨bound, hbound⟩, heigen⟩

/-- Where no ordinary variable is free, each occurrence is in the scope of a quantifier for it. -/
theorem exists_scope_of_occursAt (hnames : raw.NamesBinders isQuantifier)
    (hfree : raw.freeVariables isQuantifier = []) {p : List Nat} {name : String}
    (hoccurs : raw.OccursAt isQuantifier p name) (hordinary : isOrdinaryVariable name = true) :
    ∃ q, raw.BindsAt isQuantifier q name ∧ Tree.InScope q p := by
  by_contra hno
  have hmem : name ∈ raw.freeVariables isQuantifier := (Tree.mem_freeVariables_iff hnames).2
    ⟨hordinary, p, hoccurs, fun q hq hscope => hno ⟨q, hq, hscope⟩⟩
  rw [hfree] at hmem
  exact List.not_mem_nil hmem

/-- The check for double bindings looks at the stripped tree, which binds the same variables. -/
theorem bindsOnce_of_boundVariables (hnames : raw.NamesBinders isQuantifier) {bound : List Tree}
    (hbound : raw.erased.boundVariables isQuantifier = .ok bound) : raw.BindsOnce isQuantifier := by
  have honce := ((Tree.boundVariables_eq_ok_iff _ _).1 hbound).2
  rw [Tree.nodup_binders_iff hnames.erased] at honce
  intro name q q' hq hq'
  exact honce name q q' ((Tree.bindsAt_erased_iff hnames).2 hq)
    ((Tree.bindsAt_erased_iff hnames).2 hq')

/-- Where no eigenvariable is declared free only ordinary variables are. -/
theorem isOrdinaryVariable_of_declared {has : Construct → Prop} (hsorted : raw.IsSorted has)
    (heigen : raw.declaredEigenvariable? = none) {m : String} {declared : List String}
    {p : List Nat} (hat : raw.at? p = some (.metavar m declared)) :
    ∀ v ∈ declared, isOrdinaryVariable v = true := by
  intro v hv
  have hvariable := hsorted.isVariable_of_declared hat v hv
  have hwritten := Tree.mem_metavariables_iff.2 ⟨p, hat⟩
  exact (isOrdinaryVariable_iff_of_isVariable hvariable).2
    (Tree.declaredEigenvariable?_eq_none_iff.1 heigen m declared hwritten v hv)

end

/-- A tree over a well-formed table that passes all checks is disciplined. -/
theorem disciplined_of_ofTree {table : Table} (htable : table.WellFormed) {raw : Tree} {f : Formula}
    (hsorted : raw.IsSorted table.Has) (h : ofTree table.isQuantifierLabel raw = .ok f) :
    raw.Disciplined table.isQuantifierLabel f.declarations := by
  obtain ⟨hfree, hstrip, ⟨bound, hbound⟩, heigen⟩ := ofTree_eq_ok h
  obtain ⟨htree, hdescribes⟩ := raw.strip_eq_ok _ _ hstrip
  have hnames := hsorted.namesBinders htable
  have honce := bindsOnce_of_boundVariables hnames (htree ▸ hbound)
  constructor
  case binds_ordinary =>
    intro q label args hat hlabel
    obtain ⟨bound, scope, rfl, hordinary⟩ := hsorted.quantifier_shape htable hat hlabel
    have hvariable := isVariable_of_isOrdinaryVariable hordinary
    have heigen := (isOrdinaryVariable_iff_of_isVariable hvariable).1 hordinary
    exact ⟨bound, scope, rfl, hordinary, heigen⟩
  case binds_once => exact honce
  case bound_once =>
    intro p name hoccurs hordinary
    obtain ⟨q, hq, hscope⟩ := exists_scope_of_occursAt hnames hfree hoccurs hordinary
    exact ⟨q, ⟨hq, hscope⟩, fun q' hq' => honce name q' q hq'.1 hq⟩
  case declares_ordinary =>
    intro m allowed hmem v hv
    obtain ⟨declared, hwritten, rfl⟩ := hdescribes.exists_of_mem m allowed hmem
    obtain ⟨p, hat⟩ := Tree.mem_metavariables_iff.1 hwritten
    exact isOrdinaryVariable_of_declared hsorted heigen hat v ((mem_variableSet _).1 hv)
  case declares_bound =>
    intro m allowed hmem v hv
    obtain ⟨declared, hwritten, rfl⟩ := hdescribes.exists_of_mem m allowed hmem
    -- Every occurrence declares the same set, so the variable occurs with each of them.
    have hoccurs : ∀ p declared', raw.at? p = some (.metavar m declared') →
        isOrdinaryVariable v = true ∧ raw.OccursAt table.isQuantifierLabel p v := by
      intro p declared' hat
      have hset := hdescribes.get?_of_mem m declared' (Tree.mem_metavariables_iff.2 ⟨p, hat⟩)
      rw [hdescribes.get?_of_mem m declared hwritten, Option.some.injEq] at hset
      rw [hset, mem_variableSet] at hv
      exact ⟨isOrdinaryVariable_of_declared hsorted heigen hat v hv,
        Or.inr ⟨m, declared', hat, hv⟩⟩
    obtain ⟨p, hat⟩ := Tree.mem_metavariables_iff.1 hwritten
    obtain ⟨hordinary, hoccurs₀⟩ := hoccurs p declared hat
    obtain ⟨q, hq, -⟩ := exists_scope_of_occursAt hnames hfree hoccurs₀ hordinary
    -- The quantifier at one occurrence is the one at any other, as the variable is bound once.
    refine ⟨q, ⟨hq, fun p' declared' hat' => ?_⟩, fun q' hq' => honce v q' q hq'.1 hq⟩
    obtain ⟨-, hoccurs'⟩ := hoccurs p' declared' hat'
    obtain ⟨q', hq', hscope'⟩ := exists_scope_of_occursAt hnames hfree hoccurs' hordinary
    exact honce v q' q hq' hq ▸ hscope'

/-- The tree that a parsed formula was read as. -/
theorem exists_tree_of_parse {table : Table} {text : String} {f : Formula}
    (h : parse table text = .ok f) :
    ∃ raw, treeOfTokens (text.length + 1) (tokenize table text) = .ok raw ∧
      ofTree table.isQuantifierLabel raw = .ok f := by
  obtain ⟨-, raw, hraw, -, hchecks⟩ := parse_eq_ok_iff.1 h
  exact ⟨raw, hraw, hchecks⟩

/-- A successful parse guarantees the discipline for the tree that was read. -/
theorem disciplined_of_parse {table : Table} (htable : table.WellFormed) {text : String}
    {f : Formula} (h : parse table text = .ok f) :
    ∃ raw, treeOfTokens (text.length + 1) (tokenize table text) = .ok raw ∧
      ofTree table.isQuantifierLabel raw = .ok f ∧
      raw.Disciplined table.isQuantifierLabel f.declarations := by
  obtain ⟨raw, hraw, hchecks⟩ := exists_tree_of_parse h
  have hread := (treeOfTokens_eq_ok_iff (Nat.lt_succ_of_le (length_tokenize_le table text))).1 hraw
  have hformula := Tree.isFormula_of_formula hread fun _ ht => within_of_mem_tokenize ht
  exact ⟨raw, hraw, hchecks, disciplined_of_ofTree htable (Or.inl hformula) hchecks⟩

/-- A metavariable in the scope of the quantifier for its declared variable. -/
theorem disciplined_forall_declared :
    ∃ f raw, parse Table.standard "\\forall x \\phi(x)" = .ok f ∧
      treeOfTokens 18 (tokenize Table.standard "\\forall x \\phi(x)") = .ok raw ∧
      raw.Disciplined Table.standard.isQuantifierLabel f.declarations := by
  have h : parse Table.standard "\\forall x \\phi(x)" =
      .ok ⟨.node "forall" [.atom "x", .atom "phi"], [("phi", ["x"])]⟩ := by decide +kernel
  obtain ⟨raw, hraw, -, hdisciplined⟩ := disciplined_of_parse Table.standard_wellFormed h
  exact ⟨_, raw, h, hraw, hdisciplined⟩

end Formula

end LatexLogic
