import LatexLogic.Proofs.Binding.Disagreement
import LatexLogic.Proofs.Binding.Discipline
import LatexLogic.Proofs.Binding.Rebinding

/-!
# Which fault is reported

A tree may have several variables that are bound twice, or several metavariables that are declared
differently. In a tree that was read as a formula the checks report the one whose clash comes
together first (`reports_first_together`), on the tree as it was read and without declarations alike.

That is not the clash which is read first (`not_reports_first_read`). A quantifier is compared with
those in its scope only after these have been compared with each other, and the declarations of an
argument are compared with those before it only at its end.
-/

set_option autoImplicit false

namespace LatexLogic

namespace Tree

/-! ## The clash that comes together first -/

/-- Of the variables that are bound twice this is the one whose binders come together first. -/
def FirstRebound (isQuantifier : String → Bool) (t : Tree) (name : String) : Prop :=
  ∃ p p' q, FirstOf (t.RebindsAt isQuantifier) p p' ∧ p = bindingPlace q ∧
    t.BindsAt isQuantifier q name

/-- Of the metavariables that are declared differently this is the one of which two declarations
come together first. -/
def FirstDeclaredApart (t : Tree) (name : String) : Prop :=
  ∃ p p' declared, FirstOf t.DeclaresApartAt p p' ∧ t.at? p = some (.metavar name declared)

section Checks

variable {isQuantifier : String → Bool} {t : Tree}

/-- The first clash of binders is that of the first variable that is bound twice. -/
theorem firstClash_bindingMarks_iff (h : t.NamesBinders isQuantifier) {e : Tree} :
    FirstClash (· = ·) (t.bindingMarks isQuantifier) e ↔
      ∃ name, t.FirstRebound isQuantifier name ∧ e = .atom name := by
  have hclash : ClashAt (· = ·) (t.bindingMarks isQuantifier) = t.RebindsAt isQuantifier :=
    funext₂ fun p p' => propext (clashAt_bindingMarks_iff h p p')
  simp only [FirstClash, hclash, mem_bindingMarks_iff h]
  constructor
  · rintro ⟨p, p', hfirst, q, name, rfl, rfl, hq⟩
    exact ⟨name, ⟨_, p', q, hfirst, rfl, hq⟩, rfl⟩
  · rintro ⟨name, ⟨_, p', q, hfirst, rfl, hq⟩, rfl⟩
    exact ⟨_, p', hfirst, q, name, rfl, rfl, hq⟩

theorem boundVariables_eq_error_iff (h : t.NamesBinders isQuantifier) {e : Tree} :
    t.boundVariables isQuantifier = .error e ↔
      ∃ name, t.FirstRebound isQuantifier name ∧ e = .atom name := by
  rw [(t.reports_boundVariables).eq_error_iff (leftToRight_bindingMarks t),
    ← firstClash_bindingMarks_iff h]
  simp

/-- Where two quantifier nodes bind one variable, one such pair comes together first. -/
theorem exists_firstRebound (h : t.NamesBinders isQuantifier) {p p' : List Nat}
    (hclash : t.RebindsAt isQuantifier p p') : ∃ name, t.FirstRebound isQuantifier name := by
  obtain ⟨e, hfirst⟩ :=
    t.reports_boundVariables.exists_firstClash ((clashAt_bindingMarks_iff h p p').2 hclash)
  obtain ⟨name, hname, -⟩ := (firstClash_bindingMarks_iff h).1 hfirst
  exact ⟨name, hname⟩

/-- Without declarations the same clash of binders comes together first. -/
theorem firstRebound_erased_iff (h : t.NamesBinders isQuantifier) {name : String} :
    t.erased.FirstRebound isQuantifier name ↔ t.FirstRebound isQuantifier name := by
  simp only [FirstRebound, RebindsAt, FirstOf, bindsAt_erased_iff h]

/-- The first clash of declarations is that of the first metavariable that is declared apart. -/
theorem exists_firstClash_metavariableMarks_iff {name : String} :
    (∃ d, FirstClash DeclaresApart t.metavariableMarks d ∧ d.1 = name) ↔
      t.FirstDeclaredApart name := by
  have hclash : ClashAt DeclaresApart t.metavariableMarks = t.DeclaresApartAt :=
    funext₂ fun p p' => propext (clashAt_metavariableMarks_iff t p p')
  simp only [FirstClash, hclash]
  constructor
  · rintro ⟨⟨_, declared⟩, ⟨p, p', hfirst, hmem⟩, rfl⟩
    exact ⟨p, p', declared, hfirst, (mem_metavariableMarks_iff p).1 hmem⟩
  · rintro ⟨p, p', declared, hfirst, hat⟩
    exact ⟨(name, declared), ⟨p, p', hfirst, (mem_metavariableMarks_iff p).2 hat⟩, rfl⟩

theorem strip_eq_error_iff {name : String} :
    t.strip = .error name ↔ t.FirstDeclaredApart name := by
  rw [t.reports_strip.eq_error_iff (leftToRight_metavariableMarks t),
    exists_firstClash_metavariableMarks_iff]

/-- Where one metavariable is declared with different sets, one such pair comes together first. -/
theorem exists_firstDeclaredApart {p p' : List Nat} (hclash : t.DeclaresApartAt p p') :
    ∃ name, t.FirstDeclaredApart name := by
  obtain ⟨d, hfirst⟩ :=
    t.reports_strip.exists_firstClash ((clashAt_metavariableMarks_iff t p p').2 hclash)
  exact ⟨d.1, exists_firstClash_metavariableMarks_iff.1 ⟨d, hfirst, rfl⟩⟩

end Checks

/-! ## The order of reading -/

/-- In the order of reading a part of a tree comes before what stands in it and what stands to the
right of it. -/
def ReadBefore (q q' : List Nat) : Prop :=
  (q <+: q' ∧ q ≠ q') ∨ LeftOf q q'

/-- Of the places with some property this one is read first. -/
def FirstRead (P : List Nat → Prop) (q : List Nat) : Prop :=
  P q ∧ ∀ r, P r → q = r ∨ ReadBefore q r

/-- The variable of the quantifier node is bound by another one that is read before. -/
def RebindsRead (isQuantifier : String → Bool) (t : Tree) (q' : List Nat) : Prop :=
  ∃ q name, ReadBefore q q' ∧ t.BindsAt isQuantifier q name ∧ t.BindsAt isQuantifier q' name

/-- The metavariable is declared differently at some place that is read before. -/
def RedeclaresRead (t : Tree) (p' : List Nat) : Prop :=
  ∃ p, t.DeclaresApartAt p p'

end Tree

/-- In whatever was read as a formula from the tokens of a text, the first argument of a quantifier
node is a name. -/
theorem namesBinders_of_read {table : Table} (htable : table.WellFormed) {text : String}
    (cursor : Nat) {m : Threshold} {raw : Tree} {rest : List Token}
    (hread : Reader.formula m ((tokenize table text).drop cursor) = .ok raw rest) :
    raw.NamesBinders table.isQuantifierLabel := by
  have hformula := Tree.isFormula_of_formula hread fun _ ht =>
    within_of_mem_tokenize (List.mem_of_mem_drop ht)
  exact Tree.IsSorted.namesBinders htable (Or.inl hformula)

/-- In whatever was read as a formula from the tokens of a text, the check on bound variables and the
one on declarations report the clash that comes together first, and none else. Where two quantifier
nodes bind one variable, or two places declare one metavariable differently, there is such a clash:
so the checks fail exactly if something clashes. -/
theorem reports_first_together {table : Table} (htable : table.WellFormed) {text : String}
    (cursor : Nat) {m : Threshold} {raw : Tree} {rest : List Token}
    (hread : Reader.formula m ((tokenize table text).drop cursor) = .ok raw rest) :
    (∀ e, raw.boundVariables table.isQuantifierLabel = .error e ↔
      ∃ name, raw.FirstRebound table.isQuantifierLabel name ∧ e = .atom name) ∧
    (∀ e, raw.erased.boundVariables table.isQuantifierLabel = .error e ↔
      ∃ name, raw.FirstRebound table.isQuantifierLabel name ∧ e = .atom name) ∧
    (∀ name, raw.strip = .error name ↔ raw.FirstDeclaredApart name) ∧
    (∀ p p', raw.RebindsAt table.isQuantifierLabel p p' →
      ∃ name, raw.FirstRebound table.isQuantifierLabel name) ∧
    ∀ p p', raw.DeclaresApartAt p p' → ∃ name, raw.FirstDeclaredApart name := by
  have hnames := namesBinders_of_read htable cursor hread
  refine ⟨fun e => Tree.boundVariables_eq_error_iff hnames, fun e => ?_,
    fun name => Tree.strip_eq_error_iff, fun p p' => Tree.exists_firstRebound hnames,
    fun p p' => Tree.exists_firstDeclaredApart⟩
  rw [Tree.boundVariables_eq_error_iff hnames.erased]
  simp only [Tree.firstRebound_erased_iff hnames]

/-! ## Two formulas with two faults each -/

/-- A formula in which both variables are bound twice. -/
def twiceBoundText : String :=
  "\\forall x (\\forall x \\phi \\land \\forall y \\forall y \\psi)"

/-- The tree of that formula. -/
def twiceBound : Tree :=
  .node "forall" [.atom "x", .node "and" [
    .node "forall" [.atom "x", .metavar "phi" []],
    .node "forall" [.atom "y", .node "forall" [.atom "y", .metavar "psi" []]]]]

/-- A formula in which both metavariables are declared differently. -/
def declaredApartText : String :=
  "\\forall x ((\\phi \\land \\psi) \\land (\\psi(x) \\land \\phi(x)))"

/-- The tree of that formula. -/
def declaredApart : Tree :=
  .node "forall" [.atom "x", .node "and" [
    .node "and" [.metavar "phi" [], .metavar "psi" []],
    .node "and" [.metavar "psi" ["x"], .metavar "phi" ["x"]]]]

theorem formula_twiceBound :
    Reader.formula Level.whole (tokenize Table.standard twiceBoundText) = .ok twiceBound [] := by
  have htokens : tokenize Table.standard twiceBoundText =
      [Lexeme.control "forall", .char 'x', .char '(', .control "forall", .char 'x',
        .control "phi", .control "land", .control "forall", .char 'y', .control "forall",
        .char 'y', .control "psi", .char ')'].map (Token.ofLexeme Table.standard) :=
    tokenize_of_layout (layout_iff_scan_eq.2 (by decide)) _
  rw [htokens]
  rfl

theorem formula_declaredApart :
    Reader.formula Level.whole (tokenize Table.standard declaredApartText) =
      .ok declaredApart [] := by
  have htokens : tokenize Table.standard declaredApartText =
      [Lexeme.control "forall", .char 'x', .char '(', .char '(', .control "phi",
        .control "land", .control "psi", .char ')', .control "land", .char '(',
        .control "psi", .char '(', .char 'x', .char ')', .control "land", .control "phi",
        .char '(', .char 'x', .char ')', .char ')', .char ')'].map (Token.ofLexeme Table.standard) :=
    tokenize_of_layout (layout_iff_scan_eq.2 (by decide)) _
  rw [htokens]
  rfl

/-- The binders of `y` come together before those of `x`, and the declarations of `phi` before those
of `psi`. -/
theorem reports_first_together_inner :
    Reader.formula Level.whole (tokenize Table.standard twiceBoundText) = .ok twiceBound [] ∧
      twiceBound.FirstRebound Table.standard.isQuantifierLabel "y" ∧
      Reader.formula Level.whole (tokenize Table.standard declaredApartText) =
        .ok declaredApart [] ∧
      declaredApart.FirstDeclaredApart "phi" := by
  have hbound := reports_first_together Table.standard_wellFormed 0 formula_twiceBound
  have hdeclared := reports_first_together Table.standard_wellFormed 0 formula_declaredApart
  obtain ⟨name, hfirst, heq⟩ := (hbound.1 (.atom "y")).1 (by decide)
  obtain rfl := Tree.atom.inj heq
  exact ⟨formula_twiceBound, hfirst, formula_declaredApart, (hdeclared.2.2.1 "phi").1 (by decide)⟩

/-- The inner quantifier for `x` is read before those for `y`. -/
theorem not_firstRead_twiceBound :
    ¬ ∃ q, Tree.FirstRead (twiceBound.RebindsRead Table.standard.isQuantifierLabel) q ∧
      twiceBound.BindsAt Table.standard.isQuantifierLabel q "y" := by
  rintro ⟨q, ⟨-, hfirst⟩, hq⟩
  have hnames := namesBinders_of_read Table.standard_wellFormed 0 formula_twiceBound
  have hmarks : twiceBound.bindingMarks Table.standard.isQuantifierLabel =
      [([1, 0, 2], .atom "x"), ([1, 1, 1, 2], .atom "y"), ([1, 1, 2], .atom "y"),
        ([2], .atom "x")] := by decide
  have hbefore := hfirst [1, 0] ⟨[], "x", Or.inl ⟨List.nil_prefix, by decide⟩,
    ⟨"forall", _, rfl, by decide⟩, ⟨"forall", _, rfl, by decide⟩⟩
  have hmem := (Tree.mem_bindingMarks_iff hnames _).2 ⟨q, "y", rfl, rfl, hq⟩
  rw [hmarks] at hmem
  have hplace : q ++ [2] = [1, 1, 1] ++ [2] ∨ q ++ [2] = [1, 1] ++ [2] := by
    simpa [Tree.bindingPlace] using hmem
  -- Neither quantifier for `y` is read before the inner one for `x`.
  rcases hplace with hplace | hplace
  · obtain rfl := List.append_cancel_right hplace
    simp [Tree.ReadBefore] at hbefore
  · obtain rfl := List.append_cancel_right hplace
    simp [Tree.ReadBefore] at hbefore

/-- The second `psi` is read before the second `phi`. -/
theorem not_firstRead_declaredApart :
    ¬ ∃ p declared, Tree.FirstRead declaredApart.RedeclaresRead p ∧
      declaredApart.at? p = some (.metavar "phi" declared) := by
  rintro ⟨p, declared, ⟨⟨p', hleft, name, declared', -, hat', -⟩, hfirst⟩, hat⟩
  have hmarks : declaredApart.metavariableMarks =
      [([1, 0, 0], ("phi", [])), ([1, 0, 1], ("psi", [])), ([1, 1, 0], ("psi", ["x"])),
        ([1, 1, 1], ("phi", ["x"]))] := by decide
  have hbefore := hfirst [1, 1, 0] ⟨[1, 0, 1], by simp, "psi", [], ["x"], rfl, rfl, by simp⟩
  have hmem := (Tree.mem_metavariableMarks_iff p).2 hat
  have hmem' := List.mem_map_of_mem (f := Prod.fst) ((Tree.mem_metavariableMarks_iff p').2 hat')
  have hplace : p = [1, 0, 0] ∧ declared = [] ∨ p = [1, 1, 1] ∧ declared = ["x"] := by
    simpa [hmarks] using hmem
  rcases hplace with ⟨rfl, -⟩ | ⟨rfl, -⟩
  · -- Nothing is declared to the left of the first `phi`.
    have hplace' : p' = [1, 0, 0] ∨ p' = [1, 0, 1] ∨ p' = [1, 1, 0] ∨ p' = [1, 1, 1] := by
      simpa [hmarks] using hmem'
    rcases hplace' with rfl | rfl | rfl | rfl
    all_goals simp at hleft
  · -- The second `phi` is read after the second `psi`.
    simp [Tree.ReadBefore] at hbefore

/-- The variable and the metavariable that are reported are not those of the first quantifier and of
the first metavariable that, in the order of reading, clash with earlier ones. -/
theorem not_reports_first_read :
    (Reader.formula Level.whole (tokenize Table.standard twiceBoundText) = .ok twiceBound [] ∧
      twiceBound.boundVariables Table.standard.isQuantifierLabel = .error (.atom "y") ∧
      ¬ ∃ q, Tree.FirstRead (twiceBound.RebindsRead Table.standard.isQuantifierLabel) q ∧
        twiceBound.BindsAt Table.standard.isQuantifierLabel q "y") ∧
    Reader.formula Level.whole (tokenize Table.standard declaredApartText) =
        .ok declaredApart [] ∧
      declaredApart.strip = .error "phi" ∧
      ¬ ∃ p declared, Tree.FirstRead declaredApart.RedeclaresRead p ∧
        declaredApart.at? p = some (.metavar "phi" declared) :=
  ⟨⟨formula_twiceBound, by decide, not_firstRead_twiceBound⟩, formula_declaredApart, by decide,
    not_firstRead_declaredApart⟩

end LatexLogic
