import LatexLogic.Proofs.Binding.Agreement
import LatexLogic.Proofs.Binding.Mention
import LatexLogic.Proofs.Binding.Place
import LatexLogic.Proofs.Grammar.Depth
import LatexLogic.Proofs.Grammar.TermReading
import LatexLogic.Proofs.Table.Label

/-!
# The free variable that is reported

A formula is refused for a free variable if and only if its text mentions an ordinary variable
outside the scopes of the quantifiers that bind it, and then the leftmost such variable is reported
(`Formula.parse_eq_freeVariable_iff`). The tree and the text tell the same: the free mentions in the
tree are the names of the free occurrences in the text, in the same order
(`FormulaWritten.freeMentions_eq`). This rests on the labels of quantifiers being those of quantifiers
alone, as they are in every table that is built.

A connective without operands is mentioned by its label, and nothing keeps the label from being a
name such as `x`. Then the constant passes for a variable, and a formula is refused although it
contains no variable at all (`not_exists_freeVariable_of_parse`). In all other tables only variables
are reported.
-/

set_option autoImplicit false

namespace LatexLogic

open Reader

/-! ## Free occurrences -/

/-- The names of the free occurrences, in order and as often as they occur. -/
def freeNames (os : List Occurrence) : List String :=
  (os.filter Occurrence.isFree).map Occurrence.name

/-- The name is that of the leftmost free occurrence. -/
def FirstFree (os : List Occurrence) (name : String) : Prop :=
  ∃ o ∈ os, o.isFree = true ∧ o.name = name ∧ ∀ o' ∈ os, o'.isFree = true → o.place ≤ o'.place

theorem freeNames_append (os os' : List Occurrence) :
    freeNames (os ++ os') = freeNames os ++ freeNames os' := by
  rw [freeNames, List.filter_append, List.map_append, freeNames, freeNames]

theorem freeNames_singleton (n : Nat) (role : Role) (name : String) :
    freeNames [⟨n, role, name, []⟩] = if isOrdinaryVariable name then [name] else [] := by
  cases hname : isOrdinaryVariable name <;> simp [freeNames, Occurrence.isFree, hname]

theorem Occurrence.isFree_under (bound : String) (o : Occurrence) :
    (o.under bound).isFree = (o.isFree && decide (bound ≠ o.name)) := by
  rw [Bool.eq_iff_iff]
  simp [Occurrence.isFree, Occurrence.under]
  tauto

/-- In the scope of a quantifier the occurrences of its variable are not free. -/
theorem freeNames_under (bound : String) (os : List Occurrence) :
    freeNames (os.map (.under bound)) =
      (freeNames os).filter fun name => Tree.atom bound ≠ .atom name := by
  induction os with
  | nil => rfl
  | cons o os ih =>
    have hsplit : freeNames (o :: os) = freeNames [o] ++ freeNames os := freeNames_append [o] os
    rw [List.map_cons, ← List.singleton_append, freeNames_append, ih, hsplit, List.filter_append]
    congr 1
    cases hfree : o.isFree <;> by_cases hname : bound = o.name <;>
      simp [freeNames, Occurrence.isFree_under, hfree, hname]

/-- Of occurrences in the order of their places the first free one is the leftmost. -/
theorem head?_freeNames_eq_some_iff {os : List Occurrence}
    (h : os.Pairwise fun o o' => o.place < o'.place) {name : String} :
    (freeNames os).head? = some name ↔ FirstFree os name := by
  induction h with
  | nil => simp [freeNames, FirstFree]
  | @cons o os hfirst _ ih =>
    cases hfree : o.isFree with
    | true =>
      have hhead : (freeNames (o :: os)).head? = some o.name := by simp [freeNames, hfree]
      rw [hhead, Option.some.injEq]
      constructor
      · rintro rfl
        refine ⟨o, List.mem_cons_self, hfree, rfl, ?_⟩
        rw [List.forall_mem_cons]
        exact ⟨fun _ => Nat.le_refl _, fun o' ho' _ => (hfirst o' ho').le⟩
      · rintro ⟨o', ho', -, rfl, hleast⟩
        rcases List.mem_cons.1 ho' with rfl | ho'
        · rfl
        · -- A later occurrence is not the leftmost one.
          have hle := hleast o List.mem_cons_self hfree
          exact absurd (hfirst o' ho') (Nat.not_lt.2 hle)
    | false =>
      have htail : freeNames (o :: os) = freeNames os := by simp [freeNames, hfree]
      rw [htail, ih]
      simp [FirstFree, hfree]

/-- Some free occurrence is the leftmost one. -/
theorem exists_firstFree_iff {os : List Occurrence}
    (h : os.Pairwise fun o o' => o.place < o'.place) :
    (∃ name, FirstFree os name) ↔ ∃ o ∈ os, o.isFree = true := by
  constructor
  · rintro ⟨name, o, ho, hfree, -⟩
    exact ⟨o, ho, hfree⟩
  · rintro ⟨o, ho, hfree⟩
    have hmem : o.name ∈ freeNames os := List.mem_map_of_mem (List.mem_filter.2 ⟨ho, hfree⟩)
    have hsome := List.isSome_head?.2 (List.ne_nil_of_mem hmem)
    obtain ⟨name, hname⟩ := Option.isSome_iff_exists.1 hsome
    exact ⟨name, (head?_freeNames_eq_some_iff h).1 hname⟩

/-! ## The tree and the text -/

/-- The label of the construct tells whether it is a quantifier. -/
def Construct.LabelTells (isQuantifier : String → Bool) (c : Construct) : Prop :=
  isQuantifier c.label = decide (c.kind = .quantifier)

section Trees

variable {isQuantifier : String → Bool} {u rest : List Token} {n : Nat} {os : List Occurrence}

theorem NamesWritten.freeNames_eq {names : List String} (h : NamesWritten u names rest n os) :
    freeNames os = names.filter isOrdinaryVariable := by
  induction h with
  | @last u rest name n _ =>
    rw [freeNames_singleton]
    cases hname : isOrdinaryVariable name <;> simp [hname]
  | @comma t u v rest name names n os _ _ _ ih =>
    rw [← List.singleton_append, freeNames_append, freeNames_singleton, ih, List.filter_cons]
    cases isOrdinaryVariable name <;> rfl

/-- The mentions in the node of an operator that is no quantifier are those in its arguments. -/
theorem freeMentions_of_within {lexeme : Lexeme} {c : Construct} {args : List Tree}
    (label : String)
    (h : (Token.known lexeme c).Within (Construct.LabelTells isQuantifier))
    (hlabel : c.label = label) (hkind : decide (c.kind = .quantifier) = false) :
    (Tree.node label args).freeMentions isQuantifier =
      args.flatMap (Tree.freeMentions isQuantifier) := by
  apply Tree.freeMentions_of_not_quantifier
  have htells : isQuantifier c.label = decide (c.kind = .quantifier) := h c rfl
  rw [← hlabel, htells, hkind]

theorem TermsWritten.freeMentions_eq {trees : List Tree} (h : TermsWritten u trees rest n os)
    (hu : ∀ t ∈ u, t.Within (Construct.LabelTells isQuantifier)) :
    trees.flatMap (Tree.freeMentions isQuantifier) = freeNames os := by
  induction h with
  | name _ => rw [List.flatMap_singleton, Tree.freeMentions, freeNames_singleton]
  | @between t op u v rest left right n os os' hop _ _ ih ih' =>
    rw [List.forall_mem_append, List.forall_mem_cons] at hu
    obtain ⟨hu, ht, hv⟩ := hu
    obtain ⟨lexeme, precedence, rfl, -⟩ := Token.infixFunction?_eq_some hop
    rw [List.flatMap_singleton, freeMentions_of_within op.label ht rfl rfl, freeNames_append,
      ← ih hu, ← ih' hv, ← List.flatMap_append, List.singleton_append]
  | parens _ _ _ ih =>
    rw [List.forall_mem_append, List.forall_mem_append] at hu
    exact ih hu.2.1
  | @application lexeme label arity positive note form us u vs rest args n os _ _ _ ih =>
    rw [List.forall_mem_cons, List.forall_mem_append, List.forall_mem_append] at hu
    rw [List.flatMap_singleton, ← ih hu.2.2.1]
    exact freeMentions_of_within label hu.1 rfl rfl
  | comma _ _ _ ih ih' =>
    rw [List.forall_mem_append, List.forall_mem_cons] at hu
    rw [List.flatMap_cons, freeNames_append, ← ih hu.1, ← ih' hu.2.2, List.flatMap_singleton]

/-- The free mentions in the tree are the free occurrences in the text. -/
theorem FormulaWritten.freeMentions_eq {tree : Tree} (h : FormulaWritten u tree rest n os)
    (hu : ∀ t ∈ u, t.Within (Construct.LabelTells isQuantifier)) :
    tree.freeMentions isQuantifier = freeNames os := by
  induction h with
  | @between t op u v rest left right n os os' hop _ _ ih ih' =>
    rw [List.forall_mem_append, List.forall_mem_cons] at hu
    obtain ⟨hu, ht, hv⟩ := hu
    obtain ⟨lexeme, precedence, side, rfl⟩ := Token.infixConnective?_eq_some hop
    rw [freeMentions_of_within op.label ht rfl rfl, freeNames_append, ← ih hu, ← ih' hv,
      List.flatMap_cons, List.flatMap_singleton]
  | @before lexeme label precedence note u rest argument n os _ ih =>
    rw [List.forall_mem_cons] at hu
    rw [freeMentions_of_within label hu.1 rfl rfl, List.flatMap_singleton, ih hu.2]
  | @quantified lexeme label bound u v rest scope n os _ _ ih =>
    rw [List.forall_mem_cons, List.forall_mem_append] at hu
    -- What the quantifier binds is left out of the tree's mentions and of the free occurrences.
    have hlabel : isQuantifier label = true := hu.1 _ rfl
    rw [Tree.freeMentions_quantifier hlabel, ih hu.2.2, freeNames_under]
  | metavariable _ _ => rfl
  | declaration _ _ _ hnames => rw [Tree.freeMentions, hnames.freeNames_eq]
  | constant => rw [Tree.freeMentions, freeNames_singleton]
  | @predicate lexeme label arity positive form us u vs rest args n os _ _ hargs =>
    rw [List.forall_mem_cons, List.forall_mem_append, List.forall_mem_append] at hu
    rw [← hargs.freeMentions_eq hu.2.2.1]
    exact freeMentions_of_within label hu.1 rfl rfl
  | parens _ _ _ ih =>
    rw [List.forall_mem_append, List.forall_mem_append] at hu
    exact ih hu.2.1
  | @comparison lexeme label u v rest left right n os os' hleft hright =>
    rw [List.forall_mem_append, List.forall_mem_cons] at hu
    rw [freeMentions_of_within label hu.2.1 rfl rfl, freeNames_append, ← hleft.freeMentions_eq hu.1,
      ← hright.freeMentions_eq hu.2.2, ← List.flatMap_append, List.singleton_append]

end Trees

/-! ## What is reported -/

/-- No connective without operands has the name of an ordinary variable for its label. -/
def Table.KeepsVariables (table : Table) : Prop :=
  ∀ label precedence note, table.Has (.connective label (.nullary precedence note)) →
    isOrdinaryVariable label = false

theorem Table.standard_keepsVariables : Table.standard.KeepsVariables := by
  rintro label precedence note ⟨spelling, hget⟩
  have hentries : ∀ entry ∈ Table.standard.entries,
      entry.2.kind = .connective → isOrdinaryVariable entry.2.label = false := by decide
  exact hentries _ (Table.exists_mem_of_get? hget) rfl

/-- Where labels keep away from the names of variables, only variables are free. -/
theorem Table.KeepsVariables.role_ne_constant {table : Table} (htable : table.KeepsVariables)
    {ts : List Token} (hts : ∀ t ∈ ts, t.Within table.Has) {o : Occurrence}
    (hstands : o.StandsIn ts) (hfree : o.isFree = true) : o.role ≠ .constant := by
  intro hrole
  rw [Occurrence.StandsIn, hrole] at hstands
  obtain ⟨lexeme, precedence, note, rest, hdrop⟩ := hstands
  have hmem : Token.known lexeme (.connective o.name (.nullary precedence note)) ∈ ts :=
    List.mem_of_mem_drop (hdrop ▸ List.mem_cons_self)
  have hordinary := htable _ _ _ (hts _ hmem _ rfl)
  rw [Occurrence.isFree, hordinary] at hfree
  cases hfree

namespace Formula

variable {table : Table} {text : String} {raw : Tree}

/-- The occurrences of names in the text of a formula decide about free variables: if one of them is
free, the name of the leftmost free one is reported, and otherwise no variable is. They take in every
variable of the text that does not follow a quantifier. They are occurrences of variables only,
unless a connective without operands is labelled with the name of one. -/
theorem parse_eq_freeVariable_iff (htable : table.WellFormed)
    (h : Reader.formula Level.whole (tokenize table text) = .ok raw []) :
    (∃ os, FormulaWritten (tokenize table text) raw [] 0 os) ∧
      ∀ os, FormulaWritten (tokenize table text) raw [] 0 os →
        (os.Pairwise (fun o o' => o.place < o'.place) ∧
          (∀ o ∈ os, o.StandsIn (tokenize table text)) ∧ Accounted 0 (tokenize table text) os) ∧
        (∀ v, parse table text = .error (.fault (.freeVariable v)) ↔ FirstFree os v) ∧
        ((∃ v, parse table text = .error (.fault (.freeVariable v))) ↔
          ∃ o ∈ os, o.isFree = true) ∧
        (table.KeepsVariables → ∀ o ∈ os, o.isFree = true → o.role ≠ .constant) := by
  refine ⟨exists_formulaWritten h, fun os hos => ?_⟩
  have hpairwise := hos.ordered.pairwise
  have hdrop : (tokenize table text).drop 0 = tokenize table text ++ [] := (List.append_nil _).symm
  have hstands := hos.standsIn hdrop
  -- The labels of quantifiers are those of quantifiers alone, so no other node passes for one.
  have hlabels : ∀ t ∈ tokenize table text,
      t.Within (Construct.LabelTells table.isQuantifierLabel) :=
    fun t ht c hc => Table.isQuantifierLabel_eq htable (within_of_mem_tokenize ht c hc)
  have hreport : ∀ v, parse table text = .error (.fault (.freeVariable v)) ↔ FirstFree os v := by
    intro v
    have hchecks : parse table text = .error (.fault (.freeVariable v)) ↔
        ofTree table.isQuantifierLabel raw = .error (.freeVariable v) := by
      rw [parse_of_formula h]
      cases ofTree table.isQuantifierLabel raw with
      | error error => simp [Except.mapError]
      | ok f => simp [Except.mapError]
    rw [hchecks, ofTree_eq_freeVariable_iff, Tree.head?_freeVariables,
      hos.freeMentions_eq hlabels, head?_freeNames_eq_some_iff hpairwise]
  refine ⟨⟨hpairwise, hstands, hos.accounted⟩, hreport, ?_, fun hkeeps o ho hfree =>
    hkeeps.role_ne_constant (fun t ht => within_of_mem_tokenize ht) (hstands o ho) hfree⟩
  rw [← exists_firstFree_iff hpairwise]
  exact exists_congr hreport

/-- In `\\forall x x=y` the first variable that is not bound is the last one. -/
theorem parse_eq_freeVariable_forall :
    ∃ os, FormulaWritten (tokenize Table.standard "\\forall x x=y")
        (.node "forall" [.atom "x", .node "eq" [.atom "x", .atom "y"]]) [] 0 os ∧
      FirstFree os "y" ∧ ∀ o ∈ os, o.isFree = true → o.role ≠ .constant := by
  have hscan : Lexeme.scan "\\forall x x=y".toList =
      [.control "forall", .char 'x', .char 'x', .char '=', .char 'y'] := by decide
  have hread : Reader.formula Level.whole (tokenize Table.standard "\\forall x x=y") =
      .ok (.node "forall" [.atom "x", .node "eq" [.atom "x", .atom "y"]]) [] := by
    rw [tokenize, hscan]
    rfl
  have hparse : parse Table.standard "\\forall x x=y" =
      .error (.fault (.freeVariable "y")) := by decide +kernel
  obtain ⟨⟨os, hos⟩, hall⟩ := parse_eq_freeVariable_iff Table.standard_wellFormed hread
  obtain ⟨-, hreport, -, hkeeps⟩ := hall os hos
  exact ⟨os, hos, (hreport "y").1 hparse, hkeeps Table.standard_keepsVariables⟩

/-- Not every formula that is refused for a free variable contains one: the label of a connective
without operands can be the name of a variable. -/
theorem not_exists_freeVariable_of_parse :
    ¬ ∀ (items : List (Data × Table.Item)) (table : Table), Table.ofItems items = .ok table.valued →
      ∀ (text : String) (raw : Tree),
        Reader.formula Level.whole (tokenize table text) = .ok raw [] →
        ∀ v, parse table text = .error (.fault (.freeVariable v)) →
          ∃ os, FormulaWritten (tokenize table text) raw [] 0 os ∧
            ∃ o ∈ os, o.isFree = true ∧ o.role ≠ .constant := by
  intro h
  let constant : Construct := .connective "x" (.nullary none .null)
  let table : Table := ⟨[("top", constant)]⟩
  have hwell : table.WellFormed := ⟨by decide, by decide, by decide⟩
  have hscan : Lexeme.scan "\\top".toList = [.control "top"] := by decide
  have htokens : tokenize table "\\top" = [.known (.control "top") constant] := by
    rw [tokenize, hscan]
    rfl
  have hread : Reader.formula Level.whole (tokenize table "\\top") = .ok (.atom "x") [] := by
    rw [htokens]
    rfl
  have hparse : parse table "\\top" = .error (.fault (.freeVariable "x")) := by decide +kernel
  obtain ⟨os, hos, o, ho, -, hrole⟩ :=
    h table.valued.items table (Table.ofItems_items hwell) "\\top" _ hread "x" hparse
  -- A variable begins with a letter, and the only token is none.
  have hdrop : (tokenize table "\\top").drop 0 = tokenize table "\\top" ++ [] :=
    (List.append_nil _).symm
  obtain ⟨rest, hspelled⟩ := (hos.standsIn hdrop o ho).variableSpelled hrole
  obtain ⟨c, us, hletter, -⟩ := hspelled.exists_letter
  have hmem : Token.char c ∈ tokenize table "\\top" :=
    List.mem_of_mem_drop (hletter ▸ List.mem_cons_self)
  rw [htokens, List.mem_singleton] at hmem
  cases hmem

end Formula

end LatexLogic
