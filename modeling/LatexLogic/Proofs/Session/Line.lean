import LatexLogic.Proofs.Binding.Verdict
import LatexLogic.Proofs.Export.Expression
import LatexLogic.Proofs.Recovery.Labelled
import LatexLogic.Proofs.Session.OneLine
import LatexLogic.Session.Answer

/-!
# The line for a formula

What is printed for a formula is on one line. In the JSON format this is so for every result. In the
other format texts reach the line as they are: the labels of a table and the names of variables in the
expression of a tree, the symbol of an operator and the names of variables in the message of an error.
Names hold no line end, and labels and symbols hold none if the table does not
(`Table.IsOneLine`, `Session.isOneLine_render`). Any other piece of the input is quoted.
-/

set_option autoImplicit false

namespace LatexLogic

/-- No spelling of the table holds a line end, and no label does that can be written without quotes. -/
structure Table.IsOneLine (table : Table Data) : Prop where
  spelling : ∀ entry ∈ table.entries, Text.IsOneLine entry.1
  label : ∀ entry ∈ table.entries, Text.IsOneLine entry.2.treeLabel.expression

namespace Table

theorem isOneLine_mark (t : Table Data) : Text.IsOneLine t.mark := by
  rw [mark, Text.isOneLine_ofList]
  intro h
  exact absurd (List.eq_of_mem_replicate h) (by decide)

/-- The names of a table hold no line end if its spellings and texts do not. -/
theorem IsOneLine.named {t : Table Data} (h : t.IsOneLine) :
    ∀ entry ∈ t.named.entries, Text.IsOneLine entry.1 ∧ Text.IsOneLine entry.2.label := by
  refine List.forall_mem_map.2 fun entry hentry => ⟨h.spelling entry hentry, ?_⟩
  rw [Construct.label_withLabel]
  rcases t.nameOf_cases entry.1 entry.2.label with htext | hmark
  · have hlabel := h.label entry hentry
    rwa [Construct.keepsTexts_treeLabel _ _ htext] at hlabel
  · rw [hmark]
    exact Text.isOneLine_append.2 ⟨t.isOneLine_mark, h.spelling entry hentry⟩

theorem standard_isOneLine : standard.valued.IsOneLine where
  spelling := by decide
  label := by
    have hlabels : ∀ entry ∈ standard.entries, Text.IsOneLine entry.2.label := by decide
    refine List.forall_mem_map.2 fun entry hentry => ?_
    rw [Construct.keepsTexts_treeLabel _ _ (Construct.label_valued entry.2)]
    exact hlabels entry hentry

end Table

theorem IsNameLike.isOneLine {name : String} (h : IsNameLike name) : Text.IsOneLine name :=
  h.notMem (by decide)

theorem isOneLine_of_isOrdinaryVariable {name : String} (h : isOrdinaryVariable name = true) :
    Text.IsOneLine name :=
  (isNameLike_of_isVariable (isVariable_of_isOrdinaryVariable h)).isOneLine

namespace Tree

/-- The expression of a tree is on one line if its texts are. -/
theorem AllTexts.isOneLine_sexpr {t : Tree} (h : t.AllTexts Text.IsOneLine) :
    Text.IsOneLine t.sexpr := by
  rw [sexpr_eq_intercalate]
  exact Text.isOneLine_intercalate (by decide)
    (h.forall_mem_words (by decide) (by decide) (by decide))

/-- What holds of the labels of a tree and of what they are replaced by holds of the labels afterwards. -/
theorem AllTexts.relabelled {P : String → Prop} {label : String → String} {t : Tree}
    (h : t.AllTexts fun s => P s ∧ P (label s)) : (t.relabelled label label).AllTexts P := by
  induction h with
  | atom hlabel => exact .atom hlabel.2
  | metavar hname hdeclared => exact .metavar hname.1 fun v hv => (hdeclared v hv).1
  | node hlabel _ ih =>
    rw [Tree.relabelled, relabelledList_eq_map]
    exact .node hlabel.2 (List.forall_mem_map.2 ih)

/-- A metavariable of a sorted tree has the name of one. -/
theorem IsSorted.isMetavariableName {has : Construct → Prop} {t : Tree} (ht : t.IsSorted has)
    {p : List Nat} {m : String} {declared : List String}
    (hat : t.at? p = some (.metavar m declared)) : IsMetavariableName m := by
  rcases ht.of_at? p hat with h | h
  · cases h with
    | metavariable hname _ => exact hname
  · cases h

end Tree

/-! ## Messages -/

/-- The texts that stand in the message of an error without quotes. -/
def FormulaError.named : FormulaError → List String
  | badToken _ _ => []
  | blank => []
  | unexpectedEnd _ => []
  | wrongArgumentCount symbol _ _ | longArgumentCount symbol _ _ => [symbol]
  | boundEigenvariable v => [v]
  | doubleBound v => [v]
  | eigenvariableDeclaredFree v m => [v, m]
  | freeVariable v => [v]
  | inconsistentDeclarations m => [m]

theorem FormulaError.named_ofCount (symbol : String) (expected actual : Int) :
    (ofCount symbol expected actual).named = [symbol] := by
  unfold ofCount
  split <;> rfl

/-- A message is on one line if the texts without quotes are. -/
theorem FormulaError.isOneLine_message {error : FormulaError}
    (h : ∀ name ∈ error.named, Text.IsOneLine name) : Text.IsOneLine error.message := by
  -- Each case puts literal texts around what is named, quoted or counted.
  cases error with
  | badToken actual expected =>
    have hactual := Text.isOneLine_quoted actual
    cases expected with
    | none =>
      unfold message
      simp only [Text.isOneLine_append]
      exact ⟨by decide, hactual⟩
    | some expected =>
      unfold message
      simp only [Text.isOneLine_append]
      exact ⟨⟨⟨by decide, Text.isOneLine_quoted expected⟩, by decide⟩, hactual⟩
  | blank => decide
  | unexpectedEnd expected =>
    cases expected with
    | none => decide
    | some expected =>
      unfold message
      simp only [Text.isOneLine_append]
      exact ⟨by decide, Text.isOneLine_quoted expected⟩
  | wrongArgumentCount symbol expected actual =>
    have hsymbol := h symbol List.mem_cons_self
    unfold message
    simp only [Text.isOneLine_append]
    exact ⟨⟨⟨⟨hsymbol, by decide⟩, Text.isOneLine_toString expected⟩, by decide⟩,
      Text.isOneLine_toString actual⟩
  | longArgumentCount symbol expected actual =>
    exact (by decide +kernel : Text.IsOneLine Numeral.tooLongMessage)
  | eigenvariableDeclaredFree v m =>
    obtain ⟨hv, hm⟩ := List.forall_mem_cons.1 h
    unfold message
    simp only [Text.isOneLine_append]
    exact ⟨⟨⟨by decide, hv⟩, by decide⟩, hm m List.mem_cons_self⟩
  | boundEigenvariable name
  | doubleBound name
  | freeVariable name
  | inconsistentDeclarations name =>
    have hname := h name List.mem_cons_self
    unfold message
    simp only [Text.isOneLine_append]
    exact ⟨⟨by decide, hname⟩, by decide⟩

/-! ## Faults -/

section Faults

variable {table : Table}

/-- What is written for a construct of the table is on one line: it is a spelling, possibly behind a
backslash. -/
theorem isOneLine_written (htable : ∀ entry ∈ table.entries, Text.IsOneLine entry.1)
    {text : String} {lexeme : Lexeme} {c : Construct} (h : Token.known lexeme c ∈ tokenize table text) :
    Text.IsOneLine lexeme.written := by
  obtain ⟨l, -, hl⟩ := List.mem_map.1 h
  have hspelling {spelling : String} {c' : Construct} (hget : table.get? spelling = some c') :=
    htable _ (Table.exists_mem_of_get? hget)
  cases l with
  | char x =>
    dsimp only [Token.ofLexeme] at hl
    split at hl
    · next hget =>
      cases hl
      exact hspelling hget
    · cases hl
  | control name =>
    dsimp only [Token.ofLexeme] at hl
    split at hl
    · cases hl
    · split at hl
      · next hget =>
        cases hl
        exact Text.isOneLine_append.2 ⟨by decide, hspelling hget⟩
      · cases hl

/-- A token at fault is named only as far as the table or a variable names it. -/
theorem FaultIn.isOneLine_named (htable : ∀ entry ∈ table.entries, Text.IsOneLine entry.1)
    {text : String} {error : FormulaError} (h : FaultIn (.fault error) (tokenize table text)) :
    ∀ name ∈ error.named, Text.IsOneLine name := by
  obtain ⟨pre, post, hts, hfault⟩ := h
  cases hfault with
  | token hfault =>
    cases error with
    | badToken actual expected => exact fun _ h => absurd h List.not_mem_nil
    | unexpectedEnd expected => exact fun _ h => absurd h List.not_mem_nil
    | _ => exact False.elim hfault
  | eigenvariable hname _ =>
    have hvariable := Reader.isVariable_of_variableName hname
    exact List.forall_mem_singleton.2 (isNameLike_of_isVariable hvariable).isOneLine
  | @function lexeme _ _ _ _ _ _ _ _ _ happly | @predicate lexeme _ _ _ _ _ _ _ _ happly =>
    -- The error names the operator as it is written.
    obtain ⟨-, rfl⟩ := Tree.applied_eq_error (Lexeme.written_ne_empty lexeme) happly
    rw [FormulaError.named_ofCount]
    have hmem := hts ▸ List.mem_append_right pre List.mem_cons_self
    exact List.forall_mem_singleton.2 (isOneLine_written htable hmem)

/-- The checks on a tree name its variables and metavariables. -/
theorem isOneLine_named_of_ofTree (hwell : table.WellFormed) {raw : Tree} {error : FormulaError}
    (hsorted : raw.IsSorted table.Has)
    (h : Formula.ofTree table.isQuantifierLabel raw = .error error) :
    ∀ name ∈ error.named, Text.IsOneLine name := by
  have hnames := hsorted.namesBinders hwell
  -- The conditions in the order in which they are checked: the first that fails gives the error.
  by_cases hclosed : raw.Closed table.isQuantifierLabel
  case neg =>
    obtain ⟨v, hordinary, -, hv⟩ := Formula.ofTree_of_not_closed hnames hclosed
    cases hv.symm.trans h
    exact List.forall_mem_singleton.2 (isOneLine_of_isOrdinaryVariable hordinary)
  by_cases halike : raw.DeclaresAlike
  case neg =>
    obtain ⟨m, ⟨p, -, declared, -, hat, -⟩, hm⟩ :=
      Formula.ofTree_of_not_declaresAlike hnames hclosed halike
    cases hm.symm.trans h
    exact List.forall_mem_singleton.2 (hsorted.isMetavariableName hat).isNameLike.isOneLine
  by_cases honce : raw.BindsOnce table.isQuantifierLabel
  case neg =>
    obtain ⟨v, ⟨q, -, -, ⟨label, scope, hat, hlabel⟩, -⟩, hv⟩ :=
      Formula.ofTree_of_not_bindsOnce hnames hclosed halike honce
    cases hv.symm.trans h
    obtain ⟨bound, scope', hargs, hordinary⟩ := hsorted.quantifier_shape hwell hat hlabel
    obtain rfl := Tree.atom.inj (List.cons.inj hargs).1
    exact List.forall_mem_singleton.2 (isOneLine_of_isOrdinaryVariable hordinary)
  by_cases hnone : raw.DeclaresNoEigenvariable
  case neg =>
    obtain ⟨v, m, ⟨p, before, behind, hat, -⟩, hv⟩ :=
      Formula.ofTree_of_not_declaresNoEigenvariable hnames hclosed halike honce hnone
    cases hv.symm.trans h
    have hvariable := hsorted.isVariable_of_declared hat v
      (List.mem_append_right _ List.mem_cons_self)
    exact List.forall_mem_cons.2 ⟨(isNameLike_of_isVariable hvariable).isOneLine,
      List.forall_mem_singleton.2 (hsorted.isMetavariableName hat).isNameLike.isOneLine⟩
  obtain ⟨f, hok, -⟩ :=
    Formula.ofTree_of_declaresNoEigenvariable hnames hclosed halike honce hnone
  cases hok.symm.trans h

end Faults

/-! ## Lines -/

namespace Session

variable {table : Table Data} {text : String}

theorem isOneLine_message (hwell : table.WellFormed) (htable : table.IsOneLine)
    {error : FormulaError} (h : Formula.parse table.named text = .error (.fault error)) :
    Text.IsOneLine error.message := by
  refine FormulaError.isOneLine_message ?_
  rcases Formula.origin_of_parse h with ⟨-, hblank⟩ | hfault | ⟨raw, error', hread, hchecks, heq⟩
  · cases hblank
    exact fun _ h => absurd h List.not_mem_nil
  · exact hfault.isOneLine_named fun entry hentry => (htable.named entry hentry).1
  · cases heq
    have hformula := Tree.isFormula_of_formula hread fun _ ht => within_of_mem_tokenize ht
    exact isOneLine_named_of_ofTree hwell.named (Or.inl hformula) hchecks

theorem isOneLine_expression (hwell : table.WellFormed) (htable : table.IsOneLine) {f : Formula}
    (h : Formula.parse table.named text = .ok f) : Text.IsOneLine (f.expression table) := by
  have htexts : f.tree.AllTexts fun s =>
      Text.IsOneLine s ∧ Text.IsOneLine (table.treeLabelNamed s).expression := by
    refine Formula.allTexts_of_parse (List.forall_mem_map.2 fun entry hentry => ?_)
      (fun name hname => ?_) h
    · have hnamed := htable.named _ (List.mem_map_of_mem hentry)
      refine ⟨hnamed.2, ?_⟩
      rw [Construct.label_withLabel, Table.treeLabelNamed_nameOf hwell.nodup_spellings hentry]
      exact htable.label entry hentry
    · rw [Table.treeLabelNamed_of_isNameLike hname]
      exact ⟨hname.isOneLine, hname.isOneLine⟩
  exact htexts.relabelled.isOneLine_sexpr

/-- A formula that is accepted in a session is accepted without a limit. -/
theorem result_eq_ok {limits : Limits} {f : Formula} (h : result limits table text = .ok f) :
    Formula.parseLabelled table text = .ok f := by
  unfold result at h
  split at h
  · exact h
  · cases h

/-- A formula that is refused in a session is too deep for it, or a variable is free in it, or it is
refused without a limit. -/
theorem result_eq_failure (hwell : table.WellFormed) {limits : Limits} {failure : Failure}
    (h : result limits table text = .error (.failure failure)) :
    failure = .tooDeep ∨ ∃ error, failure = .fault error ∧
      ((∃ v, isOrdinaryVariable v = true ∧ error = .freeVariable v) ∨
        Formula.parse table.named text = .error (.fault error)) := by
  unfold result at h
  split at h
  · obtain ⟨error, rfl, -, horigin⟩ := Formula.parse_of_parseLabelled hwell h
    exact Or.inr ⟨error, rfl, horigin⟩
  · cases h
    exact Or.inl rfl

/-- The line for a formula is on one line. In the bare format this takes a table whose spellings and
labels are. -/
theorem isOneLine_render (limits : Limits) {format : Format}
    (h : format = .sexpr → table.WellFormed ∧ table.IsOneLine) (text : String) :
    Text.IsOneLine (render table format text (result limits table text)) := by
  cases format with
  | json => exact Data.isOneLine_json _
  | sexpr =>
    obtain ⟨hwell, htable⟩ := h rfl
    cases hresult : result limits table text with
    | ok f =>
      have hparse := Formula.parse_of_parseLabelled_ok hwell (result_eq_ok hresult)
      exact isOneLine_expression hwell htable hparse
    | error problem =>
      cases problem with
      | obstacle o => exact (by decide : Text.IsOneLine "")
      | failure failure =>
        rcases result_eq_failure hwell hresult with rfl | ⟨error, rfl, ⟨v, hv, rfl⟩ | hparse⟩
        · exact (by decide : Text.IsOneLine ("error: " ++ tooDeepMessage))
        · refine Text.isOneLine_append.2 ⟨by decide, FormulaError.isOneLine_message ?_⟩
          exact List.forall_mem_singleton.2 (isOneLine_of_isOrdinaryVariable hv)
        · exact Text.isOneLine_append.2 ⟨by decide, isOneLine_message hwell htable hparse⟩

end Session

end LatexLogic
