import LatexLogic.Proofs.Grammar.Derivation

/-!
# Sorts of trees

A tree is a term or a formula over the constructs at hand, if every node carries the label of a
construct and has arguments in the number and of the sort that the construct takes
(`Tree.IsTerm`, `Tree.IsFormula`). Names have the form of names, and a quantifier binds an ordinary
variable.

Whatever is read is sorted over the constructs that the tokens stand for
(`Tree.isFormula_of_formula`). The parts of a sorted tree are sorted again, the variable of a
quantifier among them (`Tree.IsSorted.of_mem_args`).
-/

set_option autoImplicit false

namespace LatexLogic

/-! ## Terms and formulas -/

namespace Tree

section Sorts

variable (has : Construct → Prop)

/-- Trees of terms. -/
inductive IsTerm : Tree → Prop where
  | name {name : String} : isVariable name = true → IsTerm (.atom name)
  | application {label : String} {arity : Nat} {positive : 0 < arity} {note : Option Int}
      {args : List Tree} :
      has (.function label (.prefixOp arity positive note)) → args.length = arity →
      (∀ arg ∈ args, IsTerm arg) → IsTerm (.node label args)
  | operation {label : String} {precedence : Int} {left right : Tree} :
      has (.function label (.infixOp precedence)) → IsTerm left → IsTerm right →
      IsTerm (.node label [left, right])

/-- Trees of formulas. -/
inductive IsFormula : Tree → Prop where
  | metavariable {name : String} {declared : List String} :
      IsMetavariableName name → (∀ v ∈ declared, isVariable v = true) →
      IsFormula (.metavar name declared)
  | constant {label : String} {precedence : Option Int} {note : Data} :
      has (.connective label (.nullary precedence note)) → IsFormula (.atom label)
  | before {label : String} {precedence : Int} {note : Data} {argument : Tree} :
      has (.connective label (.prefixOp precedence note)) → IsFormula argument →
      IsFormula (.node label [argument])
  | between {label : String} {precedence : Int} {side : Side} {left right : Tree} :
      has (.connective label (.infixOp precedence side)) → IsFormula left → IsFormula right →
      IsFormula (.node label [left, right])
  | quantified {label bound : String} {scope : Tree} :
      has (.quantifier label) → isOrdinaryVariable bound = true → IsFormula scope →
      IsFormula (.node label [.atom bound, scope])
  | predicate {label : String} {arity : Nat} {positive : 0 < arity} {args : List Tree} :
      has (.predicate label (.prefixOp arity positive)) → args.length = arity →
      (∀ arg ∈ args, IsTerm has arg) → IsFormula (.node label args)
  | comparison {label : String} {left right : Tree} :
      has (.predicate label .infixOp) → IsTerm has left → IsTerm has right →
      IsFormula (.node label [left, right])

/-- Trees of either sort. -/
def IsSorted (t : Tree) : Prop :=
  IsFormula has t ∨ IsTerm has t

end Sorts

/-- The arguments of a node. -/
def args : Tree → List Tree
  | atom _ => []
  | metavar _ _ => []
  | node _ args => args

variable {has : Construct → Prop}

theorem isTerm_of_isOrdinaryVariable {name : String} (h : isOrdinaryVariable name = true) :
    IsTerm has (.atom name) :=
  .name (isVariable_of_isOrdinaryVariable h)

/-- The arguments of a sorted tree are sorted. -/
theorem IsSorted.of_mem_args {t arg : Tree} (h : IsSorted has t) (harg : arg ∈ t.args) :
    IsSorted has arg := by
  rcases h with h | h
  · cases h with
    | metavariable _ _ => cases harg
    | constant _ => cases harg
    | before _ hargument =>
      obtain rfl := List.mem_singleton.1 harg
      exact Or.inl hargument
    | between _ hleft hright =>
      simp only [args, List.mem_cons, List.not_mem_nil, or_false] at harg
      rcases harg with rfl | rfl
      · exact Or.inl hleft
      · exact Or.inl hright
    | quantified _ hbound hscope =>
      simp only [args, List.mem_cons, List.not_mem_nil, or_false] at harg
      rcases harg with rfl | rfl
      · exact Or.inr (isTerm_of_isOrdinaryVariable hbound)
      · exact Or.inl hscope
    | predicate _ _ hargs => exact Or.inr (hargs arg harg)
    | comparison _ hleft hright =>
      simp only [args, List.mem_cons, List.not_mem_nil, or_false] at harg
      rcases harg with rfl | rfl
      · exact Or.inr hleft
      · exact Or.inr hright
  · cases h with
    | name _ => cases harg
    | application _ _ hargs => exact Or.inr (hargs arg harg)
    | operation _ hleft hright =>
      simp only [args, List.mem_cons, List.not_mem_nil, or_false] at harg
      rcases harg with rfl | rfl
      · exact Or.inr hleft
      · exact Or.inr hright

/-- A node of a sorted tree carries the label of a construct and has as many arguments as it takes,
and if that is a quantifier the node has the shape of one. -/
theorem IsSorted.exists_construct {label : String} {args : List Tree}
    (h : IsSorted has (.node label args)) :
    ∃ c, has c ∧ c.label = label ∧ c.arity = args.length ∧ (c.kind = .quantifier →
      ∃ bound scope, args = [.atom bound, scope] ∧ isOrdinaryVariable bound = true) := by
  rcases h with h | h
  · cases h with
    | before hc _ => exact ⟨_, hc, rfl, rfl, nofun⟩
    | between hc _ _ => exact ⟨_, hc, rfl, rfl, nofun⟩
    | quantified hc hbound _ => exact ⟨_, hc, rfl, rfl, fun _ => ⟨_, _, rfl, hbound⟩⟩
    | predicate hc hargs _ => exact ⟨_, hc, rfl, hargs.symm, nofun⟩
    | comparison hc _ _ => exact ⟨_, hc, rfl, rfl, nofun⟩
  · cases h with
    | application hc hargs _ => exact ⟨_, hc, rfl, hargs.symm, nofun⟩
    | operation hc _ _ => exact ⟨_, hc, rfl, rfl, nofun⟩

end Tree

/-! ## Names -/

namespace Reader

/-- What is read as a list of variables consists of variables. -/
theorem isVariable_of_declaration {ts rest : List Token} {declared : List String}
    (h : declaration ts = .ok declared rest) : ∀ v ∈ declared, isVariable v = true := by
  simp only [declaration, get_bind] at h
  split at h
  · obtain ⟨form, us, inside, vs, -, -, rfl, hinner⟩ := parenthesised_eq_ok_iff.1 h
    refine list_induction forward_variableName (n := inside.length)
      (R := fun _ names _ => ∀ v ∈ names, isVariable v = true) ?last ?comma le_rfl hinner
    case last =>
      intro ts name mid _ hname _ v hv
      obtain rfl := List.mem_singleton.1 hv
      exact isVariable_of_variableName hname
    case comma =>
      intro ts name t us names rest _ hname _ hnames v hv
      rcases List.mem_cons.1 hv with rfl | hv
      · exact isVariable_of_variableName hname
      · exact hnames v hv
  · obtain ⟨rfl, -⟩ := pure_eq_ok_iff.1 h
    intro v hv
    exact absurd hv List.not_mem_nil

/-- What is read after the letter of a metavariable makes up a metavariable. -/
theorem exists_of_metavariable {letter : MetaLetter} {ts rest : List Token} {tree : Tree}
    (h : metavariable letter ts = .ok tree rest) :
    ∃ name declared, tree = .metavar name declared ∧ IsMetavariableName name ∧
      ∀ v ∈ declared, isVariable v = true := by
  simp only [metavariable, bind_eq_ok_iff, pure_eq_ok_iff] at h
  obtain ⟨name, mid, hname, declared, _, hdeclared, rfl, rfl⟩ := h
  refine ⟨name, declared, rfl, ?_, isVariable_of_declaration hdeclared⟩
  rcases withSubscript_eq_ok_iff.1 hname with ⟨-, rfl, -⟩ | ⟨ds, hspelled, rfl⟩
  · exact ⟨letter, [], rfl, by rw [String.ofList_nil, String.append_empty]⟩
  · exact ⟨letter, '_' :: ds, hspelled.isSubscriptPart, rfl⟩

end Reader

/-! ## Derivations -/

/-- The construct of a token, if it has one, is among the given ones. -/
def Token.Within (has : Construct → Prop) (t : Token) : Prop :=
  ∀ c, t.construct? = some c → has c

theorem Token.infixFunction?_eq_some {t : Token} {op : InfixOperator}
    (h : t.infixFunction? = some op) :
    ∃ lexeme precedence, t = .known lexeme (.function op.label (.infixOp precedence)) ∧
      op.leftPower = 2 * precedence ∧ op.rightPower = 2 * precedence + 1 := by
  rcases t with ⟨lexeme, ⟨_, _⟩ | _ | ⟨_, _⟩ | ⟨label, _ | ⟨precedence⟩⟩⟩ | _ | _ | _
  case known.function.infixOp =>
    simp only [Token.infixFunction?, Option.some.injEq] at h
    subst h
    exact ⟨lexeme, precedence, rfl, rfl, rfl⟩
  all_goals simp [Token.infixFunction?] at h

theorem Token.infixConnective?_eq_some {t : Token} {op : InfixOperator}
    (h : t.infixConnective? = some op) :
    ∃ lexeme precedence side,
      t = .known lexeme (.connective op.label (.infixOp precedence side)) := by
  rcases t with ⟨lexeme, ⟨label, _ | _ | ⟨precedence, side⟩⟩ | _ | ⟨_, _⟩ | ⟨_, _⟩⟩ | _ | _ | _
  case known.connective.infixOp =>
    simp only [Token.infixConnective?, Option.some.injEq] at h
    subst h
    exact ⟨lexeme, precedence, side, rfl⟩
  all_goals simp [Token.infixConnective?] at h

/-- What the tree of a phrase is like, given that the parts that were read before are terms. -/
def TermPhrase.Sorted (has : Construct → Prop) : TermPhrase → Tree → Prop
  | term _, tree => tree.IsTerm has
  | more _ left, tree => left.IsTerm has → tree.IsTerm has
  | basic, tree => tree.IsTerm has
  | arguments _ label done, tree => (∀ arg ∈ done, Tree.IsTerm has arg) →
    ∃ args, tree = .node label args ∧ ∀ arg ∈ args, Tree.IsTerm has arg

/-- What the tree of a phrase is like, given that the part that was read before is a formula. -/
def FormulaPhrase.Sorted (has : Construct → Prop) : FormulaPhrase → Tree → Prop
  | more _ left, tree => left.IsFormula has → tree.IsFormula has
  | _, tree => tree.IsFormula has

section Derivations

variable {has : Construct → Prop} {u rest : List Token} {tree : Tree}

/-- With one more term the arguments before are terms still. -/
theorem isTerm_of_mem_concat {done : List Tree} {arg : Tree}
    (hdone : ∀ t ∈ done, Tree.IsTerm has t) (harg : arg.IsTerm has) :
    ∀ t ∈ done ++ [arg], Tree.IsTerm has t :=
  List.forall_mem_append.2 ⟨hdone, List.forall_mem_singleton.2 harg⟩

theorem ArgumentKind.isTerm_of_sorted {kind : ArgumentKind} (h : kind.phrase.Sorted has tree) :
    tree.IsTerm has := by
  cases kind with
  | full => exact h
  | basic => exact h

theorem TermDerivation.sorted {p : TermPhrase} (h : TermDerivation p u tree rest)
    (hu : ∀ t ∈ u, t.Within has) : p.Sorted has tree := by
  induction h with
  | term _ _ ihfirst ihmore =>
    rw [List.forall_mem_append] at hu
    exact ihmore hu.2 (ihfirst hu.1)
  | stop _ => exact id
  | step hop _ _ _ ihright ihmore =>
    intro hleft
    obtain ⟨lexeme, precedence, rfl, -⟩ := Token.infixFunction?_eq_some hop
    rw [List.forall_mem_cons, List.forall_mem_append] at hu
    exact ihmore hu.2.2 (.operation (hu.1 _ rfl) hleft (ihright hu.2.1))
  | name hname =>
    exact .name (Reader.isVariable_of_variableName (Reader.variableName_eq_ok_iff.2 hname))
  | parens _ _ _ ih =>
    rw [List.forall_mem_append, List.forall_mem_append] at hu
    exact ih hu.2.1
  | application _ _ _ harity ih =>
    rw [List.forall_mem_cons, List.forall_mem_append, List.forall_mem_append] at hu
    obtain ⟨args, hnode, hargs⟩ := ih hu.2.2.1 nofun
    obtain ⟨-, rfl⟩ := Tree.node.inj hnode
    exact .application (hu.1 _ rfl) harity hargs
  | last _ _ ih =>
    intro hdone
    exact ⟨_, rfl, isTerm_of_mem_concat hdone (ArgumentKind.isTerm_of_sorted (ih hu))⟩
  | comma _ _ _ ih ihmore =>
    intro hdone
    rw [List.forall_mem_append, List.forall_mem_cons] at hu
    have harg := ArgumentKind.isTerm_of_sorted (ih hu.1)
    exact ihmore hu.2.2 (isTerm_of_mem_concat hdone harg)

theorem FormulaDerivation.sorted {p : FormulaPhrase} (h : FormulaDerivation p u tree rest)
    (hu : ∀ t ∈ u, t.Within has) : p.Sorted has tree := by
  induction h with
  | formula _ _ ihfirst ihmore =>
    rw [List.forall_mem_append] at hu
    exact ihmore hu.2 (ihfirst hu.1)
  | stop _ => exact id
  | step hop _ _ _ ihright ihmore =>
    intro hleft
    obtain ⟨lexeme, precedence, side, rfl⟩ := Token.infixConnective?_eq_some hop
    rw [List.forall_mem_cons, List.forall_mem_append] at hu
    exact ihmore hu.2.2 (.between (hu.1 _ rfl) hleft (ihright hu.2.1))
  | before _ ih =>
    rw [List.forall_mem_cons] at hu
    exact .before (hu.1 _ rfl) (ih hu.2)
  | quantified hname heigen _ ih =>
    rw [List.forall_mem_cons, List.forall_mem_append] at hu
    have hvariable := Reader.isVariable_of_variableName (Reader.variableName_eq_ok_iff.2 hname)
    exact .quantified (hu.1 _ rfl) ((isOrdinaryVariable_iff_of_isVariable hvariable).2 heigen)
      (ih hu.2.2)
  | basicOperand _ ih => exact ih hu
  | metavariable hread =>
    obtain ⟨name, declared, rfl, hname, hdeclared⟩ := Reader.exists_of_metavariable hread
    exact .metavariable hname hdeclared
  | constant => exact .constant (hu _ List.mem_cons_self _ rfl)
  | predicate _ _ hargs harity =>
    rw [List.forall_mem_cons, List.forall_mem_append, List.forall_mem_append] at hu
    obtain ⟨args, hnode, hsorted⟩ := hargs.sorted hu.2.2.1 nofun
    obtain ⟨-, rfl⟩ := Tree.node.inj hnode
    exact .predicate (hu.1 _ rfl) harity hsorted
  | parens _ _ _ ih =>
    rw [List.forall_mem_append, List.forall_mem_append] at hu
    exact ih hu.2.1
  | comparison hleft hright =>
    rw [List.forall_mem_append, List.forall_mem_cons] at hu
    exact .comparison (hu.2.1 _ rfl) (hleft.sorted hu.1) (hright.sorted hu.2.2)

end Derivations

namespace Tree

variable {has : Construct → Prop} {m : Threshold} {ts rest : List Token} {tree : Tree}

/-- What is read as a formula is one. -/
theorem isFormula_of_formula (h : Reader.formula m ts = .ok tree rest)
    (hts : ∀ t ∈ ts, t.Within has) : tree.IsFormula has := by
  obtain ⟨u, rfl, hu⟩ := FormulaDerivation.of_formula h
  exact hu.sorted fun t ht => hts t (List.mem_append_left _ ht)

/-- What is read as a term is one. -/
theorem isTerm_of_term (h : Reader.term m ts = .ok tree rest) (hts : ∀ t ∈ ts, t.Within has) :
    tree.IsTerm has := by
  obtain ⟨u, rfl, hu⟩ := TermDerivation.of_term h
  exact hu.sorted fun t ht => hts t (List.mem_append_left _ ht)

end Tree

/-! ## Tables -/

/-- The constructs of a table. -/
def Table.Has (table : Table) (c : Construct) : Prop :=
  ∃ spelling, table.get? spelling = some c

theorem Table.exists_mem_of_get? {Λ : Type} {table : Table Λ} {spelling : String} {c : Construct Λ}
    (h : table.get? spelling = some c) : (spelling, c) ∈ table.entries := by
  unfold Table.get? at h
  obtain ⟨⟨found, c'⟩, hfind, rfl⟩ := Option.map_eq_some_iff.1 h
  have hmem := List.mem_of_find?_eq_some hfind
  have hfound : found = spelling := by simpa using List.find?_some hfind
  rwa [hfound] at hmem

/-- A token has no other meaning than its table gives it. -/
theorem Token.within_ofLexeme (table : Table) (l : Lexeme) :
    (Token.ofLexeme table l).Within table.Has := by
  intro c hc
  cases l with
  | char x =>
    dsimp only [Token.ofLexeme] at hc
    cases hget : table.get? (String.singleton x) with
    | none => simp [hget, Token.construct?] at hc
    | some c' =>
      simp only [hget, Token.construct?, Option.some.injEq] at hc
      exact ⟨_, hc ▸ hget⟩
  | control name =>
    dsimp only [Token.ofLexeme] at hc
    cases hname : MetaLetter.ofName? name with
    | some letter => simp [hname, Token.construct?] at hc
    | none =>
      cases hget : table.get? name with
      | none => simp [hname, hget, Token.construct?] at hc
      | some c' =>
        simp only [hname, hget, Token.construct?, Option.some.injEq] at hc
        exact ⟨_, hc ▸ hget⟩

theorem within_of_mem_tokenize {table : Table} {text : String} {t : Token}
    (h : t ∈ tokenize table text) : t.Within table.Has := by
  obtain ⟨l, -, rfl⟩ := List.mem_map.1 h
  exact Token.within_ofLexeme table l

end LatexLogic
