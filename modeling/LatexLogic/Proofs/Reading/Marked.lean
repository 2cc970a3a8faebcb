import LatexLogic.Formula.Parse
import LatexLogic.Proofs.Reading.Forward

/-!
# Trees that remember their operators

A tree of a formula shows the labels of its operators only. The readers of this module read the same
texts in the same way, but each of their nodes remembers the token that it was built for and the
branch of the readers that built it (`MarkedTree`, `Branch`). Every branch builds its nodes by the
one function `Marked.build`, which checks that an operator has as many arguments as it takes.

Once the marks are taken off, the trees are those of the readers without marks, and so are the
failures (`Marked.unmarked_ofDepth`, `Marked.treeOfTokens_eq_map`). The readers without marks check
the number of arguments behind prefix operators alone; that makes no difference, as everywhere else
the number is right.
-/

set_option autoImplicit false

namespace LatexLogic

/-! ## Marked trees -/

/-- The branches of the readers that build nodes. -/
inductive Branch where
  | connectiveBefore
  | connectiveBetween
  | quantifier
  | predicateBefore
  | predicateBetween
  | functionBefore
  | functionBetween
  deriving DecidableEq, Repr

/-- The branch that is to build the nodes of a construct; a nullary connective has none. -/
def Construct.branch? : Construct → Option Branch
  | .connective _ (.nullary _ _) => none
  | .connective _ (.prefixOp _ _) => some .connectiveBefore
  | .connective _ (.infixOp _ _) => some .connectiveBetween
  | .quantifier _ => some .quantifier
  | .predicate _ (.prefixOp _ _) => some .predicateBefore
  | .predicate _ .infixOp => some .predicateBetween
  | .function _ (.prefixOp _ _ _) => some .functionBefore
  | .function _ (.infixOp _) => some .functionBetween

/-- A tree whose nodes show the branch that built them, and the lexeme and the meaning of the tokens
that they were built for. -/
inductive MarkedTree where
  | atom (label : String)
  | metavar (name : String) (declared : List String)
  | node (branch : Branch) (lexeme : Lexeme) (construct : Construct) (args : List MarkedTree)

namespace MarkedTree

mutual

/-- The tree without marks, with labels in their place. -/
def unmarked : MarkedTree → Tree
  | .atom label => .atom label
  | .metavar name declared => .metavar name declared
  | .node _ _ c args => .node c.label (unmarkedList args)

/-- The trees of a list without marks. -/
def unmarkedList : List MarkedTree → List Tree
  | [] => []
  | t :: ts => unmarked t :: unmarkedList ts

end

/-- The arguments of a node lose their marks one by one. -/
theorem unmarkedList_eq_map (ts : List MarkedTree) : unmarkedList ts = ts.map unmarked := by
  induction ts with
  | nil => rfl
  | cons t ts ih => simp only [unmarkedList, List.map_cons, ih]

@[simp] theorem unmarked_atom (label : String) : (atom label).unmarked = .atom label := rfl

@[simp] theorem unmarked_metavar (name : String) (declared : List String) :
    (metavar name declared).unmarked = .metavar name declared := rfl

@[simp] theorem unmarked_node (branch : Branch) (lexeme : Lexeme) (c : Construct)
    (args : List MarkedTree) :
    (node branch lexeme c args).unmarked = .node c.label (args.map unmarked) := by
  rw [unmarked, unmarkedList_eq_map]

end MarkedTree

/-! ## Marked readers -/

namespace Marked

open Reader

/-- Builds the node of a token over its arguments, if their number is the arity. -/
def build (branch : Branch) (lexeme : Lexeme) (c : Construct) (args : List MarkedTree) :
    Reader MarkedTree :=
  match Tree.applied lexeme.written c.label c.arity (args.map MarkedTree.unmarked) with
  | .ok _ => pure (.node branch lexeme c args)
  | .error e => fail e

/-- The mutually dependent readers at one level of nesting. -/
structure Level where
  formula : Threshold → Reader MarkedTree
  term : Threshold → Reader MarkedTree
  basicTerm : Reader MarkedTree

/-- The level below all others. -/
def exhausted : Level where
  formula _ := throw .tooDeep
  term _ := throw .tooDeep
  basicTerm := throw .tooDeep

/-- The operator that continues a run at the given tokens, with the token that stands for it. -/
def continuing? (operator? : Token → Option InfixOperator) (threshold : Threshold) :
    List Token → Option (Lexeme × Construct × InfixOperator)
  | .known lexeme c :: us =>
    (Reader.continuing? operator? threshold (.known lexeme c :: us)).map fun op => (lexeme, c, op)
  | _ => none

/-- Reads the operators that continue a run after `tree`, each with its right argument. -/
def infixRun (branch : Branch) (operator? : Token → Option InfixOperator)
    (operand : Threshold → Reader MarkedTree) (threshold : Threshold) :
    (limit : Nat) → MarkedTree → Reader MarkedTree
  | 0, tree => return tree
  | limit + 1, tree => do
    match continuing? operator? threshold (← get) with
    | none => return tree
    | some (lexeme, c, op) =>
      let _ ← next?
      let right ← operand (.power op.rightPower)
      let tree ← build branch lexeme c [tree, right]
      infixRun branch operator? operand threshold limit tree

/-- Reads the operators that continue a run after `tree`. -/
def infixRest (branch : Branch) (operator? : Token → Option InfixOperator)
    (operand : Threshold → Reader MarkedTree) (threshold : Threshold) (tree : MarkedTree) :
    Reader MarkedTree := do
  infixRun branch operator? operand threshold (← get).length tree

/-- Reads the arguments of a prefix operator in parentheses and applies the operator to them. -/
def application (branch : Branch) (lexeme : Lexeme) (c : Construct) (argument : Reader MarkedTree) :
    Reader MarkedTree := do
  let args ← parenthesised (list argument)
  build branch lexeme c args

/-- Reads a basic term. -/
def basicTermAbove (below : Level) : Reader MarkedTree := do
  match ← peek? with
  | none => fail (.unexpectedEnd none)
  | some t =>
    match t with
    | .known lexeme (.function label (.prefixOp arity positive note)) =>
      let _ ← next?
      application .functionBefore lexeme (.function label (.prefixOp arity positive note))
        below.basicTerm
    | _ =>
      if opensWith "(" (← get) then parenthesised (below.term LatexLogic.Level.whole)
      else return .atom (← variableName)

/-- Reads a term. -/
def termAbove (below : Level) (threshold : Threshold) : Reader MarkedTree := do
  let first ← basicTermAbove below
  infixRest .functionBetween Token.infixFunction? below.term threshold first

/-- Reads two terms with an infix predicate between them. -/
def infixPredicateAbove (below : Level) : Reader MarkedTree := do
  let left ← termAbove below LatexLogic.Level.whole
  let t ← next
  match t with
  | .known lexeme (.predicate label .infixOp) =>
    let right ← termAbove below LatexLogic.Level.whole
    build .predicateBetween lexeme (.predicate label .infixOp) [left, right]
  | _ => fail (.badToken t.written none)

/-- Tries one reader and, if its failure leaves room for a term, the other from the same place. -/
def formulaElseTerm (formula term : Reader MarkedTree) : Reader MarkedTree := fun ts =>
  match formula ts with
  | .ok tree rest => .ok tree rest
  | .error failure rest =>
    if LatexLogic.Level.leavesTerm failure then term ts else .error failure rest

/-- Reads a metavariable with its declaration. -/
def metavariable (letter : MetaLetter) : Reader MarkedTree := do
  let name ← withSubscript letter.name
  return .metavar name (← declaration)

/-- Reads a formula without connectives outside parentheses. -/
def basicFormulaAbove (below : Level) : Reader MarkedTree := do
  match ← peek? with
  | none => fail (.unexpectedEnd none)
  | some t =>
    match t with
    | .metavariable letter =>
      let _ ← next?
      metavariable letter
    | .known _ (.connective label (.nullary _ _)) =>
      let _ ← next?
      return .atom label
    | .known lexeme (.predicate label (.prefixOp arity positive)) =>
      let _ ← next?
      application .predicateBefore lexeme (.predicate label (.prefixOp arity positive))
        (below.term LatexLogic.Level.whole)
    | _ =>
      if opensWith "(" (← get) then
        formulaElseTerm (parenthesised (below.formula LatexLogic.Level.whole))
          (infixPredicateAbove below)
      else infixPredicateAbove below

/-- Reads the variable and the scope of a quantifier. -/
def quantified (below : Level) (lexeme : Lexeme) (label : String) : Reader MarkedTree := do
  let bound ← variableName
  if isEigenvariable bound then fail (.boundEigenvariable bound)
  else
    let scope ← below.formula .unreachable
    build .quantifier lexeme (.quantifier label) [.atom bound, scope]

/-- Reads the first operand of a formula. -/
def operandAbove (below : Level) : Reader MarkedTree := do
  match ← peek? with
  | none => fail (.unexpectedEnd none)
  | some t =>
    match t with
    | .known lexeme (.connective label (.prefixOp precedence note)) =>
      let _ ← next?
      let power := (Construct.connectivePowers (.prefixOp precedence note)).2
      let argument ← below.formula (.power power)
      build .connectiveBefore lexeme (.connective label (.prefixOp precedence note)) [argument]
    | .known lexeme (.quantifier label) =>
      let _ ← next?
      quantified below lexeme label
    | _ => basicFormulaAbove below

/-- Reads a formula. -/
def formulaAbove (below : Level) (threshold : Threshold) : Reader MarkedTree := do
  let first ← operandAbove below
  infixRest .connectiveBetween Token.infixConnective? below.formula threshold first

/-- The level that uses a given one for the parts inside. -/
def above (below : Level) : Level where
  formula := formulaAbove below
  term := termAbove below
  basicTerm := basicTermAbove below

/-- The level that allows a given depth of nesting. -/
def ofDepth : Nat → Level
  | 0 => exhausted
  | depth + 1 => above (ofDepth depth)

/-- Reads one formula that uses up all tokens. -/
def treeOfTokens (depth : Nat) (tokens : List Token) : Except Failure MarkedTree :=
  match (ofDepth depth).formula LatexLogic.Level.whole tokens with
  | .error failure _ => .error failure
  | .ok _ (t :: _) => .error (.fault (.badToken t.written none))
  | .ok tree [] => .ok tree

/-! ## Taking the marks off -/

section Map

variable {α β : Type} (f : α → β)

theorem map_parenthesised (inner : Reader α) :
    f <$> parenthesised inner = parenthesised (f <$> inner) := by
  unfold parenthesised delimited
  rw [map_bind]
  apply bind_congr
  intro o
  cases o with
  | none => rfl
  | some t =>
    dsimp only
    split
    · simp only [map_bind, bind_map_left, map_pure]
    · split
      · simp only [map_bind, bind_map_left, map_pure]
      · rfl

theorem map_moreItems (item : Reader α) (limit : Nat) :
    List.map f <$> moreItems item limit = moreItems (f <$> item) limit := by
  induction limit with
  | zero => rfl
  | succ limit ih =>
    simp only [moreItems, map_bind, ← ih]
    apply bind_congr
    intro ts
    split
    · simp only [map_bind, bind_map_left, map_pure, List.map_cons]
    · rfl

theorem map_list (item : Reader α) : List.map f <$> list item = list (f <$> item) := by
  unfold list
  simp only [map_bind, bind_map_left, map_pure, List.map_cons, ← map_moreItems]

end Map

open MarkedTree (unmarked)

/-- A level without its marks. -/
def Level.unmarked (l : Level) : LatexLogic.Level where
  formula m := MarkedTree.unmarked <$> l.formula m
  term m := MarkedTree.unmarked <$> l.term m
  basicTerm := MarkedTree.unmarked <$> l.basicTerm

/-- The node of an operator with the right number of arguments is built. -/
theorem build_of_length {branch : Branch} {lexeme : Lexeme} {c : Construct} {args : List MarkedTree}
    (h : args.length = c.arity) :
    build branch lexeme c args = pure (.node branch lexeme c args) := by
  have happlied : Tree.applied lexeme.written c.label c.arity (args.map MarkedTree.unmarked) =
      .ok (.node c.label (args.map MarkedTree.unmarked)) :=
    Tree.applied_eq_ok_iff.2 ⟨by rw [List.length_map, h], rfl⟩
  rw [build, happlied]

/-- Without marks a node is built as the readers without marks build it. -/
theorem unmarked_build (branch : Branch) (lexeme : Lexeme) (c : Construct)
    (args : List MarkedTree) :
    unmarked <$> build branch lexeme c args =
      match Tree.applied lexeme.written c.label c.arity (args.map unmarked) with
      | .ok tree => pure tree
      | .error e => fail e := by
  unfold build
  cases happlied : Tree.applied lexeme.written c.label c.arity (args.map unmarked) with
  | error e => rfl
  | ok tree =>
    obtain ⟨-, rfl⟩ := Tree.applied_eq_ok_iff.1 happlied
    simp only [map_pure, MarkedTree.unmarked_node]

theorem unmarked_application (branch : Branch) (lexeme : Lexeme) (c : Construct)
    (argument : Reader MarkedTree) :
    unmarked <$> application branch lexeme c argument =
      LatexLogic.Level.application lexeme.written c.label c.arity (unmarked <$> argument) := by
  unfold application LatexLogic.Level.application
  rw [map_bind, ← map_list, ← map_parenthesised, bind_map_left]
  apply bind_congr
  intro args
  apply (unmarked_build branch lexeme c args).trans
  cases Tree.applied lexeme.written c.label c.arity (args.map unmarked) with
  | error e => rfl
  | ok tree => rfl

/-- Operators of a branch that stand between two arguments: known tokens whose constructs take
two. -/
def IsInfix (branch : Branch) (operator? : Token → Option InfixOperator) : Prop :=
  ∀ t op, operator? t = some op →
    ∃ lexeme c, t = .known lexeme c ∧ c.label = op.label ∧ c.arity = 2 ∧ c.branch? = some branch

theorem isInfix_connective : IsInfix .connectiveBetween Token.infixConnective? := by
  intro t op hop
  rcases t with ⟨lexeme, ⟨label, _ | _ | ⟨precedence, side⟩⟩ | _ | _ | _⟩ | _ | _ | _
  case known.connective.infixOp =>
    obtain rfl := Option.some.inj hop
    exact ⟨lexeme, _, rfl, rfl, rfl, rfl⟩
  all_goals cases hop

theorem isInfix_function : IsInfix .functionBetween Token.infixFunction? := by
  intro t op hop
  rcases t with ⟨lexeme, _ | _ | _ | ⟨label, _ | precedence⟩⟩ | _ | _ | _
  case known.function.infixOp =>
    obtain rfl := Option.some.inj hop
    exact ⟨lexeme, _, rfl, rfl, rfl, rfl⟩
  all_goals cases hop

/-- The token of the operator is found with it. -/
theorem map_continuing? {branch : Branch} {operator? : Token → Option InfixOperator}
    (hbetween : IsInfix branch operator?) (m : Threshold) (ts : List Token) :
    (continuing? operator? m ts).map (fun found => found.2.2) =
      Reader.continuing? operator? m ts := by
  cases ts with
  | nil => rfl
  | cons t us =>
    cases hop : operator? t with
    | none =>
      have hnone : Reader.continuing? operator? m (t :: us) = none := by
        rw [continuing?_cons, hop, Option.filter_none]
      rw [hnone]
      cases t with
      | known lexeme c => rw [continuing?, hnone]; rfl
      | _ => rfl
    | some op =>
      -- The operator stands for a known token, whatever its power.
      obtain ⟨lexeme, c, rfl, -⟩ := hbetween t op hop
      rw [continuing?, Option.map_map]
      exact Option.map_id'

/-- What is found is an operator with two arguments. -/
theorem continuing?_eq_some {branch : Branch} {operator? : Token → Option InfixOperator}
    (hbetween : IsInfix branch operator?) {m : Threshold} {ts : List Token} {lexeme : Lexeme}
    {c : Construct} {op : InfixOperator}
    (h : continuing? operator? m ts = some (lexeme, c, op)) :
    (∃ us, ts = .known lexeme c :: us) ∧ c.label = op.label ∧ c.arity = 2 ∧
      c.branch? = some branch := by
  unfold continuing? at h
  split at h
  · next lexeme' c' us =>
    obtain ⟨op', hop, heq⟩ := Option.map_eq_some_iff.1 h
    cases heq
    rw [continuing?_cons, Option.filter_eq_some_iff] at hop
    obtain ⟨lexeme'', c'', heq, hfound⟩ := hbetween _ _ hop.1
    cases heq
    exact ⟨⟨us, rfl⟩, hfound⟩
  · cases h

/-- Without marks a run is read as one without marks. Every operator of it is given two arguments,
which is what it takes. -/
theorem unmarked_infixRun {branch : Branch} {operator? : Token → Option InfixOperator}
    (hbetween : IsInfix branch operator?) (operand : Threshold → Reader MarkedTree) (m : Threshold)
    (limit : Nat) (tree : MarkedTree) :
    unmarked <$> infixRun branch operator? operand m limit tree =
      Reader.infixRun operator? (fun m => unmarked <$> operand m) m limit tree.unmarked := by
  induction limit generalizing tree with
  | zero => rfl
  | succ limit ih =>
    simp only [infixRun, Reader.infixRun, map_bind]
    apply bind_congr
    intro ts
    rw [← map_continuing? hbetween]
    cases hop : continuing? operator? m ts with
    | none => rfl
    | some found =>
      obtain ⟨lexeme, c, op⟩ := found
      obtain ⟨-, hlabel, harity, -⟩ := continuing?_eq_some hbetween hop
      simp only [map_bind, Option.map_some, bind_map_left]
      apply bind_congr
      intro _
      apply bind_congr
      intro right
      -- An infix operator takes two arguments, so its node passes the check.
      have hbuild : build branch lexeme c [tree, right] =
          pure (.node branch lexeme c [tree, right]) := build_of_length harity.symm
      rw [hbuild, pure_bind, ih, MarkedTree.unmarked_node, hlabel]
      rfl

theorem unmarked_infixRest {branch : Branch} {operator? : Token → Option InfixOperator}
    (hbetween : IsInfix branch operator?) (operand : Threshold → Reader MarkedTree) (m : Threshold)
    (tree : MarkedTree) :
    unmarked <$> infixRest branch operator? operand m tree =
      Reader.infixRest operator? (fun m => unmarked <$> operand m) m tree.unmarked := by
  unfold infixRest Reader.infixRest
  rw [map_bind]
  apply bind_congr
  intro ts
  exact unmarked_infixRun hbetween operand m ts.length tree

section Above

variable (below : Level)

theorem unmarked_basicTermAbove :
    unmarked <$> basicTermAbove below = LatexLogic.Level.basicTermAbove below.unmarked := by
  unfold basicTermAbove LatexLogic.Level.basicTermAbove
  rw [map_bind]
  apply bind_congr
  intro o
  cases o with
  | none => rfl
  | some t =>
    -- All tokens but prefix functions are treated alike.
    have helse : unmarked <$> (get >>= fun ts =>
        if opensWith "(" ts then parenthesised (below.term LatexLogic.Level.whole)
        else variableName >>= fun name => (pure (.atom name) : Reader MarkedTree)) =
        get >>= fun ts =>
          if opensWith "(" ts then parenthesised (below.unmarked.term LatexLogic.Level.whole)
          else variableName >>= fun name => (pure (.atom name) : Reader Tree) := by
      rw [map_bind]
      apply bind_congr
      intro ts
      split
      · exact map_parenthesised _ _
      · rw [map_bind]
        rfl
    rcases t with ⟨lexeme, _ | _ | _ | ⟨label, ⟨arity, positive, note⟩ | _⟩⟩ | _ | _ | _
    case known.function.prefixOp =>
      dsimp only
      rw [map_bind]
      apply bind_congr
      intro _
      exact unmarked_application _ _ _ _
    all_goals exact helse

theorem unmarked_termAbove (m : Threshold) :
    unmarked <$> termAbove below m = LatexLogic.Level.termAbove below.unmarked m := by
  unfold termAbove LatexLogic.Level.termAbove
  rw [map_bind, ← unmarked_basicTermAbove, bind_map_left]
  apply bind_congr
  intro first
  exact unmarked_infixRest isInfix_function _ m first

theorem unmarked_infixPredicateAbove :
    unmarked <$> infixPredicateAbove below =
      LatexLogic.Level.infixPredicateAbove below.unmarked := by
  unfold infixPredicateAbove LatexLogic.Level.infixPredicateAbove
  rw [map_bind, ← unmarked_termAbove, bind_map_left]
  apply bind_congr
  intro left
  rw [map_bind]
  apply bind_congr
  intro t
  rcases t with ⟨lexeme, _ | _ | ⟨label, _ | _⟩ | _⟩ | _ | _ | _
  case known.predicate.infixOp =>
    dsimp only
    rw [map_bind, bind_map_left]
    apply bind_congr
    intro right
    rw [build_of_length rfl, map_pure, MarkedTree.unmarked_node]
    rfl
  all_goals rfl

theorem unmarked_formulaElseTerm (formula term : Reader MarkedTree) :
    unmarked <$> formulaElseTerm formula term =
      LatexLogic.Level.formulaElseTerm (unmarked <$> formula) (unmarked <$> term) := by
  funext ts
  have hmap : (unmarked <$> formula) ts = EStateM.map unmarked formula ts := rfl
  show EStateM.map unmarked (formulaElseTerm formula term) ts = _
  unfold EStateM.map formulaElseTerm LatexLogic.Level.formulaElseTerm
  rw [hmap, EStateM.map]
  cases formula ts with
  | ok tree rest => rfl
  | error failure rest =>
    dsimp only
    cases LatexLogic.Level.leavesTerm failure with
    | true => rfl
    | false => rfl

theorem unmarked_metavariable (letter : MetaLetter) :
    unmarked <$> metavariable letter = Reader.metavariable letter := by
  unfold metavariable Reader.metavariable
  simp only [map_bind, map_pure, MarkedTree.unmarked_metavar]

theorem unmarked_basicFormulaAbove :
    unmarked <$> basicFormulaAbove below = LatexLogic.Level.basicFormulaAbove below.unmarked := by
  unfold basicFormulaAbove LatexLogic.Level.basicFormulaAbove
  rw [map_bind]
  apply bind_congr
  intro o
  cases o with
  | none => rfl
  | some t =>
    -- So are all tokens that do not start a formula of their own.
    have helse : unmarked <$> (get >>= fun ts =>
        if opensWith "(" ts then
          formulaElseTerm (parenthesised (below.formula LatexLogic.Level.whole))
            (infixPredicateAbove below)
        else infixPredicateAbove below) =
        get >>= fun ts =>
          if opensWith "(" ts then
            LatexLogic.Level.formulaElseTerm
              (parenthesised (below.unmarked.formula LatexLogic.Level.whole))
              (LatexLogic.Level.infixPredicateAbove below.unmarked)
          else LatexLogic.Level.infixPredicateAbove below.unmarked := by
      rw [map_bind]
      apply bind_congr
      intro ts
      split
      · rw [unmarked_formulaElseTerm, map_parenthesised, unmarked_infixPredicateAbove]
        rfl
      · exact unmarked_infixPredicateAbove below
    rcases t with ⟨lexeme, ⟨label, ⟨_, _⟩ | _ | _⟩ | _ | ⟨label, ⟨arity, positive⟩ | _⟩ | _⟩ |
      letter | _ | _
    case known.connective.nullary =>
      dsimp only
      rw [map_bind]
      rfl
    case known.predicate.prefixOp =>
      dsimp only
      rw [map_bind]
      apply bind_congr
      intro _
      exact unmarked_application _ _ _ _
    case metavariable =>
      dsimp only
      rw [map_bind, unmarked_metavariable]
    all_goals exact helse

theorem unmarked_quantified (lexeme : Lexeme) (label : String) :
    unmarked <$> quantified below lexeme label =
      LatexLogic.Level.quantified below.unmarked label := by
  unfold quantified LatexLogic.Level.quantified
  rw [map_bind]
  apply bind_congr
  intro bound
  split
  · rfl
  · rw [map_bind]
    show _ = (unmarked <$> below.formula .unreachable) >>= _
    rw [bind_map_left]
    apply bind_congr
    intro scope
    rw [build_of_length rfl, map_pure, MarkedTree.unmarked_node]
    rfl

theorem unmarked_operandAbove :
    unmarked <$> operandAbove below = LatexLogic.Level.operandAbove below.unmarked := by
  unfold operandAbove LatexLogic.Level.operandAbove
  rw [map_bind]
  apply bind_congr
  intro o
  cases o with
  | none => rfl
  | some t =>
    rcases t with ⟨lexeme, ⟨label, ⟨_, _⟩ | ⟨precedence, note⟩ | ⟨_, _⟩⟩ | label | ⟨_, _⟩ |
      ⟨_, _⟩⟩ | _ | _ | _
    case known.connective.prefixOp =>
      dsimp only
      rw [map_bind]
      apply bind_congr
      intro _
      rw [map_bind]
      show _ = (unmarked <$> below.formula _) >>= _
      rw [bind_map_left]
      apply bind_congr
      intro argument
      rw [build_of_length rfl, map_pure, MarkedTree.unmarked_node]
      rfl
    case known.quantifier =>
      dsimp only
      rw [map_bind]
      apply bind_congr
      intro _
      exact unmarked_quantified below lexeme label
    all_goals exact unmarked_basicFormulaAbove below

theorem unmarked_formulaAbove (m : Threshold) :
    unmarked <$> formulaAbove below m = LatexLogic.Level.formulaAbove below.unmarked m := by
  unfold formulaAbove LatexLogic.Level.formulaAbove
  rw [map_bind, ← unmarked_operandAbove, bind_map_left]
  apply bind_congr
  intro first
  exact unmarked_infixRest isInfix_connective _ m first

/-- Taking the marks off a level takes them off the level above. -/
theorem unmarked_above : (above below).unmarked = LatexLogic.Level.above below.unmarked := by
  have hformula : (fun m => unmarked <$> formulaAbove below m) =
      LatexLogic.Level.formulaAbove below.unmarked := by
    funext m
    exact unmarked_formulaAbove below m
  have hterm : (fun m => unmarked <$> termAbove below m) =
      LatexLogic.Level.termAbove below.unmarked := by
    funext m
    exact unmarked_termAbove below m
  show LatexLogic.Level.mk _ _ _ = LatexLogic.Level.mk _ _ _
  rw [← hformula, ← hterm, ← unmarked_basicTermAbove]
  rfl

end Above

/-- At every depth the marked readers are the readers without marks, but for the marks. -/
theorem unmarked_ofDepth (depth : Nat) :
    (ofDepth depth).unmarked = LatexLogic.Level.ofDepth depth := by
  induction depth with
  | zero => rfl
  | succ depth ih => rw [ofDepth, unmarked_above, ih, LatexLogic.Level.ofDepth]

/-- The trees of texts are the marked trees without their marks, and the failures are the same. -/
theorem treeOfTokens_eq_map (depth : Nat) (ts : List Token) :
    Formula.treeOfTokens depth ts = (treeOfTokens depth ts).map unmarked := by
  have hread : (LatexLogic.Level.ofDepth depth).formula LatexLogic.Level.whole ts =
      EStateM.map unmarked ((ofDepth depth).formula LatexLogic.Level.whole) ts := by
    rw [← unmarked_ofDepth]
    rfl
  unfold Formula.treeOfTokens treeOfTokens
  rw [hread]
  unfold EStateM.map
  cases (ofDepth depth).formula LatexLogic.Level.whole ts with
  | error failure rest => rfl
  | ok tree rest =>
    cases rest with
    | nil => rfl
    | cons t rest => rfl

end Marked

end LatexLogic
