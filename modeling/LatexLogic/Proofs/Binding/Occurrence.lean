import LatexLogic.Proofs.Grammar.Group
import LatexLogic.Proofs.Grammar.Sorted

/-!
# Occurrences in the text

The checks on a finished formula see a tree only. This module goes back to the tokens: it says at
which places they mention a name, and in the scopes of which quantifiers (`FormulaWritten`). A name
is mentioned as a variable of a term, as a variable in a declaration, or as the label of a connective
without operands, which is a leaf of the tree as well. The variable after a quantifier is no
occurrence.

The relation leaves precedences aside. It follows the tree along the tokens, one rule for each way to
write a node, so everything that is read is written in this sense (`exists_formulaWritten`).
-/

set_option autoImplicit false

namespace LatexLogic

open Reader

/-! ## Occurrences -/

/-- What a name is mentioned as. -/
inductive Role where
  /-- A variable of a term. -/
  | leaf
  /-- A variable in the declaration of a metavariable. -/
  | declared
  /-- The label of a connective without operands. -/
  | constant
  deriving DecidableEq, Repr

/-- A mention of a name in a list of tokens. -/
structure Occurrence where
  /-- The number of tokens before it. -/
  place : Nat
  role : Role
  name : String
  /-- The variables of the quantifiers in whose scopes it stands, the innermost last. -/
  binders : List String
  deriving DecidableEq, Repr

namespace Occurrence

/-- The occurrence seen from outside the scope in which it stands. -/
def under (bound : String) (o : Occurrence) : Occurrence :=
  { o with binders := bound :: o.binders }

/-- Whether an ordinary variable is mentioned outside the scopes of the quantifiers that bind it. -/
def isFree (o : Occurrence) : Bool :=
  isOrdinaryVariable o.name && !o.binders.contains o.name

/-- The tokens mention the name at the place of the occurrence, in its role. -/
def StandsIn (ts : List Token) (o : Occurrence) : Prop :=
  match o.role with
  | .constant => ∃ lexeme precedence note rest,
      ts.drop o.place = .known lexeme (.connective o.name (.nullary precedence note)) :: rest
  | _ => ∃ rest, VariableSpelled (ts.drop o.place) o.name rest

@[simp] theorem name_under (bound : String) (o : Occurrence) : (o.under bound).name = o.name := rfl

/-- An occurrence of a variable stands where the variable is spelled. -/
theorem StandsIn.variableSpelled {ts : List Token} {o : Occurrence} (h : o.StandsIn ts)
    (hrole : o.role ≠ .constant) : ∃ rest, VariableSpelled (ts.drop o.place) o.name rest := by
  obtain ⟨place, role, name, binders⟩ := o
  cases role with
  | leaf => exact h
  | declared => exact h
  | constant => exact absurd rfl hrole

end Occurrence

/-! ## What is written where -/

/-- The tokens from place `n` on are variables with commas between them. -/
inductive NamesWritten : List Token → List String → List Token → Nat → List Occurrence → Prop where
  | last {u rest : List Token} {name : String} {n : Nat} :
      VariableSpelled (u ++ rest) name rest →
      NamesWritten u [name] rest n [⟨n, .declared, name, []⟩]
  | comma {t : Token} {u v rest : List Token} {name : String} {names : List String} {n : Nat}
      {os : List Occurrence} :
      VariableSpelled (u ++ t :: (v ++ rest)) name (t :: (v ++ rest)) → t.written = "," →
      NamesWritten v names rest (n + (u.length + 1)) os →
      NamesWritten (u ++ t :: v) (name :: names) rest n (⟨n, .declared, name, []⟩ :: os)

/-- The tokens from place `n` on are terms with commas between them, one term for each tree. -/
inductive TermsWritten : List Token → List Tree → List Token → Nat → List Occurrence → Prop where
  | name {u rest : List Token} {name : String} {n : Nat} :
      VariableSpelled (u ++ rest) name rest →
      TermsWritten u [.atom name] rest n [⟨n, .leaf, name, []⟩]
  | between {t : Token} {op : InfixOperator} {u v rest : List Token} {left right : Tree} {n : Nat}
      {os os' : List Occurrence} :
      t.infixFunction? = some op → TermsWritten u [left] (t :: (v ++ rest)) n os →
      TermsWritten v [right] rest (n + (u.length + 1)) os' →
      TermsWritten (u ++ t :: v) [.node op.label [left, right]] rest n (os ++ os')
  | parens {form : Form} {us u vs rest : List Token} {tree : Tree} {n : Nat}
      {os : List Occurrence} :
      Opening form us → Closing form vs → TermsWritten u [tree] (vs ++ rest) (n + us.length) os →
      TermsWritten (us ++ (u ++ vs)) [tree] rest n os
  | application {lexeme : Lexeme} {label : String} {arity : Nat} {positive : 0 < arity}
      {note : Option Int} {form : Form} {us u vs rest : List Token} {args : List Tree} {n : Nat}
      {os : List Occurrence} :
      Opening form us → Closing form vs →
      TermsWritten u args (vs ++ rest) (n + (us.length + 1)) os →
      TermsWritten (.known lexeme (.function label (.prefixOp arity positive note)) ::
        (us ++ (u ++ vs))) [.node label args] rest n os
  | comma {t : Token} {u v rest : List Token} {arg : Tree} {args : List Tree} {n : Nat}
      {os os' : List Occurrence} :
      TermsWritten u [arg] (t :: (v ++ rest)) n os → t.written = "," →
      TermsWritten v args rest (n + (u.length + 1)) os' →
      TermsWritten (u ++ t :: v) (arg :: args) rest n (os ++ os')

/-- The tokens from place `n` on are a formula with the given tree. -/
inductive FormulaWritten : List Token → Tree → List Token → Nat → List Occurrence → Prop where
  | between {t : Token} {op : InfixOperator} {u v rest : List Token} {left right : Tree} {n : Nat}
      {os os' : List Occurrence} :
      t.infixConnective? = some op → FormulaWritten u left (t :: (v ++ rest)) n os →
      FormulaWritten v right rest (n + (u.length + 1)) os' →
      FormulaWritten (u ++ t :: v) (.node op.label [left, right]) rest n (os ++ os')
  | before {lexeme : Lexeme} {label : String} {precedence : Int} {note : Data}
      {u rest : List Token} {argument : Tree} {n : Nat} {os : List Occurrence} :
      FormulaWritten u argument rest (n + 1) os →
      FormulaWritten (.known lexeme (.connective label (.prefixOp precedence note)) :: u)
        (.node label [argument]) rest n os
  | quantified {lexeme : Lexeme} {label bound : String} {u v rest : List Token} {scope : Tree}
      {n : Nat} {os : List Occurrence} :
      VariableSpelled (u ++ (v ++ rest)) bound (v ++ rest) →
      FormulaWritten v scope rest (n + (u.length + 1)) os →
      FormulaWritten (.known lexeme (.quantifier label) :: (u ++ v))
        (.node label [.atom bound, scope]) rest n (os.map (.under bound))
  | metavariable {letter : MetaLetter} {u rest : List Token} {name : String} {n : Nat} :
      withSubscript letter.name (u ++ rest) = .ok name rest → opensWith "(" rest = false →
      FormulaWritten (.metavariable letter :: u) (.metavar name []) rest n []
  | declaration {letter : MetaLetter} {form : Form} {w us u vs rest : List Token} {name : String}
      {names : List String} {n : Nat} {os : List Occurrence} :
      withSubscript letter.name (w ++ (us ++ (u ++ (vs ++ rest)))) =
        .ok name (us ++ (u ++ (vs ++ rest))) →
      Opening form us → Closing form vs →
      NamesWritten u names (vs ++ rest) (n + (w.length + 1) + us.length) os →
      FormulaWritten (.metavariable letter :: (w ++ (us ++ (u ++ vs)))) (.metavar name names) rest n
        os
  | constant {lexeme : Lexeme} {label : String} {precedence : Option Int} {note : Data}
      {rest : List Token} {n : Nat} :
      FormulaWritten [.known lexeme (.connective label (.nullary precedence note))] (.atom label)
        rest n [⟨n, .constant, label, []⟩]
  | predicate {lexeme : Lexeme} {label : String} {arity : Nat} {positive : 0 < arity}
      {form : Form} {us u vs rest : List Token} {args : List Tree} {n : Nat}
      {os : List Occurrence} :
      Opening form us → Closing form vs →
      TermsWritten u args (vs ++ rest) (n + (us.length + 1)) os →
      FormulaWritten (.known lexeme (.predicate label (.prefixOp arity positive)) ::
        (us ++ (u ++ vs))) (.node label args) rest n os
  | parens {form : Form} {us u vs rest : List Token} {tree : Tree} {n : Nat}
      {os : List Occurrence} :
      Opening form us → Closing form vs → FormulaWritten u tree (vs ++ rest) (n + us.length) os →
      FormulaWritten (us ++ (u ++ vs)) tree rest n os
  | comparison {lexeme : Lexeme} {label : String} {u v rest : List Token} {left right : Tree}
      {n : Nat} {os os' : List Occurrence} :
      TermsWritten u [left] (.known lexeme (.predicate label .infixOp) :: (v ++ rest)) n os →
      TermsWritten v [right] rest (n + (u.length + 1)) os' →
      FormulaWritten (u ++ .known lexeme (.predicate label .infixOp) :: v)
        (.node label [left, right]) rest n (os ++ os')

/-! ## Everything that is read is written -/

theorem exists_namesWritten {u rest : List Token} {names : List String}
    (h : VariablesSpelled u names rest) : ∀ n, ∃ os, NamesWritten u names rest n os := by
  induction h with
  | last hname _ => exact fun n => ⟨_, .last hname⟩
  | comma hname ht _ ih =>
    intro n
    obtain ⟨os, hos⟩ := ih (n + (_ + 1))
    exact ⟨_, .comma hname ht hos⟩

/-- What a phrase of a term adds to what is written. -/
def TermPhrase.Writes (u rest : List Token) (tree : Tree) : TermPhrase → Prop
  | more _ left => ∀ w n os, TermsWritten w [left] (u ++ rest) n os →
      ∃ os', TermsWritten (w ++ u) [tree] rest n os'
  | arguments _ label done => ∃ args, tree = .node label (done ++ args) ∧
      ∀ n, ∃ os, TermsWritten u args rest n os
  | _ => ∀ n, ∃ os, TermsWritten u [tree] rest n os

/-- The same of the phrases of formulas. -/
def FormulaPhrase.Writes (u rest : List Token) (tree : Tree) : FormulaPhrase → Prop
  | more _ left => ∀ w n os, FormulaWritten w left (u ++ rest) n os →
      ∃ os', FormulaWritten (w ++ u) tree rest n os'
  | _ => ∀ n, ∃ os, FormulaWritten u tree rest n os

section Derivations

variable {u rest : List Token} {tree : Tree}

theorem ArgumentKind.exists_termsWritten {kind : ArgumentKind}
    (h : kind.phrase.Writes u rest tree) : ∀ n, ∃ os, TermsWritten u [tree] rest n os := by
  cases kind with
  | full => exact h
  | basic => exact h

theorem TermDerivation.writes {p : TermPhrase} (h : TermDerivation p u tree rest) :
    p.Writes u rest tree := by
  induction h with
  | term _ _ ihfirst ihmore =>
    intro n
    obtain ⟨os, hos⟩ := ihfirst n
    exact ihmore _ n os hos
  | stop _ =>
    intro w n os hos
    rw [List.nil_append] at hos
    rw [List.append_nil]
    exact ⟨os, hos⟩
  | @step m t op u v rest left right tree hop _ _ _ ihright ihmore =>
    -- What was written so far becomes the left argument.
    intro w n os hos
    obtain ⟨os', hos'⟩ := ihright (n + (w.length + 1))
    rw [List.cons_append, List.append_assoc] at hos
    have hnode := TermsWritten.between hop hos hos'
    obtain ⟨os'', hos''⟩ := ihmore _ n _ hnode
    exact ⟨os'', by simpa using hos''⟩
  | name hname => exact fun n => ⟨_, .name hname⟩
  | @parens form us u vs rest tree hopen hclose _ ih =>
    intro n
    obtain ⟨os, hos⟩ := ih (n + us.length)
    exact ⟨os, .parens hopen hclose hos⟩
  | @application lexeme label arity positive note form us u vs rest args hopen hclose _ _ ih =>
    intro n
    obtain ⟨args', hnode, hargs⟩ := ih
    obtain ⟨-, rfl⟩ := Tree.node.inj hnode
    obtain ⟨os, hos⟩ := hargs (n + (us.length + 1))
    exact ⟨os, .application hopen hclose hos⟩
  | @last kind label done u rest arg _ _ ih =>
    exact ⟨[arg], rfl, ArgumentKind.exists_termsWritten ih⟩
  | @comma kind label done t u v rest arg tree _ ht _ ih ihmore =>
    obtain ⟨args, rfl, hargs⟩ := ihmore
    refine ⟨arg :: args, by rw [List.append_assoc, List.singleton_append], fun n => ?_⟩
    obtain ⟨os, hos⟩ := ArgumentKind.exists_termsWritten ih n
    obtain ⟨os', hos'⟩ := hargs (n + (u.length + 1))
    exact ⟨os ++ os', .comma hos ht hos'⟩

theorem FormulaDerivation.writes {p : FormulaPhrase} (h : FormulaDerivation p u tree rest) :
    p.Writes u rest tree := by
  induction h with
  | formula _ _ ihfirst ihmore =>
    intro n
    obtain ⟨os, hos⟩ := ihfirst n
    exact ihmore _ n os hos
  | stop _ =>
    intro w n os hos
    rw [List.nil_append] at hos
    rw [List.append_nil]
    exact ⟨os, hos⟩
  | @step m t op u v rest left right tree hop _ _ _ ihright ihmore =>
    intro w n os hos
    obtain ⟨os', hos'⟩ := ihright (n + (w.length + 1))
    rw [List.cons_append, List.append_assoc] at hos
    have hnode := FormulaWritten.between hop hos hos'
    obtain ⟨os'', hos''⟩ := ihmore _ n _ hnode
    exact ⟨os'', by simpa using hos''⟩
  | before _ ih =>
    intro n
    obtain ⟨os, hos⟩ := ih (n + 1)
    exact ⟨os, .before hos⟩
  | @quantified lexeme label bound u v rest scope hbound _ _ ih =>
    intro n
    obtain ⟨os, hos⟩ := ih (n + (u.length + 1))
    exact ⟨os.map (.under bound), .quantified hbound hos⟩
  | basicOperand _ ih => exact ih
  | metavariable hread =>
    intro n
    obtain ⟨v, w, name, declared, rfl, hname, hdeclared, rfl⟩ := metavariable_parts hread
    cases hdeclared with
    | none hclosed =>
      -- Without a declaration nothing is mentioned.
      rw [List.append_nil]
      exact ⟨[], .metavariable hname hclosed⟩
    | @group form us u vs _ _ hopen hclose hnames =>
      obtain ⟨os, hos⟩ := exists_namesWritten hnames (n + (v.length + 1) + us.length)
      rw [List.append_assoc, List.append_assoc] at hname
      exact ⟨os, .declaration hname hopen hclose hos⟩
  | constant => exact fun n => ⟨_, .constant⟩
  | @predicate lexeme label arity positive form us u vs rest args hopen hclose hargs _ =>
    intro n
    obtain ⟨args', hnode, hwritten⟩ := hargs.writes
    obtain ⟨-, rfl⟩ := Tree.node.inj hnode
    obtain ⟨os, hos⟩ := hwritten (n + (us.length + 1))
    exact ⟨os, .predicate hopen hclose hos⟩
  | @parens form us u vs rest tree hopen hclose _ ih =>
    intro n
    obtain ⟨os, hos⟩ := ih (n + us.length)
    exact ⟨os, .parens hopen hclose hos⟩
  | @comparison lexeme label u v rest left right hleft hright =>
    intro n
    obtain ⟨os, hos⟩ := hleft.writes n
    obtain ⟨os', hos'⟩ := hright.writes (n + (u.length + 1))
    exact ⟨os ++ os', .comparison hos hos'⟩

/-- The tokens of a formula that is read are written for its tree. -/
theorem exists_formulaWritten {m : Threshold} {ts : List Token}
    (h : Reader.formula m ts = .ok tree []) : ∃ os, FormulaWritten ts tree [] 0 os := by
  obtain ⟨u, rfl, hu⟩ := FormulaDerivation.of_formula h
  rw [List.append_nil]
  exact hu.writes 0

end Derivations

end LatexLogic
