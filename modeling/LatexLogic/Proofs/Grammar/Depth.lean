import LatexLogic.Proofs.Grammar.Sorted
import LatexLogic.Proofs.Token.Layout

/-!
# Depth of trees

A tree is nested no more deeply than it has tokens (`FormulaDerivation.depth_le`), and a text has no
more tokens than characters. So the limit of depth with which a text is parsed is never in the way:
once the tokens of a text make up a formula, parsing is a matter of the checks on its tree
(`Formula.parse_of_formula`).
-/

set_option autoImplicit false

namespace LatexLogic

open Reader

theorem Tree.depthList_append (ss ts : List Tree) :
    depthList (ss ++ ts) = max (depthList ss) (depthList ts) := by
  induction ss with
  | nil => exact (Nat.zero_max _).symm
  | cons s ss ih => rw [List.cons_append, depthList, depthList, ih, Nat.max_assoc]

/-- The tree of a phrase is no deeper than the number of its tokens, and than what was read
before. -/
def TermPhrase.DepthLe : TermPhrase → Tree → Nat → Prop
  | term _, tree, n => tree.depth ≤ n
  | more _ left, tree, n => tree.depth ≤ left.depth + n
  | basic, tree, n => tree.depth ≤ n
  | arguments _ label done, tree, n => ∃ args, tree = .node label args ∧
      Tree.depthList args ≤ max (Tree.depthList done) n

/-- The same of the phrases of formulas. -/
def FormulaPhrase.DepthLe : FormulaPhrase → Tree → Nat → Prop
  | more _ left, tree, n => tree.depth ≤ left.depth + n
  | _, tree, n => tree.depth ≤ n

section Derivations

variable {u rest : List Token} {tree : Tree}

theorem ArgumentKind.depth_le {kind : ArgumentKind} {n : Nat} (h : kind.phrase.DepthLe tree n) :
    tree.depth ≤ n := by
  cases kind with
  | full => exact h
  | basic => exact h

theorem TermDerivation.depth_le {p : TermPhrase} (h : TermDerivation p u tree rest) :
    p.DepthLe tree u.length := by
  induction h with
  | @term m u v rest first tree _ _ ihfirst ihmore =>
    have hfirst : first.depth ≤ u.length := ihfirst
    have hmore : tree.depth ≤ first.depth + v.length := ihmore
    show tree.depth ≤ (u ++ v).length
    rw [List.length_append]
    omega
  | stop _ => exact Nat.le_add_right _ _
  | @step m t op u v rest left right tree _ _ _ _ ihright ihmore =>
    have hright : right.depth ≤ u.length := ihright
    have hmore : tree.depth ≤ (Tree.node op.label [left, right]).depth + v.length := ihmore
    show tree.depth ≤ left.depth + (t :: (u ++ v)).length
    simp only [Tree.depth, Tree.depthList] at hmore
    rw [List.length_cons, List.length_append]
    omega
  | name _ => exact Nat.zero_le _
  | @parens form us u vs rest tree _ _ _ ih =>
    have hinside : tree.depth ≤ u.length := ih
    show tree.depth ≤ (us ++ (u ++ vs)).length
    rw [List.length_append, List.length_append]
    omega
  | @application lexeme label arity positive note form us u vs rest args _ _ _ _ ih =>
    obtain ⟨args', hnode, hargs⟩ := ih
    obtain ⟨-, rfl⟩ := Tree.node.inj hnode
    show (Tree.node label args).depth ≤ (_ :: (us ++ (u ++ vs))).length
    simp only [Tree.depth, Tree.depthList, Nat.zero_max] at hargs ⊢
    rw [List.length_cons, List.length_append, List.length_append]
    omega
  | @last kind label done u rest arg _ _ ih =>
    have harg := ArgumentKind.depth_le ih
    refine ⟨done ++ [arg], rfl, ?_⟩
    rw [Tree.depthList_append]
    simp only [Tree.depthList]
    omega
  | @comma kind label done t u v rest arg tree _ _ _ ih ihmore =>
    have harg := ArgumentKind.depth_le ih
    obtain ⟨args, rfl, hargs⟩ := ihmore
    refine ⟨args, rfl, ?_⟩
    rw [Tree.depthList_append] at hargs
    simp only [Tree.depthList] at hargs
    rw [List.length_append, List.length_cons]
    omega

theorem FormulaDerivation.depth_le {p : FormulaPhrase} (h : FormulaDerivation p u tree rest) :
    p.DepthLe tree u.length := by
  induction h with
  | @formula m u v rest first tree _ _ ihfirst ihmore =>
    have hfirst : first.depth ≤ u.length := ihfirst
    have hmore : tree.depth ≤ first.depth + v.length := ihmore
    show tree.depth ≤ (u ++ v).length
    rw [List.length_append]
    omega
  | stop _ => exact Nat.le_add_right _ _
  | @step m t op u v rest left right tree _ _ _ _ ihright ihmore =>
    have hright : right.depth ≤ u.length := ihright
    have hmore : tree.depth ≤ (Tree.node op.label [left, right]).depth + v.length := ihmore
    show tree.depth ≤ left.depth + (t :: (u ++ v)).length
    simp only [Tree.depth, Tree.depthList] at hmore
    rw [List.length_cons, List.length_append]
    omega
  | @before lexeme label precedence note u rest argument _ ih =>
    have hargument : argument.depth ≤ u.length := ih
    show (Tree.node label [argument]).depth ≤ (_ :: u).length
    simp only [Tree.depth, Tree.depthList, List.length_cons]
    omega
  | @quantified lexeme label bound u v rest scope _ _ _ ih =>
    have hscope : scope.depth ≤ v.length := ih
    show (Tree.node label [.atom bound, scope]).depth ≤ (_ :: (u ++ v)).length
    simp only [Tree.depth, Tree.depthList, List.length_cons, List.length_append]
    omega
  | basicOperand _ ih => exact ih
  | @metavariable letter u rest tree hread =>
    obtain ⟨name, declared, rfl, -⟩ := exists_of_metavariable hread
    exact Nat.zero_le _
  | constant => exact Nat.zero_le _
  | @predicate lexeme label arity positive form us u vs rest args _ _ hargs _ =>
    obtain ⟨args', hnode, hargs⟩ := hargs.depth_le
    obtain ⟨-, rfl⟩ := Tree.node.inj hnode
    show (Tree.node label args).depth ≤ (_ :: (us ++ (u ++ vs))).length
    simp only [Tree.depth, Tree.depthList, Nat.zero_max] at hargs ⊢
    rw [List.length_cons, List.length_append, List.length_append]
    omega
  | @parens form us u vs rest tree _ _ _ ih =>
    have hinside : tree.depth ≤ u.length := ih
    show tree.depth ≤ (us ++ (u ++ vs)).length
    rw [List.length_append, List.length_append]
    omega
  | @comparison lexeme label u v rest left right hleft hright =>
    have hleftDepth : left.depth ≤ u.length := hleft.depth_le
    have hrightDepth : right.depth ≤ v.length := hright.depth_le
    show (Tree.node label [left, right]).depth ≤ (u ++ _ :: v).length
    simp only [Tree.depth, Tree.depthList, List.length_append, List.length_cons]
    omega

end Derivations

/-! ## Parsing -/

/-- A text of blanks has no tokens. -/
theorem tokenize_of_blank {table : Table} {text : String}
    (h : text.toList.all Text.isBlank = true) : tokenize table text = [] := by
  have hscan : ∀ cs : List Char, cs.all Text.isBlank = true → Lexeme.scan cs = [] := by
    intro cs
    induction cs with
    | nil =>
      intro _
      rfl
    | cons c cs ih =>
      intro hall
      rw [List.all_cons, Bool.and_eq_true] at hall
      have hne : c ≠ '\\' := by
        rintro rfl
        rw [Lexeme.isBlank_backslash] at hall
        cases hall.1
      rw [Lexeme.scan, if_neg hne, if_pos hall.1, ih hall.2]
  rw [tokenize, hscan _ h, List.map_nil]

namespace Formula

variable {table : Table} {text : String} {raw : Tree}

/-- A text from which a formula can be read has a character that is not blank. -/
theorem not_blank_of_formula {rest : List Token}
    (h : Reader.formula Level.whole (tokenize table text) = .ok raw rest) :
    text.toList.all Text.isBlank = false := by
  by_contra hblank
  rw [tokenize_of_blank (by simpa using hblank)] at h
  exact absurd h nofun

/-- A text that goes on where its formula ends is refused at the token that stands there. -/
theorem parse_of_formula_cons {t : Token} {rest : List Token}
    (h : Reader.formula Level.whole (tokenize table text) = .ok raw (t :: rest)) :
    parse table text = .error (.fault (.badToken t.written none)) := by
  have hlength := Nat.lt_succ_of_le (length_tokenize_le table text)
  have hread : (Level.ofDepth (text.length + 1)).formula Level.whole (tokenize table text) =
      .ok raw (t :: rest) := (Level.ofDepth_eq_unlimited hlength _).trans h
  simp only [parse, parseWithin, not_blank_of_formula h, treeOfTokens, hread, Bool.false_eq_true,
    if_false]

/-- The tree of a text is no deeper than the text is long. -/
theorem depth_le_of_formula (h : Reader.formula Level.whole (tokenize table text) = .ok raw []) :
    raw.depth ≤ text.length := by
  obtain ⟨u, hu, hderivation⟩ := FormulaDerivation.of_formula h
  have hle : raw.depth ≤ u.length := hderivation.depth_le
  have hlength := length_tokenize_le table text
  rw [hu, List.append_nil] at hlength
  exact hle.trans hlength

/-- Once the tokens of a text make up a formula, it is parsed if its tree passes the checks. Neither
the tokens nor the tree may be too deep for the limit. -/
theorem parseWithin_of_formula {depth : Nat} (hlength : (tokenize table text).length < depth)
    (hdepth : raw.depth ≤ depth)
    (h : Reader.formula Level.whole (tokenize table text) = .ok raw []) :
    parseWithin depth table text =
      (ofTree table.isQuantifierLabel raw).mapError Failure.fault := by
  have htree := (treeOfTokens_eq_ok_iff hlength).2 h
  rw [parseWithin, not_blank_of_formula h, htree]
  simp only [Bool.false_eq_true, if_false, Nat.not_lt.2 hdepth]
  cases ofTree table.isQuantifierLabel raw with
  | error error => rfl
  | ok f => rfl

/-- Without a limit the tree decides alone. -/
theorem parse_of_formula (h : Reader.formula Level.whole (tokenize table text) = .ok raw []) :
    parse table text = (ofTree table.isQuantifierLabel raw).mapError Failure.fault :=
  parseWithin_of_formula (Nat.lt_succ_of_le (length_tokenize_le table text))
    (Nat.le_succ_of_le (depth_le_of_formula h)) h

/-- The tree of a text is sorted over the constructs of its tokens. -/
theorem isSorted_of_treeOfTokens {has : Construct → Prop}
    (hwithin : ∀ t ∈ tokenize table text, t.Within has)
    (h : treeOfTokens (text.length + 1) (tokenize table text) = .ok raw) : raw.IsSorted has := by
  have hlength := Nat.lt_succ_of_le (length_tokenize_le table text)
  exact Or.inl (Tree.isFormula_of_formula ((treeOfTokens_eq_ok_iff hlength).1 h) hwithin)

/-- The first check reports the variable that is found first. -/
theorem ofTree_eq_freeVariable_iff {isQuantifier : String → Bool} {v : String} :
    ofTree isQuantifier raw = .error (.freeVariable v) ↔
      (raw.freeVariables isQuantifier).head? = some v := by
  unfold ofTree
  cases raw.freeVariables isQuantifier with
  | cons free others => simp
  | nil =>
    simp only [List.head?_nil, reduceCtorEq, iff_false]
    cases raw.strip with
    | error name => simp
    | ok result =>
      obtain ⟨tree, declarations⟩ := result
      dsimp only
      cases tree.boundVariables isQuantifier with
      | error twice => simp
      | ok found =>
        dsimp only
        cases raw.declaredEigenvariable? with
        | some found => simp
        | none => simp

end Formula

end LatexLogic
