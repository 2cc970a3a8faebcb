import LatexLogic.Proofs.Grammar.Sorted
import LatexLogic.Proofs.Reading.Marked

/-!
# What marked trees are built from

Every node of a marked tree that is read was built for one of the tokens, by the branch for the
construct of the token, and has as many arguments as the construct takes (`MarkedTree.Built`,
`Marked.built_of_treeOfTokens`). The readers
keep to this step by step (`Reader.Yields`): each of them is given tokens of a table and leaves
tokens of the table, and what it answers is built from them.
-/

set_option autoImplicit false

namespace LatexLogic

open Reader

/-! ## Built trees -/

/-- Every node shows a construct at hand and its branch, and has as many arguments as it takes. -/
inductive MarkedTree.Built (has : Construct → Prop) : MarkedTree → Prop where
  | atom (label : String) : Built has (.atom label)
  | metavar (name : String) (declared : List String) : Built has (.metavar name declared)
  | node {branch : Branch} {lexeme : Lexeme} {c : Construct} {args : List MarkedTree} :
      has c → c.branch? = some branch → args.length = c.arity → (∀ arg ∈ args, Built has arg) →
      Built has (.node branch lexeme c args)

/-! ## What readers yield -/

section Yields

variable {α β : Type} (has : Construct → Prop)

/-- Every token stands for a construct at hand, if it stands for one. -/
def AllWithin (ts : List Token) : Prop :=
  ∀ t ∈ ts, t.Within has

/-- From tokens for the constructs at hand the reader yields results with a property, and leaves such
tokens. -/
def Reader.Yields (P : α → Prop) (r : Reader α) : Prop :=
  ∀ ts a rest, AllWithin has ts → r ts = .ok a rest → P a ∧ AllWithin has rest

variable {has} {P : α → Prop} {Q : β → Prop}

theorem AllWithin.of_suffix {ts rest : List Token} (h : AllWithin has ts) (hrest : rest <:+ ts) :
    AllWithin has rest :=
  fun t ht => h t (hrest.mem ht)

theorem yields_pure {a : α} (h : P a) : (pure a : Reader α).Yields has P := by
  intro ts a' rest hts hread
  obtain ⟨rfl, rfl⟩ := pure_eq_ok_iff.1 hread
  exact ⟨h, hts⟩

theorem yields_fail (e : FormulaError) : (fail e : Reader α).Yields has P :=
  fun _ _ _ _ hread => absurd hread fail_ne_ok

theorem yields_throw (failure : Failure) : (throw failure : Reader α).Yields has P :=
  fun _ _ _ _ hread => absurd hread throw_ne_ok

/-- A reader that moves forward leaves tokens that it was given. -/
theorem Reader.Forward.yields {r : Reader α} (h : r.Forward) : r.Yields has fun _ => True :=
  fun _ _ _ hts hread => ⟨trivial, hts.of_suffix (h.ok hread)⟩

theorem yields_get : (get : Reader (List Token)).Yields has (AllWithin has) := by
  intro ts a rest hts hread
  cases hread
  exact ⟨hts, hts⟩

theorem yields_peek? : peek?.Yields has fun o => ∀ t ∈ o, t.Within has := by
  intro ts o rest hts hread
  cases hread
  exact ⟨fun t ht => hts t (List.mem_of_head? ht), hts⟩

theorem yields_next : next.Yields has fun t => t.Within has := by
  intro ts t rest hts hread
  obtain rfl := next_eq_ok_iff.1 hread
  exact ⟨hts t List.mem_cons_self, fun t' ht' => hts t' (List.mem_cons_of_mem _ ht')⟩

theorem Reader.Yields.bind {x : Reader α} {f : α → Reader β} (hx : x.Yields has P)
    (hf : ∀ a, P a → (f a).Yields has Q) : (x >>= f).Yields has Q := by
  intro ts b rest hts hread
  obtain ⟨a, mid, ha, hb⟩ := bind_eq_ok_iff.1 hread
  obtain ⟨hPa, hmid⟩ := hx ts a mid hts ha
  exact hf a hPa mid b rest hmid hb

theorem Reader.Yields.parenthesised {inner : Reader α} (h : inner.Yields has P) :
    (parenthesised inner).Yields has P := by
  intro ts a rest hts hread
  obtain ⟨form, us, inside, vs, -, -, rfl, hinner⟩ := parenthesised_eq_ok_iff.1 hread
  have hinside := hts.of_suffix (List.suffix_append us inside)
  obtain ⟨hPa, hrest⟩ := h inside a _ hinside hinner
  exact ⟨hPa, hrest.of_suffix (List.suffix_append vs rest)⟩

theorem Reader.Yields.moreItems {item : Reader α} (h : item.Yields has P) (limit : Nat) :
    (moreItems item limit).Yields has fun as => ∀ a ∈ as, P a := by
  induction limit with
  | zero => exact yields_pure nofun
  | succ limit ih =>
    apply yields_get.bind
    intro ts _
    split
    · apply forward_next?.yields.bind
      intro _ _
      apply h.bind
      intro a ha
      apply ih.bind
      intro as has
      exact yields_pure (List.forall_mem_cons.2 ⟨ha, has⟩)
    · exact yields_pure nofun

theorem Reader.Yields.list {item : Reader α} (h : item.Yields has P) :
    (list item).Yields has fun as => ∀ a ∈ as, P a := by
  apply h.bind
  intro a ha
  apply yields_get.bind
  intro ts _
  apply (h.moreItems ts.length).bind
  intro as has
  exact yields_pure (List.forall_mem_cons.2 ⟨ha, has⟩)

end Yields

/-! ## Readers of built trees -/

namespace Marked

open MarkedTree (Built)

variable {has : Construct → Prop}

/-- A node is built for a construct at hand over arguments that are built. -/
theorem yields_build {branch : Branch} {lexeme : Lexeme} {c : Construct} {args : List MarkedTree}
    (hc : has c) (hbranch : c.branch? = some branch) (hargs : ∀ arg ∈ args, Built has arg) :
    (build branch lexeme c args).Yields has (Built has) := by
  unfold build
  cases happlied : Tree.applied lexeme.written c.label c.arity (args.map MarkedTree.unmarked) with
  | error e => exact yields_fail e
  | ok tree =>
    obtain ⟨harity, -⟩ := Tree.applied_eq_ok_iff.1 happlied
    rw [List.length_map] at harity
    exact yields_pure (.node hc hbranch (by exact_mod_cast harity) hargs)

theorem yields_application {branch : Branch} {lexeme : Lexeme} {c : Construct}
    {argument : Reader MarkedTree} (hc : has c) (hbranch : c.branch? = some branch)
    (h : argument.Yields has (Built has)) :
    (application branch lexeme c argument).Yields has (Built has) :=
  h.list.parenthesised.bind fun _ hargs => yields_build hc hbranch hargs

theorem yields_infixRun {branch : Branch} {operator? : Token → Option InfixOperator}
    (hbetween : IsInfix branch operator?) {operand : Threshold → Reader MarkedTree}
    (h : ∀ m, (operand m).Yields has (Built has)) (m : Threshold) (limit : Nat)
    {tree : MarkedTree} (htree : Built has tree) :
    (infixRun branch operator? operand m limit tree).Yields has (Built has) := by
  induction limit generalizing tree with
  | zero => exact yields_pure htree
  | succ limit ih =>
    apply yields_get.bind
    intro ts hts
    cases hop : continuing? operator? m ts with
    | none => exact yields_pure htree
    | some found =>
      obtain ⟨lexeme, c, op⟩ := found
      -- The token of the operator is the next one, so its construct is at hand.
      obtain ⟨⟨us, rfl⟩, -, -, hbranch⟩ := continuing?_eq_some hbetween hop
      have hc : has c := hts _ List.mem_cons_self c rfl
      apply forward_next?.yields.bind
      intro _ _
      apply (h _).bind
      intro right hright
      apply (yields_build hc hbranch _).bind
      · intro tree htree
        exact ih htree
      · rw [List.forall_mem_cons, List.forall_mem_singleton]
        exact ⟨htree, hright⟩

theorem yields_infixRest {branch : Branch} {operator? : Token → Option InfixOperator}
    (hbetween : IsInfix branch operator?) {operand : Threshold → Reader MarkedTree}
    (h : ∀ m, (operand m).Yields has (Built has)) (m : Threshold) {tree : MarkedTree}
    (htree : Built has tree) :
    (infixRest branch operator? operand m tree).Yields has (Built has) :=
  yields_get.bind fun ts _ => yields_infixRun hbetween h m ts.length htree

variable (has)

/-- All readers of a level yield built trees. -/
structure Level.Yields (l : Level) : Prop where
  formula : ∀ m, (l.formula m).Yields has (Built has)
  term : ∀ m, (l.term m).Yields has (Built has)
  basicTerm : l.basicTerm.Yields has (Built has)

variable {has} {below : Level}

theorem yields_basicTermAbove (h : below.Yields has) :
    (basicTermAbove below).Yields has (Built has) := by
  apply yields_peek?.bind
  intro o ho
  cases o with
  | none => exact yields_fail _
  | some t =>
    dsimp only
    split
    · apply forward_next?.yields.bind
      intro _ _
      exact yields_application (ho _ rfl _ rfl) rfl h.basicTerm
    · apply yields_get.bind
      intro ts _
      split
      · exact (h.term _).parenthesised
      · apply forward_variableName.yields.bind
        intro name _
        exact yields_pure (.atom name)

theorem yields_termAbove (h : below.Yields has) (m : Threshold) :
    (termAbove below m).Yields has (Built has) :=
  (yields_basicTermAbove h).bind fun _ hfirst =>
    yields_infixRest isInfix_function h.term m hfirst

theorem yields_infixPredicateAbove (h : below.Yields has) :
    (infixPredicateAbove below).Yields has (Built has) := by
  apply (yields_termAbove h _).bind
  intro left hleft
  apply yields_next.bind
  intro t ht
  split
  · apply (yields_termAbove h _).bind
    intro right hright
    apply yields_build (ht _ rfl) rfl
    rw [List.forall_mem_cons, List.forall_mem_singleton]
    exact ⟨hleft, hright⟩
  · exact yields_fail _

theorem yields_formulaElseTerm {formula term : Reader MarkedTree}
    (hformula : formula.Yields has (Built has)) (hterm : term.Yields has (Built has)) :
    (formulaElseTerm formula term).Yields has (Built has) := by
  intro ts tree rest hts hread
  unfold formulaElseTerm at hread
  cases h : formula ts with
  | ok tree' rest' =>
    rw [h] at hread
    cases hread
    exact hformula ts _ _ hts h
  | error failure rest' =>
    -- The term is read from where the formula was, so the tokens are the same ones.
    simp only [h] at hread
    split at hread
    · exact hterm ts tree rest hts hread
    · cases hread

theorem yields_metavariable (letter : MetaLetter) :
    (metavariable letter).Yields has (Built has) := by
  apply (forward_withSubscript _).yields.bind
  intro name _
  apply forward_declaration.yields.bind
  intro declared _
  exact yields_pure (.metavar name declared)

theorem yields_basicFormulaAbove (h : below.Yields has) :
    (basicFormulaAbove below).Yields has (Built has) := by
  apply yields_peek?.bind
  intro o ho
  cases o with
  | none => exact yields_fail _
  | some t =>
    dsimp only
    split
    · apply forward_next?.yields.bind
      intro _ _
      exact yields_metavariable _
    · apply forward_next?.yields.bind
      intro _ _
      exact yields_pure (.atom _)
    · apply forward_next?.yields.bind
      intro _ _
      exact yields_application (ho _ rfl _ rfl) rfl (h.term _)
    · apply yields_get.bind
      intro ts _
      split
      · exact yields_formulaElseTerm (h.formula _).parenthesised (yields_infixPredicateAbove h)
      · exact yields_infixPredicateAbove h

theorem yields_quantified (h : below.Yields has) (lexeme : Lexeme) {label : String}
    (hc : has (.quantifier label)) : (quantified below lexeme label).Yields has (Built has) := by
  apply forward_variableName.yields.bind
  intro bound _
  split
  · exact yields_fail _
  · apply (h.formula _).bind
    intro scope hscope
    apply yields_build hc rfl
    rw [List.forall_mem_cons, List.forall_mem_singleton]
    exact ⟨.atom bound, hscope⟩

theorem yields_operandAbove (h : below.Yields has) :
    (operandAbove below).Yields has (Built has) := by
  apply yields_peek?.bind
  intro o ho
  cases o with
  | none => exact yields_fail _
  | some t =>
    dsimp only
    split
    · apply forward_next?.yields.bind
      intro _ _
      apply (h.formula _).bind
      intro argument hargument
      exact yields_build (ho _ rfl _ rfl) rfl (List.forall_mem_singleton.2 hargument)
    · apply forward_next?.yields.bind
      intro _ _
      exact yields_quantified h _ (ho _ rfl _ rfl)
    · exact yields_basicFormulaAbove h

theorem yields_formulaAbove (h : below.Yields has) (m : Threshold) :
    (formulaAbove below m).Yields has (Built has) :=
  (yields_operandAbove h).bind fun _ hfirst =>
    yields_infixRest isInfix_connective h.formula m hfirst

/-- Levels yield built trees at every depth. -/
theorem yields_ofDepth (depth : Nat) : (ofDepth depth).Yields has := by
  induction depth with
  | zero => exact ⟨fun _ => yields_throw _, fun _ => yields_throw _, yields_throw _⟩
  | succ depth ih => exact ⟨yields_formulaAbove ih, yields_termAbove ih, yields_basicTermAbove ih⟩

/-- The marked tree of a list of tokens is built from the constructs of the tokens. -/
theorem built_of_treeOfTokens {depth : Nat} {ts : List Token} {tree : MarkedTree}
    (h : treeOfTokens depth ts = .ok tree) (hts : AllWithin has ts) : Built has tree := by
  unfold treeOfTokens at h
  split at h
  · cases h
  · cases h
  · next hread =>
    cases h
    exact ((yields_ofDepth depth).formula _ ts _ _ hts hread).1

end Marked

end LatexLogic
