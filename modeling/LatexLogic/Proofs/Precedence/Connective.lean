import LatexLogic.Proofs.Reading.Name
import LatexLogic.Proofs.Reading.Unlimited

/-!
# Precedence of connectives

What the reader of formulas makes of precedences, said without binding powers and without the order
of reading. The outline of a formula shows its connectives and quantifiers over basic formulas,
which are leaves. An outline is spelled by tokens in the order of reading (`Outline.Spells`), and it
respects precedence (`Outline.RespectsPrecedence`) if every connective stands as far inside as it
may: a connective that is captured by the operator in front of it belongs to the argument of that
operator, and no other does.

The reader accepts exactly the outlines that respect precedence and end where nothing continues them
(`formula_eq_ok_iff_outline`). Precedences may be any integers.
-/

set_option autoImplicit false

namespace LatexLogic

open Reader

/-! ## Connectives -/

/-- A connective between two formulas. -/
structure InfixConnective where
  label : String
  precedence : Int
  /-- The side to which runs of this connective fold. -/
  side : Side
  deriving DecidableEq, Repr

namespace InfixConnective

/-- The power with which a connective takes what stands before it. -/
def leftPower (c : InfixConnective) : Int :=
  (Construct.connectivePowers (.infixOp c.precedence c.side)).1

/-- The connective as an operator of a run. -/
def operator (c : InfixConnective) : InfixOperator where
  label := c.label
  leftPower := c.leftPower
  rightPower := (Construct.connectivePowers (.infixOp c.precedence c.side)).2

/-- The construct of a connective. -/
def construct (c : InfixConnective) : Construct :=
  .connective c.label (.infixOp c.precedence c.side)

/-- The connective is the next token. -/
def StandsNext (c : InfixConnective) (ts : List Token) : Prop :=
  ∃ lexeme us, ts = .known lexeme c.construct :: us

end InfixConnective

/-- An operator with a formula as its argument on the right. -/
inductive RightOperator where
  | before (precedence : Int)
  | between (c : InfixConnective)

namespace RightOperator

/-- The precedence of an operator. -/
def precedence : RightOperator → Int
  | before precedence => precedence
  | between c => c.precedence

/-- Whether operators of the same precedence belong to the argument on the right. -/
def foldsRight : RightOperator → Bool
  | before _ => true
  | between c => c.side = .right

/-- A connective is captured by the operator in front of it: it belongs to the argument of that
operator, because it binds tighter or because the operator folds to the right. -/
def Captures (d : RightOperator) (c : InfixConnective) : Prop :=
  d.precedence < c.precedence ∨ (d.precedence = c.precedence ∧ d.foldsRight = true)

/-- The threshold up to which the argument of an operator is read. -/
def threshold : RightOperator → Threshold
  | before precedence => .power (Construct.connectivePowers (.prefixOp precedence .null)).2
  | between c => .power (Construct.connectivePowers (.infixOp c.precedence c.side)).2

/-- Binding powers express capture: four powers for each precedence leave room for the two kinds of
connective on either side. -/
theorem admits_threshold_iff (d : RightOperator) (c : InfixConnective) :
    d.threshold.admits c.leftPower = true ↔ d.Captures c := by
  cases d with
  | before p =>
    cases hc : c.side with
    | left =>
      simp only [threshold, Threshold.admits, InfixConnective.leftPower, Captures, precedence,
        foldsRight, Construct.connectivePowers, hc, decide_eq_true_eq, and_true]
      omega
    | right =>
      simp only [threshold, Threshold.admits, InfixConnective.leftPower, Captures, precedence,
        foldsRight, Construct.connectivePowers, hc, decide_eq_true_eq, and_true]
      omega
  | between d =>
    cases hc : c.side <;> cases hd : d.side <;>
      simp only [threshold, Threshold.admits, InfixConnective.leftPower, Captures, precedence,
        foldsRight, Construct.connectivePowers, hc, hd, decide_eq_true_eq, and_true, reduceCtorEq,
        and_false, or_false] <;>
      omega

end RightOperator

/-! ## Outlines -/

/-- The connectives and quantifiers of a formula over its basic formulas. -/
inductive Outline where
  | basic (tree : Tree)
  | before (label : String) (precedence : Int) (argument : Outline)
  | quantified (label bound : String) (scope : Outline)
  | between (c : InfixConnective) (left right : Outline)

namespace Outline

/-- The tree of an outline. -/
def tree : Outline → Tree
  | basic tree => tree
  | before label _ argument => .node label [argument.tree]
  | quantified label bound scope => .node label [.atom bound, scope.tree]
  | between c left right => .node c.label [left.tree, right.tree]

/-- The infix connectives that are reached from the top by going to the left. -/
def leftSpine : Outline → List InfixConnective
  | basic _ => []
  | before _ _ _ => []
  | quantified _ _ _ => []
  | between c left _ => c :: left.leftSpine

/-- The operators that are reached from the top by going to the right. A quantifier has its scope on
the right but captures nothing. -/
def rightSpine : Outline → List RightOperator
  | basic _ => []
  | before _ precedence argument => .before precedence :: argument.rightSpine
  | quantified _ _ scope => scope.rightSpine
  | between c _ right => .between c :: right.rightSpine

/-- Every connective belongs to the argument of the nearest operator in front of it that captures
it. So the argument of an operator, and the scope of a quantifier, has only captured connectives on
its left spine; and what stands before a connective has no operator on its right spine that would
have captured the connective. -/
def RespectsPrecedence : Outline → Prop
  | basic _ => True
  | before _ precedence argument =>
    (∀ c ∈ argument.leftSpine, (RightOperator.before precedence).Captures c) ∧
      argument.RespectsPrecedence
  | quantified _ _ scope => scope.leftSpine = [] ∧ scope.RespectsPrecedence
  | between c left right =>
    (∀ c' ∈ right.leftSpine, (RightOperator.between c).Captures c') ∧
      (∀ d ∈ left.rightSpine, ¬ d.Captures c) ∧
      left.RespectsPrecedence ∧ right.RespectsPrecedence

/-- The tokens up to the remaining ones are those of an outline in the order of reading. A leaf is
what is read as a basic formula at its place, and it is no leaf if a prefix connective or a
quantifier stands there, even one that is written as a parenthesis. -/
inductive Spells : Outline → List Token → List Token → Prop where
  | basic {tree : Tree} {ts rest : List Token} :
      ¬ OperatorNext ts → basicFormula ts = .ok tree rest → Spells (.basic tree) ts rest
  | before {lexeme : Lexeme} {label : String} {precedence : Int} {note : Data}
      {argument : Outline} {ts rest : List Token} :
      Spells argument ts rest →
      Spells (.before label precedence argument)
        (.known lexeme (.connective label (.prefixOp precedence note)) :: ts) rest
  | quantified {lexeme : Lexeme} {label bound : String} {scope : Outline}
      {ts mid rest : List Token} :
      variableName ts = .ok bound mid → isOrdinaryVariable bound = true → Spells scope mid rest →
      Spells (.quantified label bound scope) (.known lexeme (.quantifier label) :: ts) rest
  | between {lexeme : Lexeme} {c : InfixConnective} {left right : Outline}
      {ts mid rest : List Token} :
      Spells left ts (.known lexeme c.construct :: mid) → Spells right mid rest →
      Spells (.between c left right) ts rest

/-- No connective that stands next would be captured by an operator on the right spine. -/
def Closed (o : Outline) (rest : List Token) : Prop :=
  ∀ c : InfixConnective, c.StandsNext rest → ∀ d ∈ o.rightSpine, ¬ d.Captures c

end Outline

/-- No connective that stands next reaches the threshold. -/
def Threshold.Stops (m : Threshold) (rest : List Token) : Prop :=
  ∀ c : InfixConnective, c.StandsNext rest → m.admits c.leftPower = false

/-! ## Runs of connectives -/

theorem infixConnective?_eq_some_iff {t : Token} {op : InfixOperator} :
    t.infixConnective? = some op ↔ ∃ (lexeme : Lexeme) (c : InfixConnective),
      t = .known lexeme c.construct ∧ op = c.operator := by
  constructor
  · intro h
    rcases t with ⟨lexeme, ⟨label, _ | _ | ⟨precedence, side⟩⟩ | _ | ⟨_, _⟩ | ⟨_, _⟩⟩ | _ | _ | _
    case known.connective.infixOp =>
      simp only [Token.infixConnective?, Option.some.injEq] at h
      exact ⟨lexeme, ⟨label, precedence, side⟩, rfl, h.symm⟩
    all_goals simp [Token.infixConnective?] at h
  · rintro ⟨lexeme, c, rfl, rfl⟩
    rfl

theorem continuing?_eq_some_iff {m : Threshold} {ts : List Token} {op : InfixOperator} :
    continuing? Token.infixConnective? m ts = some op ↔
      ∃ (lexeme : Lexeme) (c : InfixConnective) (us : List Token),
        ts = .known lexeme c.construct :: us ∧ m.admits c.leftPower = true ∧ op = c.operator := by
  cases ts with
  | nil => simp
  | cons t us =>
    simp only [continuing?_cons, Option.filter_eq_some_iff, infixConnective?_eq_some_iff]
    constructor
    · rintro ⟨⟨lexeme, c, rfl, rfl⟩, hadmits⟩
      exact ⟨lexeme, c, us, rfl, hadmits, rfl⟩
    · rintro ⟨lexeme, c, us', hts, hadmits, rfl⟩
      obtain ⟨rfl, rfl⟩ := List.cons.inj hts
      exact ⟨⟨lexeme, c, rfl, rfl⟩, hadmits⟩

theorem continuing?_eq_none_iff {m : Threshold} {ts : List Token} :
    continuing? Token.infixConnective? m ts = none ↔ m.Stops ts := by
  constructor
  · rintro h c ⟨lexeme, us, rfl⟩
    by_contra hadmits
    have hsome := continuing?_eq_some_iff.2 ⟨lexeme, c, us, rfl, by simpa using hadmits, rfl⟩
    rw [h] at hsome
    cases hsome
  · intro h
    cases hop : continuing? Token.infixConnective? m ts with
    | none => rfl
    | some op =>
      obtain ⟨lexeme, c, us, rfl, hadmits, -⟩ := continuing?_eq_some_iff.1 hop
      rw [h c ⟨lexeme, us, rfl⟩] at hadmits
      cases hadmits

theorem stops_unreachable (rest : List Token) : Threshold.unreachable.Stops rest :=
  fun _ _ => rfl

/-- The reading of an argument stops where the operator captures no connective. -/
theorem RightOperator.stops_threshold {d : RightOperator} {rest : List Token}
    (h : ∀ c : InfixConnective, c.StandsNext rest → ¬ d.Captures c) : d.threshold.Stops rest := by
  intro c hc
  have hnot := mt (d.admits_threshold_iff c).1 (h c hc)
  simpa using hnot

theorem RightOperator.not_captures_of_stops {d : RightOperator} {rest : List Token}
    (h : d.threshold.Stops rest) (c : InfixConnective) (hc : c.StandsNext rest) :
    ¬ d.Captures c := by
  intro hcaptures
  have hadmits := (d.admits_threshold_iff c).2 hcaptures
  rw [h c hc] at hadmits
  cases hadmits

/-! ## Reading and outlines -/

/-- The argument of a prefix connective is read up to its threshold. -/
theorem operand_before_threshold {lexeme : Lexeme} {label : String} {precedence : Int} {note : Data}
    (ts : List Token) :
    operand (.known lexeme (.connective label (.prefixOp precedence note)) :: ts) =
      (formula (RightOperator.before precedence).threshold >>= fun argument =>
        pure (.node label [argument])) ts :=
  operand_before ts

/-- Tokens that spell an outline are read as its tree before the run goes on. The induction is on
the outline; what stands before a connective is read at the same threshold as the whole. -/
theorem formula_of_spells {o : Outline} {ts rest : List Token} (h : o.Spells ts rest)
    (hrespects : o.RespectsPrecedence) (hclosed : o.Closed rest) :
    ∀ m : Threshold, (∀ c ∈ o.leftSpine, m.admits c.leftPower = true) →
      formula m ts = infixRest Token.infixConnective? formula m o.tree rest := by
  induction h with
  | basic hoperator hread =>
    intro m _
    rw [formula_eq, bind_of_eq_ok ((operand_eq_basicFormula hoperator).trans hread)]
    rfl
  | @before lexeme label precedence note argument ts rest hspells ih =>
    intro m _
    obtain ⟨hleft, hargument⟩ := hrespects
    -- The argument is read at the threshold of the connective, which ends it at the same place.
    have hthreshold := ih hargument (fun c hc d hd => hclosed c hc d (List.mem_cons_of_mem _ hd))
      (RightOperator.before precedence).threshold
      fun c hc => (RightOperator.admits_threshold_iff _ c).2 (hleft c hc)
    have hstops := RightOperator.stops_threshold (d := RightOperator.before precedence)
      fun c hc => hclosed c hc _ List.mem_cons_self
    rw [infixRest_of_none (continuing?_eq_none_iff.2 hstops)] at hthreshold
    have hoperand : operand (.known lexeme (.connective label (.prefixOp precedence note)) :: ts) =
        .ok (.node label [argument.tree]) rest := operand_before_of_eq_ok hthreshold
    rw [formula_eq, bind_of_eq_ok hoperand]
    rfl
  | @quantified lexeme label bound scope ts mid rest hbound hordinary hspells ih =>
    intro m _
    obtain ⟨hleft, hscope⟩ := hrespects
    -- The scope is read at a threshold that stops everywhere.
    have hthreshold := ih hscope hclosed .unreachable (by simp [hleft])
    rw [infixRest_of_none (continuing?_eq_none_iff.2 (stops_unreachable rest))] at hthreshold
    have heigen : isEigenvariable bound = false :=
      (isOrdinaryVariable_iff_of_isVariable (isVariable_of_variableName hbound)).1 hordinary
    rw [formula_eq, bind_of_eq_ok (operand_quantified_of_eq_ok hbound heigen hthreshold)]
    rfl
  | @between lexeme c left right ts mid rest hleft hright ihleft ihright =>
    intro m hspine
    obtain ⟨hcaptured, hfree, hrespectsLeft, hrespectsRight⟩ := hrespects
    -- The left part is followed by the connective itself, which nothing in it captures.
    have hleftRead := ihleft hrespectsLeft
      (by
        rintro c' ⟨lexeme', us, hts⟩ d hd
        obtain ⟨htoken, -⟩ := List.cons.inj hts
        cases c
        cases c'
        cases htoken
        exact hfree d hd)
      m fun c' hc' => hspine c' (List.mem_cons_of_mem _ hc')
    have hrightRead := ihright hrespectsRight
      (fun c' hc' d hd => hclosed c' hc' d (List.mem_cons_of_mem _ hd))
      (RightOperator.between c).threshold
      fun c' hc' => (RightOperator.admits_threshold_iff _ c').2 (hcaptured c' hc')
    have hstops := RightOperator.stops_threshold (d := .between c)
      fun c' hc' => hclosed c' hc' _ List.mem_cons_self
    rw [infixRest_of_none (continuing?_eq_none_iff.2 hstops)] at hrightRead
    -- The connective is on the left spine, so the run goes on with it.
    have hcontinuing := continuing?_eq_some_iff.2
      ⟨lexeme, c, mid, rfl, hspine c List.mem_cons_self, rfl⟩
    rw [hleftRead]
    exact (infixRest_of_some forward_formula hcontinuing left.tree).trans (bind_of_eq_ok hrightRead)

/-- What holds of the tree and the outline of a formula that was read up to a threshold. -/
structure Outline.Reading (m : Threshold) (ts : List Token) (tree : Tree) (rest : List Token)
    (o : Outline) : Prop where
  tree_eq : o.tree = tree
  spells : o.Spells ts rest
  respects : o.RespectsPrecedence
  closed : o.Closed rest
  admitted : ∀ c ∈ o.leftSpine, m.admits c.leftPower = true

/-- Whatever is read as a formula from fewer than `n` tokens has an outline, and the reading stops
where nothing reaches the threshold. -/
def OutlinesBelow (n : Nat) : Prop :=
  ∀ us : List Token, us.length < n → ∀ (m : Threshold) (tree : Tree) (rest : List Token),
    formula m us = .ok tree rest → m.Stops rest ∧ ∃ o : Outline, o.Reading m us tree rest

/-- A run that starts with an outline is read as a larger one. Its right arguments are formulas with
fewer tokens. -/
theorem outline_of_infixRest {n : Nat} {m : Threshold} (ih : OutlinesBelow n)
    {ts rest start : List Token} {first tree : Tree} (hts : ts.length ≤ n)
    (hread : infixRest Token.infixConnective? formula m first ts = .ok tree rest) :
    ∀ o : Outline, o.Reading m start first ts →
      m.Stops rest ∧ ∃ o' : Outline, o'.Reading m start tree rest := by
  refine infixRest_induction forward_formula (R := fun left ts tree rest =>
    ∀ o : Outline, o.Reading m start left ts →
      m.Stops rest ∧ ∃ o' : Outline, o'.Reading m start tree rest) ?stop ?step hts hread
  case stop =>
    intro ts tree hop o ho
    exact ⟨continuing?_eq_none_iff.1 hop, o, ho⟩
  case step =>
    intro t us op left right mid tree rest hus hop hright ihrest o ho
    obtain ⟨lexeme, c, us', hts, hadmits, rfl⟩ := continuing?_eq_some_iff.1 hop
    obtain ⟨rfl, rfl⟩ := List.cons.inj hts
    have hright' : formula (RightOperator.between c).threshold us = .ok right mid := hright
    obtain ⟨hstops, r, hr⟩ := ih us hus _ _ _ hright'
    refine ihrest (.between c o r) ⟨by rw [Outline.tree, ho.tree_eq, hr.tree_eq]; rfl,
      .between ho.spells hr.spells, ⟨?_, ?_, ho.respects, hr.respects⟩, ?_, ?_⟩
    · intro c' hc'
      exact (RightOperator.admits_threshold_iff _ c').1 (hr.admitted c' hc')
    · -- The outline so far was closed in front of this very connective.
      exact ho.closed c ⟨lexeme, us, rfl⟩
    · intro c' hc' d hd
      rcases List.mem_cons.1 hd with rfl | hd
      · exact RightOperator.not_captures_of_stops hstops c' hc'
      · exact hr.closed c' hc' d hd
    · intro c' hc'
      rcases List.mem_cons.1 hc' with rfl | hc'
      · exact hadmits
      · exact ho.admitted c' hc'

/-- A prefix connective and its argument have an outline. -/
theorem outline_of_before {n : Nat} (ih : OutlinesBelow n) (m : Threshold) {lexeme : Lexeme}
    {label : String} {precedence : Int} {note : Data} {us rest : List Token} {tree : Tree}
    (hus : us.length < n)
    (hread : operand (.known lexeme (.connective label (.prefixOp precedence note)) :: us) =
      .ok tree rest) :
    ∃ o : Outline, o.Reading m
      (.known lexeme (.connective label (.prefixOp precedence note)) :: us) tree rest := by
  simp only [operand_before_threshold, bind_eq_ok_iff, pure_eq_ok_iff] at hread
  obtain ⟨argument, _, hargument, rfl, rfl⟩ := hread
  obtain ⟨hstops, a, ha⟩ := ih us hus _ _ _ hargument
  refine ⟨.before label precedence a, by rw [Outline.tree, ha.tree_eq], .before ha.spells,
    ⟨?_, ha.respects⟩, ?_, by simp [Outline.leftSpine]⟩
  · intro c hc
    exact (RightOperator.admits_threshold_iff _ c).1 (ha.admitted c hc)
  · intro c hc d hd
    rcases List.mem_cons.1 hd with rfl | hd
    · exact RightOperator.not_captures_of_stops hstops c hc
    · exact ha.closed c hc d hd

/-- A quantifier, its variable and its scope have an outline. -/
theorem outline_of_quantified {n : Nat} (ih : OutlinesBelow n) (m : Threshold) {lexeme : Lexeme}
    {label : String} {us rest : List Token} {tree : Tree} (hus : us.length < n)
    (hread : operand (.known lexeme (.quantifier label) :: us) = .ok tree rest) :
    ∃ o : Outline, o.Reading m (.known lexeme (.quantifier label) :: us) tree rest := by
  rw [operand_quantified, bind_eq_ok_iff] at hread
  obtain ⟨bound, mid, hbound, hread⟩ := hread
  cases heigen : isEigenvariable bound with
  | true => simp [heigen] at hread
  | false =>
    simp only [heigen, Bool.false_eq_true, if_false, bind_eq_ok_iff, pure_eq_ok_iff] at hread
    obtain ⟨scope, _, hscope, rfl, rfl⟩ := hread
    have hle := (forward_variableName.ok hbound).length_le
    obtain ⟨-, s, hs⟩ := ih mid (by omega) _ _ _ hscope
    have hordinary := (isOrdinaryVariable_iff_of_isVariable
      (isVariable_of_variableName hbound)).2 heigen
    refine ⟨.quantified label bound s, by rw [Outline.tree, hs.tree_eq],
      .quantified hbound hordinary hs.spells, ⟨?_, hs.respects⟩, hs.closed,
      by simp [Outline.leftSpine]⟩
    -- The scope was read at a threshold that no connective reaches.
    cases hspine : s.leftSpine with
    | nil => rfl
    | cons c cs => exact absurd (hs.admitted c (by simp [hspine])) (by simp [Threshold.admits])

/-- The first operand of a formula has an outline without connectives on its left spine. -/
theorem outline_of_operand {n : Nat} (ih : OutlinesBelow n) (m : Threshold)
    {ts rest : List Token} {tree : Tree} (hts : ts.length ≤ n)
    (hread : operand ts = .ok tree rest) : ∃ o : Outline, o.Reading m ts tree rest := by
  by_cases hoperator : OperatorNext ts
  · rcases hoperator with ⟨lexeme, label, precedence, note, us, rfl⟩ | ⟨lexeme, label, us, rfl⟩
    · exact outline_of_before ih m hts hread
    · exact outline_of_quantified ih m hts hread
  · rw [operand_eq_basicFormula hoperator] at hread
    exact ⟨.basic tree, rfl, .basic hoperator hread, trivial, by simp [Outline.Closed,
      Outline.rightSpine], by simp [Outline.leftSpine]⟩

/-- Whatever is read as a formula has an outline that respects precedence. -/
theorem outline_of_formula {m : Threshold} {ts rest : List Token} {tree : Tree}
    (hread : formula m ts = .ok tree rest) :
    m.Stops rest ∧ ∃ o : Outline, o.Reading m ts tree rest := by
  induction hlength : ts.length using Nat.strong_induction_on generalizing m ts rest tree with
  | _ n ihn =>
    have ih : OutlinesBelow n := fun us hus m' tree rest h => ihn us.length hus h rfl
    rw [formula_eq, bind_eq_ok_iff] at hread
    obtain ⟨first, mid, hfirst, hread⟩ := hread
    have hle := (forward_operand.ok hfirst).length_le
    obtain ⟨o, ho⟩ := outline_of_operand ih m hlength.le hfirst
    exact outline_of_infixRest ih (by omega) hread o ho

/-- Reading by precedence is exact: a formula is read with a tree up to some token exactly if the
tokens before that one spell an outline of the tree which respects precedence, whose left spine
reaches the threshold, and after which no connective stands that reaches the threshold or is
captured by an operator on the right spine. -/
theorem formula_eq_ok_iff_outline (m : Threshold) (ts rest : List Token) (tree : Tree) :
    formula m ts = .ok tree rest ↔
      ∃ o : Outline, o.tree = tree ∧ o.Spells ts rest ∧ o.RespectsPrecedence ∧
        (∀ c ∈ o.leftSpine, m.admits c.leftPower = true) ∧
        ∀ c : InfixConnective, c.StandsNext rest →
          m.admits c.leftPower = false ∧ ∀ d ∈ o.rightSpine, ¬ d.Captures c := by
  constructor
  · intro hread
    obtain ⟨hstops, o, ho⟩ := outline_of_formula hread
    exact ⟨o, ho.tree_eq, ho.spells, ho.respects, ho.admitted,
      fun c hc => ⟨hstops c hc, ho.closed c hc⟩⟩
  · rintro ⟨o, rfl, hspells, hrespects, hadmitted, hend⟩
    rw [formula_of_spells hspells hrespects (fun c hc => (hend c hc).2) m hadmitted]
    exact infixRest_of_none (continuing?_eq_none_iff.2 fun c hc => (hend c hc).1) _

end LatexLogic
