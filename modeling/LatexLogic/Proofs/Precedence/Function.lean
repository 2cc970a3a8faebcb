import LatexLogic.Proofs.Reading.Unlimited

/-!
# Precedence of functions

What the reader of terms makes of precedences, said without binding powers and without the order of
reading. The outline of a term shows its infix functions over basic terms, which are leaves
(`TermOutline`). It is spelled by tokens in the order of reading (`TermOutline.Spells`), and it
respects precedence (`TermOutline.RespectsPrecedence`) if a function stands inside the right operand
of another one exactly where it binds tighter than that one.

The reader accepts exactly the outlines that respect precedence and end where nothing continues them
(`term_eq_ok_iff_outline`). The condition speaks of the functions along the edges of the operands, but
it orders all functions inside them (`TermOutline.respectsPrecedence_iff_ordered`): those of a right
operand bind tighter than the function in front of it, so functions of one precedence only ever stand
inside left operands. A run of such functions folds to the left (`TermOutline.tree_chain`).
-/

set_option autoImplicit false

namespace LatexLogic

open Reader

/-! ## Functions -/

/-- A function between two terms. -/
structure InfixFunction where
  label : String
  precedence : Int
  deriving DecidableEq, Repr

namespace InfixFunction

/-- The construct of a function. -/
def construct (f : InfixFunction) : Construct :=
  .function f.label (.infixOp f.precedence)

/-- The function as an operator of a run. -/
def operator (f : InfixFunction) : InfixOperator where
  label := f.label
  leftPower := (Construct.functionPowers (.infixOp f.precedence)).1
  rightPower := (Construct.functionPowers (.infixOp f.precedence)).2

/-- The threshold up to which the right operand of a function is read. -/
def threshold (f : InfixFunction) : Threshold :=
  .power f.operator.rightPower

/-- The function is the next token. -/
def StandsNext (f : InfixFunction) (ts : List Token) : Prop :=
  ∃ lexeme us, ts = .known lexeme f.construct :: us

/-- The right operand of a function takes in the functions that bind tighter, and no others. -/
theorem admits_threshold_iff (f g : InfixFunction) :
    f.threshold.admits (2 * g.precedence) = true ↔ f.precedence < g.precedence := by
  simp only [threshold, operator, Construct.functionPowers, Threshold.admits, decide_eq_true_eq]
  omega

end InfixFunction

/-- No function that stands next reaches the threshold. -/
def Threshold.StopsTerm (m : Threshold) (rest : List Token) : Prop :=
  ∀ f : InfixFunction, f.StandsNext rest → m.admits (2 * f.precedence) = false

theorem InfixFunction.stopsTerm_threshold_iff {f : InfixFunction} {rest : List Token} :
    f.threshold.StopsTerm rest ↔
      ∀ g : InfixFunction, g.StandsNext rest → ¬ f.precedence < g.precedence := by
  simp only [Threshold.StopsTerm, ← admits_threshold_iff, Bool.not_eq_true]

/-! ## Outlines -/

/-- The infix functions of a term over its basic terms. -/
inductive TermOutline where
  | basic (tree : Tree)
  | between (f : InfixFunction) (left right : TermOutline)

namespace TermOutline

/-- The tree of an outline. -/
def tree : TermOutline → Tree
  | basic tree => tree
  | between f left right => .node f.label [left.tree, right.tree]

/-- The functions that are reached from the top by going to the left. -/
def leftSpine : TermOutline → List InfixFunction
  | basic _ => []
  | between f left _ => f :: left.leftSpine

/-- The functions that are reached from the top by going to the right. -/
def rightSpine : TermOutline → List InfixFunction
  | basic _ => []
  | between f _ right => f :: right.rightSpine

/-- All functions of an outline. -/
def functions : TermOutline → List InfixFunction
  | basic _ => []
  | between f left right => left.functions ++ f :: right.functions

/-- Every function belongs to the right operand of the nearest function in front of it that binds less
tightly. So a right operand has only tighter functions on its left spine, and a left operand has no
looser function on its right spine, which would have taken the function behind it. -/
def RespectsPrecedence : TermOutline → Prop
  | basic _ => True
  | between f left right =>
    (∀ g ∈ right.leftSpine, f.precedence < g.precedence) ∧
      (∀ g ∈ left.rightSpine, ¬ g.precedence < f.precedence) ∧
      left.RespectsPrecedence ∧ right.RespectsPrecedence

/-- The tokens up to the remaining ones are those of an outline in the order of reading. A leaf is
what is read as a basic term at its place. -/
inductive Spells : TermOutline → List Token → List Token → Prop where
  | basic {tree : Tree} {ts rest : List Token} :
      basicTerm ts = .ok tree rest → Spells (.basic tree) ts rest
  | between {lexeme : Lexeme} {f : InfixFunction} {left right : TermOutline}
      {ts mid rest : List Token} :
      Spells left ts (.known lexeme f.construct :: mid) → Spells right mid rest →
      Spells (.between f left right) ts rest

/-- No function that stands next binds tighter than one on the right spine. -/
def Closed (o : TermOutline) (rest : List Token) : Prop :=
  ∀ f : InfixFunction, f.StandsNext rest → ∀ g ∈ o.rightSpine, ¬ g.precedence < f.precedence

/-! ## The order of functions -/

/-- At every function, those inside the right operand bind tighter, and none inside the left operand
binds less tightly. -/
def Ordered : TermOutline → Prop
  | basic _ => True
  | between f left right =>
    (∀ g ∈ right.functions, f.precedence < g.precedence) ∧
      (∀ g ∈ left.functions, f.precedence ≤ g.precedence) ∧ left.Ordered ∧ right.Ordered

theorem mem_functions_of_mem_leftSpine {o : TermOutline} {g : InfixFunction}
    (h : g ∈ o.leftSpine) : g ∈ o.functions := by
  induction o with
  | basic tree => cases h
  | between f left right ihleft _ =>
    rw [functions, List.mem_append]
    rcases List.mem_cons.1 h with rfl | h
    · exact Or.inr List.mem_cons_self
    · exact Or.inl (ihleft h)

theorem mem_functions_of_mem_rightSpine {o : TermOutline} {g : InfixFunction}
    (h : g ∈ o.rightSpine) : g ∈ o.functions := by
  induction o with
  | basic tree => cases h
  | between f left right _ ihright =>
    rw [functions, List.mem_append]
    rcases List.mem_cons.1 h with rfl | h
    · exact Or.inr List.mem_cons_self
    · exact Or.inr (List.mem_cons_of_mem _ (ihright h))

/-- What binds the functions of the left spine from below binds all functions from below: every other
one stands inside the right operand of one of them. -/
theorem Ordered.lt_of_leftSpine {o : TermOutline} {p : Int} (ho : o.Ordered)
    (h : ∀ g ∈ o.leftSpine, p < g.precedence) : ∀ g ∈ o.functions, p < g.precedence := by
  induction o with
  | basic tree => nofun
  | between f left right ihleft _ =>
    obtain ⟨hright, -, holeft, -⟩ := ho
    rw [leftSpine, List.forall_mem_cons] at h
    rw [functions, List.forall_mem_append, List.forall_mem_cons]
    exact ⟨ihleft holeft h.2, h.1, fun g hg => Int.lt_trans h.1 (hright g hg)⟩

/-- What binds the functions of the right spine from below binds all functions from below: every other
one stands inside the left operand of one of them. -/
theorem Ordered.le_of_rightSpine {o : TermOutline} {p : Int} (ho : o.Ordered)
    (h : ∀ g ∈ o.rightSpine, p ≤ g.precedence) : ∀ g ∈ o.functions, p ≤ g.precedence := by
  induction o with
  | basic tree => nofun
  | between f left right _ ihright =>
    obtain ⟨-, hleft, -, horight⟩ := ho
    rw [rightSpine, List.forall_mem_cons] at h
    rw [functions, List.forall_mem_append, List.forall_mem_cons]
    exact ⟨fun g hg => Int.le_trans h.1 (hleft g hg), h.1, ihright horight h.2⟩

/-- Precedence is respected if the functions inside the operands are ordered like those along their
edges. -/
theorem respectsPrecedence_iff_ordered {o : TermOutline} : o.RespectsPrecedence ↔ o.Ordered := by
  induction o with
  | basic tree => exact Iff.rfl
  | between f left right ihleft ihright =>
    rw [RespectsPrecedence, Ordered, ihleft, ihright]
    constructor
    · rintro ⟨hright, hleft, holeft, horight⟩
      exact ⟨horight.lt_of_leftSpine hright,
        holeft.le_of_rightSpine fun g hg => Int.not_lt.1 (hleft g hg), holeft, horight⟩
    · rintro ⟨hright, hleft, holeft, horight⟩
      exact ⟨fun g hg => hright g (mem_functions_of_mem_leftSpine hg),
        fun g hg => Int.not_lt.2 (hleft g (mem_functions_of_mem_rightSpine hg)), holeft, horight⟩

/-! ## Chains -/

/-- An outline with further functions and leaves behind it, folded to the left. -/
def chain (o : TermOutline) (steps : List (InfixFunction × Tree)) : TermOutline :=
  steps.foldl (fun left step => .between step.1 left (.basic step.2)) o

/-- The tree of a chain is folded to the left too. -/
theorem tree_chain (o : TermOutline) (steps : List (InfixFunction × Tree)) :
    (o.chain steps).tree =
      steps.foldl (fun left step => .node step.1.label [left, step.2]) o.tree := by
  induction steps generalizing o with
  | nil => rfl
  | cons step steps ih => exact ih (.between step.1 o (.basic step.2))

/-- The functions of a chain are those of the outline and the further ones. -/
theorem functions_chain (o : TermOutline) (steps : List (InfixFunction × Tree)) :
    (o.chain steps).functions = o.functions ++ steps.map Prod.fst := by
  induction steps generalizing o with
  | nil => exact (List.append_nil _).symm
  | cons step steps ih =>
    show ((between step.1 o (basic step.2)).chain steps).functions = _
    rw [ih, functions, functions, List.append_assoc]
    rfl

/-- A chain of functions of one precedence is ordered. -/
theorem Ordered.chain {p : Int} {o : TermOutline} {steps : List (InfixFunction × Tree)}
    (ho : o.Ordered) (h : ∀ g ∈ (o.chain steps).functions, g.precedence = p) :
    (o.chain steps).Ordered := by
  induction steps generalizing o with
  | nil => exact ho
  | cons step steps ih =>
    refine ih (o := between step.1 o (basic step.2)) ⟨nofun, fun g hg => ?_, ho, trivial⟩ h
    rw [functions_chain, List.map_cons, List.forall_mem_append, List.forall_mem_cons] at h
    exact Int.le_of_eq (h.2.1.trans (h.1 g hg).symm)

/-- Conversely, an ordered outline whose functions have one precedence is a chain of its leaves: a
function inside a right operand would have to bind tighter. -/
theorem Ordered.exists_chain {p : Int} {o : TermOutline} (ho : o.Ordered)
    (h : ∀ g ∈ o.functions, g.precedence = p) : ∃ first steps, o = (basic first).chain steps := by
  induction o with
  | basic tree => exact ⟨tree, [], rfl⟩
  | between f left right ihleft _ =>
    obtain ⟨hright, -, holeft, -⟩ := ho
    rw [functions, List.forall_mem_append, List.forall_mem_cons] at h
    obtain ⟨hleftFunctions, hf, hrightFunctions⟩ := h
    obtain ⟨first, steps, rfl⟩ := ihleft holeft hleftFunctions
    cases right with
    | basic leaf =>
      refine ⟨first, steps ++ [(f, leaf)], ?_⟩
      rw [TermOutline.chain, TermOutline.chain, List.foldl_concat]
    | between g l r =>
      -- A function inside the right operand has the same precedence and would have to bind tighter.
      have hg : g ∈ (between g l r).functions :=
        mem_functions_of_mem_leftSpine List.mem_cons_self
      have hlt := hright g hg
      rw [hf, hrightFunctions g hg] at hlt
      exact absurd hlt (Int.lt_irrefl p)

end TermOutline

/-! ## Runs of functions -/

theorem infixFunction?_eq_some_iff {t : Token} {op : InfixOperator} :
    t.infixFunction? = some op ↔ ∃ (lexeme : Lexeme) (f : InfixFunction),
      t = .known lexeme f.construct ∧ op = f.operator := by
  constructor
  · intro h
    rcases t with ⟨lexeme, ⟨_, _⟩ | _ | ⟨_, _⟩ | ⟨label, _ | precedence⟩⟩ | _ | _ | _
    case known.function.infixOp =>
      simp only [Token.infixFunction?, Option.some.injEq] at h
      exact ⟨lexeme, ⟨label, precedence⟩, rfl, h.symm⟩
    all_goals simp [Token.infixFunction?] at h
  · rintro ⟨lexeme, f, rfl, rfl⟩
    rfl

/-- A run goes on with a function that stands next and reaches the threshold. -/
theorem continuing?_infixFunction_eq_some_iff {m : Threshold} {ts : List Token}
    {op : InfixOperator} :
    continuing? Token.infixFunction? m ts = some op ↔
      ∃ f : InfixFunction, f.StandsNext ts ∧ m.admits (2 * f.precedence) = true ∧
        op = f.operator := by
  cases ts with
  | nil => simp [InfixFunction.StandsNext]
  | cons t us =>
    simp only [continuing?_cons, Option.filter_eq_some_iff, infixFunction?_eq_some_iff]
    constructor
    · rintro ⟨⟨lexeme, f, rfl, rfl⟩, hadmits⟩
      exact ⟨f, ⟨lexeme, us, rfl⟩, hadmits, rfl⟩
    · rintro ⟨f, ⟨lexeme, us', hts⟩, hadmits, rfl⟩
      obtain ⟨rfl, rfl⟩ := List.cons.inj hts
      exact ⟨⟨lexeme, f, rfl, rfl⟩, hadmits⟩

theorem continuing?_infixFunction_eq_none_iff {m : Threshold} {ts : List Token} :
    continuing? Token.infixFunction? m ts = none ↔ m.StopsTerm ts := by
  rw [Option.eq_none_iff_forall_ne_some]
  simp only [ne_eq, continuing?_infixFunction_eq_some_iff, not_exists, not_and]
  constructor
  · intro h f hf
    exact Bool.eq_false_iff.2 fun hadmits => h f.operator f hf hadmits rfl
  · intro h op f hf hadmits
    rw [h f hf] at hadmits
    cases hadmits

/-- One function stands next, if any. -/
theorem InfixFunction.StandsNext.unique {f g : InfixFunction} {ts : List Token}
    (hf : f.StandsNext ts) (hg : g.StandsNext ts) : f = g := by
  obtain ⟨lexeme, us, rfl⟩ := hf
  obtain ⟨lexeme', us', hts⟩ := hg
  obtain ⟨htoken, -⟩ := List.cons.inj hts
  -- Label and precedence are read off the token.
  cases f
  cases g
  cases htoken
  rfl

/-! ## Reading and outlines -/

/-- Tokens that spell an outline are read as its tree before the run goes on. The induction is on the
outline; a left operand is read at the same threshold as the whole. -/
theorem term_of_spells {o : TermOutline} {ts rest : List Token} (h : o.Spells ts rest)
    (hrespects : o.RespectsPrecedence) (hclosed : o.Closed rest) :
    ∀ m : Threshold, (∀ f ∈ o.leftSpine, m.admits (2 * f.precedence) = true) →
      term m ts = infixRest Token.infixFunction? term m o.tree rest := by
  induction h with
  | basic hread =>
    intro m _
    rw [term_eq, bind_of_eq_ok hread]
    rfl
  | @between lexeme f left right ts mid rest _ _ ihleft ihright =>
    intro m hspine
    obtain ⟨htighter, hlooser, hleft, hright⟩ := hrespects
    have hnext : f.StandsNext (.known lexeme f.construct :: mid) := ⟨lexeme, mid, rfl⟩
    -- The left operand is followed by the function itself, which nothing in it takes.
    have hleftRead := ihleft hleft
      (fun g hg d hd => hg.unique hnext ▸ hlooser d hd) m
      fun g hg => hspine g (List.mem_cons_of_mem _ hg)
    have hrightRead := ihright hright
      (fun g hg d hd => hclosed g hg d (List.mem_cons_of_mem _ hd)) f.threshold
      fun g hg => (f.admits_threshold_iff g).2 (htighter g hg)
    -- The right operand ends where the whole outline does.
    have hstops : f.threshold.StopsTerm rest :=
      InfixFunction.stopsTerm_threshold_iff.2 fun g hg => hclosed g hg f List.mem_cons_self
    rw [infixRest_of_none (continuing?_infixFunction_eq_none_iff.2 hstops)] at hrightRead
    have hcontinuing := continuing?_infixFunction_eq_some_iff.2
      ⟨f, hnext, hspine f List.mem_cons_self, rfl⟩
    rw [hleftRead, infixRest_of_some forward_term hcontinuing left.tree]
    exact bind_of_eq_ok hrightRead

/-- What holds of the tree and the outline of a term that was read up to a threshold. -/
structure TermOutline.Reading (m : Threshold) (ts : List Token) (tree : Tree) (rest : List Token)
    (o : TermOutline) : Prop where
  tree_eq : o.tree = tree
  spells : o.Spells ts rest
  respects : o.RespectsPrecedence
  closed : o.Closed rest
  admitted : ∀ f ∈ o.leftSpine, m.admits (2 * f.precedence) = true

/-- A function and a right operand make a larger outline of the one so far. The right operand was read
up to the threshold of the function. -/
theorem TermOutline.Reading.between {m : Threshold} {start us mid : List Token} {lexeme : Lexeme}
    {f : InfixFunction} {left right : Tree} {o r : TermOutline}
    (ho : o.Reading m start left (.known lexeme f.construct :: us))
    (hadmits : m.admits (2 * f.precedence) = true) (hr : r.Reading f.threshold us right mid)
    (hstops : f.threshold.StopsTerm mid) :
    (TermOutline.between f o r).Reading m start (.node f.label [left, right]) mid where
  tree_eq := by rw [tree, ho.tree_eq, hr.tree_eq]
  spells := .between ho.spells hr.spells
  respects :=
    -- The outline so far was closed in front of this very function.
    ⟨fun g hg => (f.admits_threshold_iff g).1 (hr.admitted g hg), ho.closed f ⟨lexeme, us, rfl⟩,
      ho.respects, hr.respects⟩
  closed := by
    intro g hg d hd
    rcases List.mem_cons.1 hd with rfl | hd
    · exact InfixFunction.stopsTerm_threshold_iff.1 hstops g hg
    · exact hr.closed g hg d hd
  admitted := List.forall_mem_cons.2 ⟨hadmits, ho.admitted⟩

/-- Whatever is read as a term has an outline that respects precedence, and the reading stops where
nothing reaches the threshold. The induction is on the number of tokens. -/
theorem termOutline_of_term {m : Threshold} {ts rest : List Token} {tree : Tree}
    (hread : term m ts = .ok tree rest) :
    m.StopsTerm rest ∧ ∃ o : TermOutline, o.Reading m ts tree rest := by
  induction hlength : ts.length using Nat.strong_induction_on generalizing m ts rest tree with
  | _ n ih =>
    rw [term_eq, bind_eq_ok_iff] at hread
    obtain ⟨first, mid, hfirst, hrun⟩ := hread
    have hle := (forward_basicTerm.ok hfirst).length_le
    have hbasic : (TermOutline.basic first).Reading m ts first mid :=
      ⟨rfl, .basic hfirst, trivial, nofun, nofun⟩
    -- The outline grows with the run: what was read so far is the left operand of the next function.
    refine infixRest_induction forward_term (n := n) (R := fun left us tree rest =>
      ∀ o : TermOutline, o.Reading m ts left us →
        m.StopsTerm rest ∧ ∃ o' : TermOutline, o'.Reading m ts tree rest)
      ?stop ?step (by omega) hrun _ hbasic
    case stop =>
      intro us tree hop o ho
      exact ⟨continuing?_infixFunction_eq_none_iff.1 hop, o, ho⟩
    case step =>
      intro t us op left right mid tree rest hus hop hright hrest o ho
      obtain ⟨f, ⟨lexeme, us', hts⟩, hadmits, rfl⟩ := continuing?_infixFunction_eq_some_iff.1 hop
      obtain ⟨rfl, rfl⟩ := List.cons.inj hts
      have hright : term f.threshold us = .ok right mid := hright
      obtain ⟨hstops, r, hr⟩ := ih us.length hus hright rfl
      exact hrest _ (ho.between hadmits hr hstops)

/-- Reading terms by precedence is exact: a term is read with a tree up to some token exactly if the
tokens before that one spell an outline of the tree which respects precedence, whose left spine
reaches the threshold, and after which no function stands that reaches the threshold or binds tighter
than one on the right spine. In such an outline the functions of every right operand bind tighter than
the one in front of it, and those of a left operand at least as tight as the one behind it. So
functions of one precedence fold to the left, the same ones or different ones. -/
theorem term_eq_ok_iff_outline (m : Threshold) (ts rest : List Token) (tree : Tree) :
    (term m ts = .ok tree rest ↔
      ∃ o : TermOutline, o.tree = tree ∧ o.Spells ts rest ∧ o.RespectsPrecedence ∧
        (∀ f ∈ o.leftSpine, m.admits (2 * f.precedence) = true) ∧
        ∀ f : InfixFunction, f.StandsNext rest →
          m.admits (2 * f.precedence) = false ∧ ∀ g ∈ o.rightSpine, ¬ g.precedence < f.precedence) ∧
    (∀ o : TermOutline, o.RespectsPrecedence ↔ o.Ordered) ∧
    ∀ (o : TermOutline) (p : Int), (∀ g ∈ o.functions, g.precedence = p) →
      (o.RespectsPrecedence ↔ ∃ first steps, o = (TermOutline.basic first).chain steps ∧
        o.tree = steps.foldl (fun left step => .node step.1.label [left, step.2]) first) := by
  refine ⟨⟨?reads, ?spells⟩, fun o => TermOutline.respectsPrecedence_iff_ordered, ?chain⟩
  case reads =>
    intro hread
    obtain ⟨hstops, o, ho⟩ := termOutline_of_term hread
    exact ⟨o, ho.tree_eq, ho.spells, ho.respects, ho.admitted,
      fun f hf => ⟨hstops f hf, ho.closed f hf⟩⟩
  case spells =>
    rintro ⟨o, rfl, hspells, hrespects, hadmitted, hend⟩
    rw [term_of_spells hspells hrespects (fun f hf => (hend f hf).2) m hadmitted]
    exact infixRest_of_none (continuing?_infixFunction_eq_none_iff.2 fun f hf => (hend f hf).1) _
  case chain =>
    intro o p hfunctions
    rw [TermOutline.respectsPrecedence_iff_ordered]
    constructor
    · intro ho
      obtain ⟨first, steps, rfl⟩ := ho.exists_chain hfunctions
      exact ⟨first, steps, rfl, TermOutline.tree_chain (.basic first) steps⟩
    · rintro ⟨first, steps, rfl, -⟩
      exact TermOutline.Ordered.chain trivial hfunctions

/-- In `x-y+z`, where the difference and the sum have one precedence, the difference is inside. -/
theorem term_eq_ok_iff_outline_difference :
    let minus : InfixFunction := ⟨"minus", 1⟩
    let plus : InfixFunction := ⟨"plus", 1⟩
    term Level.whole [.char 'x', .known (.char '-') minus.construct, .char 'y',
        .known (.char '+') plus.construct, .char 'z'] =
      .ok (.node "plus" [.node "minus" [.atom "x", .atom "y"], .atom "z"]) [] := by
  intro minus plus
  let o := (TermOutline.basic (.atom "x")).chain [(minus, .atom "y"), (plus, .atom "z")]
  obtain ⟨hreads, -, hchain⟩ := term_eq_ok_iff_outline Level.whole
    [.char 'x', .known (.char '-') minus.construct, .char 'y', .known (.char '+') plus.construct,
      .char 'z'] [] (.node "plus" [.node "minus" [.atom "x", .atom "y"], .atom "z"])
  have hrespects : o.RespectsPrecedence :=
    (hchain o 1 (by decide)).2 ⟨.atom "x", [(minus, .atom "y"), (plus, .atom "z")], rfl, rfl⟩
  exact hreads.2 ⟨o, rfl, .between (.between (.basic rfl) (.basic rfl)) (.basic rfl), hrespects,
    by decide, by rintro f ⟨_, _, hnil⟩; cases hnil⟩

end LatexLogic
