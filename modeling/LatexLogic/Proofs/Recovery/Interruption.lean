import LatexLogic.Proofs.Recovery.Retry
import LatexLogic.Proofs.Recovery.Truncation
import LatexLogic.Proofs.Rendering.Tokens

/-!
# Formulas that are cut short

What the reader of formulas answers on the first tokens of a formula. Outside parentheses it comes
to the end of the tokens, as the reader of terms does. Inside a parenthesis that stays open it does
so too, but there a failure is followed by a second attempt, which reads a term; and if the
parenthesis is followed by a logical token, the second attempt blames that token. So the answer
depends on the outermost of the parentheses that stay open: it says that something is missing, unless
a logical token follows that parenthesis, and then it says that the first such token is unexpected
(`FormulaDerivation.cutAt`). The token is always one that is right where it stands.
-/

set_option autoImplicit false

namespace LatexLogic

open Reader

/-! ## Parentheses that stay open -/

/-- The given token is the first logical one after the outermost parenthesis that stays open. -/
def Interrupted (t : Token) (ts : List Token) : Prop :=
  ∃ pre o inside w r, ts = pre ++ o :: inside ∧ Balanced pre ∧ o.written = "(" ∧
    Unclosed inside ∧ FirstLogical inside w t r

section Interrupted

variable {t : Token} {u q : List Token}

/-- More open parentheses before some tokens are as many more after them. -/
theorem parenLevel_succ {ts : List Token} :
    ∀ {n k : Nat}, parenLevel n ts = some k → parenLevel (n + 1) ts = some (k + 1) := by
  induction ts with
  | nil =>
    intro n k h
    cases h
    rfl
  | cons t ts ih =>
    intro n k h
    by_cases hopen : t.written = "("
    · rw [parenLevel, if_pos hopen] at h ⊢
      exact ih h
    · by_cases hclose : t.written = ")"
      · rw [parenLevel, if_neg hopen, if_pos hclose] at h ⊢
        cases n with
        | zero => cases h
        | succ n => exact ih h
      · rw [parenLevel_cons_of_ne hopen hclose] at h ⊢
        exact ih h

/-- Tokens that close nothing from outside do not close a parenthesis before them. -/
theorem Unclosed.parenLevel_one_ne (h : Unclosed u) : parenLevel 1 u ≠ some 0 := by
  obtain ⟨k, hk⟩ := Option.isSome_iff_exists.1 (h 0)
  rw [parenLevel_succ hk]
  simp

theorem not_interrupted_of_forall (h : ∀ x ∈ q, x.isLogical = false) : ¬ Interrupted t q := by
  rintro ⟨pre, o, inside, w, r, rfl, -, -, -, hfirst⟩
  have hmem : t ∈ pre ++ o :: inside :=
    List.mem_append_right _ (List.mem_cons_of_mem _ hfirst.mem)
  have hlogical := hfirst.logical
  rw [h t hmem] at hlogical
  cases hlogical

/-- Behind balanced tokens the same parentheses stay open. -/
theorem interrupted_append_iff (hu : Balanced u) :
    Interrupted t (u ++ q) ↔ Interrupted t q := by
  constructor
  · rintro ⟨pre, o, inside, w, r, heq, hpre, ho, hinside, hfirst⟩
    rcases exists_of_append_eq heq with ⟨mid, rfl, rfl⟩ | ⟨pre, rfl, rfl⟩
    · -- A parenthesis of balanced tokens does not stay open.
      have hmid := hu 0
      rw [parenLevel_append, hpre, Option.bind_some, parenLevel, if_pos ho] at hmid
      exact absurd hmid hinside.of_append.parenLevel_one_ne
    · refine ⟨pre, o, inside, w, r, rfl, fun n => ?_, ho, hinside, hfirst⟩
      have hn := hpre n
      rwa [parenLevel_append, hu, Option.bind_some] at hn
  · rintro ⟨pre, o, inside, w, r, rfl, hpre, ho, hinside, hfirst⟩
    exact ⟨u ++ pre, o, inside, w, r, by rw [List.append_assoc], hu.append hpre, ho, hinside, hfirst⟩

theorem Balanced.not_interrupted (hu : Balanced u) : ¬ Interrupted t u := by
  intro h
  rw [← List.append_nil u, interrupted_append_iff hu] at h
  exact not_interrupted_of_forall (by simp) h

/-- A parenthesis that stays open is the outermost one if it comes first. -/
theorem interrupted_opening_iff {form : Form} {us : List Token} (hopen : Opening form us)
    (hq : Unclosed q) : Interrupted t (us ++ q) ↔ ∃ w r, FirstLogical q w t r := by
  constructor
  · rintro ⟨pre, o, inside, w, r, heq, hpre, ho, hinside, hfirst⟩
    rcases exists_of_append_eq heq with ⟨mid, hus, rfl⟩ | ⟨pre, rfl, rfl⟩
    · obtain ⟨rfl, -⟩ := hopen.eq_concat hus ho
      exact ⟨w, r, hfirst⟩
    · have hlevel := hpre 0
      rw [parenLevel_append, parenLevel_opening hopen, Option.bind_some] at hlevel
      exact absurd hlevel hq.of_append.parenLevel_one_ne
  · rintro ⟨w, r, hfirst⟩
    cases hopen with
    | @short o ho => exact ⟨[], o, q, w, r, rfl, balanced_nil, ho, hq, hfirst⟩
    | @long l o hl ho =>
      refine ⟨[l], o, q, w, r, rfl, balanced_nil.cons ?_ ?_, ho, hq, hfirst⟩
      · rw [hl]
        decide
      · rw [hl]
        decide

/-- A group that is cut short closes nothing. -/
theorem unclosed_of_isPrefix {form : Form} {vs : List Token} (hu : Balanced u)
    (hclose : Closing form vs) (hq : q <+: u ++ vs) (hne : q ≠ u ++ vs) : Unclosed q := by
  obtain ⟨ws, c, rfl, hws, -⟩ := hclose.exists_concat
  rw [← List.append_assoc] at hq hne
  rcases List.prefix_concat_iff.1 hq with heq | ⟨s, hs⟩
  · exact absurd heq hne
  · exact (hs ▸ (hu.append hws).unclosed : Unclosed (q ++ s)).of_append

end Interrupted

/-! ## Answers -/

/-- What is answered on tokens that are cut short: reading comes to the end, or, where a parenthesis
with a logical token behind it stays open, the first such token is blamed. -/
structure CutShort {α : Type} (q : List Token) (outcome : EStateM.Result Failure (List Token) α) :
    Prop where
  blames : ∀ t, Interrupted t q →
    ∃ expected rest, outcome = .error (.fault (.badToken t.written expected)) rest
  ends : (∀ t, ¬ Interrupted t q) → ReachesEnd outcome

section CutShort

variable {α β : Type} {u q ts : List Token} {outcome : EStateM.Result Failure (List Token) α}

theorem ReachesEnd.cutShort (h : ReachesEnd outcome) (hno : ∀ t, ¬ Interrupted t q) :
    CutShort q outcome where
  blames t ht := absurd ht (hno t)
  ends _ := h

theorem Missing.cutShort_nil (h : Missing outcome) : CutShort [] outcome :=
  ReachesEnd.cutShort (Or.inr h) fun _ => not_interrupted_of_forall (by simp)

theorem CutShort.append (hu : Balanced u) (h : CutShort q outcome) : CutShort (u ++ q) outcome where
  blames t ht := h.blames t ((interrupted_append_iff hu).1 ht)
  ends hno := h.ends fun t ht => hno t ((interrupted_append_iff hu).2 ht)

theorem CutShort.cons {x : Token} (hx : x.written ∉ parenTexts) (h : CutShort q outcome) :
    CutShort (x :: q) outcome :=
  have ⟨hopen, hclose⟩ := Token.written_ne_of_notMem_parenTexts hx
  h.append (u := [x]) (balanced_nil.cons hopen hclose)

theorem CutShort.bind {x : Reader α} {f : α → Reader β} (h : CutShort q (x ts))
    (hf : ∀ a, ReachesEnd (f a [])) : CutShort q ((x >>= f) ts) where
  blames t ht := by
    obtain ⟨expected, rest, hread⟩ := h.blames t ht
    exact ⟨expected, rest, bind_of_eq_error hread⟩
  ends hno := (h.ends hno).bind hf

/-- Tokens that are cut short are read to the last of them, or a token is at fault. -/
theorem CutShort.cases (h : CutShort q outcome) :
    (∃ a, outcome = .ok a []) ∨ ∃ failure rest, outcome = .error failure rest ∧
      IsTokenFault failure := by
  by_cases hno : ∀ t, ¬ Interrupted t q
  · rcases h.ends hno with hread | ⟨expected, rest, hread⟩
    · exact Or.inl hread
    · exact Or.inr ⟨_, rest, hread, trivial⟩
  · simp only [not_forall, not_not] at hno
    obtain ⟨t, ht⟩ := hno
    obtain ⟨expected, rest, hread⟩ := h.blames t ht
    exact Or.inr ⟨_, rest, hread, trivial⟩

end CutShort

/-! ## First attempts -/

theorem Reader.IsTokenFault.leavesTerm {failure : Failure} (h : IsTokenFault failure) :
    Level.leavesTerm failure = true := by
  cases failure with
  | tooDeep => exact h.elim
  | fault error => cases error <;> first | rfl | exact h.elim

section Attempts

variable {u q ts rest more : List Token} {tree : Tree} {failure : Failure}

/-- Arguments in parentheses are read in the same way whatever follows them. -/
theorem parenthesised_append (kind : ArgumentKind) {args : List Tree}
    (h : parenthesised (list kind.reader) ts = .ok args rest) (hplain : ∀ t ∈ ts, t.Plain) :
    parenthesised (list kind.reader) (ts ++ more) = .ok args (rest ++ more) := by
  obtain ⟨form, us, inside, vs, hopen, hclose, rfl, hinner⟩ := parenthesised_eq_ok_iff.1 h
  obtain ⟨u, rfl, hu⟩ : ∃ u, inside = u ++ (vs ++ rest) ∧
      TermDerivation (.arguments kind "" []) u (.node "" ([] ++ args)) (vs ++ rest) :=
    TermDerivation.of_list kind kind.forward_reader
      (fun _ _ _ _ hread => TermDerivation.of_reader hread) le_rfl hinner []
  rw [List.forall_mem_append, List.forall_mem_append, List.forall_mem_append] at hplain
  obtain ⟨-, hplainU, hplainVs, -⟩ := hplain
  have hmore : TermDerivation (.arguments kind "" []) u (.node "" args)
      (vs ++ (rest ++ more)) :=
    hu.change_rest hplainU (hclose.alike_arguments hclose hplainVs hplainVs)
  obtain ⟨args', hread, hnode⟩ := hmore.reads hplainU
  obtain rfl : args = args' := (Tree.node.inj hnode).2
  refine parenthesised_eq_ok_iff.2 ⟨form, us, _, vs, hopen, hclose, ?_, hread⟩
  simp only [List.append_assoc]

/-- On the first tokens of a term a formula in parentheses fails, and not for good: no token is
logical, and a function that has its arguments has the right number of them. -/
theorem TermDerivation.attempt_fails {p : TermPhrase} (h : TermDerivation p u tree rest)
    (hplain : ∀ t ∈ u, t.Plain) (hq : q <+: u) :
    ∃ failure rest', parenthesised (Reader.formula Level.whole) q = .error failure rest' ∧
      Level.leavesTerm failure = true := by
  have hplainQ : ∀ t ∈ q, t.Plain := fun t ht => hplain t (hq.mem ht)
  have hlogical : ∀ t ∈ q, t.isLogical = false := fun t ht =>
    h.not_logical hplain t (hq.mem ht)
  cases hattempt : parenthesised (Reader.formula Level.whole) q with
  | ok tree' rest' =>
    obtain ⟨form, us, inside, vs, -, -, rfl, hinner⟩ := parenthesised_eq_ok_iff.1 hattempt
    obtain ⟨v, rfl, hv⟩ := FormulaDerivation.of_formula hinner
    obtain ⟨t, ht, htrue⟩ := hv.exists_logical nofun
    rw [hlogical t (List.mem_append_right _ (List.mem_append_left _ ht))] at htrue
    cases htrue
  | error failure rest' =>
    refine ⟨failure, rest', rfl, ?_⟩
    rcases parenthesised_eq_error hattempt with hfault | ⟨form, us, inside, -, rfl, hinner⟩
    · exact hfault.leavesTerm
    obtain ⟨pre, post, rfl, -, hpost⟩ :=
      failsAfter_unclosed (fun t ht => hplainQ t (List.mem_append_right _ ht)) hinner
    cases hpost with
    | token hfault => exact hfault.leavesTerm
    | eigenvariable _ _ => rfl
    | @function lexeme label arity positive note ts rest'' args error hargs happly =>
      -- In the term the same arguments follow the function, and they are as many as it takes.
      obtain ⟨s, rfl⟩ := hq
      have happlied := h.applied hplain
      rw [List.append_assoc, List.append_assoc, List.cons_append] at happlied
      obtain ⟨args', rest₁, hread, harity⟩ := happlied.of_append.of_append.1 arity rfl
      have hsame : parenthesised (list basicTerm) (ts ++ (s ++ rest)) =
          .ok args (rest'' ++ (s ++ rest)) :=
        parenthesised_append .basic hargs fun t ht => hplainQ t (by simp [ht])
      rw [List.append_assoc] at hread
      obtain rfl : args = args' := by
        have heq := hsame.symm.trans hread
        cases heq
        rfl
      exact absurd (by exact_mod_cast harity) (applied_isArgumentCount happly).2
    | predicate _ _ =>
      have hfalse := hlogical _ (List.mem_append_right us (List.mem_append_right pre
        List.mem_cons_self))
      cases hfalse

/-- An operand that starts like a term is an infix predicate if the first attempt at a parenthesis
fails, and not for good. -/
theorem operand_eq_infixPredicate {t : Token} (ht : t.isLogical = false)
    (hattempt : ∃ failure rest', parenthesised (Reader.formula Level.whole) (t :: ts) =
      .error failure rest' ∧ Level.leavesTerm failure = true) :
    Reader.operand (t :: ts) = infixPredicate (t :: ts) := by
  rw [operand_of_not_logical ht, basicFormula_of_not_logical ht]
  cases hopens : opensWith "(" (t :: ts) with
  | false => rfl
  | true =>
    obtain ⟨failure, rest', hread, hleaves⟩ := hattempt
    simp only [if_true, Level.formulaElseTerm, hread, hleaves]

/-- A term in parentheses that is cut short is not closed. -/
theorem missing_basicTerm {form : Form} {us : List Token} (hopen : Opening form us)
    (hus : ∀ t ∈ us, t.Plain) (h : ReachesEnd (Reader.term Level.whole q)) :
    Missing (basicTerm (us ++ q)) := by
  rw [basicTerm_of_opening hopen hus, parenthesised_of_opening hopen]
  exact h.bind_missing fun a => (missing_close_nil form).bind _

end Attempts

/-! ## Parts of formulas -/

section Formulas

variable {u q rest : List Token} {tree : Tree}

/-- Before the first logical token of a formula its tokens are read as part of a term. -/
theorem FormulaDerivation.reachesEnd_term {p : FormulaPhrase}
    (h : FormulaDerivation p u tree rest) (hplain : ∀ t ∈ u, t.Plain) (hq : q <+: u)
    (hleft : ¬ EndsWith leftWord q) (hlogical : ∀ t ∈ q, t.isLogical = false) :
    ReachesEnd (Reader.term Level.whole q) := by
  have hnil : ReachesEnd (Reader.term Level.whole []) := Or.inr ⟨none, [], rfl⟩
  have hhead : ∀ {q : List Token} {x : Token} {v : List Token}, (∀ t ∈ q, t.isLogical = false) →
      x.isLogical = true → q <+: x :: v → ReachesEnd (Reader.term Level.whole q) := by
    intro q x v hlogical hx hq
    rcases List.prefix_cons_iff.1 hq with rfl | ⟨q', rfl, -⟩
    · exact hnil
    · rw [hlogical x List.mem_cons_self] at hx
      cases hx
  induction h generalizing q with
  | @formula m u v rest first tree hfirst _ ihfirst _ =>
    rw [List.forall_mem_append] at hplain
    rcases prefix_append_cases hq with hu | ⟨q', rfl, -⟩
    · exact ihfirst hplain.1 hu hleft hlogical
    · obtain ⟨t, ht, htrue⟩ := hfirst.exists_logical nofun
      rw [hlogical t (List.mem_append_left _ ht)] at htrue
      cases htrue
  | stop _ =>
    obtain rfl := List.prefix_nil.1 hq
    exact hnil
  | step hop _ _ _ _ _ =>
    obtain ⟨lexeme, precedence, side, rfl⟩ := Token.infixConnective?_eq_some hop
    exact hhead hlogical rfl hq
  | before _ _ => exact hhead hlogical rfl hq
  | quantified _ _ _ _ => exact hhead hlogical rfl hq
  | basicOperand _ ih => exact ih hplain hq hleft hlogical
  | metavariable _ => exact hhead hlogical rfl hq
  | constant => exact hhead hlogical rfl hq
  | predicate _ _ _ _ => exact hhead hlogical rfl hq
  | @parens form us u vs rest tree hopen hclose hinside ih =>
    rw [List.forall_mem_append, List.forall_mem_append] at hplain
    rcases hopen.prefix_cases hq hleft with rfl | ⟨q', rfl, hq'⟩
    · exact hnil
    rcases prefix_append_cases hq' with hu | ⟨q'', rfl, -⟩
    · have hinner := ih hplain.2.1 hu (not_endsWith_of_append hleft)
        (List.forall_mem_append.1 hlogical).2
      rw [term_eq]
      exact Or.inr ((missing_basicTerm hopen hplain.1 hinner).bind _)
    · obtain ⟨t, ht, htrue⟩ := hinside.exists_logical nofun
      rw [hlogical t (List.mem_append_right _ (List.mem_append_left _ ht))] at htrue
      cases htrue
  | @comparison lexeme label u v rest left right hterm hright =>
    rw [List.forall_mem_append] at hplain
    rcases prefix_append_cons_cases hq with hu | ⟨q', rfl, -⟩
    · exact hterm.endsAt hplain.1 hu hleft
    · have hfalse := hlogical _ (List.mem_append_right u List.mem_cons_self)
      cases hfalse

/-- The reader of a phrase answers as on tokens that are cut short. -/
def FormulaPhrase.CutAt : FormulaPhrase → List Token → Prop
  | formula m, q => CutShort q (Reader.formula m q)
  | more m left, q => CutShort q (infixRest Token.infixConnective? Reader.formula m left q)
  | operand, q => CutShort q (Reader.operand q)
  | basic, q => CutShort q (Reader.operand q)

/-- A phrase that is whole is read to the end. -/
theorem FormulaDerivation.cutAt_whole {p : FormulaPhrase} (h : FormulaDerivation p u tree rest)
    (hplain : ∀ t ∈ u, t.Plain) : p.CutAt u := by
  have hno : ∀ t, ¬ Interrupted t u := fun _ => (h.balanced hplain).not_interrupted
  have hreads := (h.truncate (List.nil_prefix (l := rest))).reads (by rwa [List.append_nil])
  rw [List.append_nil] at hreads
  cases p with
  | formula m => exact ReachesEnd.cutShort (Or.inl ⟨tree, hreads⟩) hno
  | more m left => exact ReachesEnd.cutShort (Or.inl ⟨tree, hreads⟩) hno
  | operand => exact ReachesEnd.cutShort (Or.inl ⟨tree, hreads⟩) hno
  | basic => exact ReachesEnd.cutShort (Or.inl ⟨tree, hreads.2⟩) hno

theorem missing_formula (m : Threshold) : Missing (Reader.formula m []) := by
  have hoperand : Missing (Reader.operand []) := missing_fail none
  rw [formula_eq]
  exact hoperand.bind _

/-- What stands in parentheses is not logical if what is inside is not. -/
theorem not_logical_of_parens {form : Form} {us vs : List Token} (hopen : Opening form us)
    (hclose : Closing form vs) (hplain : ∀ t ∈ us ++ (u ++ vs), t.Plain)
    (hu : ∀ t ∈ u, t.isLogical = false) : ∀ t ∈ us ++ (u ++ vs), t.isLogical = false := by
  rw [List.forall_mem_append, List.forall_mem_append] at hplain ⊢
  exact ⟨not_logical_of_delimiters hplain.1 hopen.mem_delimiters, hu,
    not_logical_of_delimiters hplain.2.2 hclose.mem_delimiters⟩

/-- The tokens of a metavariable after its letter are not logical. -/
theorem not_logical_of_metavariable {letter : MetaLetter}
    (h : Reader.metavariable letter (u ++ rest) = .ok tree rest) (hplain : ∀ t ∈ u, t.Plain) :
    ∀ t ∈ u, t.isLogical = false := by
  obtain ⟨v, w, name, declared, rfl, hname, hdeclared, rfl⟩ := metavariable_parts h
  have hparts := List.forall_mem_append.1 hplain
  refine List.forall_mem_append.2 ⟨fun t ht => ?_, ?_⟩
  · exact (nameParts_of_withSubscript hname t ht).isLogical (hparts.1 t ht)
  · cases hdeclared with
    | none _ => simp
    | @group form us u vs _ _ hopen hclose hnames =>
      refine not_logical_of_parens hopen hclose hparts.2 fun t ht => ?_
      have ht' : t.Plain :=
        hparts.2 t (List.mem_append_right _ (List.mem_append_left _ ht))
      rcases hnames.nameParts t ht with hpart | hcomma
      · exact hpart.isLogical ht'
      · exact (ht'.isBare (by simp [hcomma, delimiters])).isLogical

/-- A group that is cut short: the first attempt fails, and what the second one does depends on
whether a logical token has been met. -/
theorem cutShort_group {form : Form} {us vs : List Token} (hopen : Opening form us)
    (hclose : Closing form vs)
    (hinside : FormulaDerivation (.formula Level.whole) u tree (vs ++ rest))
    (ih : ∀ q, q <+: u → ¬ EndsWith leftWord q → CutShort q (Reader.formula Level.whole q))
    (hplain : ∀ t ∈ us ++ (u ++ vs), t.Plain) (hq : q <+: u ++ vs) (hne : q ≠ u ++ vs)
    (hleft : ¬ EndsWith leftWord q) : CutShort (us ++ q) (Reader.operand (us ++ q)) := by
  have hgroup := (List.forall_mem_append.1 hplain).2
  rw [List.forall_mem_append, List.forall_mem_append] at hplain
  obtain ⟨hplainUs, hplainU, -⟩ := hplain
  have hattempt : ∃ failure rest', parenthesised (Reader.formula Level.whole) (us ++ q) =
      .error failure rest' ∧ IsTokenFault failure := by
    rw [parenthesised_of_opening hopen]
    rcases prefix_append_cases hq with hu | ⟨q', rfl, hvs⟩
    · rcases (ih q hu hleft).cases with ⟨tree', hread⟩ | ⟨failure, rest', hread, hfault⟩
      · obtain ⟨expected, rest', hmissing⟩ := missing_close_nil form
        exact ⟨.fault (.unexpectedEnd expected), rest',
          by rw [bind_of_eq_ok hread, bind_of_eq_error hmissing], trivial⟩
      · exact ⟨failure, rest', bind_of_eq_error hread, hfault⟩
    · have hread : Reader.formula Level.whole (u ++ q') = .ok tree q' :=
        (hinside.truncate (hvs.trans (List.prefix_append vs rest))).reads
          fun t ht => hgroup t (hq.mem ht)
      obtain ⟨expected, rest', hmissing⟩ := missing_close hclose hvs fun heq => hne (by rw [heq])
      exact ⟨.fault (.unexpectedEnd expected), rest',
        by rw [bind_of_eq_ok hread, bind_of_eq_error hmissing], trivial⟩
  obtain ⟨failure, rest', hattempt, hfault⟩ := hattempt
  rw [operand_of_opening hopen hplainUs,
    basicFormula_of_attempt hopen hplainUs hattempt hfault.leavesTerm]
  have hunclosed := unclosed_of_isPrefix (hinside.balanced hplainU) hclose hq hne
  have hlogical := hinside.exists_logical nofun
  constructor
  · intro t ht
    obtain ⟨w, r, hfirst⟩ := (interrupted_opening_iff hopen hunclosed).1 ht
    -- The first logical token of the part is the one of the whole group.
    obtain ⟨s, hs⟩ := hq
    have hwhole : FirstLogical (u ++ vs) w t (r ++ s) :=
      ⟨by rw [← hs, hfirst.eq_append, List.append_assoc, List.cons_append], hfirst.before,
        hfirst.logical⟩
    obtain ⟨r', -, hu⟩ := hwhole.of_append_left hlogical
    rw [hfirst.eq_append]
    exact infixPredicate_of_stopsTerm hopen hplainUs hfirst.logical (hplainU t hu.mem)
      (hinside.stopsTerm hplainU hu) r
  · intro hno
    have hnone : ∀ t ∈ q, t.isLogical = false := by
      intro t ht
      by_contra htrue
      obtain ⟨w, t', r, hfirst⟩ := FirstLogical.exists_of_mem ⟨t, ht, by simpa using htrue⟩
      exact hno t' ((interrupted_opening_iff hopen hunclosed).2 ⟨w, r, hfirst⟩)
    rcases prefix_append_cases hq with hu | ⟨q', rfl, -⟩
    · have hterm := hinside.reachesEnd_term hplainU hu hleft hnone
      rw [infixPredicate_eq, term_eq]
      exact Or.inr (((missing_basicTerm hopen hplainUs hterm).bind _).bind _)
    · obtain ⟨t, ht, htrue⟩ := hlogical
      rw [hnone t (List.mem_append_left _ ht)] at htrue
      cases htrue

/-- The bound variable and the scope of a quantifier that are cut short. -/
theorem cutShort_quantified {lexeme : Lexeme} {label bound : String} {v : List Token}
    (hname : VariableSpelled (u ++ (v ++ rest)) bound (v ++ rest))
    (heigen : isEigenvariable bound = false)
    (ih : ∀ q, q <+: v → ¬ EndsWith leftWord q →
      CutShort q (Reader.formula Threshold.unreachable q))
    (hplain : ∀ t ∈ .known lexeme (.quantifier label) :: (u ++ v), t.Plain) (hq : q <+: u ++ v)
    (hleft : ¬ EndsWith leftWord q) :
    CutShort (.known lexeme (.quantifier label) :: q)
      (Reader.operand (.known lexeme (.quantifier label) :: q)) := by
  rw [List.forall_mem_cons, List.forall_mem_append] at hplain
  have hu : ∀ t ∈ u, t.NamePart := hname.nameParts
  rw [operand_quantified]
  refine CutShort.cons hplain.1.notMem_parenTexts ?_
  rcases prefix_append_cases hq with hpre | ⟨q', rfl, hv⟩
  · -- A variable that is cut short has the same class, and its scope is missing.
    refine ReachesEnd.cutShort (Or.inr ?_) fun _ => not_interrupted_of_forall fun t ht =>
      (hu t (hpre.mem ht)).isLogical (hplain.2.1 t (hpre.mem ht))
    rcases variableName_of_isPrefix hname hpre with hmissing | ⟨bound', hread, hclass⟩
    · exact hmissing.bind _
    · rw [bind_of_eq_ok hread]
      simp only [hclass, heigen, Bool.false_eq_true, if_false]
      exact (missing_formula _).bind _
  · have hread := variableName_eq_ok_iff.2 (hname.truncate (hv.trans (List.prefix_append v rest)))
    rw [bind_of_eq_ok hread]
    simp only [heigen, Bool.false_eq_true, if_false]
    exact CutShort.append (balanced_of_nameParts hu) (CutShort.bind
      (ih q' hv (not_endsWith_of_append hleft)) fun scope => reachesEnd_pure _)

/-- The arguments of a predicate that are cut short. -/
theorem cutShort_predicate {symbol label : String} {arity : Nat} {form : Form}
    {us vs : List Token} {args : List Tree} (hopen : Opening form us) (hclose : Closing form vs)
    (hargs : TermDerivation (.arguments .full label []) u (.node label args) (vs ++ rest))
    (hplain : ∀ t ∈ us ++ (u ++ vs), t.Plain) (hq : q <+: us ++ (u ++ vs))
    (hne : q ≠ us ++ (u ++ vs)) (hleft : ¬ EndsWith leftWord q) :
    CutShort q (Level.application symbol label arity (Reader.term Level.whole) q) := by
  have hplainU : ∀ t ∈ u, t.Plain := fun t ht =>
    hplain t (List.mem_append_right _ (List.mem_append_left _ ht))
  have hmissing : Missing (parenthesised (list (Reader.term Level.whole)) q) := by
    refine missing_parenthesised hopen hclose (fun q hq hleft => hargs.endsAt hplainU hq hleft) ?_
      hq hne hleft
    intro rest' hrest'
    obtain ⟨args', hread, -⟩ :=
      (hargs.truncate (hrest'.trans (List.prefix_append vs rest))).reads hplainU
    exact ⟨args', hread⟩
  refine ReachesEnd.cutShort (Or.inr (hmissing.bind _)) fun _ =>
    not_interrupted_of_forall fun t ht => ?_
  exact not_logical_of_parens hopen hclose hplain (hargs.not_logical hplainU) t (hq.mem ht)

/-- An infix predicate that is cut short. -/
theorem cutShort_comparison {lexeme : Lexeme} {label : String} {v : List Token} {left right : Tree}
    (hterm : TermDerivation (.term Level.whole) u left
      (.known lexeme (.predicate label .infixOp) :: (v ++ rest)))
    (hright : TermDerivation (.term Level.whole) v right rest)
    (hplain : ∀ t ∈ u ++ .known lexeme (.predicate label .infixOp) :: v, t.Plain)
    (hq : q <+: u ++ .known lexeme (.predicate label .infixOp) :: v)
    (hleft : ¬ EndsWith leftWord q) : CutShort q (Reader.operand q) := by
  rw [List.forall_mem_append, List.forall_mem_cons] at hplain
  obtain ⟨hplainU, hplainT, hplainV⟩ := hplain
  have hlogical := hterm.not_logical hplainU
  rcases prefix_append_cons_cases hq with hu | ⟨q', rfl, hv⟩
  · -- The predicate is missing, if not part of its left term.
    refine ReachesEnd.cutShort (Or.inr ?_) fun _ =>
      not_interrupted_of_forall fun t ht => hlogical t (hu.mem ht)
    cases q with
    | nil => exact missing_fail none
    | cons t q =>
      rw [operand_eq_infixPredicate (hlogical t (hu.mem List.mem_cons_self))
        (hterm.attempt_fails hplainU hu), infixPredicate_eq]
      exact ReachesEnd.bind_missing (hterm.endsAt hplainU hu hleft) fun left => missing_next.bind _
  · have hparts : ∀ t ∈ u ++ .known lexeme (.predicate label .infixOp) :: q', t.Plain :=
      List.forall_mem_append.2 ⟨hplainU, List.forall_mem_cons.2
        ⟨hplainT, fun t ht => hplainV t (hv.mem ht)⟩⟩
    have hread : Reader.term Level.whole (u ++ .known lexeme (.predicate label .infixOp) :: q') =
        .ok left (.known lexeme (.predicate label .infixOp) :: q') :=
      (hterm.truncate (List.cons_prefix_cons.2 ⟨rfl, hv.trans (List.prefix_append v rest)⟩)).reads
        hplainU
    refine CutShort.append (hterm.balanced hplainU) (CutShort.cons hplainT.notMem_parenTexts
      (ReachesEnd.cutShort ?_ fun _ => not_interrupted_of_forall fun t ht =>
        hright.not_logical hplainV t (hv.mem ht)))
    have hpredicate : Reader.operand (u ++ .known lexeme (.predicate label .infixOp) :: q') =
        infixPredicate (u ++ .known lexeme (.predicate label .infixOp) :: q') := by
      obtain ⟨t, us, rfl, ht⟩ := hterm.exists_head hplainU
      refine operand_eq_infixPredicate ht ?_
      rw [List.cons_append] at hread hparts
      cases hattempt : parenthesised (Reader.formula Level.whole)
          (t :: (us ++ .known lexeme (.predicate label .infixOp) :: q')) with
      | ok tree' rest' => exact absurd hread (not_term_of_formula hparts hattempt _ _ _)
      | error failure rest' =>
        exact ⟨failure, rest', rfl, leavesTerm_of_term hparts hread hattempt⟩
    rw [hpredicate, infixPredicate_eq, bind_of_eq_ok hread, bind_of_eq_ok (next_eq_ok_iff.2 rfl)]
    have hleft' := not_endsWith_of_cons (not_endsWith_of_append hleft)
    exact ReachesEnd.bind (hright.endsAt hplainV hv hleft') fun right => reachesEnd_pure _

/-- On the first tokens of a part of a formula its reader answers as on tokens that are cut
short. -/
theorem FormulaDerivation.cutAt {p : FormulaPhrase} (h : FormulaDerivation p u tree rest)
    (hplain : ∀ t ∈ u, t.Plain) (hq : q <+: u) (hleft : ¬ EndsWith leftWord q) : p.CutAt q := by
  have hoperand : CutShort [] (Reader.operand []) := Missing.cutShort_nil (missing_fail none)
  induction h generalizing q with
  | @formula m u v rest first tree hfirst hmore ihfirst ihmore =>
    rw [List.forall_mem_append] at hplain
    show CutShort q (Reader.formula m q)
    rw [formula_eq]
    rcases prefix_append_cases hq with hu | ⟨q', rfl, hv⟩
    · exact CutShort.bind (ihfirst hplain.1 hu hleft) reachesEnd_infixRest
    · have hread : Reader.operand (u ++ q') = .ok first q' :=
        (hfirst.truncate (hv.trans (List.prefix_append v rest))).reads
          (List.forall_mem_append.2 ⟨hplain.1, fun t ht => hplain.2 t (hv.mem ht)⟩)
      rw [bind_of_eq_ok hread]
      exact CutShort.append (hfirst.balanced hplain.1)
        (ihmore hplain.2 hv (not_endsWith_of_append hleft))
  | stop _ =>
    obtain rfl := List.prefix_nil.1 hq
    exact ReachesEnd.cutShort (reachesEnd_infixRest _) fun _ => not_interrupted_of_forall (by simp)
  | @step m t op u v rest left right tree hop hadmits hright hmore ihright ihmore =>
    have hplain' := hplain
    rw [List.forall_mem_cons, List.forall_mem_append] at hplain
    rcases List.prefix_cons_iff.1 hq with rfl | ⟨q', rfl, hq'⟩
    · exact ReachesEnd.cutShort (reachesEnd_infixRest left) fun _ =>
        not_interrupted_of_forall (by simp)
    obtain ⟨lexeme, precedence, side, rfl⟩ := Token.infixConnective?_eq_some hop
    show CutShort _ (infixRest Token.infixConnective? Reader.formula m left (_ :: q'))
    rw [infixRest_of_some forward_formula (continuing?_of_admits hop hadmits q')]
    have hleft' := not_endsWith_of_cons hleft
    refine CutShort.cons hplain.1.notMem_parenTexts ?_
    rcases prefix_append_cases hq' with hu | ⟨q'', rfl, hv⟩
    · exact CutShort.bind (ihright hplain.2.1 hu hleft') fun right => reachesEnd_infixRest _
    · have hread : Reader.formula (.power op.rightPower) (u ++ q'') = .ok right q'' :=
        (hright.truncate (hv.trans (List.prefix_append v rest))).reads
          (List.forall_mem_append.2 ⟨hplain.2.1, fun t ht => hplain.2.2 t (hv.mem ht)⟩)
      rw [bind_of_eq_ok hread]
      exact CutShort.append (hright.balanced hplain.2.1)
        (ihmore hplain.2.2 hv (not_endsWith_of_append hleft'))
  | @before lexeme label precedence note u rest argument _ ih =>
    rw [List.forall_mem_cons] at hplain
    rcases List.prefix_cons_iff.1 hq with rfl | ⟨q', rfl, hq'⟩
    · exact hoperand
    show CutShort _ (Reader.operand (_ :: q'))
    rw [operand_before]
    refine CutShort.cons hplain.1.notMem_parenTexts ?_
    exact CutShort.bind (ih hplain.2 hq' (not_endsWith_of_cons hleft)) fun argument =>
      reachesEnd_pure _
  | @quantified lexeme label bound u v rest scope hname heigen _ ih =>
    rcases List.prefix_cons_iff.1 hq with rfl | ⟨q', rfl, hq'⟩
    · exact hoperand
    have hscope : ∀ t ∈ v, t.Plain := fun t ht =>
      hplain t (List.mem_cons_of_mem _ (List.mem_append_right _ ht))
    exact cutShort_quantified hname heigen (fun q hq hleft => ih hscope hq hleft) hplain hq'
      (not_endsWith_of_cons hleft)
  | basicOperand _ ih => exact ih hplain hq hleft
  | @metavariable letter u rest tree hread =>
    rw [List.forall_mem_cons] at hplain
    rcases List.prefix_cons_iff.1 hq with rfl | ⟨q', rfl, hq'⟩
    · exact hoperand
    refine CutShort.cons (written_metavariable_notMem letter) (ReachesEnd.cutShort
      (reachesEnd_metavariable hread hq' (not_endsWith_of_cons hleft)) fun _ =>
      not_interrupted_of_forall fun t ht => ?_)
    exact not_logical_of_metavariable hread hplain.2 t (hq'.mem ht)
  | @constant lexeme label precedence note rest =>
    rcases List.prefix_cons_iff.1 hq with rfl | ⟨q', rfl, hq'⟩
    · exact hoperand
    · obtain rfl := List.prefix_nil.1 hq'
      have hwhole : FormulaDerivation .basic
          [.known lexeme (.connective label (.nullary precedence note))] (.atom label) rest :=
        .constant
      exact hwhole.cutAt_whole hplain
  | @predicate lexeme label arity positive form us u vs rest args hopen hclose hargs harity =>
    rcases List.prefix_cons_iff.1 hq with rfl | ⟨q', rfl, hq'⟩
    · exact hoperand
    by_cases hne : q' = us ++ (u ++ vs)
    · rw [hne]
      exact (FormulaDerivation.predicate hopen hclose hargs harity).cutAt_whole hplain
    rw [List.forall_mem_cons] at hplain
    exact CutShort.cons hplain.1.notMem_parenTexts
      (cutShort_predicate hopen hclose hargs hplain.2 hq' hne (not_endsWith_of_cons hleft))
  | @parens form us u vs rest tree hopen hclose hinside ih =>
    by_cases hne : q = us ++ (u ++ vs)
    · exact hne ▸ (FormulaDerivation.parens hopen hclose hinside).cutAt_whole hplain
    rcases hopen.prefix_cases hq hleft with rfl | ⟨q', rfl, hq'⟩
    · exact hoperand
    have hinsidePlain : ∀ t ∈ u, t.Plain := fun t ht =>
      hplain t (List.mem_append_right _ (List.mem_append_left _ ht))
    exact cutShort_group hopen hclose hinside (fun q hq hleft => ih hinsidePlain hq hleft) hplain hq'
      (fun heq => hne (by rw [heq])) (not_endsWith_of_append hleft)
  | comparison hterm hright => exact cutShort_comparison hterm hright hplain hq hleft

end Formulas

section Lexemes

open Lexeme (tokens)

/-- A formula that is cut short anywhere but after the word that opens the long form of a
parenthesis is answered by what is missing, or is a formula as far as it goes; only where a
parenthesis with a logical token behind it stays open the first such token is blamed instead. -/
theorem formula_of_isPrefix {table : Table} (htable : table.KeepsDelimiters) {m : Threshold}
    {pre post : List Lexeme} {tree : Tree}
    (h : Reader.formula m (tokens table (pre ++ post)) = .ok tree [])
    (hleft : ¬ EndsWith leftWord (tokens table pre)) :
    CutShort (tokens table pre) (Reader.formula m (tokens table pre)) := by
  obtain ⟨u, heq, hu⟩ := FormulaDerivation.of_formula h
  rw [List.append_nil] at heq
  have hplain : ∀ t ∈ u, t.Plain := heq ▸ plain_tokens htable (pre ++ post)
  have hpre : tokens table pre <+: u := by
    rw [← heq, tokens_append]
    exact List.prefix_append _ _
  exact hu.cutAt hplain hpre hleft

/-- Of `(\\phi)` without its last parenthesis the metavariable is blamed. -/
theorem formula_of_isPrefix_phi : ∃ expected rest,
    Reader.formula Level.whole (tokens Table.standard [.char '(', .control "phi"]) =
      .error (.fault (.badToken "\\phi" expected)) rest := by
  have hread : Reader.formula Level.whole
      (tokens Table.standard ([.char '(', .control "phi"] ++ [.char ')'])) =
      .ok (.metavar "phi" []) [] := by rfl
  have hleft : ¬ EndsWith leftWord (tokens Table.standard [.char '(', .control "phi"]) := by
    rw [EndsWith]
    decide
  have hphi : Unclosed (tokens Table.standard [.control "phi"]) :=
    (balanced_nil.cons (by decide) (by decide)).unclosed
  have hinterrupted : Interrupted (.metavariable .phi)
      (tokens Table.standard [.char '(', .control "phi"]) :=
    ⟨[], .char '(', tokens Table.standard [.control "phi"], [], [], rfl, balanced_nil, rfl, hphi,
      rfl, by simp, rfl⟩
  exact (formula_of_isPrefix Table.standard_keepsDelimiters hread hleft).blames _ hinterrupted

/-- A formula that is cut short is not always answered by what is missing. -/
theorem not_reachesEnd_of_isPrefix :
    ¬ ∀ table : Table, table.KeepsDelimiters → ∀ (m : Threshold) (pre post : List Lexeme)
      (tree : Tree), Reader.formula m (tokens table (pre ++ post)) = .ok tree [] → pre ≠ [] →
      post ≠ [] → ¬ EndsWith leftWord (tokens table pre) →
      (∃ tree' rest, Reader.formula m (tokens table pre) = .ok tree' rest) ∨
        ∃ expected rest, Reader.formula m (tokens table pre) =
          .error (.fault (.unexpectedEnd expected)) rest := by
  intro h
  have hread : Reader.formula Level.whole (tokens Table.standard [.char '(', .control "phi"]) =
      .error (.fault (.badToken "\\phi" none)) [] := by rfl
  have hleft : ¬ EndsWith leftWord (tokens Table.standard [.char '(', .control "phi"]) := by
    rw [EndsWith]
    decide
  rcases h Table.standard Table.standard_keepsDelimiters Level.whole [.char '(', .control "phi"]
    [.char ')'] (.metavar "phi" []) rfl (by simp) (by simp) hleft with
    ⟨tree', rest, hok⟩ | ⟨expected, rest, hmissing⟩
  · rw [hread] at hok
    cases hok
  · rw [hread] at hmissing
    cases hmissing

end Lexemes

end LatexLogic
