import LatexLogic.Proofs.Grammar.Group

/-!
# Terms are read as they are derived

Where delimiters keep their meaning a term can be read in one way only: every derivation of a term
is what the reader of terms finds at that place (`TermDerivation.reads`). In particular each prefix
function among the tokens of a term stands in front of as many arguments as it takes
(`TermDerivation.applied`), and no token of a term has a meaning that only formulas have
(`TermDerivation.not_logical`), of which every formula has one (`FormulaDerivation.exists_logical`).
-/

set_option autoImplicit false

namespace LatexLogic

open Reader

/-! ## Parentheses -/

/-- A token without a meaning of its own: a character or a word that the table does not know. -/
def Token.IsBare (t : Token) : Prop :=
  (∃ c, t = .char c) ∨ ∃ name, t = .unrecognized name

theorem Token.Plain.isBare {t : Token} (h : t.Plain) (hmem : t.written ∈ delimiters) :
    t.IsBare := by
  have hnone := h hmem
  cases t with
  | known lexeme c => cases hnone
  | metavariable letter => cases letter <;> exact absurd hmem (by decide)
  | char c => exact Or.inl ⟨c, rfl⟩
  | unrecognized name => exact Or.inr ⟨name, rfl⟩

theorem Reader.Opening.exists_bare {form : Form} {us : List Token} (h : Opening form us)
    (hplain : ∀ t ∈ us, t.Plain) : ∃ t us', us = t :: us' ∧ t.IsBare := by
  cases h with
  | short ho =>
    exact ⟨_, [], rfl, (hplain _ List.mem_cons_self).isBare (by simp [ho, delimiters])⟩
  | long hl ho =>
    exact ⟨_, [_], rfl, (hplain _ List.mem_cons_self).isBare (by simp [hl, delimiters])⟩

/-- A term that starts with a parenthesis is read inside it. -/
theorem basicTerm_of_opening {form : Form} {us : List Token} (h : Opening form us)
    (hplain : ∀ t ∈ us, t.Plain) (inside : List Token) :
    basicTerm (us ++ inside) = parenthesised (Reader.term Level.whole) (us ++ inside) := by
  have hopens := opensWith_iff.2 ⟨form, us, inside, h, rfl⟩
  obtain ⟨t, us', rfl, hbare⟩ := h.exists_bare hplain
  rw [List.cons_append] at hopens ⊢
  simp only [basicTerm_eq, Level.basicTermAbove, peek?_bind, List.head?_cons]
  rcases hbare with ⟨c, rfl⟩ | ⟨name, rfl⟩
  · simp only [get_bind, hopens, if_true]
    rfl
  · simp only [get_bind, hopens, if_true]
    rfl

/-- A letter opens no parenthesis. -/
theorem opensWith_of_isVariableLetter {c : Char} (hc : isVariableLetter c = true)
    (ts : List Token) : opensWith "(" (.char c :: ts) = false := by
  have hopen : (Token.char c).written ≠ "(" :=
    (Token.NamePart.written_ne (Or.inl ⟨c, rfl, Or.inl hc⟩)).1
  have hleft : (Token.char c).written ≠ leftWord := by
    intro heq
    have hlength := congrArg String.length heq
    rw [Token.written, Token.lexeme, Lexeme.written, String.length_singleton] at hlength
    exact absurd hlength (by decide)
  simp [opensWith, hopen, hleft]

theorem Reader.VariableSpelled.exists_letter {ts rest : List Token} {name : String}
    (h : VariableSpelled ts name rest) :
    ∃ c us, ts = .char c :: us ∧ isVariableLetter c = true := by
  cases h with
  | plain _ hc _ => exact ⟨_, _, rfl, hc⟩
  | subscripted _ hc _ => exact ⟨_, _, rfl, hc⟩

/-- A term that starts with a letter is a variable. -/
theorem basicTerm_of_letter {c : Char} (hc : isVariableLetter c = true) (ts : List Token) :
    basicTerm (.char c :: ts) = (variableName >>= fun v => pure (.atom v)) (.char c :: ts) := by
  simp only [basicTerm_eq, Level.basicTermAbove, peek?_bind, List.head?_cons, get_bind,
    opensWith_of_isVariableLetter hc, Bool.false_eq_true, if_false]

theorem basicTerm_of_spelled {ts rest : List Token} {name : String}
    (h : VariableSpelled ts name rest) : basicTerm ts = .ok (.atom name) rest := by
  have hread := variableName_eq_ok_iff.2 h
  obtain ⟨c, us, rfl, hc⟩ := h.exists_letter
  rw [basicTerm_of_letter hc, bind_of_eq_ok hread]
  rfl

/-- A term that starts with a prefix function is its application. -/
theorem basicTerm_of_function {lexeme : Lexeme} {label : String} {arity : Nat}
    {positive : 0 < arity} {note : Option Int} (ts : List Token) :
    basicTerm (.known lexeme (.function label (.prefixOp arity positive note)) :: ts) =
      Level.application lexeme.written label arity basicTerm ts :=
  congrFun basicTerm_eq _

/-! ## Derivations are read -/

/-- What the reader of a phrase answers. -/
def TermPhrase.Reads : TermPhrase → List Token → Tree → List Token → Prop
  | term m, ts, tree, rest => Reader.term m ts = .ok tree rest
  | more m left, ts, tree, rest =>
    infixRest Token.infixFunction? Reader.term m left ts = .ok tree rest
  | basic, ts, tree, rest => basicTerm ts = .ok tree rest
  | arguments kind label done, ts, tree, rest =>
    ∃ args, list kind.reader ts = .ok args rest ∧ tree = .node label (done ++ args)

theorem ArgumentKind.forward_reader (kind : ArgumentKind) : kind.reader.Forward := by
  cases kind with
  | full => exact forward_term _
  | basic => exact forward_basicTerm

theorem ArgumentKind.reads_phrase {kind : ArgumentKind} {ts rest : List Token} {tree : Tree} :
    kind.phrase.Reads ts tree rest ↔ kind.reader ts = .ok tree rest := by
  cases kind with
  | full => rfl
  | basic => rfl

theorem continuing?_of_admits {operator? : Token → Option InfixOperator} {m : Threshold} {t : Token}
    {op : InfixOperator} (hop : operator? t = some op) (hadmits : m.admits op.leftPower = true)
    (ts : List Token) : continuing? operator? m (t :: ts) = some op := by
  rw [continuing?_cons, hop, Option.filter_some, if_pos hadmits]

/-- Every derivation of a part of a term is read as such. -/
theorem TermDerivation.reads {p : TermPhrase} {u rest : List Token} {tree : Tree}
    (h : TermDerivation p u tree rest) (hplain : ∀ t ∈ u, t.Plain) :
    p.Reads (u ++ rest) tree rest := by
  induction h with
  | @term m u v rest first tree _ _ ihfirst ihmore =>
    rw [List.forall_mem_append] at hplain
    have hfirst : basicTerm (u ++ (v ++ rest)) = .ok first (v ++ rest) := ihfirst hplain.1
    show Reader.term m ((u ++ v) ++ rest) = _
    rw [List.append_assoc, term_eq, bind_of_eq_ok hfirst]
    exact ihmore hplain.2
  | stop hop => exact infixRest_of_none hop _
  | @step m t op u v rest left right tree hop hadmits _ _ ihright ihmore =>
    rw [List.forall_mem_cons, List.forall_mem_append] at hplain
    have hright : Reader.term (.power op.rightPower) (u ++ (v ++ rest)) = .ok right (v ++ rest) :=
      ihright hplain.2.1
    show infixRest Token.infixFunction? Reader.term m left (t :: ((u ++ v) ++ rest)) = _
    rw [List.append_assoc, infixRest_of_some forward_term (continuing?_of_admits hop hadmits _),
      bind_of_eq_ok hright]
    exact ihmore hplain.2.2
  | name hname => exact basicTerm_of_spelled hname
  | @parens form us u vs rest tree hopen hclose _ ih =>
    rw [List.forall_mem_append, List.forall_mem_append] at hplain
    have hinner : Reader.term Level.whole (u ++ (vs ++ rest)) = .ok tree (vs ++ rest) :=
      ih hplain.2.1
    show basicTerm ((us ++ (u ++ vs)) ++ rest) = _
    -- A parenthesis without a meaning of its own is neither a function nor a variable.
    rw [List.append_assoc, List.append_assoc, basicTerm_of_opening hopen hplain.1]
    exact parenthesised_eq_ok_iff.2 ⟨form, us, _, vs, hopen, hclose, rfl, hinner⟩
  | @application lexeme label arity positive note form us u vs rest args hopen hclose _ harity ih =>
    rw [List.forall_mem_cons, List.forall_mem_append, List.forall_mem_append] at hplain
    obtain ⟨args', hargs, hnode⟩ := ih hplain.2.2.1
    obtain rfl : args = args' := (Tree.node.inj hnode).2
    show basicTerm (_ :: ((us ++ (u ++ vs)) ++ rest)) = _
    rw [List.append_assoc, List.append_assoc, basicTerm_of_function, application_eq_ok_iff]
    have hread := parenthesised_eq_ok_iff.2 ⟨form, us, _, vs, hopen, hclose, rfl, hargs⟩
    exact ⟨args, hread, harity, rfl⟩
  | @last kind label done u rest arg _ hend ih =>
    exact ⟨[arg], list_of_end (ArgumentKind.reads_phrase.1 (ih hplain)) hend, rfl⟩
  | @comma kind label done t u v rest arg tree _ ht _ ih ihmore =>
    rw [List.forall_mem_append, List.forall_mem_cons] at hplain
    have harg := ArgumentKind.reads_phrase.1 (ih hplain.1)
    obtain ⟨args, hargs, rfl⟩ := ihmore hplain.2.2
    refine ⟨arg :: args, ?_, by rw [List.append_assoc, List.singleton_append]⟩
    rw [List.append_assoc, List.cons_append, list_of_comma kind.forward_reader harg ht,
      bind_of_eq_ok hargs]
    rfl

/-! ## Prefix functions -/

/-- The token is a prefix function, and this many arguments belong to it. -/
def Token.functionArity? : Token → Option Nat
  | .known _ (.function _ (.prefixOp arity _ _)) => some arity
  | _ => none

/-- Every prefix function among the tokens stands in front of its arguments in parentheses. -/
def Applied : List Token → List Token → Prop
  | [], _ => True
  | t :: us, rest =>
    (∀ arity, t.functionArity? = some arity → ∃ args rest',
      parenthesised (list basicTerm) (us ++ rest) = .ok args rest' ∧ args.length = arity) ∧
      Applied us rest

theorem Applied.append {u v rest : List Token} (hu : Applied u (v ++ rest)) (hv : Applied v rest) :
    Applied (u ++ v) rest := by
  induction u with
  | nil => exact hv
  | cons t u ih =>
    refine ⟨fun arity harity => ?_, ih hu.2⟩
    have hread := hu.1 arity harity
    rwa [← List.append_assoc] at hread

theorem Applied.of_append {u v rest : List Token} (h : Applied (u ++ v) rest) :
    Applied v rest := by
  induction u with
  | nil => exact h
  | cons t u ih => exact ih h.2

/-- Tokens among which there is no prefix function. -/
theorem applied_of_forall {u rest : List Token} (h : ∀ t ∈ u, t.functionArity? = none) :
    Applied u rest := by
  induction u with
  | nil => trivial
  | cons t u ih =>
    refine ⟨fun arity harity => ?_, ih fun t' ht' => h t' (List.mem_cons_of_mem _ ht')⟩
    rw [h t List.mem_cons_self] at harity
    cases harity

theorem Token.functionArity?_of_construct? {t : Token} (h : t.construct? = none) :
    t.functionArity? = none := by
  cases t with
  | known lexeme c => cases h
  | metavariable letter => rfl
  | char c => rfl
  | unrecognized name => rfl

theorem applied_of_delimiters {u rest : List Token} (hplain : ∀ t ∈ u, t.Plain)
    (h : ∀ t ∈ u, t.written ∈ delimiters) : Applied u rest :=
  applied_of_forall fun t ht => Token.functionArity?_of_construct? (hplain t ht (h t ht))

theorem Reader.Opening.mem_delimiters {form : Form} {us : List Token} (h : Opening form us) :
    ∀ t ∈ us, t.written ∈ delimiters := by
  cases h with
  | short ho => simp [ho, delimiters]
  | long hl ho => simp [hl, ho, delimiters]

theorem Reader.Closing.mem_delimiters {form : Form} {vs : List Token} (h : Closing form vs) :
    ∀ t ∈ vs, t.written ∈ delimiters := by
  cases h with
  | short hc => simp [hc, delimiters]
  | long hr hc => simp [hr, hc, delimiters]

/-- In a term every prefix function is applied to its arguments. -/
theorem TermDerivation.applied {p : TermPhrase} {u rest : List Token} {tree : Tree}
    (h : TermDerivation p u tree rest) (hplain : ∀ t ∈ u, t.Plain) : Applied u rest := by
  induction h with
  | term _ _ ihfirst ihmore =>
    rw [List.forall_mem_append] at hplain
    exact (ihfirst hplain.1).append (ihmore hplain.2)
  | stop _ => trivial
  | step hop _ _ _ ihright ihmore =>
    obtain ⟨lexeme, precedence, rfl, -⟩ := Token.infixFunction?_eq_some hop
    rw [List.forall_mem_cons, List.forall_mem_append] at hplain
    exact ⟨nofun, (ihright hplain.2.1).append (ihmore hplain.2.2)⟩
  | name hname =>
    refine applied_of_forall fun t ht => ?_
    exact Token.functionArity?_of_construct?
      ((hname.nameParts t ht).construct?_eq_none (hplain t ht))
  | parens hopen hclose _ ih =>
    rw [List.forall_mem_append, List.forall_mem_append] at hplain
    exact (applied_of_delimiters hplain.1 hopen.mem_delimiters).append
      ((ih hplain.2.1).append (applied_of_delimiters hplain.2.2 hclose.mem_delimiters))
  | @application lexeme label arity positive note form us u vs rest args hopen hclose hargs harity
      ih =>
    rw [List.forall_mem_cons, List.forall_mem_append, List.forall_mem_append] at hplain
    obtain ⟨-, hus, hu, hvs⟩ := hplain
    refine ⟨fun arity' harity' => ?_, ?_⟩
    · -- The function itself stands in front of the arguments of the derivation.
      obtain rfl : arity = arity' := Option.some.inj harity'
      obtain ⟨args', hread, hnode⟩ := hargs.reads hu
      obtain rfl : args = args' := (Tree.node.inj hnode).2
      refine ⟨args, rest, ?_, harity⟩
      rw [List.append_assoc, List.append_assoc]
      exact parenthesised_eq_ok_iff.2 ⟨form, us, _, vs, hopen, hclose, rfl, hread⟩
    · exact (applied_of_delimiters hus hopen.mem_delimiters).append
        ((ih hu).append (applied_of_delimiters hvs hclose.mem_delimiters))
  | last _ _ ih => exact ih hplain
  | @comma kind label done t u v rest arg tree _ ht _ ih ihmore =>
    rw [List.forall_mem_append, List.forall_mem_cons] at hplain
    have hnone := Token.functionArity?_of_construct? (hplain.2.1 (by simp [ht, delimiters]))
    exact (ih hplain.1).append ⟨by simp [hnone], ihmore hplain.2.2⟩

/-! ## Tokens of formulas -/

/-- The meanings that no token of a term has. -/
def Token.isLogical : Token → Bool
  | .metavariable _ => true
  | .known _ (.function _ _) => false
  | .known _ _ => true
  | .char _ => false
  | .unrecognized _ => false

theorem Token.IsBare.isLogical {t : Token} (h : t.IsBare) : t.isLogical = false := by
  rcases h with ⟨c, rfl⟩ | ⟨name, rfl⟩ <;> rfl

theorem not_logical_of_delimiters {us : List Token} (hplain : ∀ t ∈ us, t.Plain)
    (hmem : ∀ t ∈ us, t.written ∈ delimiters) : ∀ t ∈ us, t.isLogical = false :=
  fun t ht => ((hplain t ht).isBare (hmem t ht)).isLogical

theorem Token.NamePart.isLogical {t : Token} (h : t.NamePart) (hplain : t.Plain) :
    t.isLogical = false := by
  rcases h with ⟨c, rfl, -⟩ | hmem
  · rfl
  · refine (hplain.isBare ?_).isLogical
    simp only [List.mem_cons, List.not_mem_nil, or_false] at hmem
    simp only [delimiters, List.mem_cons, List.not_mem_nil, or_false]
    tauto

/-- No token of a term is logical. -/
theorem TermDerivation.not_logical {p : TermPhrase} {u rest : List Token} {tree : Tree}
    (h : TermDerivation p u tree rest) (hplain : ∀ t ∈ u, t.Plain) :
    ∀ t ∈ u, t.isLogical = false := by
  induction h with
  | term _ _ ihfirst ihmore =>
    rw [List.forall_mem_append] at hplain ⊢
    exact ⟨ihfirst hplain.1, ihmore hplain.2⟩
  | stop _ =>
    intro t ht
    exact absurd ht List.not_mem_nil
  | step hop _ _ _ ihright ihmore =>
    obtain ⟨lexeme, precedence, rfl, -⟩ := Token.infixFunction?_eq_some hop
    rw [List.forall_mem_cons, List.forall_mem_append] at hplain ⊢
    exact ⟨rfl, ihright hplain.2.1, ihmore hplain.2.2⟩
  | name hname => exact fun t ht => (hname.nameParts t ht).isLogical (hplain t ht)
  | parens hopen hclose _ ih =>
    rw [List.forall_mem_append, List.forall_mem_append] at hplain ⊢
    exact ⟨not_logical_of_delimiters hplain.1 hopen.mem_delimiters, ih hplain.2.1,
      not_logical_of_delimiters hplain.2.2 hclose.mem_delimiters⟩
  | application hopen hclose _ _ ih =>
    rw [List.forall_mem_cons, List.forall_mem_append, List.forall_mem_append] at hplain ⊢
    exact ⟨rfl, not_logical_of_delimiters hplain.2.1 hopen.mem_delimiters, ih hplain.2.2.1,
      not_logical_of_delimiters hplain.2.2.2 hclose.mem_delimiters⟩
  | last _ _ ih => exact ih hplain
  | @comma kind label done t u v rest arg tree _ ht _ ih ihmore =>
    rw [List.forall_mem_append, List.forall_mem_cons] at hplain ⊢
    exact ⟨ih hplain.1, (hplain.2.1.isBare (by simp [ht, delimiters])).isLogical,
      ihmore hplain.2.2⟩

/-- Some token of every formula is logical. A run of connectives need not have any. -/
theorem FormulaDerivation.exists_logical {p : FormulaPhrase} {u rest : List Token} {tree : Tree}
    (h : FormulaDerivation p u tree rest) (hp : ∀ m left, p ≠ .more m left) :
    ∃ t ∈ u, t.isLogical = true := by
  induction h with
  | formula _ _ ihfirst _ =>
    obtain ⟨t, ht, hlogical⟩ := ihfirst nofun
    exact ⟨t, List.mem_append_left _ ht, hlogical⟩
  | stop _ => exact absurd rfl (hp _ _)
  | step _ _ _ _ _ _ => exact absurd rfl (hp _ _)
  | before _ _ => exact ⟨_, List.mem_cons_self, rfl⟩
  | quantified _ _ _ _ => exact ⟨_, List.mem_cons_self, rfl⟩
  | basicOperand _ ih => exact ih nofun
  | metavariable _ => exact ⟨_, List.mem_cons_self, rfl⟩
  | constant => exact ⟨_, List.mem_cons_self, rfl⟩
  | predicate _ _ _ _ => exact ⟨_, List.mem_cons_self, rfl⟩
  | parens _ _ _ ih =>
    obtain ⟨t, ht, hlogical⟩ := ih nofun
    exact ⟨t, List.mem_append_right _ (List.mem_append_left _ ht), hlogical⟩
  | comparison _ _ => exact ⟨_, List.mem_append_right _ List.mem_cons_self, rfl⟩

end LatexLogic
