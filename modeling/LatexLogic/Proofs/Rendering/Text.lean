import LatexLogic.Proofs.Grammar.Balance
import LatexLogic.Proofs.Token.Layout

/-!
# Renderings

How a formula is written when nothing is left to precedence: the arguments of connectives, the
scopes of quantifiers and the operands of infix functions stand in parentheses, and subscripts stand
in braces. `FormulaText` relates a tree to the lexemes of its renderings, `IsRendering` to their
texts. A tree has many renderings, as constructs may have several spellings, parentheses two forms,
and blanks may stand between lexemes.

Every formula over constructs that can be written at all has a rendering (`exists_isRendering`). A
construct can be written if one of its spellings is a single character or a word that does not name
a metavariable (`Table.Live`).
-/

set_option autoImplicit false

namespace LatexLogic

open Reader

/-! ## Spellings -/

/-- Spellings that a text can contain: one character, or a word of letters that does not name a
metavariable. -/
def IsLiveSpelling (spelling : String) : Prop :=
  spelling.length = 1 ∨ (spelling ≠ "" ∧ spelling.toList.all isControlLetter = true ∧
    spelling ∉ ["phi", "psi", "chi"])

/-- The constructs of a table that can be written. -/
def Table.Live (table : Table) (c : Construct) : Prop :=
  ∃ spelling, table.get? spelling = some c ∧ IsLiveSpelling spelling

/-- The lexeme can stand in a text and means the construct. -/
structure Lexeme.Means (table : Table) (l : Lexeme) (c : Construct) : Prop where
  writable : l.Writable
  token_eq : Token.ofLexeme table l = .known l c

theorem ofName?_eq_none {name : String} (h : name ∉ ["phi", "psi", "chi"]) :
    MetaLetter.ofName? name = none := by
  cases hname : MetaLetter.ofName? name with
  | none => rfl
  | some letter =>
    rw [MetaLetter.ofName?_eq_some_iff] at hname
    subst hname
    cases letter <;> exact absurd h (by decide)

/-- A construct that can be written has a lexeme. -/
theorem Table.Live.exists_means {table : Table} {c : Construct} (h : table.Live c) :
    ∃ l : Lexeme, l.Means table c := by
  obtain ⟨spelling, hget, hlive⟩ := h
  have hcontrol : spelling ∉ ["phi", "psi", "chi"] →
      Token.ofLexeme table (.control spelling) = .known (.control spelling) c := by
    intro hname
    simp only [Token.ofLexeme, ofName?_eq_none hname, hget]
  rcases hlive with hlength | ⟨hne, hletters, hname⟩
  · obtain ⟨x, hx⟩ := List.length_eq_one_iff.1 (String.length_toList ▸ hlength)
    obtain rfl : spelling = String.singleton x := by
      rw [← String.toList_inj, hx, String.toList_singleton]
    by_cases hplain : x ≠ '\\' ∧ Text.isBlank x = false
    · exact ⟨.char x, .char hplain.1 hplain.2, by simp only [Token.ofLexeme, hget]⟩
    · -- A blank or a backslash is written after a backslash.
      have hletter : isControlLetter x = false := by
        by_cases hx : x = '\\'
        · rw [hx]
          decide
        · refine isControlLetter_of_isBlank ?_
          simpa [hx] using hplain
      refine ⟨.control (String.singleton x), .symbol hletter, hcontrol fun hmem => ?_⟩
      simp only [List.mem_cons, List.not_mem_nil, or_false] at hmem
      rcases hmem with hmem | hmem | hmem <;>
        exact absurd (congrArg String.length hmem) (by rw [String.length_singleton]; decide)
  · refine ⟨.control spelling, ?_, hcontrol hname⟩
    rw [← String.ofList_toList (s := spelling)]
    exact .word (by simpa using hne) (List.all_eq_true.1 hletters)

/-! ## Lexemes -/

namespace Lexeme

/-- The lexemes of an opening parenthesis. -/
def opening : Form → List Lexeme
  | .short => [.char '(']
  | .long => [.control "left", .char '(']

/-- The lexemes of a closing parenthesis. -/
def closing : Form → List Lexeme
  | .short => [.char ')']
  | .long => [.control "right", .char ')']

/-- Lexemes in parentheses. -/
def parens (form : Form) (us : List Lexeme) : List Lexeme :=
  opening form ++ (us ++ closing form)

/-- Lexemes with commas between them. -/
def commas : List (List Lexeme) → List Lexeme
  | [] => []
  | [us] => us
  | us :: uss => us ++ .char ',' :: commas uss

/-- What follows the letter of a name: a subscript in braces, or nothing. -/
def subscript : List Char → List Lexeme
  | '_' :: ds => .char '_' :: .char '\x7b' :: (ds.map .char ++ [.char '\x7d'])
  | _ => []

/-- The lexemes of a variable. -/
def ofVariable (name : String) : List Lexeme :=
  match name.toList with
  | [] => []
  | c :: part => .char c :: subscript part

/-- The lexemes of the variables that a metavariable is declared to have free. -/
def ofDeclaration (form : Form) (declared : List String) : List Lexeme :=
  if declared = [] then [] else parens form (commas (declared.map ofVariable))

end Lexeme

open Lexeme

section Texts

variable (table : Table)

/-- The lexemes of a term, or of one that can be the argument of a prefix function. -/
inductive TermText : ArgumentKind → Tree → List Lexeme → Prop where
  | name {v : String} : isVariable v = true → TermText .basic (.atom v) (ofVariable v)
  | application (form : Form) {l : Lexeme} {label : String} {arity : Nat} {positive : 0 < arity}
      {note : Option Int} {args : List Tree} {uss : List (List Lexeme)} :
      l.Means table (.function label (.prefixOp arity positive note)) → args.length = arity →
      uss.length = arity → (∀ p ∈ args.zip uss, TermText .basic p.1 p.2) →
      TermText .basic (.node label args) (l :: parens form (commas uss))
  | parens (form : Form) {t : Tree} {us : List Lexeme} :
      TermText .full t us → TermText .basic t (parens form us)
  | bare {t : Tree} {us : List Lexeme} : TermText .basic t us → TermText .full t us
  | operation (form form' : Form) {l : Lexeme} {label : String} {precedence : Int}
      {left right : Tree} {us vs : List Lexeme} :
      l.Means table (.function label (.infixOp precedence)) → TermText .full left us →
      TermText .full right vs →
      TermText .full (.node label [left, right]) (Lexeme.parens form us ++
        l :: Lexeme.parens form' vs)

/-- The lexemes of a formula in which nothing is left to precedence. -/
inductive FormulaText : Tree → List Lexeme → Prop where
  | metavariable (form : Form) {letter : MetaLetter} {part : List Char} {declared : List String} :
      isSubscriptPart part = true → (∀ v ∈ declared, isVariable v = true) →
      FormulaText (.metavar (letter.name ++ String.ofList part) declared)
        (.control letter.name :: (subscript part ++ ofDeclaration form declared))
  | constant {l : Lexeme} {label : String} {precedence : Option Int} {note : Data} :
      l.Means table (.connective label (.nullary precedence note)) → FormulaText (.atom label) [l]
  | before (form : Form) {l : Lexeme} {label : String} {precedence : Int} {note : Data}
      {argument : Tree} {us : List Lexeme} :
      l.Means table (.connective label (.prefixOp precedence note)) → FormulaText argument us →
      FormulaText (.node label [argument]) (l :: parens form us)
  | between (form form' : Form) {l : Lexeme} {label : String} {precedence : Int} {side : Side}
      {left right : Tree} {us vs : List Lexeme} :
      l.Means table (.connective label (.infixOp precedence side)) → FormulaText left us →
      FormulaText right vs →
      FormulaText (.node label [left, right]) (parens form us ++ l :: parens form' vs)
  | quantified (form : Form) {l : Lexeme} {label bound : String} {scope : Tree}
      {us : List Lexeme} :
      l.Means table (.quantifier label) → isOrdinaryVariable bound = true → FormulaText scope us →
      FormulaText (.node label [.atom bound, scope]) (l :: (ofVariable bound ++ parens form us))
  | predicate (form : Form) {l : Lexeme} {label : String} {arity : Nat} {positive : 0 < arity}
      {args : List Tree} {uss : List (List Lexeme)} :
      l.Means table (.predicate label (.prefixOp arity positive)) → args.length = arity →
      uss.length = arity → (∀ p ∈ args.zip uss, TermText table .full p.1 p.2) →
      FormulaText (.node label args) (l :: parens form (commas uss))
  | comparison {l : Lexeme} {label : String} {left right : Tree} {us vs : List Lexeme} :
      l.Means table (.predicate label .infixOp) → TermText table .full left us →
      TermText table .full right vs → FormulaText (.node label [left, right]) (us ++ l :: vs)

/-- The text is a rendering of the formula. -/
def IsRendering (tree : Tree) (text : String) : Prop :=
  ∃ ls, FormulaText table tree ls ∧ Layout ls text.toList

end Texts

/-! ## Writable lexemes -/

theorem writable_char {c : Char} (hc : 33 ≤ c.toNat ∧ c.toNat ≤ 126) (hne : c ≠ '\\') :
    (Lexeme.char c).Writable := by
  refine .char hne ?_
  obtain ⟨hlow, hhigh⟩ := hc
  simp only [Text.isBlank, Text.blankRanges, List.any_cons, List.any_nil, Bool.or_false,
    Bool.or_eq_false_iff, Bool.and_eq_false_iff, decide_eq_false_iff_not]
  omega

theorem writable_of_isVariableLetter {c : Char} (h : isVariableLetter c = true) :
    (Lexeme.char c).Writable := by
  simp only [isVariableLetter, Bool.and_eq_true, decide_eq_true_eq, Char.le_def,
    UInt32.le_iff_toNat_le] at h
  have ha : ('a').val.toNat = 97 := rfl
  have hz : ('z').val.toNat = 122 := rfl
  have hc : c.toNat = c.val.toNat := rfl
  refine writable_char ⟨by omega, by omega⟩ ?_
  rintro rfl
  exact absurd h.1 (by decide)

theorem writable_of_isDecimalDigit {d : Char} (h : isDecimalDigit d = true) :
    (Lexeme.char d).Writable := by
  simp only [isDecimalDigit, Bool.and_eq_true, decide_eq_true_eq, Char.le_def,
    UInt32.le_iff_toNat_le] at h
  have h0 : ('0').val.toNat = 48 := rfl
  have h9 : ('9').val.toNat = 57 := rfl
  have hd : d.toNat = d.val.toNat := rfl
  refine writable_char ⟨by omega, by omega⟩ ?_
  rintro rfl
  exact absurd h.2 (by decide)

theorem writable_word {name : String} (hne : name ≠ "")
    (h : name.toList.all isControlLetter = true) : (Lexeme.control name).Writable := by
  rw [← String.ofList_toList (s := name)]
  exact .word (by simpa using hne) (List.all_eq_true.1 h)

theorem writable_opening (form : Form) : ∀ l ∈ opening form, l.Writable := by
  have hopen : (Lexeme.char '(').Writable := .char (by decide) (by decide)
  cases form with
  | short => simpa [opening] using hopen
  | long =>
    have hleft : (Lexeme.control "left").Writable := writable_word (by decide) (by decide)
    simpa [opening] using And.intro hleft hopen

theorem writable_closing (form : Form) : ∀ l ∈ closing form, l.Writable := by
  have hclose : (Lexeme.char ')').Writable := .char (by decide) (by decide)
  cases form with
  | short => simpa [closing] using hclose
  | long =>
    have hright : (Lexeme.control "right").Writable := writable_word (by decide) (by decide)
    simpa [closing] using And.intro hright hclose

theorem writable_parens {form : Form} {us : List Lexeme} (h : ∀ l ∈ us, l.Writable) :
    ∀ l ∈ parens form us, l.Writable := by
  rw [parens, List.forall_mem_append, List.forall_mem_append]
  exact ⟨writable_opening form, h, writable_closing form⟩

theorem writable_commas {uss : List (List Lexeme)} (h : ∀ us ∈ uss, ∀ l ∈ us, l.Writable) :
    ∀ l ∈ commas uss, l.Writable := by
  induction uss with
  | nil =>
    intro l hl
    exact absurd hl List.not_mem_nil
  | cons us uss ih =>
    have hfirst := h us List.mem_cons_self
    cases uss with
    | nil => exact hfirst
    | cons vs uss =>
      rw [commas, List.forall_mem_append, List.forall_mem_cons]
      · refine ⟨hfirst, .char (by decide) (by decide), ?_⟩
        exact ih fun us' hus' => h us' (List.mem_cons_of_mem _ hus')
      · exact List.cons_ne_nil _ _

theorem writable_subscript {part : List Char} (h : isSubscriptPart part = true) :
    ∀ l ∈ Lexeme.subscript part, l.Writable := by
  obtain rfl | ⟨ds, -, hdigits, rfl⟩ := isSubscriptPart_iff.1 h
  · intro l hl
    exact absurd hl List.not_mem_nil
  · intro l hl
    simp only [Lexeme.subscript, List.mem_cons, List.mem_append, List.mem_map, List.not_mem_nil,
      or_false] at hl
    rcases hl with rfl | rfl | ⟨d, hd, rfl⟩ | rfl
    · exact .char (by decide) (by decide)
    · exact .char (by decide) (by decide)
    · exact writable_of_isDecimalDigit (hdigits d hd)
    · exact .char (by decide) (by decide)

theorem writable_ofVariable {name : String} (h : isVariable name = true) :
    ∀ l ∈ ofVariable name, l.Writable := by
  obtain ⟨c, part, hname, hc, hpart⟩ := isVariable_iff.1 h
  rw [ofVariable, hname]
  exact List.forall_mem_cons.2 ⟨writable_of_isVariableLetter hc, writable_subscript hpart⟩

theorem writable_ofDeclaration {form : Form} {declared : List String}
    (h : ∀ v ∈ declared, isVariable v = true) : ∀ l ∈ ofDeclaration form declared, l.Writable := by
  unfold ofDeclaration
  split
  · intro l hl
    exact absurd hl List.not_mem_nil
  · refine writable_parens (writable_commas fun us hus => ?_)
    obtain ⟨v, hv, rfl⟩ := List.mem_map.1 hus
    exact writable_ofVariable (h v hv)

/-- Lists of arguments are written argument by argument. -/
theorem forall_mem_of_zip {args : List Tree} {uss : List (List Lexeme)}
    {P : List Lexeme → Prop} (hlength : args.length = uss.length)
    (h : ∀ p ∈ args.zip uss, P p.2) : ∀ us ∈ uss, P us := by
  intro us hus
  obtain ⟨i, hi, rfl⟩ := List.getElem_of_mem hus
  have hargs : i < args.length := hlength ▸ hi
  have hzip : i < (args.zip uss).length := by
    rw [List.length_zip]
    omega
  exact h (args[i], uss[i]) (List.mem_iff_getElem.2 ⟨i, hzip, List.getElem_zip⟩)

section Existence

variable {table : Table}

theorem TermText.writable {kind : ArgumentKind} {t : Tree} {us : List Lexeme}
    (h : TermText table kind t us) : ∀ l ∈ us, l.Writable := by
  induction h with
  | name hv => exact writable_ofVariable hv
  | application _ hl hargs huss _ ih =>
    refine List.forall_mem_cons.2 ⟨hl.writable, writable_parens (writable_commas ?_)⟩
    exact forall_mem_of_zip (hargs.trans huss.symm) ih
  | parens _ _ ih => exact writable_parens ih
  | bare _ ih => exact ih
  | operation _ _ hl _ _ ihleft ihright =>
    exact List.forall_mem_append.2 ⟨writable_parens ihleft,
      List.forall_mem_cons.2 ⟨hl.writable, writable_parens ihright⟩⟩

theorem FormulaText.writable {t : Tree} {us : List Lexeme} (h : FormulaText table t us) :
    ∀ l ∈ us, l.Writable := by
  induction h with
  | @metavariable form letter part declared hpart hdeclared =>
    have hletter : (Lexeme.control letter.name).Writable := by
      refine writable_word ?_ ?_ <;> cases letter <;> decide
    exact List.forall_mem_cons.2 ⟨hletter, List.forall_mem_append.2
      ⟨writable_subscript hpart, writable_ofDeclaration hdeclared⟩⟩
  | constant hl => exact List.forall_mem_singleton.2 hl.writable
  | before _ hl _ ih => exact List.forall_mem_cons.2 ⟨hl.writable, writable_parens ih⟩
  | between _ _ hl _ _ ihleft ihright =>
    exact List.forall_mem_append.2 ⟨writable_parens ihleft,
      List.forall_mem_cons.2 ⟨hl.writable, writable_parens ihright⟩⟩
  | quantified _ hl hbound _ ih =>
    have hvariable := writable_ofVariable (isVariable_of_isOrdinaryVariable hbound)
    exact List.forall_mem_cons.2 ⟨hl.writable,
      List.forall_mem_append.2 ⟨hvariable, writable_parens ih⟩⟩
  | predicate _ hl hargs huss hterms =>
    refine List.forall_mem_cons.2 ⟨hl.writable, writable_parens (writable_commas ?_)⟩
    exact forall_mem_of_zip (hargs.trans huss.symm) fun p hp => (hterms p hp).writable
  | comparison hl hleft hright =>
    exact List.forall_mem_append.2 ⟨hleft.writable,
      List.forall_mem_cons.2 ⟨hl.writable, hright.writable⟩⟩

/-! ## Existence -/

/-- If each argument can be written so can the list. -/
theorem exists_texts {kind : ArgumentKind} {args : List Tree}
    (h : ∀ arg ∈ args, ∃ us, TermText table kind arg us) :
    ∃ uss : List (List Lexeme), uss.length = args.length ∧
      ∀ p ∈ args.zip uss, TermText table kind p.1 p.2 := by
  induction args with
  | nil => exact ⟨[], rfl, by simp⟩
  | cons arg args ih =>
    obtain ⟨us, hus⟩ := h arg List.mem_cons_self
    obtain ⟨uss, hlength, huss⟩ := ih fun arg' harg' => h arg' (List.mem_cons_of_mem _ harg')
    refine ⟨us :: uss, by simp [hlength], fun p hp => ?_⟩
    rw [List.zip_cons_cons, List.mem_cons] at hp
    rcases hp with rfl | hp
    · exact hus
    · exact huss p hp

theorem exists_termText {t : Tree} (h : t.IsTerm table.Live) :
    ∃ us, TermText table .basic t us := by
  induction h with
  | name hv => exact ⟨_, .name hv⟩
  | application hc harity _ ih =>
    obtain ⟨l, hl⟩ := hc.exists_means
    obtain ⟨uss, hlength, huss⟩ := exists_texts ih
    exact ⟨_, .application .short hl harity (hlength.trans harity) huss⟩
  | operation hc _ _ ihleft ihright =>
    obtain ⟨l, hl⟩ := hc.exists_means
    obtain ⟨us, hus⟩ := ihleft
    obtain ⟨vs, hvs⟩ := ihright
    exact ⟨_, .parens .short
      (.operation .short .short hl (.bare hus) (.bare hvs))⟩

theorem exists_formulaText {t : Tree} (h : t.IsFormula table.Live) :
    ∃ us, FormulaText table t us := by
  induction h with
  | metavariable hname hdeclared =>
    obtain ⟨letter, part, hpart, rfl⟩ := hname
    exact ⟨_, .metavariable .short hpart hdeclared⟩
  | constant hc =>
    obtain ⟨l, hl⟩ := hc.exists_means
    exact ⟨_, .constant hl⟩
  | before hc _ ih =>
    obtain ⟨l, hl⟩ := hc.exists_means
    obtain ⟨us, hus⟩ := ih
    exact ⟨_, .before .short hl hus⟩
  | between hc _ _ ihleft ihright =>
    obtain ⟨l, hl⟩ := hc.exists_means
    obtain ⟨us, hus⟩ := ihleft
    obtain ⟨vs, hvs⟩ := ihright
    exact ⟨_, .between .short .short hl hus hvs⟩
  | quantified hc hbound _ ih =>
    obtain ⟨l, hl⟩ := hc.exists_means
    obtain ⟨us, hus⟩ := ih
    exact ⟨_, .quantified .short hl hbound hus⟩
  | predicate hc harity hargs =>
    obtain ⟨l, hl⟩ := hc.exists_means
    obtain ⟨uss, hlength, huss⟩ := exists_texts fun arg harg =>
      (exists_termText (hargs arg harg)).imp fun us hus => TermText.bare hus
    exact ⟨_, .predicate .short hl harity (hlength.trans harity) huss⟩
  | comparison hc hleft hright =>
    obtain ⟨l, hl⟩ := hc.exists_means
    obtain ⟨us, hus⟩ := exists_termText hleft
    obtain ⟨vs, hvs⟩ := exists_termText hright
    exact ⟨_, .comparison hl (.bare hus) (.bare hvs)⟩

/-- Every formula over constructs that can be written has a rendering. -/
theorem exists_isRendering {tree : Tree} (h : tree.IsFormula table.Live) :
    ∃ text, IsRendering table tree text := by
  obtain ⟨ls, hls⟩ := exists_formulaText h
  obtain ⟨cs, hcs⟩ := exists_layout hls.writable
  exact ⟨String.ofList cs, ls, hls, by rwa [String.toList_ofList]⟩

end Existence

end LatexLogic
