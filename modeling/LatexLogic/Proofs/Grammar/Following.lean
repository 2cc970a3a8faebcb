import LatexLogic.Proofs.Grammar.TermReading

/-!
# What follows a phrase

A phrase is read in front of the tokens that remain, and those are looked at: an underscore would
carry on a name, an opening parenthesis the name of a metavariable, an operator a run. Where a text
ends or a parenthesis closes nothing is carried on (`Ends`, `TermEnds`).

What remains matters in no other way. Two lists are alike if they carry on the same phrases
(`TermAlike`, `Alike`), and a phrase in front of one of them is a phrase in front of the other.
-/

set_option autoImplicit false

namespace LatexLogic

open Reader

/-! ## Ends -/

/-- A token without a meaning is no operator. -/
theorem Token.IsBare.infix_eq_none {t : Token} (h : t.IsBare) :
    t.infixFunction? = none ∧ t.infixConnective? = none := by
  rcases h with ⟨c, rfl⟩ | ⟨name, rfl⟩
  · exact ⟨rfl, rfl⟩
  · exact ⟨rfl, rfl⟩

/-- The tokens do not carry on a term in front of them. -/
structure TermEnds (rest : List Token) : Prop where
  underscore : nextIs "_" rest = false
  operator : ∀ m, continuing? Token.infixFunction? m rest = none

/-- The tokens are at their end, or at a parenthesis that closes. -/
def Ends (rest : List Token) : Prop :=
  ∀ t ∈ rest.head?, t.IsBare ∧ t.written ∈ [")", rightWord]

theorem ends_nil : Ends [] := nofun

theorem Reader.Closing.ends {form : Form} {vs : List Token} (h : Closing form vs)
    (hplain : ∀ t ∈ vs, t.Plain) (rest : List Token) : Ends (vs ++ rest) := by
  intro t ht
  cases h with
  | @short c hc =>
    obtain rfl : c = t := Option.some.inj ht
    exact ⟨(hplain c List.mem_cons_self).isBare (by simp [hc, delimiters]), by simp [hc]⟩
  | @long r c hr hc =>
    obtain rfl : r = t := Option.some.inj ht
    exact ⟨(hplain r List.mem_cons_self).isBare (by simp [hr, delimiters]), by simp [hr]⟩

namespace Ends

variable {rest : List Token}

theorem nextIs_eq_false (h : Ends rest) {text : String} (htext : text ∉ [")", rightWord]) :
    nextIs text rest = false := by
  cases rest with
  | nil => rfl
  | cons t rest =>
    have hne : t.written ≠ text := by
      rintro rfl
      exact htext (h t rfl).2
    simp [hne]

theorem opensWith_eq_false (h : Ends rest) : opensWith "(" rest = false := by
  rw [opensWith, h.nextIs_eq_false (by decide), h.nextIs_eq_false (by decide)]
  rfl

theorem continuing?_eq_none (h : Ends rest) (m : Threshold) :
    continuing? Token.infixConnective? m rest = none := by
  cases rest with
  | nil => rfl
  | cons t rest => rw [continuing?_cons, (h t rfl).1.infix_eq_none.2, Option.filter_none]

theorem termEnds (h : Ends rest) : TermEnds rest where
  underscore := h.nextIs_eq_false (by decide)
  operator m := by
    cases rest with
    | nil => rfl
    | cons t rest => rw [continuing?_cons, (h t rfl).1.infix_eq_none.1, Option.filter_none]

end Ends

/-! ## Lists that are alike -/

/-- The two lists carry on the same terms. -/
structure TermAlike (rest rest' : List Token) : Prop where
  underscore : nextIs "_" rest' = nextIs "_" rest
  function : ∀ m,
    continuing? Token.infixFunction? m rest' = continuing? Token.infixFunction? m rest

/-- The two lists carry on the same formulas. -/
structure Alike (rest rest' : List Token) : Prop extends TermAlike rest rest' where
  opens : opensWith "(" rest' = opensWith "(" rest
  connective : ∀ m,
    continuing? Token.infixConnective? m rest' = continuing? Token.infixConnective? m rest

/-- The two lists carry on the same phrases. A comma matters after arguments only. -/
def TermPhrase.Alike : TermPhrase → List Token → List Token → Prop
  | .term _, rest, rest' => TermAlike rest rest'
  | .more _ _, rest, rest' => TermAlike rest rest'
  | .basic, rest, rest' => TermAlike rest rest'
  | .arguments _ _ _, rest, rest' => TermAlike rest rest' ∧ nextIs "," rest' = nextIs "," rest

section Alike

variable {rest rest' : List Token} {t : Token}

theorem TermPhrase.Alike.termAlike {p : TermPhrase} (h : p.Alike rest rest') :
    TermAlike rest rest' := by
  cases p with
  | term m => exact h
  | more m left => exact h
  | basic => exact h
  | arguments kind label done => exact h.1

theorem ArgumentKind.alike_phrase {kind : ArgumentKind} (h : TermAlike rest rest') :
    kind.phrase.Alike rest rest' := by
  cases kind with
  | full => exact h
  | basic => exact h

/-- Terms are carried on at the next token, whatever follows it. -/
theorem TermAlike.cons : TermAlike (t :: rest) (t :: rest') :=
  ⟨rfl, fun _ => rfl⟩

/-- For a word that opens the long form of a parenthesis it matters what follows. -/
theorem Alike.cons (ht : t.written ∉ parenTexts) : Alike (t :: rest) (t :: rest') where
  toTermAlike := .cons
  opens := by
    simp only [parenTexts, List.mem_cons, List.not_mem_nil, or_false, not_or] at ht
    obtain ⟨hopen, -, hleft, -⟩ := ht
    have hclosed : ∀ ts, opensWith "(" (t :: ts) = false := by simp [opensWith, hopen, hleft]
    rw [hclosed, hclosed]
  connective _ := rfl

theorem TermEnds.alike (h : TermEnds rest) (h' : TermEnds rest') : TermAlike rest rest' where
  underscore := h'.underscore.trans h.underscore.symm
  function m := (h'.operator m).trans (h.operator m).symm

theorem Ends.alike (h : Ends rest) (h' : Ends rest') : Alike rest rest' where
  toTermAlike := h.termEnds.alike h'.termEnds
  opens := h'.opensWith_eq_false.trans h.opensWith_eq_false.symm
  connective m := (h'.continuing?_eq_none m).trans (h.continuing?_eq_none m).symm

section Closing

variable {form form' : Form} {vs vs' : List Token}

/-- Parentheses that close are alike. -/
theorem Reader.Closing.alike (h : Closing form vs) (h' : Closing form' vs')
    (hplain : ∀ t ∈ vs, t.Plain) (hplain' : ∀ t ∈ vs', t.Plain) :
    Alike (vs ++ rest) (vs' ++ rest') :=
  (h.ends hplain rest).alike (h'.ends hplain' rest')

/-- No comma stands where a parenthesis closes. -/
theorem Reader.Closing.nextIs_comma_eq (h : Closing form vs) (h' : Closing form' vs')
    (hplain : ∀ t ∈ vs, t.Plain) (hplain' : ∀ t ∈ vs', t.Plain) :
    nextIs "," (vs' ++ rest') = nextIs "," (vs ++ rest) := by
  have hcomma : "," ∉ [")", rightWord] := by decide
  rw [(h.ends hplain rest).nextIs_eq_false hcomma, (h'.ends hplain' rest').nextIs_eq_false hcomma]

theorem Reader.Closing.alike_arguments {kind : ArgumentKind} {label : String} {done : List Tree}
    (h : Closing form vs) (h' : Closing form' vs') (hplain : ∀ t ∈ vs, t.Plain)
    (hplain' : ∀ t ∈ vs', t.Plain) :
    (TermPhrase.arguments kind label done).Alike (vs ++ rest) (vs' ++ rest') :=
  ⟨(h.alike h' hplain hplain').toTermAlike, h.nextIs_comma_eq h' hplain hplain'⟩

end Closing

/-- A token without a meaning ends a term, unless it is an underscore. -/
theorem Token.IsBare.termEnds (h : t.IsBare) (hne : t.written ≠ "_") : TermEnds (t :: rest) where
  underscore := by simpa using hne
  operator m := by rw [continuing?_cons, h.infix_eq_none.1, Option.filter_none]

theorem Reader.Opening.exists_termEnds {form : Form} {us : List Token} (h : Opening form us)
    (hplain : ∀ t ∈ us, t.Plain) : ∃ t vs, us = t :: vs ∧ t.IsBare ∧ t.written ≠ "_" := by
  obtain ⟨t, vs, rfl, hbare⟩ := h.exists_bare hplain
  refine ⟨t, vs, rfl, hbare, ?_⟩
  cases h with
  | short ho =>
    rw [ho]
    decide
  | long hl _ =>
    rw [hl]
    decide

/-- Parentheses that open are alike. -/
theorem Reader.Opening.alike {form form' : Form} {us us' : List Token} (h : Opening form us)
    (h' : Opening form' us') (hplain : ∀ t ∈ us, t.Plain) (hplain' : ∀ t ∈ us', t.Plain) :
    Alike (us ++ rest) (us' ++ rest') := by
  have hopens := opensWith_iff.2 ⟨form, us, rest, h, rfl⟩
  have hopens' := opensWith_iff.2 ⟨form', us', rest', h', rfl⟩
  obtain ⟨t, vs, rfl, hbare, hne⟩ := h.exists_termEnds hplain
  obtain ⟨t', vs', rfl, hbare', hne'⟩ := h'.exists_termEnds hplain'
  refine ⟨(hbare.termEnds hne).alike (hbare'.termEnds hne'), hopens'.trans hopens.symm, ?_⟩
  intro m
  rw [List.cons_append, List.cons_append, continuing?_cons, continuing?_cons,
    hbare.infix_eq_none.2, hbare'.infix_eq_none.2]

end Alike

end LatexLogic
