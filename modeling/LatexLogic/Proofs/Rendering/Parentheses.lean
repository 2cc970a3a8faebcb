import LatexLogic.Proofs.Grammar.Choice
import LatexLogic.Proofs.Grammar.Regroup
import LatexLogic.Proofs.Rendering.Tokens

/-!
# The two forms of parentheses

Every pair of parentheses can be written in the short form or in the long one. `Lexeme.regroup`
writes each pair in the form that is chosen for it, where the pairs are counted in the order in
which they open. Whatever is chosen, the lexemes of a formula remain those of the same formula, and
no formula has a parenthesis that opens in one form and closes in the other (`formula_regroup`).
-/

set_option autoImplicit false

namespace LatexLogic

open Reader
open Lexeme (tokens)

/-- The lexemes with each pair of parentheses in the form that is chosen for its number. The next
parenthesis to open has the given number, and the given forms are those of the parentheses that are
still open, the innermost first. -/
def Lexeme.regroup (choice : Nat → Form) : Nat → List Form → List Lexeme → List Lexeme
  | _, _, [] => []
  | n, pending, l :: ls =>
    if l.written = "(" then
      opening (choice n) ++ regroup choice (n + 1) (choice n :: pending) ls
    else if l.written = ")" then
      pending.head?.elim [l] closing ++ regroup choice n pending.tail ls
    -- The words for the sides are written anew with the parentheses.
    else if l.written = leftWord ∨ l.written = rightWord then regroup choice n pending ls
    else l :: regroup choice n pending ls

section Regroup

variable {table : Table} {choice : Nat → Form} {n : Nat} {pending : List Form} {form : Form}

/-- An opening parenthesis in any form is written in the chosen one. -/
theorem regroup_of_opening {us rest : List Lexeme} (h : Opening form (tokens table us)) :
    Lexeme.regroup choice n pending (us ++ rest) =
      Lexeme.opening (choice n) ++ Lexeme.regroup choice (n + 1) (choice n :: pending) rest := by
  generalize hts : tokens table us = ts at h
  cases h with
  | short ho =>
    obtain ⟨o, rfl, rfl⟩ := List.map_eq_singleton_iff.1 hts
    rw [written_ofLexeme] at ho
    rw [List.singleton_append, Lexeme.regroup, if_pos ho]
  | long hl ho =>
    obtain ⟨l, us, rfl, rfl, hus⟩ := List.map_eq_cons_iff.1 hts
    obtain ⟨o, rfl, rfl⟩ := List.map_eq_singleton_iff.1 hus
    rw [written_ofLexeme] at hl ho
    have hopen : ¬ l.written = "(" := by rw [hl]; decide
    have hclose : ¬ l.written = ")" := by rw [hl]; decide
    rw [List.cons_append, Lexeme.regroup, if_neg hopen, if_neg hclose, if_pos (Or.inl hl),
      List.singleton_append, Lexeme.regroup, if_pos ho]

/-- A closing parenthesis in any form is written in the one in which its pair was opened. -/
theorem regroup_of_closing {form' : Form} {vs rest : List Lexeme}
    (h : Closing form' (tokens table vs)) :
    Lexeme.regroup choice n (form :: pending) (vs ++ rest) =
      Lexeme.closing form ++ Lexeme.regroup choice n pending rest := by
  have hne : ¬ ")" = "(" := by decide
  generalize hts : tokens table vs = ts at h
  cases h with
  | short hc =>
    obtain ⟨c, rfl, rfl⟩ := List.map_eq_singleton_iff.1 hts
    rw [written_ofLexeme] at hc
    rw [List.singleton_append, Lexeme.regroup, hc, if_neg hne, if_pos rfl]
    rfl
  | long hr hc =>
    obtain ⟨r, vs, rfl, rfl, hvs⟩ := List.map_eq_cons_iff.1 hts
    obtain ⟨c, rfl, rfl⟩ := List.map_eq_singleton_iff.1 hvs
    rw [written_ofLexeme] at hr hc
    have hopen : ¬ r.written = "(" := by rw [hr]; decide
    have hclose : ¬ r.written = ")" := by rw [hr]; decide
    rw [List.cons_append, Lexeme.regroup, if_neg hopen, if_neg hclose, if_pos (Or.inr hr),
      List.singleton_append, Lexeme.regroup, hc, if_neg hne, if_pos rfl]
    rfl

/-- A lexeme that is no part of a parenthesis stays. -/
theorem regroup_cons {l : Lexeme} {ls : List Lexeme} (h : l.written ∉ parenTexts) :
    Lexeme.regroup choice n pending (l :: ls) = l :: Lexeme.regroup choice n pending ls := by
  simp only [parenTexts, List.mem_cons, List.not_mem_nil, or_false, not_or] at h
  obtain ⟨hopen, hclose, hleft, hright⟩ := h
  rw [Lexeme.regroup, if_neg hopen, if_neg hclose, if_neg (not_or.2 ⟨hleft, hright⟩)]

/-- Grouped tokens are regrouped, whatever is chosen, and what follows them is written after them
with the same parentheses open as before. -/
theorem exists_regroup_of_grouped {ls : List Lexeme} (h : Grouped (tokens table ls))
    (choice : Nat → Form) : ∀ (n : Nat) (pending : List Form) (rest : List Lexeme), ∃ n' ls',
      Lexeme.regroup choice n pending (ls ++ rest) =
        ls' ++ Lexeme.regroup choice n' pending rest ∧
      Regrouped (tokens table ls) (tokens table ls') := by
  generalize hts : tokens table ls = ts at h
  induction h generalizing ls with
  | nil =>
    obtain rfl := List.map_eq_nil_iff.1 hts
    intro n pending rest
    exact ⟨n, [], rfl, .nil⟩
  | token ht _ ih =>
    obtain ⟨l, ls, rfl, rfl, rfl⟩ := List.map_eq_cons_iff.1 hts
    intro n pending rest
    obtain ⟨n', ls', heq, hls'⟩ := ih rfl n pending rest
    refine ⟨n', l :: ls', ?_, .token ht hls'⟩
    rw [written_ofLexeme] at ht
    rw [List.cons_append, regroup_cons ht, heq, List.cons_append]
  | group hopen hclose _ _ ihinside ihrest =>
    obtain ⟨us, x, rfl, rfl, hx⟩ := List.map_eq_append_iff.1 hts
    obtain ⟨inside, y, rfl, rfl, hy⟩ := List.map_eq_append_iff.1 hx
    obtain ⟨vs, after, rfl, rfl, rfl⟩ := List.map_eq_append_iff.1 hy
    intro n pending rest
    -- Inside the group its own form is the innermost one.
    obtain ⟨n', inside', hinside, hinside'⟩ :=
      ihinside rfl (n + 1) (choice n :: pending) (vs ++ (after ++ rest))
    obtain ⟨n'', after', hafter, hafter'⟩ := ihrest rfl n' pending rest
    refine ⟨n'', Lexeme.opening (choice n) ++ (inside' ++ (Lexeme.closing (choice n) ++ after')),
      ?_, ?_⟩
    · rw [List.append_assoc, List.append_assoc, List.append_assoc, regroup_of_opening hopen,
        hinside, regroup_of_closing hclose, hafter]
      simp
    · rw [tokens_append, tokens_append, tokens_append]
      exact .group hopen hclose (opening_tokens table _) (closing_tokens table _) hinside' hafter'

/-- Grouped tokens are regrouped, whatever is chosen. -/
theorem Grouped.regrouped_tokens {ls : List Lexeme} (h : Grouped (tokens table ls))
    (choice : Nat → Form) :
    Regrouped (tokens table ls) (tokens table (Lexeme.regroup choice 0 [] ls)) := by
  obtain ⟨n', ls', heq, hls'⟩ := exists_regroup_of_grouped h choice 0 [] []
  have hregroup : Lexeme.regroup choice 0 [] ls = ls' := by
    simpa [Lexeme.regroup] using heq
  rwa [hregroup]

end Regroup

/-- The lexemes of a formula, with each pair of parentheses in any form whatever, are read as the
same formula; and no pair opens in one form and closes in the other. -/
theorem formula_regroup {table : Table} (htable : table.KeepsDelimiters) {m : Threshold}
    {ls : List Lexeme} {tree : Tree} (h : Reader.formula m (tokens table ls) = .ok tree []) :
    (∀ choice : Nat → Form,
      Reader.formula m (tokens table (Lexeme.regroup choice 0 [] ls)) = .ok tree []) ∧
    ∀ (pre : List Token) (o : Token) (inside : List Token) (c : Token) (post : List Token),
      tokens table ls = pre ++ o :: (inside ++ c :: post) →
      o.written = "(" → c.written = ")" → Balanced inside →
      (EndsWith leftWord pre ↔ EndsWith rightWord inside) := by
  have hplain : ∀ ls : List Lexeme, ∀ t ∈ tokens table ls, t.Plain :=
    Token.plain_of_mem_map htable
  obtain ⟨u, heq, hu⟩ := FormulaDerivation.of_formula h
  rw [List.append_nil] at heq
  subst heq
  have hgrouped := hu.grouped (hplain ls)
  constructor
  · intro choice
    have hregroup := hu.regrouped (hplain ls) (hgrouped.regrouped_tokens choice) (hplain _)
      (ends_nil.alike ends_nil)
    have hread := hregroup.reads (by simpa using hplain _)
    rwa [List.append_nil] at hread
  · intro pre o inside c post hts ho hc hinside
    exact hgrouped.form_iff hts ho hc hinside

/-- The parentheses of `\neg\left((x)=x\land\phi(y)\right)`, each in its other form. -/
theorem formula_regroup_neg :
    Reader.formula Level.whole (tokens Table.standard
        [.control "neg", .char '(', .control "left", .char '(', .char 'x', .control "right",
          .char ')', .char '=', .char 'x', .control "land", .control "phi", .control "left",
          .char '(', .char 'y', .control "right", .char ')', .char ')']) =
      .ok (.node "not" [.node "and" [.node "eq" [.atom "x", .atom "x"], .metavar "phi" ["y"]]])
        [] := by
  have hread : Reader.formula Level.whole (tokens Table.standard
      [.control "neg", .control "left", .char '(', .char '(', .char 'x', .char ')', .char '=',
        .char 'x', .control "land", .control "phi", .char '(', .char 'y', .char ')',
        .control "right", .char ')']) =
      .ok (.node "not" [.node "and" [.node "eq" [.atom "x", .atom "x"], .metavar "phi" ["y"]]])
        [] := by
    rfl
  exact (formula_regroup Table.standard_keepsDelimiters hread).1
    fun n => if n = 0 then .short else .long

end LatexLogic
