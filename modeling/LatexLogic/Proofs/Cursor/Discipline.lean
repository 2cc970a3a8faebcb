import LatexLogic.Proofs.Cursor.Calls

/-!
# How parsers move the cursor

What tracking readers (`Parser.carries_run`) says of the parsers alone.

The parsers that call each other need no more than four calls inside each other for every token ahead
and seven more: with this fuel they succeed or fail with an error of the formula, they do what their
readers do, and more fuel changes nothing (`Parser.run_settles`). The cursor that goes back to a
parenthesis does not break the bound, since the calls of the first attempt have returned by then.

A parser that succeeds leaves the cursor behind at least one token, and one that fails does not leave
it in front of the place where it started; it is never left past the end. An error for a missing token
leaves it at the end, one for a token that does not fit at this token or just behind it. What stands in
front of the start does not matter (`Parser.parse_disciplined`). As all this holds of failures too,
it holds of parsers that are called one after the other, whatever becomes of each
(`Cursor.reaches_after`).
-/

set_option autoImplicit false

namespace LatexLogic

variable {α : Type}

/-! ## Without the tokens in front -/

namespace Cursor

variable {tokens : List Token} {i : Nat} {c₁ c₂ : Cursor}

/-- The cursor in the tokens without the first ones. -/
def dropped (i : Nat) (c : Cursor) : Cursor :=
  ⟨c.tokens.drop i, c.position - i⟩

theorem Reaches.dropped_eq (h₁ : Reaches ⟨tokens, i⟩ c₁) (h₂ : Reaches ⟨tokens.drop i, 0⟩ c₂)
    (h : c₁.ahead = c₂.ahead) : c₂ = c₁.dropped i := by
  obtain ⟨tokens₁, position⟩ := c₁
  obtain ⟨rfl, hle, hbound⟩ := h₁
  simp only at hle hbound
  refine h₂.eq_of_ahead ⟨rfl, Nat.zero_le _, ?_⟩ ?_
  · simp only [dropped, List.length_drop]
    omega
  · rw [← h, ahead, ahead, dropped, List.drop_drop, Nat.add_sub_cancel' hle]

end Cursor

namespace Parser

/-! ## Fuel -/

theorem tracks_parse (p : Parser α) (c : Cursor) :
    Tracks c c.remaining (p.parse c) (p.reader c.ahead) :=
  carries_run _ p c le_rfl

theorem run_eq_parse (p : Parser α) {c : Cursor} {fuel : Nat}
    (h : 4 * c.remaining + p.allowance ≤ fuel) : run fuel p c = p.parse c :=
  (carries_run fuel p c h).unique (tracks_parse p c)

/-- The parsers that call each other, with a threshold for those of formulas and terms. -/
def recursive (m : Threshold) : List (Parser Tree) :=
  [.formula m, .basicFormula, .infixPredicate, .term m, .basicTerm]

theorem allowance_le_of_mem_recursive {m : Threshold} {p : Parser Tree} (h : p ∈ recursive m) :
    p.allowance ≤ 7 := by
  simp only [recursive, List.mem_cons, List.not_mem_nil, or_false] at h
  rcases h with rfl | rfl | rfl | rfl | rfl <;> simp

/-- With four calls for every token ahead and seven more none is refused, and the outcome is that of
the reader, for any larger amount too. -/
theorem run_settles {m : Threshold} {p : Parser Tree} (hp : p ∈ recursive m) (c : Cursor)
    {fuel : Nat} (hfuel : 4 * c.remaining + 7 ≤ fuel) :
    ((∃ tree c', run fuel p c = .ok tree c') ∨
        ∃ error c', run fuel p c = .error (.fault error) c') ∧
      run fuel p c = run (4 * c.remaining + 7) p c ∧
      mapState Cursor.ahead (run fuel p c) = p.reader c.ahead := by
  have hallowance := allowance_le_of_mem_recursive hp
  have hparse : run fuel p c = p.parse c := run_eq_parse p (by omega)
  have hleast : run (4 * c.remaining + 7) p c = p.parse c := run_eq_parse p (by omega)
  have htracks := tracks_parse p c
  rw [hparse, hleast]
  exact ⟨htracks.ok_or_fault, rfl, htracks.mapState_ahead⟩

/-- The parenthesis in `y(x)<y` is read twice. -/
theorem run_settles_at_parenthesis :
    let tokens := "y(x)".toList.map Token.char ++
      [.known (.char '<') (.predicate "less" .infixOp), .char 'y']
    run 30 .basicFormula ⟨tokens, 1⟩ = run 27 .basicFormula ⟨tokens, 1⟩ ∧
      run 27 .basicFormula ⟨tokens, 1⟩ = .ok (.node "less" [.atom "x", .atom "y"]) ⟨tokens, 6⟩ :=
  ⟨(run_settles (m := Level.whole) (by simp [recursive]) _ (by decide)).2.1, rfl⟩

/-! ## Places -/

/-- Where a parser leaves the cursor, and that it is the same without the tokens in front of its
start. -/
theorem parse_disciplined (p : Parser α) (tokens : List Token) {i : Nat}
    (hi : i ≤ tokens.length) :
    mapState Cursor.ahead (p.parse ⟨tokens, i⟩) = p.reader (tokens.drop i) ∧
      p.parse ⟨tokens.drop i, 0⟩ = mapState (Cursor.dropped i) (p.parse ⟨tokens, i⟩) ∧
      match p.parse ⟨tokens, i⟩ with
      | .ok _ c => c.tokens = tokens ∧ i < c.position ∧ c.position ≤ tokens.length
      | .error failure c => c.tokens = tokens ∧ i ≤ c.position ∧ c.position ≤ tokens.length ∧
          ∃ error, failure = .fault error ∧ c.PointsAt error := by
  have htracks := tracks_parse p ⟨tokens, i⟩
  have hdropped := htracks.eq_mapState (tracks_parse p ⟨tokens.drop i, 0⟩)
    fun _ _ h₁ h₂ hahead => h₁.dropped_eq h₂ hahead
  refine ⟨htracks.mapState_ahead, hdropped, ?_⟩
  generalize p.parse ⟨tokens, i⟩ = x, p.reader (Cursor.ahead ⟨tokens, i⟩) = y at htracks
  cases htracks with
  | @ok a c hreach hlt =>
    obtain ⟨htokens, hle, hbound⟩ := hreach
    simp only [Cursor.remaining, htokens] at hlt hle hbound
    exact ⟨htokens, by omega, by omega⟩
  | @fault error c hreach hpoints =>
    obtain ⟨htokens, hle, hbound⟩ := hreach
    simp only at hbound
    exact ⟨htokens, hle, by omega, error, rfl, hpoints⟩

/-- In `x,((y)z` a parenthesis is missing before the last token. -/
theorem parse_disciplined_at_missing_parenthesis :
    let tokens := "x,((y)z".toList.map Token.char
    let failure := Failure.fault (.badToken "z" (some ")"))
    let p := Parser.formula Level.whole
    p.parse ⟨tokens, 2⟩ = .error failure ⟨tokens, 7⟩ ∧
      p.parse ⟨tokens.drop 2, 0⟩ = .error failure ⟨tokens.drop 2, 5⟩ :=
  ⟨rfl, (parse_disciplined _ _ (by decide)).2.1⟩

end Parser

/-! ## Parsers one after the other -/

namespace Cursor

/-- Where a parser leaves the cursor, with a result or without one. -/
def left (p : Parser α) (c : Cursor) : Cursor :=
  match p.parse c with
  | .ok _ c' => c'
  | .error _ c' => c'

theorem reaches_left (p : Parser α) (c : Cursor) : c.Reaches (c.left p) := by
  have htracks := p.tracks_parse c
  rw [left]
  generalize p.parse c = x, p.reader c.ahead = y at htracks
  cases htracks with
  | ok hreach _ => exact hreach
  | fault hreach _ => exact hreach

/-- Where the cursor stands after several parsers, each of which starts where the one before left
it. -/
def after (c : Cursor) (parsers : List (Sigma Parser)) : Cursor :=
  parsers.foldl (fun c p => c.left p.2) c

theorem reaches_after (parsers : List (Sigma Parser)) :
    ∀ c : Cursor, c.Reaches (c.after parsers) := by
  induction parsers with
  | nil => exact Reaches.refl
  | cons p parsers ih => exact fun c => (reaches_left p.2 c).trans (ih (c.left p.2))

end Cursor

end LatexLogic
