import LatexLogic.Proofs.Cursor.Descent
import LatexLogic.Proofs.Reading.Name
import LatexLogic.Proofs.Reading.Unlimited

/-!
# Tracking readers with a cursor

A step of a cursor tracks a reader of the tokens ahead (`Tracks`) if both do the same: they succeed
with the same result or fail with the same error, and afterwards the cursor stands in front of the
tokens that the reader leaves. The cursor goes on in its tokens or stays, never past their end
(`Cursor.Reaches`), and where reading fails it points at the reason (`Cursor.PointsAt`).

The relation is closed under everything that parsers are made of: single steps, sequences, delimiters
and loops. A step that tracks a reader is determined by it (`Tracks.unique`), so that whatever is known
of readers is known of cursors.
-/

set_option autoImplicit false

namespace LatexLogic

open Reader (digitOf? leadingDigits)

/-! ## Moving a cursor -/

namespace Cursor

variable {c c' c₁ c₂ : Cursor} {t : Token}

/-- The second cursor stands in the same tokens, not in front of the first one, and not past the end
unless it stayed there. -/
structure Reaches (c c' : Cursor) : Prop where
  tokens : c'.tokens = c.tokens
  le : c.position ≤ c'.position
  bound : c'.position ≤ max c.position c.tokens.length

theorem Reaches.refl (c : Cursor) : c.Reaches c :=
  ⟨rfl, le_rfl, le_max_left _ _⟩

theorem Reaches.trans (h : c.Reaches c₁) (h' : c₁.Reaches c₂) : c.Reaches c₂ := by
  obtain ⟨htokens, hle, hbound⟩ := h
  obtain ⟨htokens', hle', hbound'⟩ := h'
  rw [htokens] at hbound'
  exact ⟨htokens'.trans htokens, hle.trans hle', by omega⟩

theorem Reaches.remaining_le (h : c.Reaches c') : c'.remaining ≤ c.remaining := by
  obtain ⟨htokens, hle, -⟩ := h
  rw [remaining, remaining, htokens]
  omega

@[simp] theorem length_ahead (c : Cursor) : c.ahead.length = c.remaining :=
  List.length_drop

/-- Where a cursor got to is told by the tokens that are left. -/
theorem Reaches.eq_of_ahead (h₁ : c.Reaches c₁) (h₂ : c.Reaches c₂) (h : c₁.ahead = c₂.ahead) :
    c₁ = c₂ := by
  have hlength := congrArg List.length h
  obtain ⟨tokens₁, position₁⟩ := c₁
  obtain ⟨tokens₂, position₂⟩ := c₂
  obtain ⟨rfl, hle₁, hbound₁⟩ := h₁
  obtain ⟨rfl, hle₂, hbound₂⟩ := h₂
  simp only [length_ahead, remaining] at hlength hle₁ hbound₁ hle₂ hbound₂
  congr 1
  omega

/-- The cursor that is put back stands where it stood. -/
theorem Reaches.reset_eq (h : c.Reaches c') : { c' with position := c.position } = c := by
  rw [h.tokens]

@[simp] theorem head?_ahead (c : Cursor) : c.ahead.head? = c.peek? 0 :=
  List.head?_drop

theorem isAt_zero (c : Cursor) (written : String) :
    c.isAt 0 written = Reader.nextIs written c.ahead := by
  rw [isAt, ← head?_ahead]
  cases c.ahead <;> rfl

theorem isAt_one (c : Cursor) (written : String) :
    c.isAt 1 written = Reader.nextIs written (c.ahead.drop 1) := by
  have hhead : c.peek? 1 = (c.ahead.drop 1).head? := by
    rw [ahead, List.drop_drop, List.head?_drop]
    rfl
  rw [isAt, hhead]
  cases c.ahead.drop 1 <;> rfl

theorem opensWith_eq (c : Cursor) (delimiter : String) :
    c.opensWith delimiter = Reader.opensWith delimiter c.ahead := by
  rw [opensWith, Reader.opensWith, isAt_zero, isAt_zero, isAt_one]

theorem exists_peek?_of_isAt {written : String} (h : c.isAt 0 written = true) :
    ∃ t, c.peek? 0 = some t := by
  cases hpeek : c.peek? 0 with
  | none =>
    rw [isAt, hpeek] at h
    cases h
  | some t => exact ⟨t, rfl⟩

/-- The operator that continues a run is told by the token at the cursor. -/
theorem continuing?_ahead (operator? : Token → Option InfixOperator) (m : Threshold) (c : Cursor) :
    Reader.continuing? operator? m c.ahead =
      (c.peek? 0).bind fun t => (operator? t).filter fun op => m.admits op.leftPower := by
  rw [← head?_ahead]
  cases c.ahead <;> rfl

theorem remaining_of_peek?_none (h : c.peek? 0 = none) : c.remaining = 0 := by
  rw [peek?, List.getElem?_eq_none_iff] at h
  rw [remaining]
  omega

theorem ahead_of_peek?_none (h : c.peek? 0 = none) : c.ahead = [] :=
  List.eq_nil_of_length_eq_zero ((length_ahead c).trans (remaining_of_peek?_none h))

theorem ahead_of_peek?_some (h : c.peek? 0 = some t) : c.ahead = t :: c.advance.ahead := by
  obtain ⟨hlt, rfl⟩ := List.getElem?_eq_some_iff.1 h
  exact List.drop_eq_getElem_cons hlt

theorem reaches_advance (h : c.peek? 0 = some t) : c.Reaches c.advance := by
  obtain ⟨hlt, -⟩ := List.getElem?_eq_some_iff.1 h
  exact ⟨rfl, Nat.le_succ _, Nat.le_trans hlt (Nat.le_max_right _ _)⟩

theorem remaining_advance (h : c.peek? 0 = some t) : c.advance.remaining < c.remaining := by
  rw [← length_ahead c, ahead_of_peek?_some h, List.length_cons, length_ahead]
  exact Nat.lt_succ_self _

theorem passed?_advance (h : c.peek? 0 = some t) : c.advance.passed? = some t :=
  h

/-! ### Steps one after the other -/

section Steps

variable {α β : Type} {f : Option Token → CursorReader β}

theorem get_bind {f : Cursor → CursorReader β} : ((get : CursorReader Cursor) >>= f) c = f c c :=
  rfl

theorem bind_of_eq_ok {x : CursorReader α} {f : α → CursorReader β} {a : α} (h : x c = .ok a c') :
    (x >>= f) c = f a c' := by
  show EStateM.bind x f c = _
  simp only [EStateM.bind, h]

theorem next?_bind (h : c.peek? 0 = some t) : (next? >>= f) c = f (some t) c.advance :=
  bind_of_eq_ok (by simp only [next?, h])

theorem next?_bind_none (h : c.peek? 0 = none) : (next? >>= f) c = f none c :=
  bind_of_eq_ok (by simp only [next?, h])

end Steps

/-! ### Places of errors -/

/-- What a cursor shows of an error: at a missing token nothing is left, and a token that does not fit
stands at the cursor or was just passed. -/
def PointsAt (c : Cursor) : FormulaError → Prop
  | .unexpectedEnd _ => c.remaining = 0
  | .badToken actual _ =>
    c.isAt 0 actual = true ∨ ∃ t, c.passed? = some t ∧ t.written = actual
  | _ => True

/-- The token that was just passed does not fit. -/
theorem pointsAt_passed (h : c.passed? = some t) (expected : Option String) :
    c.PointsAt (.badToken t.written expected) :=
  Or.inr ⟨t, h, rfl⟩

/-- No place belongs to a wrong number of arguments. -/
theorem pointsAt_of_applied {symbol label : String} {arity : Int} {args : List Tree}
    {e : FormulaError} (h : Tree.applied symbol label arity args = .error e) : c.PointsAt e := by
  unfold Tree.applied at h
  split at h
  · cases h
  · cases h
    unfold FormulaError.ofCount
    split <;> trivial

end Cursor

/-! ## Tracking -/

/-- An outcome with something else in place of its state. -/
def mapState {α σ τ : Type} (f : σ → τ) :
    EStateM.Result Failure σ α → EStateM.Result Failure τ α
  | .ok a s => .ok a (f s)
  | .error failure s => .error failure (f s)

@[simp] theorem mapState_id {α σ : Type} (x : EStateM.Result Failure σ α) : mapState id x = x := by
  cases x <;> rfl

/-- A step of a cursor does what a reader does to the tokens ahead. On success fewer tokens are left
than given by the number. -/
inductive Tracks {α : Type} (c : Cursor) (n : Nat) :
    EStateM.Result Failure Cursor α → EStateM.Result Failure (List Token) α → Prop where
  | ok {a : α} {c' : Cursor} : c.Reaches c' → c'.remaining < n →
      Tracks c n (.ok a c') (.ok a c'.ahead)
  | fault {e : FormulaError} {c' : Cursor} : c.Reaches c' → c'.PointsAt e →
      Tracks c n (.error (.fault e) c') (.error (.fault e) c'.ahead)

section Tracks

variable {α β : Type} {c c' : Cursor} {k n : Nat}

theorem Tracks.from {x : EStateM.Result Failure Cursor α}
    {y : EStateM.Result Failure (List Token) α} (h : Tracks c' n x y) (hreach : c.Reaches c') :
    Tracks c n x y := by
  cases h with
  | ok h hlt => exact .ok (hreach.trans h) hlt
  | fault h hpoints => exact .fault (hreach.trans h) hpoints

theorem Tracks.mono {x : EStateM.Result Failure Cursor α}
    {y : EStateM.Result Failure (List Token) α} (h : Tracks c k x y) (hle : k ≤ n) :
    Tracks c n x y := by
  cases h with
  | ok h hlt => exact .ok h (hlt.trans_le hle)
  | fault h hpoints => exact .fault h hpoints

theorem Tracks.mapState_ahead {x : EStateM.Result Failure Cursor α}
    {y : EStateM.Result Failure (List Token) α} (h : Tracks c n x y) :
    mapState Cursor.ahead x = y := by
  cases h with
  | ok _ _ => rfl
  | fault _ _ => rfl

/-- Two steps that track the same reader have the same outcome, up to what the tokens that are left
tell of where the cursors stand. -/
theorem Tracks.eq_mapState {x x' : EStateM.Result Failure Cursor α}
    {y : EStateM.Result Failure (List Token) α} {f : Cursor → Cursor} (h : Tracks c n x y)
    (h' : Tracks c' k x' y)
    (hf : ∀ c₁ c₂, c.Reaches c₁ → c'.Reaches c₂ → c₁.ahead = c₂.ahead → c₂ = f c₁) :
    x' = mapState f x := by
  cases h with
  | ok hreach _ =>
    generalize hy : EStateM.Result.ok _ _ = y at h'
    cases h' with
    | ok hreach' _ =>
      obtain ⟨rfl, hahead⟩ := EStateM.Result.ok.inj hy
      rw [hf _ _ hreach hreach' hahead]
      rfl
    | fault _ _ => cases hy
  | fault hreach _ =>
    generalize hy : EStateM.Result.error _ _ = y at h'
    cases h' with
    | ok _ _ => cases hy
    | fault hreach' _ =>
      obtain ⟨herror, hahead⟩ := EStateM.Result.error.inj hy
      rw [herror, hf _ _ hreach hreach' hahead]
      rfl

theorem Tracks.unique {x x' : EStateM.Result Failure Cursor α}
    {y : EStateM.Result Failure (List Token) α} (h : Tracks c n x y) (h' : Tracks c k x' y) :
    x = x' := by
  have heq : x = mapState id x' := h'.eq_mapState h fun _ _ h₁ h₂ hahead =>
    h₂.eq_of_ahead h₁ hahead.symm
  rwa [mapState_id] at heq

/-- A step that tracks a reader is not refused. -/
theorem Tracks.ok_or_fault {x : EStateM.Result Failure Cursor α}
    {y : EStateM.Result Failure (List Token) α} (h : Tracks c n x y) :
    (∃ a c', x = .ok a c') ∨ ∃ error c', x = .error (.fault error) c' := by
  cases h with
  | ok _ _ => exact Or.inl ⟨_, _, rfl⟩
  | fault _ _ => exact Or.inr ⟨_, _, rfl⟩

/-! ### Sequencing -/

theorem tracks_pure {a : α} (h : c.remaining < n) :
    Tracks c n ((pure a : CursorReader α) c) ((pure a : Reader α) c.ahead) :=
  .ok (.refl c) h

theorem tracks_fail {e : FormulaError} (h : c.PointsAt e) :
    Tracks c n ((Cursor.fail e : CursorReader α) c) ((Reader.fail e : Reader α) c.ahead) :=
  .fault (.refl c) h

/-- A failure for a missing token, where none is left. -/
theorem tracks_fail_end {expected : Option String} (h : c.peek? 0 = none) :
    Tracks c n ((Cursor.fail (.unexpectedEnd expected) : CursorReader α) c)
      ((Reader.fail (.unexpectedEnd expected) : Reader α) c.ahead) :=
  tracks_fail (Cursor.remaining_of_peek?_none h)

/-- One step after the other tracks one reader after the other, if the second step does so from where
the first one gets to. -/
theorem Tracks.bind {x : CursorReader α} {r : Reader α} {f : α → CursorReader β}
    {g : α → Reader β} (hx : Tracks c k (x c) (r c.ahead))
    (hf : ∀ a c', c.Reaches c' → c'.remaining < k → Tracks c' n (f a c') (g a c'.ahead)) :
    Tracks c n ((x >>= f) c) ((r >>= g) c.ahead) := by
  show Tracks c n (EStateM.bind x f c) (EStateM.bind r g c.ahead)
  unfold EStateM.bind
  generalize x c = y, r c.ahead = z at hx
  cases hx with
  | ok hreach hlt => exact (hf _ _ hreach hlt).from hreach
  | fault hreach hpoints => exact .fault hreach hpoints

/-- Taking the token that stands at the cursor. -/
theorem Tracks.take {f : Option Token → CursorReader β} {g : Option Token → Reader β} {t : Token}
    (hpeek : c.peek? 0 = some t)
    (h : ∀ c', c.Reaches c' → c'.remaining < c.remaining → c'.passed? = some t →
      Tracks c' n (f (some t) c') (g (some t) c'.ahead)) :
    Tracks c n ((Cursor.next? >>= f) c) ((Reader.next? >>= g) c.ahead) := by
  have hreach := Cursor.reaches_advance hpeek
  rw [Cursor.next?_bind hpeek, Cursor.ahead_of_peek?_some hpeek, Reader.next?_bind_cons]
  exact (h _ hreach (Cursor.remaining_advance hpeek) (Cursor.passed?_advance hpeek)).from hreach

/-- Taking a token, if there is one. -/
theorem Tracks.next? {f : Option Token → CursorReader β} {g : Option Token → Reader β}
    (hnone : c.peek? 0 = none → Tracks c n (f none c) (g none c.ahead))
    (hsome : ∀ t c', c.Reaches c' → c'.remaining < c.remaining → c'.passed? = some t →
      Tracks c' n (f (some t) c') (g (some t) c'.ahead)) :
    Tracks c n ((Cursor.next? >>= f) c) ((Reader.next? >>= g) c.ahead) := by
  cases hpeek : c.peek? 0 with
  | none =>
    have h := hnone hpeek
    rw [Cursor.ahead_of_peek?_none hpeek] at h ⊢
    rw [Cursor.next?_bind_none hpeek]
    exact h
  | some t => exact .take hpeek (hsome t)

/-- Taking a token, of which there has to be one. -/
theorem Tracks.next {f : Token → CursorReader β} {g : Token → Reader β}
    (hf : ∀ t c', c.Reaches c' → c'.remaining < c.remaining → c'.passed? = some t →
      Tracks c' n (f t c') (g t c'.ahead)) :
    Tracks c n ((Cursor.next >>= f) c) ((Reader.next >>= g) c.ahead) := by
  rw [Cursor.next, Reader.next, bind_assoc, bind_assoc]
  exact .next? (fun hpeek => tracks_fail_end hpeek) hf

theorem tracks_expect (written : String) :
    Tracks c c.remaining (Cursor.expect written c) (Reader.expect written c.ahead) := by
  refine .next? (fun hpeek => tracks_fail_end hpeek) fun t c' _ hlt hpassed => ?_
  dsimp only
  split
  · exact tracks_pure hlt
  · exact tracks_fail (Cursor.pointsAt_passed hpassed _)

/-! ### Delimiters -/

section Inside

variable {x : CursorReader α} {r : Reader α}

theorem tracks_delimited (opening closing : String)
    (h : ∀ c', c.Reaches c' → c'.remaining < c.remaining →
      Tracks c' c'.remaining (x c') (r c'.ahead)) :
    Tracks c c.remaining (Cursor.delimited opening closing x c)
      (Reader.delimited opening closing r c.ahead) := by
  refine .next? (fun hpeek => tracks_fail_end hpeek) fun t c₁ h₁ hlt₁ hpassed => ?_
  dsimp only
  split
  · refine (tracks_expect _).bind fun _ c₂ h₂ hlt₂ => ?_
    refine (h c₂ (h₁.trans h₂) (by omega)).bind fun a c₃ _ hlt₃ => ?_
    refine (tracks_expect _).bind fun _ c₄ _ hlt₄ => ?_
    exact (tracks_expect _).bind fun _ c₅ _ hlt₅ => tracks_pure (by omega)
  · split
    · refine (h c₁ h₁ hlt₁).bind fun a c₂ _ hlt₂ => ?_
      exact (tracks_expect _).bind fun _ c₃ _ hlt₃ => tracks_pure (by omega)
    · exact tracks_fail (Cursor.pointsAt_passed hpassed _)

theorem tracks_braced
    (h : ∀ c', c.Reaches c' → c'.remaining < c.remaining →
      Tracks c' c'.remaining (x c') (r c'.ahead)) :
    Tracks c c.remaining (Cursor.braced x c) (Reader.braced r c.ahead) := by
  refine (tracks_expect _).bind fun _ c₁ h₁ hlt₁ => ?_
  refine (h c₁ h₁ hlt₁).bind fun a c₂ _ hlt₂ => ?_
  exact (tracks_expect _).bind fun _ c₃ _ hlt₃ => tracks_pure (by omega)

/-! ### Loops -/

/-- The items after commas, with more rounds than tokens. -/
theorem tracks_moreItems :
    ∀ (rounds limit : Nat) (c : Cursor), c.remaining < rounds → c.remaining ≤ limit →
      (∀ c', c.Reaches c' → c'.remaining < c.remaining →
        Tracks c' c'.remaining (x c') (r c'.ahead)) →
      Tracks c (c.remaining + 1) (Cursor.moreItems x rounds c) (Reader.moreItems r limit c.ahead)
  | 0, _, _, hrounds, _, _ => absurd hrounds (Nat.not_lt_zero _)
  | rounds + 1, limit, c, hrounds, hlimit, h => by
    simp only [Cursor.moreItems, Cursor.get_bind]
    cases hcomma : c.isAt 0 "," with
    | false =>
      -- Without a comma the reader stops, whether or not it has rounds left.
      have hmore : Reader.moreItems r limit c.ahead = .ok [] c.ahead := by
        cases limit with
        | zero => rfl
        | succ limit =>
          simp only [Reader.moreItems, Reader.get_bind, ← Cursor.isAt_zero, hcomma]
          rfl
      rw [hmore]
      exact .ok (.refl c) (Nat.lt_succ_self _)
    | true =>
      obtain ⟨t, hpeek⟩ := Cursor.exists_peek?_of_isAt hcomma
      have hadvance := Cursor.remaining_advance hpeek
      obtain ⟨limit, rfl⟩ : ∃ l, limit = l + 1 := ⟨limit - 1, by omega⟩
      simp only [Reader.moreItems, Reader.get_bind, ← Cursor.isAt_zero, hcomma, if_true]
      refine .take hpeek fun c₁ h₁ hlt₁ _ => ?_
      refine (h c₁ h₁ hlt₁).bind fun a c₂ h₂ hlt₂ => ?_
      refine (tracks_moreItems rounds limit c₂ (by omega) (by omega) fun c' h' hlt' => ?_).bind
        fun as c₃ _ hlt₃ => tracks_pure (by omega)
      exact h c' ((h₁.trans h₂).trans h') (by omega)

theorem tracks_list {rounds : Nat} (hrounds : c.remaining ≤ rounds)
    (h : ∀ c', c.Reaches c' → Tracks c' c'.remaining (x c') (r c'.ahead)) :
    Tracks c c.remaining (Cursor.list x rounds c) (Reader.list r c.ahead) := by
  refine (h c (.refl c)).bind fun a c₁ h₁ hlt₁ => ?_
  rw [Reader.get_bind, Cursor.length_ahead]
  refine (tracks_moreItems rounds _ c₁ (by omega) le_rfl fun c' h' _ => ?_).bind
    fun as c₂ _ hlt₂ => tracks_pure (by omega)
  exact h c' (h₁.trans h')

end Inside

/-- The operators of a run with their right arguments, with more rounds than tokens. -/
theorem tracks_infixRun {operator? : Token → Option InfixOperator}
    {operand : Threshold → CursorReader Tree} {r : Threshold → Reader Tree} {m : Threshold} :
    ∀ (rounds limit : Nat) (tree : Tree) (c : Cursor), c.remaining < rounds →
      c.remaining ≤ limit →
      (∀ m c', c.Reaches c' → c'.remaining < c.remaining →
        Tracks c' c'.remaining (operand m c') (r m c'.ahead)) →
      Tracks c (c.remaining + 1) (Cursor.infixRun operator? operand m rounds tree c)
        (Reader.infixRun operator? r m limit tree c.ahead)
  | 0, _, _, _, hrounds, _, _ => absurd hrounds (Nat.not_lt_zero _)
  | rounds + 1, limit, tree, c, hrounds, hlimit, h => by
    simp only [Cursor.infixRun, Cursor.get_bind, ← Cursor.continuing?_ahead]
    cases hop : Reader.continuing? operator? m c.ahead with
    | none =>
      have hrun : Reader.infixRun operator? r m limit tree c.ahead = .ok tree c.ahead := by
        cases limit with
        | zero => rfl
        | succ limit =>
          simp only [Reader.infixRun, Reader.get_bind, hop]
          rfl
      rw [hrun]
      exact .ok (.refl c) (Nat.lt_succ_self _)
    | some op =>
      have hbind := hop
      rw [Cursor.continuing?_ahead, Option.bind_eq_some_iff] at hbind
      obtain ⟨t, hpeek, -⟩ := hbind
      have hadvance := Cursor.remaining_advance hpeek
      obtain ⟨limit, rfl⟩ : ∃ l, limit = l + 1 := ⟨limit - 1, by omega⟩
      simp only [Reader.infixRun, Reader.get_bind, hop]
      refine .take hpeek fun c₁ h₁ hlt₁ _ => ?_
      refine (h _ c₁ h₁ hlt₁).bind fun right c₂ h₂ hlt₂ => ?_
      refine (tracks_infixRun rounds limit _ c₂ (by omega) (by omega) fun m c' h' hlt' => ?_).mono
        (by omega)
      exact h m c' ((h₁.trans h₂).trans h') (by omega)

/-- An operand and the run of operators after it. -/
theorem tracks_infixRest {operator? : Token → Option InfixOperator}
    {operand : Threshold → CursorReader Tree} {r : Threshold → Reader Tree} {m : Threshold}
    {x : CursorReader Tree} {first : Reader Tree} {rounds : Nat} (hrounds : c.remaining ≤ rounds)
    (hfirst : Tracks c c.remaining (x c) (first c.ahead))
    (h : ∀ m c', c.Reaches c' → c'.remaining < c.remaining →
      Tracks c' c'.remaining (operand m c') (r m c'.ahead)) :
    Tracks c c.remaining ((x >>= Cursor.infixRun operator? operand m rounds) c)
      ((first >>= Reader.infixRest operator? r m) c.ahead) := by
  refine hfirst.bind fun tree c₁ h₁ hlt₁ => ?_
  rw [Reader.infixRest, Reader.get_bind, Cursor.length_ahead]
  refine (tracks_infixRun rounds _ tree c₁ (by omega) le_rfl fun m c' h' hlt' => ?_).mono
    (by omega)
  exact h m c' (h₁.trans h') (by omega)

/-! ### Digits -/

theorem leadingDigits_of_digitOf?_eq_some {t : Token} {d : Char} (h : digitOf? t = some d)
    (ts : List Token) :
    leadingDigits (t :: ts) = (d :: (leadingDigits ts).1, (leadingDigits ts).2) := by
  obtain ⟨rfl, hd⟩ := Reader.digitOf?_eq_some_iff.1 h
  simp only [leadingDigits, if_pos hd]

/-- With more rounds than tokens all digits at the cursor are taken. The cursor stays if there are
none. -/
theorem exists_digits :
    ∀ (rounds : Nat) (c : Cursor), c.remaining < rounds → ∃ ds c', c.Reaches c' ∧
      Cursor.digits rounds c = .ok ds c' ∧ leadingDigits c.ahead = (ds, c'.ahead) ∧
      (ds = [] ∧ c' = c ∨ ds ≠ [] ∧ c'.remaining < c.remaining)
  | 0, _, hrounds => absurd hrounds (Nat.not_lt_zero _)
  | rounds + 1, c, hrounds => by
    simp only [Cursor.digits, Cursor.get_bind]
    cases hdigit : (c.peek? 0).bind digitOf? with
    | none =>
      refine ⟨[], c, .refl c, rfl, ?_, Or.inl ⟨rfl, rfl⟩⟩
      cases hpeek : c.peek? 0 with
      | none =>
        rw [Cursor.ahead_of_peek?_none hpeek]
        rfl
      | some t =>
        rw [hpeek, Option.bind_some] at hdigit
        rw [Cursor.ahead_of_peek?_some hpeek, Reader.leadingDigits_of_digitOf?_eq_none hdigit]
    | some d =>
      obtain ⟨t, hpeek, ht⟩ := Option.bind_eq_some_iff.1 hdigit
      have hlt := Cursor.remaining_advance hpeek
      obtain ⟨ds, c', hreach, hread, hahead, -⟩ := exists_digits rounds c.advance (by omega)
      have hle := hreach.remaining_le
      refine ⟨d :: ds, c', (Cursor.reaches_advance hpeek).trans hreach, ?_, ?_,
        Or.inr ⟨List.cons_ne_nil _ _, by omega⟩⟩
      · show (Cursor.next? >>= _) c = _
        rw [Cursor.next?_bind hpeek, Cursor.bind_of_eq_ok hread]
        rfl
      · rw [Cursor.ahead_of_peek?_some hpeek, leadingDigits_of_digitOf?_eq_some ht, hahead]

theorem tracks_integer {rounds : Nat} (hrounds : c.remaining < rounds) :
    Tracks c c.remaining (Cursor.integer rounds c) (Reader.integer c.ahead) := by
  obtain ⟨ds, c', hreach, hread, hdigits, ⟨rfl, rfl⟩ | ⟨hne, hlt⟩⟩ := exists_digits rounds c hrounds
  · rw [Cursor.integer, Cursor.bind_of_eq_ok hread]
    simp only [List.isEmpty_nil, if_true, Cursor.get_bind]
    cases hpeek : c'.peek? 0 with
    | none =>
      have hnil := Cursor.ahead_of_peek?_none hpeek
      have hinteger : Reader.integer c'.ahead = .error (.fault (.unexpectedEnd none)) c'.ahead := by
        rw [hnil]
        rfl
      rw [hinteger]
      exact .fault hreach (Cursor.remaining_of_peek?_none hpeek)
    | some t =>
      have hcons := Cursor.ahead_of_peek?_some hpeek
      have hinteger : Reader.integer c'.ahead =
          .error (.fault (.badToken t.written none)) c'.ahead := by
        rw [hcons] at hdigits ⊢
        simp only [Reader.integer, hdigits]
      rw [hinteger]
      exact .fault hreach (Or.inl (by simp [Cursor.isAt, hpeek]))
  · rw [Cursor.integer, Cursor.bind_of_eq_ok hread]
    obtain ⟨d, ds, rfl⟩ := List.exists_cons_of_ne_nil hne
    have hinteger : Reader.integer c.ahead = .ok (String.ofList (d :: ds)) c'.ahead := by
      simp only [Reader.integer, hdigits]
    rw [hinteger]
    exact .ok hreach hlt

end Tracks

end LatexLogic
