import LatexLogic.Formula.Reader.Level

/-!
# Outcomes of readers

A reader applied to a list of tokens either succeeds with a result or fails, and in both cases says
which tokens are left. This module says, for the readers out of which all others are made, exactly
when they succeed: sequencing (`bind_eq_ok_iff`), single tokens (`expect_eq_ok_iff`), parentheses
(`parenthesised_eq_ok_iff`) and prefix applications (`application_eq_ok_iff`). A reader is then
taken apart by rewriting, and no proof about formulas has to look into the state of a reader.
-/

set_option autoImplicit false

namespace LatexLogic

/-- An application succeeds exactly if the number of arguments is the arity. -/
theorem Tree.applied_eq_ok_iff {symbol label : String} {arity : Int} {args : List Tree}
    {tree : Tree} :
    Tree.applied symbol label arity args = .ok tree ↔
      (args.length : Int) = arity ∧ tree = .node label args := by
  unfold Tree.applied
  split
  · next h => simp [h, eq_comm]
  · next h => simp [h]

namespace Reader

variable {α β : Type} {ts rest : List Token} {failure : Failure}

/-! ## Sequencing -/

/-- One reader after the other succeeds if both do, the second on what the first has left. -/
@[simp] theorem bind_eq_ok_iff {x : Reader α} {f : α → Reader β} {b : β} :
    (x >>= f) ts = .ok b rest ↔ ∃ a mid, x ts = .ok a mid ∧ f a mid = .ok b rest := by
  show EStateM.bind x f ts = _ ↔ _
  unfold EStateM.bind
  cases x ts with
  | ok a mid => simp [and_assoc]
  | error e mid => simp

/-- One reader after the other fails if the first does, or else the second. -/
@[simp] theorem bind_eq_error_iff {x : Reader α} {f : α → Reader β} :
    (x >>= f) ts = .error failure rest ↔
      x ts = .error failure rest ∨ ∃ a mid, x ts = .ok a mid ∧ f a mid = .error failure rest := by
  show EStateM.bind x f ts = _ ↔ _
  unfold EStateM.bind
  cases x ts with
  | ok a mid => simp [and_assoc]
  | error e mid => simp

/-- After a success the second reader goes on with the result. -/
theorem bind_of_eq_ok {x : Reader α} {f : α → Reader β} {a : α} {mid : List Token}
    (h : x ts = .ok a mid) : (x >>= f) ts = f a mid := by
  show EStateM.bind x f ts = _
  unfold EStateM.bind
  rw [h]

/-- After a failure the second reader is not reached. -/
theorem bind_of_eq_error {x : Reader α} {f : α → Reader β} (h : x ts = .error failure rest) :
    (x >>= f) ts = .error failure rest := by
  show EStateM.bind x f ts = _
  unfold EStateM.bind
  rw [h]

/-- Two sequences have the same outcome if their first readers have, and their second readers have
on what the first ones leave. -/
theorem bind_congr_at {x y : Reader α} {f g : α → Reader β} (hxy : x ts = y ts)
    (hfg : ∀ a mid, x ts = .ok a mid → f a mid = g a mid) : (x >>= f) ts = (y >>= g) ts := by
  show EStateM.bind x f ts = EStateM.bind y g ts
  unfold EStateM.bind
  rw [← hxy]
  cases h : x ts with
  | ok a mid => exact hfg a mid h
  | error e mid => rfl

@[simp] theorem pure_eq_ok_iff {a b : α} :
    (pure a : Reader α) ts = .ok b rest ↔ a = b ∧ ts = rest := by
  show EStateM.Result.ok a ts = _ ↔ _
  simp

@[simp] theorem pure_ne_error {a : α} : (pure a : Reader α) ts ≠ .error failure rest := by
  show EStateM.Result.ok a ts ≠ _
  simp

/-- What reads the state goes on with the tokens at hand. -/
@[simp] theorem get_bind {f : List Token → Reader β} :
    ((get : Reader (List Token)) >>= f) ts = f ts ts := rfl

@[simp] theorem throw_ne_ok {f : Failure} {a : α} : (throw f : Reader α) ts ≠ .ok a rest := by
  show EStateM.Result.error f ts ≠ _
  simp

@[simp] theorem throw_eq_error_iff {f : Failure} :
    (throw f : Reader α) ts = .error failure rest ↔ f = failure ∧ ts = rest := by
  show EStateM.Result.error f ts = _ ↔ _
  simp

@[simp] theorem fail_ne_ok {e : FormulaError} {a : α} : (fail e : Reader α) ts ≠ .ok a rest :=
  throw_ne_ok

@[simp] theorem fail_eq_error_iff {e : FormulaError} :
    (fail e : Reader α) ts = .error failure rest ↔ .fault e = failure ∧ ts = rest :=
  throw_eq_error_iff

/-! ## Single tokens -/

/-- Looking at the next token takes nothing. -/
@[simp] theorem peek?_bind {f : Option Token → Reader β} :
    (peek? >>= f) ts = f ts.head? ts := rfl

@[simp] theorem next?_bind_nil {f : Option Token → Reader β} : (next? >>= f) [] = f none [] := rfl

@[simp] theorem next?_bind_cons {f : Option Token → Reader β} {t : Token} :
    (next? >>= f) (t :: ts) = f (some t) ts := rfl

/-- The next token is read if there is one. -/
@[simp] theorem next_eq_ok_iff {t : Token} : next ts = .ok t rest ↔ ts = t :: rest := by
  cases ts with
  | nil => simp [next]
  | cons u us => simp [next]

/-- A demanded token is read if it stands next. -/
@[simp] theorem expect_eq_ok_iff {written : String} {t : Token} :
    expect written ts = .ok t rest ↔ ts = t :: rest ∧ t.written = written := by
  cases ts with
  | nil => simp [expect]
  | cons u us =>
    by_cases h : u.written = written
    · simp only [expect, next?_bind_cons, if_pos h, pure_eq_ok_iff, List.cons.injEq]
      constructor
      · rintro ⟨rfl, rfl⟩
        exact ⟨⟨rfl, rfl⟩, h⟩
      · rintro ⟨hts, -⟩
        exact hts
    · simp only [expect, next?_bind_cons, if_neg h, fail_ne_ok, List.cons.injEq, false_iff]
      rintro ⟨⟨rfl, -⟩, ht⟩
      exact h ht

@[simp] theorem nextIs_nil {written : String} : nextIs written [] = false := rfl

@[simp] theorem nextIs_cons {written : String} {t : Token} :
    nextIs written (t :: ts) = (t.written == written) := rfl

/-- The errors that a single token or the lack of one gives rise to. -/
def IsTokenFault : Failure → Prop
  | .fault (.badToken _ _) => True
  | .fault (.unexpectedEnd _) => True
  | _ => False

/-- A demanded token that is missing is a fault of a token. -/
theorem isTokenFault_of_expect {written : String} (h : expect written ts = .error failure rest) :
    IsTokenFault failure := by
  cases ts with
  | nil =>
    simp only [expect, next?_bind_nil, fail_eq_error_iff] at h
    rw [← h.1]
    trivial
  | cons t ts =>
    by_cases ht : t.written = written
    · simp [expect, ht] at h
    · simp only [expect, next?_bind_cons, if_neg ht, fail_eq_error_iff] at h
      rw [← h.1]
      trivial

/-! ## Parentheses -/

/-- The two ways of writing parentheses: alone, or each after the word for its side. -/
inductive Form where
  | short
  | long
  deriving DecidableEq, Repr

/-- The tokens of an opening parenthesis. -/
inductive Opening : Form → List Token → Prop where
  | short {o : Token} : o.written = "(" → Opening .short [o]
  | long {l o : Token} : l.written = leftWord → o.written = "(" → Opening .long [l, o]

/-- The tokens of a closing parenthesis. -/
inductive Closing : Form → List Token → Prop where
  | short {c : Token} : c.written = ")" → Closing .short [c]
  | long {r c : Token} : r.written = rightWord → c.written = ")" → Closing .long [r, c]

theorem Opening.ne_nil {form : Form} {us : List Token} (h : Opening form us) : us ≠ [] := by
  cases h <;> simp

theorem closing_short_iff {vs : List Token} :
    Closing .short vs ↔ ∃ c, vs = [c] ∧ c.written = ")" := by
  constructor
  · intro h
    cases h with
    | short hc => exact ⟨_, rfl, hc⟩
  · rintro ⟨c, rfl, hc⟩
    exact .short hc

theorem closing_long_iff {vs : List Token} :
    Closing .long vs ↔ ∃ r c, vs = [r, c] ∧ r.written = rightWord ∧ c.written = ")" := by
  constructor
  · intro h
    cases h with
    | long hr hc => exact ⟨_, _, rfl, hr, hc⟩
  · rintro ⟨r, c, rfl, hr, hc⟩
    exact .long hr hc

/-- A parenthesis of either form stands next exactly if the tokens start with it. -/
theorem opensWith_iff :
    opensWith "(" ts = true ↔ ∃ form us inside, Opening form us ∧ ts = us ++ inside := by
  constructor
  · intro h
    cases ts with
    | nil => simp [opensWith] at h
    | cons t ts =>
      simp only [opensWith, nextIs_cons, Bool.or_eq_true, Bool.and_eq_true, beq_iff_eq,
        List.drop_succ_cons, List.drop_zero] at h
      rcases h with ht | ⟨ht, ho⟩
      · exact ⟨.short, [t], ts, .short ht, rfl⟩
      · cases ts with
        | nil => simp at ho
        | cons o ts =>
          rw [nextIs_cons, beq_iff_eq] at ho
          exact ⟨.long, [t, o], ts, .long ht ho, rfl⟩
  · rintro ⟨form, us, inside, hopen, rfl⟩
    cases hopen with
    | short ho => simp [opensWith, ho]
    | long hl ho => simp [opensWith, hl, ho]

/-- Tokens start with an opening parenthesis in one way only. -/
theorem Opening.unique {form form' : Form} {us us' inside inside' : List Token}
    (h : Opening form us) (h' : Opening form' us') (heq : us ++ inside = us' ++ inside') :
    form = form' ∧ us = us' ∧ inside = inside' := by
  have hne : ¬ "(" = leftWord := by decide
  cases h with
  | short ho =>
    cases h' with
    | short ho' => simpa using heq
    | long hl ho' =>
      simp only [List.cons_append, List.nil_append, List.cons.injEq] at heq
      exact absurd (ho.symm.trans (heq.1 ▸ hl)) hne
  | long hl ho =>
    cases h' with
    | short ho' =>
      simp only [List.cons_append, List.nil_append, List.cons.injEq] at heq
      exact absurd (ho'.symm.trans (heq.1 ▸ hl)) hne
    | long hl' ho' => simpa [and_assoc] using heq

/-- Takes a closing parenthesis of the given form. -/
def Form.close : Form → Reader Token
  | short => expect ")"
  | long => do
    let _ ← expect rightWord
    expect ")"

/-- After an opening parenthesis what stands inside is read, and then a closing one of its form. -/
theorem parenthesised_of_opening {form : Form} {us : List Token} (h : Opening form us)
    (inner : Reader α) (inside : List Token) :
    parenthesised inner (us ++ inside) =
      (inner >>= fun a => form.close >>= fun _ => pure a) inside := by
  have hne : ¬ "(" = leftWord := by decide
  cases h with
  | short ho =>
    simp only [parenthesised, delimited, List.singleton_append, next?_bind_cons, ho, if_neg hne,
      if_true]
    rfl
  | long hl ho =>
    simp only [parenthesised, delimited, List.cons_append, List.nil_append, next?_bind_cons, hl,
      if_true]
    rw [bind_of_eq_ok (expect_eq_ok_iff.2 ⟨rfl, ho⟩)]
    simp only [Form.close, bind_assoc]

/-- What stands between parentheses is read if both are there in the same form. -/
theorem parenthesised_eq_ok_iff {inner : Reader α} {a : α} :
    parenthesised inner ts = .ok a rest ↔
      ∃ form us inside vs, Opening form us ∧ Closing form vs ∧ ts = us ++ inside ∧
        inner inside = .ok a (vs ++ rest) := by
  constructor
  · intro h
    cases ts with
    | nil => simp [parenthesised, delimited] at h
    | cons t ts =>
      by_cases hleft : t.written = leftWord
      · simp only [parenthesised, delimited, next?_bind_cons, if_pos hleft, bind_eq_ok_iff,
          expect_eq_ok_iff, pure_eq_ok_iff] at h
        obtain ⟨o, inside, ⟨rfl, ho⟩, a, mid, hinner, r, mid', ⟨rfl, hr⟩, c, _, ⟨rfl, hc⟩, rfl,
          rfl⟩ := h
        exact ⟨.long, [t, o], inside, [r, c], .long hleft ho, .long hr hc, rfl, hinner⟩
      · by_cases hopen : t.written = "("
        · simp only [parenthesised, delimited, next?_bind_cons, if_neg hleft, if_pos hopen,
            bind_eq_ok_iff, expect_eq_ok_iff, pure_eq_ok_iff] at h
          obtain ⟨a, mid, hinner, c, _, ⟨rfl, hc⟩, rfl, rfl⟩ := h
          exact ⟨.short, [t], ts, [c], .short hopen, .short hc, rfl, hinner⟩
        · simp [parenthesised, delimited, hleft, hopen] at h
  · rintro ⟨form, us, inside, vs, hopen, hclose, rfl, hinner⟩
    cases hopen with
    | short ho =>
      obtain ⟨c, rfl, hc⟩ := closing_short_iff.1 hclose
      have hne : ¬ "(" = leftWord := by decide
      simp only [parenthesised, delimited, List.singleton_append, next?_bind_cons, ho, if_neg hne,
        if_true, bind_eq_ok_iff, expect_eq_ok_iff, pure_eq_ok_iff]
      exact ⟨a, _, hinner, c, _, ⟨rfl, hc⟩, rfl, rfl⟩
    | long hl ho =>
      obtain ⟨r, c, rfl, hr, hc⟩ := closing_long_iff.1 hclose
      simp only [parenthesised, delimited, List.cons_append, List.nil_append, next?_bind_cons, hl,
        if_true, bind_eq_ok_iff, expect_eq_ok_iff, pure_eq_ok_iff]
      exact ⟨_, _, ⟨rfl, ho⟩, a, _, hinner, r, _, ⟨rfl, hr⟩, c, _, ⟨rfl, hc⟩, rfl, rfl⟩

/-- Reading between parentheses fails where the reader inside fails, or at a parenthesis. -/
theorem parenthesised_eq_error {inner : Reader α}
    (h : parenthesised inner ts = .error failure rest) :
    IsTokenFault failure ∨
      ∃ form us inside, Opening form us ∧ ts = us ++ inside ∧
        inner inside = .error failure rest := by
  cases ts with
  | nil =>
    simp only [parenthesised, delimited, next?_bind_nil, fail_eq_error_iff] at h
    rw [← h.1]
    exact Or.inl trivial
  | cons t ts =>
    by_cases hleft : t.written = leftWord
    · simp only [parenthesised, delimited, next?_bind_cons, if_pos hleft, bind_eq_error_iff,
        expect_eq_ok_iff, pure_ne_error] at h
      rcases h with h | ⟨o, inside, ⟨rfl, ho⟩, h⟩
      · exact Or.inl (isTokenFault_of_expect h)
      · rcases h with h | ⟨a, mid, -, h⟩
        · exact Or.inr ⟨.long, [t, o], inside, .long hleft ho, rfl, h⟩
        · rcases h with h | ⟨_, _, -, h | ⟨_, _, -, h⟩⟩
          · exact Or.inl (isTokenFault_of_expect h)
          · exact Or.inl (isTokenFault_of_expect h)
          · exact h.elim
    · by_cases hopen : t.written = "("
      · simp only [parenthesised, delimited, next?_bind_cons, if_neg hleft, if_pos hopen,
          bind_eq_error_iff, expect_eq_ok_iff, pure_ne_error] at h
        rcases h with h | ⟨a, mid, -, h | ⟨_, _, -, h⟩⟩
        · exact Or.inr ⟨.short, [t], ts, .short hopen, rfl, h⟩
        · exact Or.inl (isTokenFault_of_expect h)
        · exact h.elim
      · simp only [parenthesised, delimited, next?_bind_cons, if_neg hleft, if_neg hopen,
          fail_eq_error_iff] at h
        rw [← h.1]
        exact Or.inl trivial

/-- Two readers that agree on all shorter lists agree between parentheses. -/
theorem parenthesised_congr {inner inner' : Reader α}
    (h : ∀ us : List Token, us.length < ts.length → inner us = inner' us) :
    parenthesised inner ts = parenthesised inner' ts := by
  cases ts with
  | nil => rfl
  | cons t ts =>
    by_cases hleft : t.written = leftWord
    · simp only [parenthesised, delimited, next?_bind_cons, if_pos hleft]
      apply bind_congr_at rfl
      intro o inside ho
      obtain ⟨rfl, -⟩ := expect_eq_ok_iff.1 ho
      exact bind_congr_at (h inside (by simp only [List.length_cons]; omega)) fun _ _ _ => rfl
    · by_cases hopen : t.written = "("
      · simp only [parenthesised, delimited, next?_bind_cons, if_neg hleft, if_pos hopen]
        exact bind_congr_at (h ts (by simp)) fun _ _ _ => rfl
      · simp only [parenthesised, delimited, next?_bind_cons, if_neg hleft, if_neg hopen]

/-- A prefix application is read if its arguments are and their number is the arity. -/
theorem application_eq_ok_iff {symbol label : String} {arity : Nat} {argument : Reader Tree}
    {tree : Tree} :
    Level.application symbol label arity argument ts = .ok tree rest ↔
      ∃ args, parenthesised (list argument) ts = .ok args rest ∧ args.length = arity ∧
        tree = .node label args := by
  simp only [Level.application, bind_eq_ok_iff]
  constructor
  · rintro ⟨args, mid, hargs, happly⟩
    cases hresult : Tree.applied symbol label arity args with
    | ok t =>
      rw [hresult] at happly
      obtain ⟨rfl, rfl⟩ := pure_eq_ok_iff.1 happly
      obtain ⟨harity, rfl⟩ := Tree.applied_eq_ok_iff.1 hresult
      exact ⟨args, hargs, by exact_mod_cast harity, rfl⟩
    | error e =>
      rw [hresult] at happly
      exact absurd happly fail_ne_ok
  · rintro ⟨args, hargs, harity, rfl⟩
    refine ⟨args, rest, hargs, ?_⟩
    rw [Tree.applied_eq_ok_iff.2 ⟨by exact_mod_cast harity, rfl⟩]
    exact pure_eq_ok_iff.2 ⟨rfl, rfl⟩

end Reader

end LatexLogic
