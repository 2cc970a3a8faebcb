import LatexLogic.Proofs.Reading.Name

/-!
# Metavariables as they are written

Which tokens the reader of metavariables accepts after the letter, said without the reader: a
subscript or none, and then a declaration or none (`DeclarationSpelled`), which is a group of
variables with commas between them (`VariablesSpelled`). The reader accepts exactly these tokens
(`metavariable_eq_ok_iff`).

All of them are looked at in front of the tokens that remain. What remains matters at its first
tokens only: a name with a subscript ends anywhere, a name without one ends where no underscore
stands (`SubscriptSpelled.change_rest`, `VariableSpelled.change_rest`).
-/

set_option autoImplicit false

namespace LatexLogic

namespace Reader

variable {ts u rest rest' : List Token}

/-! ## What follows a name -/

/-- A subscript takes the same tokens whatever remains after it. -/
theorem SubscriptSpelled.exists_taken {ds : List Char} (h : SubscriptSpelled ts ds rest) :
    ∃ u, ts = u ++ rest ∧ ∀ rest', SubscriptSpelled (u ++ rest') ds rest' := by
  cases h with
  | @digit u d rest hu hd => exact ⟨[u, .char d], rfl, fun rest' => .digit rest' hu hd⟩
  | @group u o c ds rest hu ho hne hall hc =>
    refine ⟨u :: o :: (ds.map Token.char ++ [c]), by simp, fun rest' => ?_⟩
    have h := SubscriptSpelled.group rest' hu ho hne hall hc
    simpa using h

theorem SubscriptSpelled.change_rest {ds : List Char} (h : SubscriptSpelled (u ++ rest) ds rest)
    (rest' : List Token) : SubscriptSpelled (u ++ rest') ds rest' := by
  obtain ⟨v, heq, hv⟩ := h.exists_taken
  rw [List.append_cancel_right heq]
  exact hv rest'

/-- A variable takes the same tokens in front of anything that begins with an underscore only if what
followed it did. -/
theorem VariableSpelled.change_rest {name : String} (h : VariableSpelled (u ++ rest) name rest)
    (hrest : nextIs "_" rest = false → nextIs "_" rest' = false) :
    VariableSpelled (u ++ rest') name rest' := by
  generalize hts : u ++ rest = ts at h
  cases h with
  | @plain c rest hc hnext =>
    obtain rfl : u = [.char c] := List.append_cancel_right (hts.trans (List.singleton_append).symm)
    exact .plain rest' hc (hrest hnext)
  | @subscripted c ds us rest hc hspelled =>
    obtain ⟨v, rfl, hv⟩ := hspelled.exists_taken
    obtain rfl : u = .char c :: v := List.append_cancel_right (hts.trans (List.cons_append).symm)
    exact .subscripted rest' hc (hv rest')

/-- The same of a name that a letter begins which was read before. -/
theorem withSubscript_change_rest {name s : String}
    (h : withSubscript name (u ++ rest) = .ok s rest)
    (hrest : nextIs "_" rest = false → nextIs "_" rest' = false) :
    withSubscript name (u ++ rest') = .ok s rest' := by
  rcases withSubscript_eq_ok_iff.1 h with ⟨hnext, rfl, heq⟩ | ⟨ds, hspelled, rfl⟩
  · obtain rfl : u = [] := List.append_left_eq_self.1 heq.symm
    exact withSubscript_eq_ok_iff.2 (Or.inl ⟨hrest hnext, rfl, rfl⟩)
  · exact withSubscript_eq_ok_iff.2 (Or.inr ⟨ds, hspelled.change_rest rest', rfl⟩)

/-! ## Lists of variables -/

/-- The tokens are variables with commas between them, in front of the remaining ones. -/
inductive VariablesSpelled : List Token → List String → List Token → Prop where
  | last {u rest : List Token} {name : String} :
      VariableSpelled (u ++ rest) name rest → nextIs "," rest = false →
      VariablesSpelled u [name] rest
  | comma {t : Token} {u v rest : List Token} {name : String} {names : List String} :
      VariableSpelled (u ++ t :: (v ++ rest)) name (t :: (v ++ rest)) → t.written = "," →
      VariablesSpelled v names rest → VariablesSpelled (u ++ t :: v) (name :: names) rest

/-- A list of variables is read exactly as it is spelled. -/
theorem list_variableName_eq_ok_iff {names : List String} :
    list variableName ts = .ok names rest ↔
      ∃ u, ts = u ++ rest ∧ VariablesSpelled u names rest := by
  constructor
  · intro h
    refine list_induction forward_variableName (n := ts.length)
      (R := fun ts names rest => ∃ u, ts = u ++ rest ∧ VariablesSpelled u names rest)
      ?last ?comma le_rfl h
    case last =>
      intro ts name mid _ hname hmid
      obtain ⟨u, rfl⟩ := forward_variableName.ok hname
      exact ⟨u, rfl, .last (variableName_eq_ok_iff.1 hname) hmid⟩
    case comma =>
      intro ts name t us names rest _ hname ht hrest
      obtain ⟨v, rfl, hv⟩ := hrest
      obtain ⟨u, rfl⟩ := forward_variableName.ok hname
      exact ⟨u ++ t :: v, by simp, .comma (variableName_eq_ok_iff.1 hname) ht hv⟩
  · rintro ⟨u, rfl, h⟩
    induction h with
    | last hname hend => exact list_of_end (variableName_eq_ok_iff.2 hname) hend
    | comma hname ht _ ih =>
      rw [List.append_assoc, List.cons_append,
        list_of_comma forward_variableName (variableName_eq_ok_iff.2 hname) ht, bind_of_eq_ok ih]
      rfl

/-! ## Declarations -/

/-- A declaration, or none where no parenthesis opens, in front of the remaining tokens. -/
inductive DeclarationSpelled : List Token → List String → List Token → Prop where
  | none {rest : List Token} : opensWith "(" rest = false → DeclarationSpelled [] [] rest
  | group {form : Form} {us u vs rest : List Token} {names : List String} :
      Opening form us → Closing form vs → VariablesSpelled u names (vs ++ rest) →
      DeclarationSpelled (us ++ (u ++ vs)) names rest

/-- A declaration is read exactly as it is spelled. -/
theorem declaration_eq_ok_iff {names : List String} :
    declaration ts = .ok names rest ↔
      ∃ u, ts = u ++ rest ∧ DeclarationSpelled u names rest := by
  simp only [declaration, get_bind]
  cases hopen : opensWith "(" ts with
  | false =>
    simp only [Bool.false_eq_true, if_false, pure_eq_ok_iff]
    constructor
    · rintro ⟨rfl, rfl⟩
      exact ⟨[], rfl, .none hopen⟩
    · rintro ⟨u, rfl, hspelled⟩
      cases hspelled with
      | none _ => exact ⟨rfl, rfl⟩
      | group hus _ _ =>
        rw [List.append_assoc, opensWith_iff.2 ⟨_, _, _, hus, rfl⟩] at hopen
        cases hopen
  | true =>
    simp only [if_true, parenthesised_eq_ok_iff, list_variableName_eq_ok_iff]
    constructor
    · rintro ⟨form, us, inside, vs, hus, hvs, rfl, u, rfl, hu⟩
      exact ⟨us ++ (u ++ vs), by simp, .group hus hvs hu⟩
    · rintro ⟨u, rfl, hspelled⟩
      cases hspelled with
      | none hclosed =>
        rw [List.nil_append, hclosed] at hopen
        cases hopen
      | @group form us v vs _ _ hus hvs hv =>
        exact ⟨form, us, v ++ (vs ++ rest), vs, hus, hvs, by simp, v, rfl, hv⟩

/-- What follows the letter of a metavariable is read as a subscript and a declaration. -/
theorem metavariable_eq_ok_iff {letter : MetaLetter} {tree : Tree} :
    metavariable letter ts = .ok tree rest ↔
      ∃ u v name declared, ts = u ++ (v ++ rest) ∧
        withSubscript letter.name (u ++ (v ++ rest)) = .ok name (v ++ rest) ∧
        DeclarationSpelled v declared rest ∧ tree = .metavar name declared := by
  simp only [metavariable, bind_eq_ok_iff, pure_eq_ok_iff]
  constructor
  · rintro ⟨name, mid, hname, declared, _, hdeclared, rfl, rfl⟩
    obtain ⟨v, rfl, hv⟩ := declaration_eq_ok_iff.1 hdeclared
    obtain ⟨u, rfl⟩ := (forward_withSubscript letter.name).ok hname
    exact ⟨u, v, name, declared, rfl, hname, hv, rfl⟩
  · rintro ⟨u, v, name, declared, rfl, hname, hdeclared, rfl⟩
    exact ⟨name, _, hname, declared, rest, declaration_eq_ok_iff.2 ⟨v, rfl, hdeclared⟩, rfl, rfl⟩

/-- The tokens that a metavariable takes after its letter are a subscript and a declaration. -/
theorem metavariable_parts {letter : MetaLetter} {tree : Tree}
    (h : metavariable letter (u ++ rest) = .ok tree rest) :
    ∃ v w name declared, u = v ++ w ∧
      withSubscript letter.name (v ++ (w ++ rest)) = .ok name (w ++ rest) ∧
      DeclarationSpelled w declared rest ∧ tree = .metavar name declared := by
  obtain ⟨v, w, name, declared, heq, hname, hdeclared, htree⟩ := metavariable_eq_ok_iff.1 h
  rw [← List.append_assoc] at heq
  exact ⟨v, w, name, declared, List.append_cancel_right heq, hname, hdeclared, htree⟩

end Reader

end LatexLogic
