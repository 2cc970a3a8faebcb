import LatexLogic.Proofs.Binding.Occurrence

/-!
# Places of occurrences

The occurrences of names in a formula come in the order of their places (`FormulaWritten.ordered`),
and at each place the tokens show what is said of them (`FormulaWritten.standsIn`). No variable is
left out: where a letter stands that begins a variable, there is an occurrence, or a quantifier comes
right before it (`FormulaWritten.accounted`).
-/

set_option autoImplicit false

namespace LatexLogic

open Reader

/-! ## Order -/

namespace Occurrence

/-- The places grow, from the first given one to below the second. -/
def Ordered : Nat → List Occurrence → Nat → Prop
  | n, [], k => n ≤ k
  | n, o :: os, k => n ≤ o.place ∧ Ordered (o.place + 1) os k

variable {n m k : Nat} {os os' : List Occurrence}

theorem Ordered.weaken : ∀ {os : List Occurrence} {n m : Nat}, Ordered n os k → m ≤ n →
    Ordered m os k
  | [], _, _, h, hle => Nat.le_trans hle h
  | _ :: _, _, _, h, hle => ⟨Nat.le_trans hle h.1, h.2⟩

theorem Ordered.append (h : Ordered n os m) (h' : Ordered m os' k) : Ordered n (os ++ os') k := by
  induction os generalizing n with
  | nil => exact h'.weaken h
  | cons o os ih => exact ⟨h.1, ih h.2⟩

theorem Ordered.widen (h : Ordered n os m) (hle : m ≤ k) : Ordered n os k := by
  rw [← List.append_nil os]
  exact h.append hle

theorem Ordered.under (h : Ordered n os k) (bound : String) :
    Ordered n (os.map (.under bound)) k := by
  induction os generalizing n with
  | nil => exact h
  | cons o os ih => exact ⟨h.1, ih h.2⟩

theorem Ordered.le_place (h : Ordered n os k) : ∀ o ∈ os, n ≤ o.place := by
  induction os generalizing n with
  | nil => exact fun o ho => absurd ho List.not_mem_nil
  | cons o os ih =>
    rw [List.forall_mem_cons]
    refine ⟨h.1, fun o' ho' => ?_⟩
    have hplace := ih h.2 o' ho'
    have hfirst := h.1
    omega

theorem Ordered.pairwise (h : Ordered n os k) : os.Pairwise fun o o' => o.place < o'.place := by
  induction os generalizing n with
  | nil => exact .nil
  | cons o os ih => exact .cons (fun o' ho' => h.2.le_place o' ho') (ih h.2)

end Occurrence

open Occurrence (Ordered)

section Places

variable {u rest : List Token} {n : Nat} {os : List Occurrence}

theorem ordered_of_variableSpelled {name : String} (h : VariableSpelled (u ++ rest) name rest)
    (role : Role) : Ordered n [⟨n, role, name, []⟩] (n + u.length) := by
  have hlength := h.length_lt
  rw [List.length_append] at hlength
  exact ⟨Nat.le_refl n, by show n + 1 ≤ n + u.length; omega⟩

theorem NamesWritten.ordered {names : List String} (h : NamesWritten u names rest n os) :
    Ordered n os (n + u.length) := by
  induction h with
  | last hname => exact ordered_of_variableSpelled hname .declared
  | @comma t u v rest name names n os hname _ _ ih =>
    have hfirst := (ordered_of_variableSpelled (n := n) hname .declared).widen
      (Nat.add_le_add_left (Nat.le_succ u.length) n)
    refine (hfirst.append ih).widen ?_
    rw [List.length_append, List.length_cons]
    omega

theorem TermsWritten.ordered {trees : List Tree} (h : TermsWritten u trees rest n os) :
    Ordered n os (n + u.length) := by
  induction h with
  | name hname => exact ordered_of_variableSpelled hname .leaf
  | between _ _ _ ih ih' =>
    -- No occurrence begins at the token between the two parts.
    refine ((ih.widen (by omega)).append ih').widen ?_
    rw [List.length_append, List.length_cons]
    omega
  | parens _ _ _ ih =>
    refine (ih.weaken (by omega)).widen ?_
    simp only [List.length_append]
    omega
  | application _ _ _ ih =>
    refine (ih.weaken (by omega)).widen ?_
    simp only [List.length_append, List.length_cons]
    omega
  | comma _ _ _ ih ih' =>
    refine ((ih.widen (by omega)).append ih').widen ?_
    rw [List.length_append, List.length_cons]
    omega

theorem FormulaWritten.ordered {tree : Tree} (h : FormulaWritten u tree rest n os) :
    Ordered n os (n + u.length) := by
  induction h with
  | between _ _ _ ih ih' =>
    refine ((ih.widen (by omega)).append ih').widen ?_
    rw [List.length_append, List.length_cons]
    omega
  | before _ ih =>
    refine (ih.weaken (by omega)).widen ?_
    rw [List.length_cons]
    omega
  | @quantified lexeme label bound u v rest scope n os _ _ ih =>
    refine ((ih.under bound).weaken (by omega)).widen ?_
    rw [List.length_cons, List.length_append]
    omega
  | metavariable _ _ => exact Nat.le_add_right _ _
  | declaration _ _ _ hnames =>
    refine (hnames.ordered.weaken (by omega)).widen ?_
    simp only [List.length_append, List.length_cons]
    omega
  | constant => exact ⟨Nat.le_refl _, Nat.le_refl _⟩
  | predicate _ _ hargs =>
    refine (hargs.ordered.weaken (by omega)).widen ?_
    simp only [List.length_append, List.length_cons]
    omega
  | parens _ _ _ ih =>
    refine (ih.weaken (by omega)).widen ?_
    simp only [List.length_append]
    omega
  | comparison hleft hright =>
    refine ((hleft.ordered.widen (by omega)).append hright.ordered).widen ?_
    rw [List.length_append, List.length_cons]
    omega

/-! ## What stands at the places -/

theorem drop_add_length {ts w after : List Token} {n : Nat} (h : ts.drop n = w ++ after) :
    ts.drop (n + w.length) = after := by
  rw [← List.drop_drop, h, List.drop_left]

/-- After a phrase and one more token. -/
theorem drop_succ_length {ts w after : List Token} {t : Token} {n : Nat}
    (h : ts.drop n = w ++ t :: after) : ts.drop (n + (w.length + 1)) = after := by
  rw [← List.drop_drop, h, List.drop_length_add_append]
  rfl

theorem NamesWritten.standsIn {names : List String} (h : NamesWritten u names rest n os)
    {ts : List Token} (hts : ts.drop n = u ++ rest) : ∀ o ∈ os, o.StandsIn ts := by
  induction h with
  | last hname =>
    rw [List.forall_mem_singleton]
    exact ⟨_, hts ▸ hname⟩
  | comma hname _ _ ih =>
    rw [List.append_assoc, List.cons_append] at hts
    rw [List.forall_mem_cons]
    exact ⟨⟨_, hts ▸ hname⟩, ih (drop_succ_length hts)⟩

theorem TermsWritten.standsIn {trees : List Tree} (h : TermsWritten u trees rest n os)
    {ts : List Token} (hts : ts.drop n = u ++ rest) : ∀ o ∈ os, o.StandsIn ts := by
  induction h with
  | name hname =>
    rw [List.forall_mem_singleton]
    exact ⟨_, hts ▸ hname⟩
  | between _ _ _ ih ih' =>
    rw [List.append_assoc, List.cons_append] at hts
    exact List.forall_mem_append.2 ⟨ih hts, ih' (drop_succ_length hts)⟩
  | parens _ _ _ ih =>
    rw [List.append_assoc, List.append_assoc] at hts
    exact ih (drop_add_length hts)
  | application _ _ _ ih =>
    rw [List.cons_append, List.append_assoc, List.append_assoc, ← List.cons_append] at hts
    exact ih (drop_add_length hts)
  | comma _ _ _ ih ih' =>
    rw [List.append_assoc, List.cons_append] at hts
    exact List.forall_mem_append.2 ⟨ih hts, ih' (drop_succ_length hts)⟩

/-- At the place of an occurrence the tokens mention its name in its role. -/
theorem FormulaWritten.standsIn {tree : Tree} (h : FormulaWritten u tree rest n os)
    {ts : List Token} (hts : ts.drop n = u ++ rest) : ∀ o ∈ os, o.StandsIn ts := by
  induction h with
  | between _ _ _ ih ih' =>
    rw [List.append_assoc, List.cons_append] at hts
    exact List.forall_mem_append.2 ⟨ih hts, ih' (drop_succ_length hts)⟩
  | before _ ih => exact ih (drop_succ_length (w := []) hts)
  | @quantified lexeme label bound u v rest scope n os _ _ ih =>
    rw [List.cons_append, List.append_assoc, ← List.cons_append] at hts
    exact List.forall_mem_map.2 (ih (drop_add_length hts))
  | metavariable _ _ => exact fun o ho => absurd ho List.not_mem_nil
  | @declaration letter form w us u vs rest name names n os _ _ _ hnames =>
    refine hnames.standsIn (drop_add_length (drop_add_length (w := .metavariable letter :: w) ?_))
    simpa only [List.cons_append, List.append_assoc] using hts
  | constant =>
    rw [List.forall_mem_singleton]
    exact ⟨_, _, _, _, hts⟩
  | predicate _ _ hargs =>
    rw [List.cons_append, List.append_assoc, List.append_assoc, ← List.cons_append] at hts
    exact hargs.standsIn (drop_add_length hts)
  | parens _ _ _ ih =>
    rw [List.append_assoc, List.append_assoc] at hts
    exact ih (drop_add_length hts)
  | comparison hleft hright =>
    rw [List.append_assoc, List.cons_append] at hts
    exact List.forall_mem_append.2 ⟨hleft.standsIn hts, hright.standsIn (drop_succ_length hts)⟩

end Places

/-! ## No variable is left out -/

/-- The token is the letter of a variable. -/
def Token.IsLetter (t : Token) : Prop :=
  ∃ c, t = .char c ∧ isVariableLetter c = true

theorem Token.not_isLetter_known (lexeme : Lexeme) (c : Construct) :
    ¬ (Token.known lexeme c).IsLetter := by
  rintro ⟨_, heq, -⟩
  cases heq

theorem Token.not_isLetter_metavariable (letter : MetaLetter) :
    ¬ (Token.metavariable letter).IsLetter := by
  rintro ⟨_, heq, -⟩
  cases heq

/-- A token that is written as a text other than a variable is no letter. -/
theorem Token.not_isLetter_of_written {t : Token} {s : String} (h : t.written = s)
    (hs : isVariable s = false) : ¬ t.IsLetter := by
  rintro ⟨c, rfl, hc⟩
  obtain rfl : String.singleton c = s := h
  have htrue : isVariable (String.singleton c) = true := by
    simp [isVariable, isVariableOf, isSubscriptPart, hc]
  rw [htrue] at hs
  cases hs

theorem isVariableLetter_of_isDecimalDigit {d : Char} (hd : isDecimalDigit d = true) :
    isVariableLetter d = false := by
  rw [isDecimalDigit, Bool.and_eq_true, decide_eq_true_eq, decide_eq_true_eq] at hd
  rw [isVariableLetter, Bool.and_eq_false_iff, decide_eq_false_iff_not]
  refine Or.inl fun hle => ?_
  have hlt : 'a' ≤ '9' := Char.le_trans hle hd.2
  exact absurd hlt (by decide)

namespace Reader

variable {u rest : List Token}

theorem Opening.not_isLetter {form : Form} {us : List Token} (h : Opening form us) :
    ∀ t ∈ us, ¬ t.IsLetter := by
  cases h with
  | short ho => simpa using Token.not_isLetter_of_written ho (by decide)
  | long hl ho =>
    simpa using And.intro (Token.not_isLetter_of_written hl (by decide))
      (Token.not_isLetter_of_written ho (by decide))

theorem Closing.not_isLetter {form : Form} {vs : List Token} (h : Closing form vs) :
    ∀ t ∈ vs, ¬ t.IsLetter := by
  cases h with
  | short hc => simpa using Token.not_isLetter_of_written hc (by decide)
  | long hr hc =>
    simpa using And.intro (Token.not_isLetter_of_written hr (by decide))
      (Token.not_isLetter_of_written hc (by decide))

theorem SubscriptSpelled.not_isLetter {ds : List Char} (h : SubscriptSpelled (u ++ rest) ds rest) :
    ∀ t ∈ u, ¬ t.IsLetter := by
  have hdigit : ∀ d, isDecimalDigit d = true → ¬ (Token.char d).IsLetter := by
    rintro d hd ⟨c, ⟨⟩, hc⟩
    rw [isVariableLetter_of_isDecimalDigit hd] at hc
    cases hc
  generalize hts : u ++ rest = ts at h
  cases h with
  | @digit t d rest ht hd =>
    obtain rfl : u = [t, .char d] := List.append_cancel_right hts
    simpa using And.intro (Token.not_isLetter_of_written ht (by decide)) (hdigit d hd)
  | @group t o c ds rest ht ho _ hall hc =>
    obtain rfl : u = t :: o :: (ds.map Token.char ++ [c]) :=
      List.append_cancel_right (hts.trans (by simp))
    rw [List.forall_mem_cons, List.forall_mem_cons, List.forall_mem_append, List.forall_mem_map,
      List.forall_mem_singleton]
    exact ⟨Token.not_isLetter_of_written ht (by decide),
      Token.not_isLetter_of_written ho (by decide), fun d hd => hdigit d (hall d hd),
      Token.not_isLetter_of_written hc (by decide)⟩

/-- A variable is a letter and tokens that are none. -/
theorem VariableSpelled.exists_cons {name : String} (h : VariableSpelled (u ++ rest) name rest) :
    ∃ t w, u = t :: w ∧ t.IsLetter ∧ ∀ t' ∈ w, ¬ t'.IsLetter := by
  generalize hts : u ++ rest = ts at h
  cases h with
  | @plain c rest hc _ =>
    obtain rfl : u = [.char c] := List.append_cancel_right hts
    exact ⟨_, [], rfl, ⟨c, rfl, hc⟩, fun t ht => absurd ht List.not_mem_nil⟩
  | @subscripted c ds us rest hc hspelled =>
    obtain ⟨v, rfl, -⟩ := hspelled.exists_taken
    obtain rfl : u = .char c :: v := List.append_cancel_right hts
    exact ⟨_, v, rfl, ⟨c, rfl, hc⟩, hspelled.not_isLetter⟩

theorem not_isLetter_of_withSubscript {name s : String}
    (h : withSubscript name (u ++ rest) = .ok s rest) : ∀ t ∈ u, ¬ t.IsLetter := by
  rcases withSubscript_eq_ok_iff.1 h with ⟨-, -, heq⟩ | ⟨ds, hspelled, -⟩
  · obtain rfl : u = [] := List.append_left_eq_self.1 heq.symm
    exact fun t ht => absurd ht List.not_mem_nil
  · exact hspelled.not_isLetter

end Reader

/-- Every letter of a variable among the tokens from place `n` on begins an occurrence, or a
quantifier comes right before it. -/
def Accounted (n : Nat) (u : List Token) (os : List Occurrence) : Prop :=
  ∀ i t, u[i]? = some t → t.IsLetter →
    (∃ o ∈ os, o.place = n + i ∧ o.role ≠ .constant) ∨
      ∃ j lexeme label, i = j + 1 ∧ u[j]? = some (.known lexeme (.quantifier label))

section Accounted

variable {u v rest : List Token} {n : Nat} {os os' : List Occurrence}

theorem accounted_of_forall (h : ∀ t ∈ u, ¬ t.IsLetter) : Accounted n u os :=
  fun _ t hi ht => absurd ht (h t (List.mem_of_getElem? hi))

theorem Accounted.append (hu : Accounted n u os) (hv : Accounted (n + u.length) v os') :
    Accounted n (u ++ v) (os ++ os') := by
  intro i t hi ht
  by_cases hlt : i < u.length
  · rw [List.getElem?_append_left hlt] at hi
    rcases hu i t hi ht with ⟨o, ho, hplace⟩ | ⟨j, lexeme, label, rfl, hj⟩
    · exact Or.inl ⟨o, List.mem_append_left _ ho, hplace⟩
    · exact Or.inr ⟨j, lexeme, label, rfl, by rwa [List.getElem?_append_left (by omega)]⟩
  · rw [List.getElem?_append_right (by omega)] at hi
    rcases hv _ t hi ht with ⟨o, ho, hplace, hrole⟩ | ⟨j, lexeme, label, hij, hj⟩
    · exact Or.inl ⟨o, List.mem_append_right _ ho, by omega, hrole⟩
    · refine Or.inr ⟨u.length + j, lexeme, label, by omega, ?_⟩
      rwa [List.getElem?_append_right (by omega), Nat.add_sub_cancel_left]

theorem Accounted.append_silent (hu : Accounted n u os) (hv : ∀ t ∈ v, ¬ t.IsLetter) :
    Accounted n (u ++ v) os := by
  have hsilent : Accounted (n + u.length) v [] := accounted_of_forall hv
  have h := hu.append hsilent
  rwa [List.append_nil] at h

theorem Accounted.silent_append (hu : ∀ t ∈ u, ¬ t.IsLetter) (hv : Accounted (n + u.length) v os) :
    Accounted n (u ++ v) os := by
  have hsilent : Accounted n u [] := accounted_of_forall hu
  exact hsilent.append hv

theorem Accounted.cons {t : Token} (ht : ¬ t.IsLetter) (hu : Accounted (n + 1) u os) :
    Accounted n (t :: u) os :=
  Accounted.silent_append (u := [t]) (by simpa using ht) hu

theorem Accounted.between {t : Token} (ht : ¬ t.IsLetter) (hu : Accounted n u os)
    (hv : Accounted (n + (u.length + 1)) v os') : Accounted n (u ++ t :: v) (os ++ os') :=
  hu.append (.cons ht hv)

theorem Accounted.parens {form : Form} {us vs : List Token} (hopen : Opening form us)
    (hclose : Closing form vs) (hu : Accounted (n + us.length) u os) :
    Accounted n (us ++ (u ++ vs)) os :=
  .silent_append hopen.not_isLetter (hu.append_silent hclose.not_isLetter)

theorem Accounted.under (h : Accounted n u os) (bound : String) :
    Accounted n u (os.map (.under bound)) := by
  intro i t hi ht
  rcases h i t hi ht with ⟨o, ho, hplace⟩ | hbefore
  · exact Or.inl ⟨o.under bound, List.mem_map_of_mem ho, hplace⟩
  · exact Or.inr hbefore

theorem accounted_of_variableSpelled {name : String} (h : VariableSpelled (u ++ rest) name rest)
    (role : Role) (hrole : role ≠ .constant) : Accounted n u [⟨n, role, name, []⟩] := by
  obtain ⟨t, w, rfl, -, hw⟩ := h.exists_cons
  intro i t' hi ht'
  cases i with
  | zero => exact Or.inl ⟨_, List.mem_singleton_self _, rfl, hrole⟩
  | succ i => exact absurd ht' (hw t' (List.mem_of_getElem? hi))

/-- The variable after a quantifier is accounted for by the quantifier. -/
theorem accounted_of_quantifier {lexeme : Lexeme} {label name : String}
    (h : VariableSpelled (u ++ rest) name rest) :
    Accounted n (.known lexeme (.quantifier label) :: u) [] := by
  obtain ⟨t, w, rfl, -, hw⟩ := h.exists_cons
  intro i t' hi ht'
  -- Of the quantifier, the letter and the rest of the variable only the second is a letter.
  match i with
  | 0 =>
    cases hi
    exact absurd ht' (Token.not_isLetter_known _ _)
  | 1 => exact Or.inr ⟨0, lexeme, label, rfl, rfl⟩
  | i + 2 => exact absurd ht' (hw t' (List.mem_of_getElem? hi))

theorem NamesWritten.accounted {names : List String} (h : NamesWritten u names rest n os) :
    Accounted n u os := by
  induction h with
  | last hname => exact accounted_of_variableSpelled hname .declared nofun
  | comma hname ht _ ih =>
    exact .between (Token.not_isLetter_of_written ht (by decide))
      (accounted_of_variableSpelled hname .declared nofun) ih

theorem TermsWritten.accounted {trees : List Tree} (h : TermsWritten u trees rest n os) :
    Accounted n u os := by
  induction h with
  | name hname => exact accounted_of_variableSpelled hname .leaf nofun
  | between ht _ _ ih ih' =>
    obtain ⟨lexeme, precedence, rfl, -⟩ := Token.infixFunction?_eq_some ht
    exact .between (Token.not_isLetter_known _ _) ih ih'
  | parens hopen hclose _ ih => exact .parens hopen hclose ih
  | application hopen hclose _ ih =>
    refine .cons (Token.not_isLetter_known _ _) (.parens hopen hclose ?_)
    rwa [Nat.add_assoc, Nat.add_comm 1]
  | comma _ ht _ ih ih' => exact .between (Token.not_isLetter_of_written ht (by decide)) ih ih'

theorem FormulaWritten.accounted {tree : Tree} (h : FormulaWritten u tree rest n os) :
    Accounted n u os := by
  induction h with
  | between ht _ _ ih ih' =>
    obtain ⟨lexeme, precedence, side, rfl⟩ := Token.infixConnective?_eq_some ht
    exact .between (Token.not_isLetter_known _ _) ih ih'
  | before _ ih => exact .cons (Token.not_isLetter_known _ _) ih
  | @quantified lexeme label bound u v rest scope n os hbound _ ih =>
    exact (accounted_of_quantifier hbound).append (ih.under bound)
  | metavariable hname _ =>
    exact .cons (Token.not_isLetter_metavariable _)
      (accounted_of_forall (not_isLetter_of_withSubscript hname))
  | @declaration letter form w us u vs rest name names n os hname hopen hclose hnames =>
    refine .cons (Token.not_isLetter_metavariable _)
      (.silent_append (not_isLetter_of_withSubscript hname) (.parens hopen hclose ?_))
    have h := hnames.accounted
    rwa [Nat.add_assoc n 1, Nat.add_comm 1]
  | constant => exact accounted_of_forall (by simpa using Token.not_isLetter_known _ _)
  | predicate hopen hclose hargs =>
    refine .cons (Token.not_isLetter_known _ _) (.parens hopen hclose ?_)
    have h := hargs.accounted
    rwa [Nat.add_assoc, Nat.add_comm 1]
  | parens hopen hclose _ ih => exact .parens hopen hclose ih
  | comparison hleft hright =>
    exact .between (Token.not_isLetter_known _ _) hleft.accounted hright.accounted

end Accounted

end LatexLogic
