import LatexLogic.Proofs.Binding.Quantified
import LatexLogic.Proofs.Precedence.Powers
import LatexLogic.Proofs.Recovery.Atom
import LatexLogic.Proofs.Recovery.Origin

/-!
# Outcomes over tables with any labels

A text is a formula of a table, or it has one of the nine errors, or an obstacle is met
(`Formula.outcomes`). There are two obstacles. The tree can have an atom that the checks cannot go
through, a connective without operands whose label is no text (`Formula.MeetsForeignAtom`), and a
number can have too many digits to be written, be it the number of arguments in an error or the label
of an accepted tree (`Formula.MeetsLongNumber`). So with labels that are texts and numbers that can be
written only the nine errors are left.

Tables do not look at labels, so there are tables that are accepted and texts that meet an obstacle
(`Formula.not_outcomes`).
-/

set_option autoImplicit false

namespace LatexLogic

namespace Table

variable {t : Table Data}

/-- What holds of the value under a name, and of no text, holds of the value of an entry with this
name. -/
theorem valueNamed_iff {value : Construct Data → Data}
    (hvalue : Construct.KeepsTexts value) (hnodup : t.spellings.Nodup) {P : Data → Prop}
    (htext : ∀ s, ¬ P (.text s)) {name : String} :
    P (t.valueNamed value name) ↔
      ∃ entry ∈ t.entries, P (value entry.2) ∧ t.nameOf entry.1 entry.2.label = name := by
  constructor
  · intro h
    unfold valueNamed at h
    split at h
    · next entry hfind =>
      have hname := List.find?_some hfind
      exact ⟨entry, List.mem_of_find?_eq_some hfind, h, beq_iff_eq.1 hname⟩
    · exact absurd h (htext name)
  · rintro ⟨entry, hentry, h, rfl⟩
    rwa [valueNamed_nameOf hvalue hnodup hentry]

/-- What holds of the value of a name in a list holds of an entry whose name is in the list. -/
theorem exists_valueNamed_iff {value : Construct Data → Data}
    (hvalue : Construct.KeepsTexts value) (hnodup : t.spellings.Nodup) {P : Data → Prop}
    (htext : ∀ s, ¬ P (.text s)) {names : List String} :
    (∃ name ∈ names, P (t.valueNamed value name)) ↔
      ∃ entry ∈ t.entries, P (value entry.2) ∧ t.nameOf entry.1 entry.2.label ∈ names := by
  simp only [valueNamed_iff hvalue hnodup htext]
  constructor
  · rintro ⟨_, hname, entry, hentry, h, rfl⟩
    exact ⟨entry, hentry, h, hname⟩
  · rintro ⟨entry, hentry, h, hname⟩
    exact ⟨_, hname, entry, hentry, h, rfl⟩

/-- No ordinary variable is free in the tree as the checks see it. -/
def ClosesTree (t : Table Data) (raw : Tree) : Prop :=
  (raw.relabelled t.atomText id).Closed t.named.isQuantifierLabel

/-- The checks cannot go through the tree: an atom of it has no parts, or parts that are no trees; or no
variable is free, but stripping comes to an atom without a first part. -/
def BlocksTree (t : Table Data) (raw : Tree) : Prop :=
  (∃ name ∈ raw.atoms, t.NamesAtom .broken name) ∨
    t.ClosesTree raw ∧ raw.MeetsAtom (t.NamesAtom .hollow)

end Table

namespace Formula

variable {t : Table Data} {text : String}

/-! ## Obstacles -/

/-- The text is read as a tree that the checks cannot go through. -/
def MeetsForeignAtom (t : Table Data) (text : String) : Prop :=
  ∃ raw, Reader.formula Level.whole (tokenize t.named text) = .ok raw [] ∧ t.BlocksTree raw

/-- If the text is read as a tree then no ordinary variable is free in it. -/
def NothingFree (t : Table Data) (text : String) : Prop :=
  ∀ raw, Reader.formula Level.whole (tokenize t.named text) = .ok raw [] → t.ClosesTree raw

/-- An operator of the text has a wrong number of arguments, and this number or the right one has too
many digits; or the text is accepted, and a label in its tree has. -/
def MeetsLongNumber (t : Table Data) (text : String) : Prop :=
  (∃ m : Miscount (tokenize t.named text), parse t.named text = .error (.fault m.error) ∧
    (Numeral.isTooLong m.arity = true ∨ Numeral.isTooLong m.args.length = true)) ∨
  ∃ f, parse t.named text = .ok f ∧ ∃ entry ∈ t.entries,
    entry.2.label.hasLongInteger = true ∧ t.nameOf entry.1 entry.2.label ∈ f.tree.labels

theorem rawTree?_eq_some_iff {table : Table} {raw : Tree} :
    rawTree? table text = some raw ↔
      Reader.formula Level.whole (tokenize table text) = .ok raw [] := by
  have hlength := Nat.lt_succ_of_le (length_tokenize_le table text)
  rw [← treeOfTokens_eq_ok_iff hlength, rawTree?]
  cases treeOfTokens (text.length + 1) (tokenize table text) <;> simp [Except.toOption]

/-- What becomes of a tree at its atoms: the checks cannot go through it, or a variable is free in it,
or its atoms are no problem. -/
theorem atomProblem?_cases (ht : t.WellFormed) {raw : Tree}
    (hread : Reader.formula Level.whole (tokenize t.named text) = .ok raw []) :
    (t.BlocksTree raw ∧ atomProblem? t raw = some (.obstacle .sort)) ∨
      (¬ t.BlocksTree raw ∧ ¬ t.ClosesTree raw ∧ ∃ v, isOrdinaryVariable v = true ∧
        atomProblem? t raw = some (.failure (.fault (.freeVariable v)))) ∨
      (¬ t.BlocksTree raw ∧ t.ClosesTree raw ∧ atomProblem? t raw = none) := by
  have hformula := Tree.isFormula_of_formula hread fun _ => within_of_mem_tokenize
  have hatom (sort : Data.AtomSort) (hsort : ∀ s, sort ≠ .text s) (name : String)
      (hname : name ∈ raw.atoms) : t.atomSort name = sort ↔ t.NamesAtom sort name :=
    Table.atomSort_eq_iff ht.nodup_spellings (Or.inl hformula) hsort hname
  have hbroken : (raw.atoms.any fun name => t.atomSort name = .broken) = true ↔
      ∃ name ∈ raw.atoms, t.NamesAtom .broken name := by
    rw [List.any_eq_true]
    refine exists_congr fun name => and_congr_right fun hname => ?_
    rw [decide_eq_true_iff, hatom .broken nofun name hname]
  have hhollow : (raw.stripMeets fun name => t.atomSort name = .hollow) = true ↔
      raw.MeetsAtom (t.NamesAtom .hollow) := by
    simp only [Tree.stripMeets_iff, decide_eq_true_eq]
    exact ⟨fun h => h.imp fun name hname => (hatom .hollow nofun name hname).1,
      fun h => h.imp fun name hname => (hatom .hollow nofun name hname).2⟩
  have hnames : (raw.relabelled t.atomText id).NamesBinders t.named.isQuantifierLabel :=
    (namesBinders_of_read ht.named 0 hread).relabelled
  unfold Table.BlocksTree atomProblem?
  rw [← hbroken, ← hhollow, Table.ClosesTree, Tree.closed_iff hnames]
  cases raw.atoms.any fun name => t.atomSort name = .broken with
  | true => exact Or.inl ⟨Or.inl rfl, rfl⟩
  | false =>
    cases hfree : (raw.relabelled t.atomText id).freeVariables t.named.isQuantifierLabel with
    | cons free others =>
      -- A variable that the check finds is an ordinary one.
      have hordinary := ((Tree.mem_freeVariables_iff hnames).1 (hfree ▸ List.mem_cons_self)).1
      exact Or.inr (Or.inl ⟨by simp, by simp, free, hordinary, rfl⟩)
    | nil =>
      cases raw.stripMeets fun name => t.atomSort name = .hollow with
      | true => exact Or.inl ⟨Or.inr ⟨rfl, rfl⟩, rfl⟩
      | false => exact Or.inr (Or.inr ⟨by simp, rfl, rfl⟩)

/-- What becomes of a text at the atoms of its tree, if it is read as one. -/
theorem parseLabelled_cases (ht : t.WellFormed) (text : String) :
    (MeetsForeignAtom t text ∧ parseLabelled t text = .error (.obstacle .sort)) ∨
      (¬ MeetsForeignAtom t text ∧ ¬ NothingFree t text ∧ ∃ v, isOrdinaryVariable v = true ∧
        parseLabelled t text = .error (.failure (.fault (.freeVariable v)))) ∨
      (¬ MeetsForeignAtom t text ∧ NothingFree t text ∧
        parseLabelled t text = written t (parse t.named text)) := by
  unfold parseLabelled MeetsForeignAtom NothingFree
  simp only [← rawTree?_eq_some_iff]
  cases hraw : rawTree? t.named text with
  | none => simp
  | some raw =>
    simp only [Option.some.injEq, exists_eq_left', forall_eq', Option.bind_some]
    rcases atomProblem?_cases ht (rawTree?_eq_some_iff.1 hraw) with
      ⟨hblocks, hproblem⟩ | ⟨hblocks, hcloses, v, hv, hproblem⟩ | ⟨hblocks, hcloses, hproblem⟩
    · exact Or.inl ⟨hblocks, by rw [hproblem]⟩
    · exact Or.inr (Or.inl ⟨hblocks, hcloses, v, hv, by rw [hproblem]⟩)
    · exact Or.inr (Or.inr ⟨hblocks, hcloses, by rw [hproblem]⟩)

/-- A label in a tree has too many digits if an entry with its name has. -/
theorem hasLongLabel_iff (ht : t.WellFormed) {f : Formula} :
    hasLongLabel t f = true ↔ ∃ entry ∈ t.entries,
      entry.2.label.hasLongInteger = true ∧ t.nameOf entry.1 entry.2.label ∈ f.tree.labels := by
  have htext (s : String) : ¬ (Data.text s).hasLongInteger = true := nofun
  rw [hasLongLabel, List.any_eq_true]
  exact Table.exists_valueNamed_iff Construct.keepsTexts_label ht.nodup_spellings
    (P := fun label => label.hasLongInteger = true) htext

/-- A miscount cannot be written if one of its numbers cannot. -/
theorem hasLongNumber_miscount_iff {ts : List Token} (m : Miscount ts) :
    m.error.hasLongNumber = true ↔
      (Numeral.isTooLong m.arity = true ∨ Numeral.isTooLong m.args.length = true) := by
  rw [← Bool.or_eq_true, Miscount.error, FormulaError.ofCount]
  split
  · next hlong => exact iff_of_true rfl hlong
  · next hshort => exact iff_of_false Bool.false_ne_true hshort

/-- An error that holds a number counts arguments. -/
theorem isArgumentCount_of_hasLongNumber {error : FormulaError} (h : error.hasLongNumber = true) :
    error.isArgumentCount = true := by
  cases error with
  | longArgumentCount symbol expected actual => rfl
  | _ => cases h

/-- A result cannot be written exactly if a number in it cannot. -/
theorem written_eq_obstacle_iff (ht : t.WellFormed) {o : Obstacle} :
    written t (parse t.named text) = .error (.obstacle o) ↔
      o = .digits ∧ MeetsLongNumber t text := by
  unfold MeetsLongNumber
  rcases exists_outcome t.named text with ⟨f, hf⟩ | ⟨error, herror⟩
  · simp only [hf, written, Except.ok.injEq, exists_eq_left', reduceCtorEq, false_and, exists_false,
      false_or, ← hasLongLabel_iff ht]
    cases hasLongLabel t f <;> simp [eq_comm]
  · -- Of all errors only a miscount holds numbers, so the obstacle has a miscount behind it.
    have hlong : error.hasLongNumber = true ↔ ∃ m : Miscount (tokenize t.named text),
        error = m.error ∧
          (Numeral.isTooLong m.arity = true ∨ Numeral.isTooLong m.args.length = true) := by
      constructor
      · intro hlong
        obtain ⟨m, rfl⟩ := exists_miscount_of_parse herror (isArgumentCount_of_hasLongNumber hlong)
        exact ⟨m, rfl, (hasLongNumber_miscount_iff m).1 hlong⟩
      · rintro ⟨m, rfl, hlong⟩
        exact (hasLongNumber_miscount_iff m).2 hlong
    simp only [herror, written, Except.error.injEq, Failure.fault.injEq, reduceCtorEq, false_and,
      exists_false, or_false, ← hlong]
    cases error.hasLongNumber <;> simp [eq_comm]

/-! ## Outcomes -/

/-- A value of the wrong sort is met exactly at a foreign atom. -/
theorem parseLabelled_eq_sort_iff (ht : t.WellFormed) :
    parseLabelled t text = .error (.obstacle .sort) ↔ MeetsForeignAtom t text := by
  rcases parseLabelled_cases ht text with
    ⟨hatom, heq⟩ | ⟨hatom, -, v, -, heq⟩ | ⟨hatom, -, heq⟩
  · exact iff_of_true heq hatom
  · rw [heq]
    exact iff_of_false nofun hatom
  · rw [heq, written_eq_obstacle_iff ht]
    exact iff_of_false nofun hatom

/-- A number that cannot be written is met unless the checks have found something at the atoms. -/
theorem parseLabelled_eq_digits_iff (ht : t.WellFormed) :
    parseLabelled t text = .error (.obstacle .digits) ↔
      ¬ MeetsForeignAtom t text ∧ NothingFree t text ∧ MeetsLongNumber t text := by
  rcases parseLabelled_cases ht text with
    ⟨hatom, heq⟩ | ⟨-, hfree, v, -, heq⟩ | ⟨hatom, hfree, heq⟩
  · rw [heq]
    exact iff_of_false nofun fun h => h.1 hatom
  · rw [heq]
    exact iff_of_false nofun fun h => hfree h.2.1
  · rw [heq, written_eq_obstacle_iff ht]
    exact ⟨fun h => ⟨hatom, hfree, h.2⟩, fun h => ⟨rfl, h.2.2⟩⟩

/-- No other obstacle is met. -/
theorem eq_sort_or_eq_digits (ht : t.WellFormed) {o : Obstacle}
    (h : parseLabelled t text = .error (.obstacle o)) : o = .sort ∨ o = .digits := by
  rcases parseLabelled_cases ht text with ⟨-, heq⟩ | ⟨-, -, v, -, heq⟩ | ⟨-, -, heq⟩
  · cases heq.symm.trans h
    exact Or.inl rfl
  · cases heq.symm.trans h
  · exact Or.inr ((written_eq_obstacle_iff ht).1 (heq.symm.trans h)).1

/-- What is written down is the result. -/
theorem written_eq_ok {result : Except Failure Formula} {f : Formula}
    (h : written t result = .ok f) : result = .ok f := by
  rcases result with (error | _) | f'
  · cases h
  · cases h
  · rw [written] at h
    split at h
    · cases h
    · cases h
      rfl

/-- A failure that is reported is one of the nine errors. It is a variable that is free, or reading with
names has it. -/
theorem parse_of_parseLabelled (ht : t.WellFormed) {failure : Failure}
    (h : parseLabelled t text = .error (.failure failure)) :
    ∃ error, failure = .fault error ∧ error.hasLongNumber = false ∧
      ((∃ v, isOrdinaryVariable v = true ∧ error = .freeVariable v) ∨
        parse t.named text = .error (.fault error)) := by
  rcases parseLabelled_cases ht text with ⟨-, heq⟩ | ⟨-, -, v, hv, heq⟩ | ⟨-, -, heq⟩
  · cases heq.symm.trans h
  · cases heq.symm.trans h
    exact ⟨_, rfl, rfl, Or.inl ⟨v, hv, rfl⟩⟩
  · have hwritten := heq.symm.trans h
    rcases exists_outcome t.named text with ⟨f, hf⟩ | ⟨error, herror⟩
    · rw [hf, written] at hwritten
      split at hwritten <;> cases hwritten
    · rw [herror, written] at hwritten
      split at hwritten
      · cases hwritten
      · next hshort =>
        cases hwritten
        exact ⟨error, rfl, Bool.eq_false_iff.2 hshort, Or.inr herror⟩

/-- A formula that is accepted is read with names. -/
theorem parse_of_parseLabelled_ok (ht : t.WellFormed) {f : Formula}
    (h : parseLabelled t text = .ok f) : parse t.named text = .ok f := by
  rcases parseLabelled_cases ht text with ⟨-, heq⟩ | ⟨-, -, v, -, heq⟩ | ⟨-, -, heq⟩
  · cases heq.symm.trans h
  · cases heq.symm.trans h
  · exact written_eq_ok (heq.symm.trans h)

/-- With labels that are texts an accepted formula meets no obstacle. -/
theorem parseLabelled_valued {table : Table} {f : Formula} (h : parse table text = .ok f) :
    parseLabelled table.valued text = .ok f := by
  obtain ⟨raw, hraw, hchecks⟩ := exists_tree_of_parse h
  obtain ⟨hfree, -⟩ := ofTree_eq_ok hchecks
  have hmeets : raw.stripMeets (fun _ => false) = false := by
    rw [Bool.eq_false_iff, ne_eq, Tree.stripMeets_iff]
    intro hmeets
    obtain ⟨name, -, hname⟩ := hmeets.exists_mem_atoms
    cases hname
  have hproblem : atomProblem? table.valued raw = none := by
    have hbroken : (raw.atoms.any fun name => table.valued.atomSort name = .broken) = false := by
      simp [Table.atomSort_valued]
    have htexts : raw.relabelled table.valued.atomText id = raw :=
      Tree.relabelled_of_id table.atomText_valued (fun _ => rfl) raw
    rw [atomProblem?, hbroken, htexts, Table.named_valued, hfree]
    simp [Table.atomSort_valued, hmeets]
  have hlong : hasLongLabel table.valued f = false := by
    simp [hasLongLabel, Data.hasLongInteger]
  have htree : rawTree? table text = some raw := by rw [rawTree?, hraw, Except.toOption]
  rw [parseLabelled, Table.named_valued, htree, Option.bind_some, hproblem, h]
  simp [written, hlong]

/-- What can become of a text. It is a formula, or it has one of the nine errors, or an obstacle is met:
an atom whose label is no text, or a number with too many digits. Where powers are computed the
precedence is an integer, in every construct of the table and in every entry that a construct is read
from. The readers are those that check the number of arguments of every node, and every node is built
for a construct of the table with as many arguments as it takes. So only a prefix predicate or a prefix
function can be given a wrong number of arguments, and the error says what was written, how many it
takes, at least one, and how many it was given. -/
theorem outcomes {t : Table Data} (ht : t.WellFormed) (text : String) :
    ((∃ f, parseLabelled t text = .ok f) ∨
      (∃ error, parseLabelled t text = .error (.failure (.fault error)) ∧
        error.hasLongNumber = false) ∨
      parseLabelled t text = .error (.obstacle .sort) ∨
      parseLabelled t text = .error (.obstacle .digits)) ∧
    (parseLabelled t text = .error (.obstacle .sort) ↔ MeetsForeignAtom t text) ∧
    (parseLabelled t text = .error (.obstacle .digits) ↔
      ¬ MeetsForeignAtom t text ∧ NothingFree t text ∧ MeetsLongNumber t text) ∧
    (∀ entry ∈ t.entries, ∀ powers, entry.2.powers? = some powers →
      Construct.PowersFrom (entry.2.shownValue "precedence") powers) ∧
    (∀ entries c, Construct.ofEntries entries = .ok c → ∀ powers, c.powers? = some powers →
      Construct.PowersFrom (Construct.fieldValue entries "precedence") powers) ∧
    (∀ depth, (Marked.ofDepth depth).unmarked = Level.ofDepth depth) ∧
    (∀ depth marked, Marked.treeOfTokens depth (tokenize t.named text) = .ok marked →
      marked.Built t.named.Has) ∧
    ∀ error, parseLabelled t text = .error (.failure (.fault error)) →
      error.isArgumentCount = true →
      ∃ m : Miscount (tokenize t.named text), 0 < m.arity ∧
        error = .wrongArgumentCount m.operator.written m.arity m.args.length := by
  refine ⟨?outcome, parseLabelled_eq_sort_iff ht, parseLabelled_eq_digits_iff ht,
    fun entry _ _ => entry.2.powersFrom_shownValue,
    fun _ _ h _ => Construct.powersFrom_of_ofEntries h,
    Marked.unmarked_ofDepth, ?built, ?miscount⟩
  case outcome =>
    cases hresult : parseLabelled t text with
    | ok f => exact Or.inl ⟨f, rfl⟩
    | error problem =>
      right
      cases problem with
      | failure failure =>
        obtain ⟨error, rfl, hshort, -⟩ := parse_of_parseLabelled ht hresult
        exact Or.inl ⟨error, rfl, hshort⟩
      | obstacle o =>
        right
        rcases eq_sort_or_eq_digits ht hresult with rfl | rfl
        · exact Or.inl rfl
        · exact Or.inr rfl
  case built =>
    intro depth marked hmarked
    exact Marked.built_of_treeOfTokens hmarked fun _ => within_of_mem_tokenize
  case miscount =>
    intro error hresult hcount
    obtain ⟨error', heq, hshort, horigin⟩ := parse_of_parseLabelled ht hresult
    cases heq
    rcases horigin with ⟨v, -, rfl⟩ | hparse
    · cases hcount
    obtain ⟨m, rfl⟩ := exists_miscount_of_parse hparse hcount
    -- The numbers have been written, so this is the error with a message.
    rw [Bool.eq_false_iff, ne_eq, hasLongNumber_miscount_iff, not_or, Bool.not_eq_true,
      Bool.not_eq_true] at hshort
    exact ⟨m, m.arity_pos, FormulaError.ofCount_eq hshort.1 hshort.2⟩

/-- A predicate of two places is given one argument in `\\less(x)` and two in `\\less(x,y)`; the
negation in front of formulas has the precedence four. -/
theorem outcomes_less :
    Table.successor.valued.WellFormed ∧ Construct.PowersFrom (.int 4) (-1, 16) ∧
      (∃ marked, Marked.treeOfTokens 11 (tokenize Table.successor "\\less(x,y)") = .ok marked ∧
        marked.Built Table.successor.Has) ∧
      ∃ m : Miscount (tokenize Table.successor "\\less(x)"), 0 < m.arity ∧
        FormulaError.wrongArgumentCount "\\less" 2 1 =
          .wrongArgumentCount m.operator.written m.arity m.args.length := by
  have hwell : Table.successor.WellFormed := ⟨by decide, by decide, by decide⟩
  have ht := Table.wellFormed_valued_iff.2 hwell
  have hnamed := Table.named_valued Table.successor
  obtain ⟨-, -, -, hpowers, -, -, -, hmiscount⟩ := outcomes ht "\\less(x)"
  obtain ⟨-, -, -, -, -, -, hbuilt, -⟩ := outcomes ht "\\less(x,y)"
  rw [hnamed] at hmiscount hbuilt
  have hneg := hpowers ("neg", .connective (.text "not") (.prefixOp 4 .null)) List.mem_cons_self
  have hparse : parseLabelled Table.successor.valued "\\less(x)" =
      .error (.failure (.fault (.wrongArgumentCount "\\less" 2 1))) := by decide +kernel
  have hraw : treeOfTokens 11 (tokenize Table.successor "\\less(x,y)") =
      .ok (.node "less" [.atom "x", .atom "y"]) := by decide +kernel
  obtain ⟨marked, hmarked, -⟩ := Marked.exists_of_treeOfTokens hraw
  exact ⟨ht, hneg _ rfl, ⟨marked, hmarked, hbuilt 11 marked hmarked⟩, hmiscount _ hparse rfl⟩

/-- The checks look through a pair up to its last part, which is a variable here. -/
example : parseLabelled
    ⟨[("top", .connective (.pair (.text "phi") (.text "x")) (.nullary none .null))]⟩ "\\top" =
      .error (.failure (.fault (.freeVariable "x"))) := by decide +kernel

/-! ## A label that is no text -/

/-- A table whose one constant has a truth value as its label. -/
def truthLabelled : Table Data :=
  ⟨[("top", .connective (.bool true) (.nullary none .null))]⟩

/-- The table is accepted, but its constant is neither a formula nor has it one of the nine errors. -/
theorem not_outcomes :
    ¬ ∀ (entries : List (Data × Data)) (t : Table Data), Table.ofData entries = .ok t →
      ∀ text, (∃ f, parseLabelled t text = .ok f) ∨
        ∃ error, parseLabelled t text = .error (.failure (.fault error)) := by
  intro h
  have hbuilt := Table.ofData_singleton (s := "top")
    (c := .connective (.bool true) (.nullary none .null)) (by decide) nofun rfl
  have hobstacle : parseLabelled truthLabelled "\\top" = .error (.obstacle .sort) := by
    decide +kernel
  rcases h _ _ hbuilt "\\top" with ⟨f, hf⟩ | ⟨error, herror⟩
  · cases hobstacle.symm.trans hf
  · cases hobstacle.symm.trans herror

end Formula

end LatexLogic
