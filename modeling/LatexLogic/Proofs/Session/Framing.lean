import LatexLogic.Proofs.Session.Line
import LatexLogic.Proofs.Session.Negation

/-!
# Framing of batches

A batch prints one line for each formula that is answered, in order: split at its line ends the output
is the list of these lines, and each of them depends on its own formula only (`Session.batch_framed`).
All formulas are answered up to the first one whose line cannot be written (`Session.Hinders`): its tree
is nested too deeply for that, a number has too many digits, or the format has no form for a label.
There are such formulas among the accepted ones, so a batch does not go on to its end in every case
(`Session.not_batch_to_end`).

How deeply formulas may be nested is left to the limits of the session throughout.
-/

set_option autoImplicit false

namespace LatexLogic

namespace Text

/-- A line ends at the first line feed. -/
theorem splitLines_append_feed {line : List Char} (h : '\n' ∉ line) (rest : List Char) :
    splitLines (line ++ '\n' :: rest) = line :: splitLines rest := by
  induction line with
  | nil => rfl
  | cons c line ih =>
    obtain ⟨hc, hline⟩ := not_or.1 (List.mem_cons.not.1 h)
    rw [List.cons_append, splitLines, if_neg (Ne.symm hc), ih hline]

/-- Lines that are printed with a line end each are what the output is split into. -/
theorem splitLines_join {lines : List String} (h : ∀ line ∈ lines, IsOneLine line) :
    splitLines (String.join (lines.map (· ++ "\n"))).toList = lines.map String.toList := by
  induction lines with
  | nil => rfl
  | cons line lines ih =>
    obtain ⟨hline, hlines⟩ := List.forall_mem_cons.1 h
    have houtput : (String.join ((line :: lines).map (· ++ "\n"))).toList =
        line.toList ++ '\n' :: (String.join (lines.map (· ++ "\n"))).toList := by
      rw [List.map_cons, String.join_cons, String.toList_append, String.toList_append,
        List.append_assoc]
      rfl
    rw [houtput, splitLines_append_feed hline, ih hlines, List.map_cons]

end Text

namespace Session

/-! ## Obstacles -/

/-- Why the line for a formula cannot be written. It is accepted, but its tree is nested too deeply;
or a number has too many digits; or the checks cannot go through an atom, or it is accepted, but
the format cannot write the label of an entry that is in its tree. -/
def Hinders (limits : Limits) (table : Table Data) (format : Format) (text : String) :
    Obstacle → Prop
  | .depth => ∃ f, result limits table text = .ok f ∧ limits.writes table format f.tree = false
  | .digits => limits.reads table text = true ∧ ¬ Formula.MeetsForeignAtom table text ∧
      Formula.NothingFree table text ∧ Formula.MeetsLongNumber table text
  | .sort => limits.reads table text = true ∧ Formula.MeetsForeignAtom table text ∨
      ∃ f, result limits table text = .ok f ∧ limits.writes table format f.tree = true ∧
        ∃ entry ∈ table.entries, isWritable format entry.2.treeLabel = false ∧
          table.nameOf entry.1 entry.2.label ∈ f.tree.labels

section

variable {limits : Limits} {table : Table Data} {format : Format}

theorem isWritable_text (format : Format) (s : String) : isWritable format (.text s) = true := by
  cases format <;> rfl

/-- A label in a tree cannot be written if that of an entry with its name cannot. -/
theorem all_isWritable_iff (ht : table.WellFormed) {f : Formula} :
    (f.tree.labels.all fun name => isWritable format (table.treeLabelNamed name)) = false ↔
      ∃ entry ∈ table.entries, isWritable format entry.2.treeLabel = false ∧
        table.nameOf entry.1 entry.2.label ∈ f.tree.labels := by
  have htext (s : String) : ¬ isWritable format (.text s) = false := by
    rw [isWritable_text]
    nofun
  simp only [List.all_eq_false, Bool.not_eq_true]
  exact Table.exists_valueNamed_iff Construct.keepsTexts_treeLabel ht.nodup_spellings
    (P := fun label => isWritable format label = false) htext

/-- An obstacle that is met before anything is written is met while the text is parsed. -/
theorem result_eq_obstacle_iff {text : String} {o : Obstacle} :
    result limits table text = .error (.obstacle o) ↔
      limits.reads table text = true ∧ Formula.parseLabelled table text = .error (.obstacle o) := by
  unfold result
  cases limits.reads table text <;> simp

theorem obstacle?_eq_some_iff (ht : table.WellFormed) {text : String} {o : Obstacle} :
    (answer limits table format text).obstacle? = some o ↔ Hinders limits table format text o := by
  show obstacle? limits table format (result limits table text) = some o ↔ _
  unfold Hinders
  rw [← Formula.parseLabelled_eq_digits_iff ht, ← Formula.parseLabelled_eq_sort_iff ht]
  simp only [← result_eq_obstacle_iff, ← all_isWritable_iff ht]
  cases hresult : result limits table text with
  | ok f =>
    cases hdepth : limits.writes table format f.tree with
    | false => cases o <;> simp [obstacle?, hdepth]
    | true =>
      cases hlabels : f.tree.labels.all fun name => isWritable format (table.treeLabelNamed name) <;>
        cases o <;> simp only [obstacle?, hdepth, hlabels, if_true, Bool.false_eq_true, if_false,
          reduceCtorEq, Option.some.injEq, Except.ok.injEq, exists_eq_left', and_self, and_false,
          or_self, or_true]
  | error problem =>
    cases problem with
    | failure failure => cases o <;> simp [obstacle?]
    | obstacle o' =>
      rcases Formula.eq_sort_or_eq_digits ht (result_eq_obstacle_iff.1 hresult).2 with rfl | rfl
      all_goals cases o <;> simp [obstacle?]

/-! ## Answered formulas -/

theorem isAnswerable_iff (ht : table.WellFormed) {text : String} :
    isAnswerable limits table format text = true ↔
      ∀ o, ¬ Hinders limits table format text o := by
  simp only [isAnswerable, Option.isNone_iff_eq_none, Option.eq_none_iff_forall_ne_some, ne_eq,
    obstacle?_eq_some_iff ht]

/-- Nothing hinders the answers that are given. -/
theorem not_hinders_of_mem_answered (ht : table.WellFormed) {formulas : List String}
    {text : String} (h : text ∈ answered limits table format formulas) :
    ∀ o, ¬ Hinders limits table format text o :=
  (isAnswerable_iff ht).1 (List.mem_takeWhile_imp h)

/-- A formula without an obstacle is answered, and then the others are. -/
theorem answered_cons_of_none {text : String} (formulas : List String)
    (h : (answer limits table format text).obstacle? = none) :
    answered limits table format (text :: formulas) =
        text :: answered limits table format formulas ∧
      unanswered? limits table format (text :: formulas) =
        unanswered? limits table format formulas := by
  have hanswerable : isAnswerable limits table format text = true := by rw [isAnswerable, h]; rfl
  refine ⟨List.takeWhile_cons_of_pos hanswerable, ?_⟩
  rw [unanswered?, List.findSome?_cons, h]
  rfl

/-- A formula with an obstacle is the last one that matters. -/
theorem answered_cons_of_some {text : String} {o : Obstacle} (formulas : List String)
    (h : (answer limits table format text).obstacle? = some o) :
    answered limits table format (text :: formulas) = [] ∧
      unanswered? limits table format (text :: formulas) = some ⟨text, o⟩ := by
  have hanswerable : ¬ isAnswerable limits table format text = true := by simp [isAnswerable, h]
  refine ⟨List.takeWhile_cons_of_neg hanswerable, ?_⟩
  rw [unanswered?, List.findSome?_cons, h]
  rfl

/-- Either all formulas are answered, or those before the first one with an obstacle. -/
theorem answered_cases (ht : table.WellFormed) (formulas : List String) :
    (answered limits table format formulas = formulas ∧
        unanswered? limits table format formulas = none) ∨
      ∃ stop rest, unanswered? limits table format formulas = some stop ∧
        formulas = answered limits table format formulas ++ stop.text :: rest ∧
        Hinders limits table format stop.text stop.obstacle := by
  induction formulas with
  | nil => exact Or.inl ⟨rfl, rfl⟩
  | cons text formulas ih =>
    -- The first formula decides whether the others are looked at.
    cases hobstacle : (answer limits table format text).obstacle? with
    | some o =>
      obtain ⟨hanswered, hunanswered⟩ := answered_cons_of_some formulas hobstacle
      rw [hanswered]
      exact Or.inr ⟨_, formulas, hunanswered, rfl, (obstacle?_eq_some_iff ht).1 hobstacle⟩
    | none =>
      obtain ⟨hanswered, hunanswered⟩ := answered_cons_of_none formulas hobstacle
      rw [hanswered, hunanswered]
      rcases ih with ⟨hall, hnone⟩ | ⟨stop, rest, hstop, hformulas, hhinders⟩
      · exact Or.inl ⟨by rw [hall], hnone⟩
      · refine Or.inr ⟨stop, rest, hstop, ?_, hhinders⟩
        rw [List.cons_append, ← hformulas]

/-! ## Batches -/

/-- The output of a batch consists of the lines for the answered formulas. -/
theorem batch_eq (formulas : List String) :
    batch limits table format formulas =
      String.join ((answered limits table format formulas).map fun text =>
        render table format text (result limits table text) ++ "\n") := by
  rw [batch, answers, List.map_map]
  rfl

/-- An answer is a failure if its result is an error. -/
theorem failed_answer (text : String) :
    (answer limits table format text).failed = !(result limits table text).isOk := by
  unfold answer
  cases result limits table text <;> rfl

/-- The failures of a batch are the answered formulas that are refused. -/
theorem failures_eq (formulas : List String) :
    failures limits table format formulas =
      (answered limits table format formulas).countP fun text =>
        !(result limits table text).isOk := by
  rw [failures, answers, List.countP_map]
  exact List.countP_congr fun text _ => by rw [Function.comp_apply, failed_answer]

end

/-- How a batch is framed. The line for a formula is one line and depends on no other formula. The
output consists of the lines for the answered formulas, each with a line end, and nothing else, so
that its lines are these; the failures are the answered formulas that are refused. Nothing hinders the
answers that are given, and all are given unless there is an obstacle at the next formula. -/
theorem batch_framed (limits : Limits) {table : Table Data} (ht : table.WellFormed)
    {format : Format} (h : format = .sexpr → table.IsOneLine) (formulas : List String) :
    let line (text : String) : String := render table format text (result limits table text)
    let done := answered limits table format formulas
    (∀ text, Text.IsOneLine (line text)) ∧
    batch limits table format formulas = String.join (done.map fun text => line text ++ "\n") ∧
    Text.splitLines (batch limits table format formulas).toList =
      done.map (fun text => (line text).toList) ∧
    failures limits table format formulas =
      done.countP (fun text => !(result limits table text).isOk) ∧
    (∀ text ∈ done, ∀ o, ¬ Hinders limits table format text o) ∧
    ((done = formulas ∧ unanswered? limits table format formulas = none) ∨
      ∃ stop rest, unanswered? limits table format formulas = some stop ∧
        formulas = done ++ stop.text :: rest ∧
        Hinders limits table format stop.text stop.obstacle) := by
  intro line done
  have hline (text : String) : Text.IsOneLine (line text) :=
    isOneLine_render limits (fun hformat => ⟨ht, h hformat⟩) text
  have hbatch : batch limits table format formulas =
      String.join ((done.map line).map (· ++ "\n")) := by
    rw [batch_eq, List.map_map]
    rfl
  refine ⟨hline, batch_eq formulas, ?_, failures_eq formulas,
    fun text => not_hinders_of_mem_answered ht, answered_cases ht formulas⟩
  rw [hbatch, Text.splitLines_join (List.forall_mem_map.2 fun text _ => hline text), List.map_map]
  rfl

/-- Limits of a thousand levels for reading and three hundred for writing. -/
def thousandLevels : Limits :=
  .ofLevels 1000 fun _ => 300

/-- A line feed behind a backslash is a token of the second formula. The error quotes it. -/
theorem batch_framed_feed :
    (Table.standard.valued.WellFormed ∧ Table.standard.valued.IsOneLine) ∧
      Text.splitLines
          (batch thousandLevels Table.standard.valued .sexpr ["\\phi", "\\phi \\\n"]).toList =
        ["phi".toList, "error: Unexpected token '\\\\\\n'".toList] := by
  have hstandard := Table.wellFormed_valued_iff.2 Table.standard_wellFormed
  obtain ⟨-, -, hlines, -⟩ := batch_framed thousandLevels hstandard
    (fun _ : Format.sexpr = .sexpr => Table.standard_isOneLine) ["\\phi", "\\phi \\\n"]
  refine ⟨⟨hstandard, Table.standard_isOneLine⟩, hlines.trans ?_⟩
  decide +kernel

/-! ## Unanswered formulas -/

/-- Seven hundred negations are read, but no format can write their tree. -/
theorem hinders_negatedText (format : Format) :
    Hinders thousandLevels Table.standard.valued format (negatedText 700) .depth := by
  obtain ⟨f, hf, hdepth⟩ :=
    exists_parseWithin_negatedText (show 700 + 1 < 1000 by decide)
  have hreads : thousandLevels.reads Table.standard.valued (negatedText 700) = true := by
    simp only [thousandLevels, Limits.ofLevels, Table.named_valued, hf]
    rfl
  have hparse : Formula.parse Table.standard (negatedText 700) = .ok f := by
    rcases Formula.parseWithin_eq_or_tooDeep 1000 Table.standard (negatedText 700) with h | h
    · cases hf.symm.trans h
    · rw [← h, hf]
  refine ⟨f, ?_, ?_⟩
  · rw [result, hreads, if_pos rfl, Formula.parseLabelled_valued hparse]
  · simp [thousandLevels, Limits.ofLevels, hdepth]

/-- Not every batch prints a line for each of its formulas. -/
theorem not_batch_to_end :
    ¬ ∀ (limits : Limits) (table : Table Data) (format : Format) (formulas : List String),
      table.WellFormed → (format = .sexpr → table.IsOneLine) →
      unanswered? limits table format formulas = none ∧
        batch limits table format formulas = String.join (formulas.map fun text =>
          render table format text (result limits table text) ++ "\n") := by
  intro h
  have hstandard := Table.wellFormed_valued_iff.2 Table.standard_wellFormed
  obtain ⟨hnone, -⟩ := h thousandLevels Table.standard.valued .sexpr [negatedText 700]
    hstandard fun _ => Table.standard_isOneLine
  have hobstacle := (obstacle?_eq_some_iff hstandard).2
    (hinders_negatedText .sexpr)
  rw [(answered_cons_of_some [] hobstacle).2] at hnone
  cases hnone

end Session

end LatexLogic
