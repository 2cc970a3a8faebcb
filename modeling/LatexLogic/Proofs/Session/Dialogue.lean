import LatexLogic.Proofs.Session.Framing

/-!
# Dialogues

A dialogue reads its input line by line, whatever line ends are used in it (`Text.HasLines`), and
prints a prompt in front of each reply and once more at the end. The reply to a line is what a batch of
this one formula prints, and there is none to a blank line. So the replies to an input, in order, are
what a batch prints for a file with the same content, unless the file has comments, which the dialogue
does not know (`Session.transcript_framed`).

A dialogue ends like a batch at the first formula whose line cannot be written. Then the last prompt is
the one for this formula, and what follows in the input is not read (`Session.not_transcript_to_end`).
-/

set_option autoImplicit false

namespace LatexLogic

namespace Text

/-! ## Lines -/

/-- A line end stands in front of the rest. A carriage return and a line feed behind it are one line
end. -/
inductive LineEnd : List Char → List Char → Prop where
  | feed (rest : List Char) : LineEnd ('\n' :: rest) rest
  | pair (rest : List Char) : LineEnd ('\r' :: '\n' :: rest) rest
  | carriageReturn {rest : List Char} : rest.head? ≠ some '\n' → LineEnd ('\r' :: rest) rest

/-- The lines of a text, without their line ends. A last line without a line end counts, an empty
remainder does not. -/
inductive HasLines : List Char → List (List Char) → Prop where
  | nil : HasLines [] []
  | last {line : List Char} : line ≠ [] → '\n' ∉ line → '\r' ∉ line → HasLines line [line]
  | cons {line behind rest : List Char} {lines : List (List Char)} :
      '\n' ∉ line → '\r' ∉ line → LineEnd behind rest → HasLines rest lines →
      HasLines (line ++ behind) (line :: lines)

/-- What is no line end stays as it is. -/
theorem unifyLineEnds_append {line : List Char} (h : '\r' ∉ line) (cs : List Char) :
    unifyLineEnds (line ++ cs) = line ++ unifyLineEnds cs := by
  induction line with
  | nil => rfl
  | cons c line ih =>
    obtain ⟨hc, hline⟩ := not_or.1 (List.mem_cons.not.1 h)
    rw [List.cons_append, unifyLineEnds, if_neg (Ne.symm hc), ih hline, List.cons_append]
    rintro cs' rfl
    exact absurd rfl hc

/-- Every line end becomes one line feed. -/
theorem LineEnd.unifyLineEnds {behind rest : List Char} (h : LineEnd behind rest) :
    Text.unifyLineEnds behind = '\n' :: Text.unifyLineEnds rest := by
  cases h with
  | feed => rfl
  | pair => rfl
  | carriageReturn hrest =>
    rw [Text.unifyLineEnds, if_pos rfl]
    rintro cs - rfl
    exact hrest rfl

/-- A text without line feeds is one line. -/
theorem splitLines_of_notMem {line : List Char} (hne : line ≠ []) (h : '\n' ∉ line) :
    splitLines line = [line] := by
  induction line with
  | nil => exact absurd rfl hne
  | cons c line ih =>
    obtain ⟨hc, hline⟩ := not_or.1 (List.mem_cons.not.1 h)
    rw [splitLines, if_neg (Ne.symm hc)]
    cases line with
    | nil => rfl
    | cons d line => rw [ih (List.cons_ne_nil d line) hline]

/-- The lines of a text are found by splitting it. -/
theorem HasLines.splitLines_eq {cs : List Char} {ls : List (List Char)} (h : HasLines cs ls) :
    splitLines (unifyLineEnds cs) = ls := by
  induction h with
  | nil => rfl
  | @last line hne hfeed hreturn =>
    have hunified := unifyLineEnds_append hreturn []
    rw [List.append_nil, unifyLineEnds, List.append_nil] at hunified
    rw [hunified, splitLines_of_notMem hne hfeed]
  | cons hfeed hreturn hend _ ih =>
    rw [unifyLineEnds_append hreturn, hend.unifyLineEnds, splitLines_append_feed hfeed, ih]

/-- A character that ends no line belongs to the first line, as it does in the split text. -/
theorem HasLines.cons_char {cs unified : List Char} (h : HasLines cs (splitLines unified)) {c : Char}
    (hfeed : c ≠ '\n') (hreturn : c ≠ '\r') : HasLines (c :: cs) (splitLines (c :: unified)) := by
  have hnotMem {x : Char} {line : List Char} (hx : c ≠ x) (hline : x ∉ line) : x ∉ c :: line :=
    List.mem_cons.not.2 (not_or.2 ⟨hx.symm, hline⟩)
  rw [splitLines, if_neg hfeed]
  generalize splitLines unified = ls at h
  cases h with
  | nil =>
    exact .last (List.cons_ne_nil _ _) (hnotMem hfeed List.not_mem_nil)
      (hnotMem hreturn List.not_mem_nil)
  | last _ hf hr => exact .last (List.cons_ne_nil _ _) (hnotMem hfeed hf) (hnotMem hreturn hr)
  | cons hf hr hend hrest => exact .cons (hnotMem hfeed hf) (hnotMem hreturn hr) hend hrest

/-- Every text has lines. The induction is over the text as its line ends are unified. -/
theorem hasLines_splitLines (cs : List Char) : HasLines cs (splitLines (unifyLineEnds cs)) := by
  -- A line end in front of a text is the end of an empty line.
  have hempty {behind rest : List Char} (hend : LineEnd behind rest)
      (ih : HasLines rest (splitLines (unifyLineEnds rest))) :
      HasLines behind (splitLines (unifyLineEnds behind)) := by
    rw [hend.unifyLineEnds, splitLines, if_pos rfl]
    exact .cons List.not_mem_nil List.not_mem_nil hend ih
  induction cs using unifyLineEnds.induct with
  | case1 => exact .nil
  | case2 cs ih => exact hempty (.pair cs) ih
  | case3 c cs hpair ih =>
    by_cases hfeed : c = '\n'
    · subst hfeed
      exact hempty (.feed cs) ih
    by_cases hreturn : c = '\r'
    · subst hreturn
      -- A line feed behind it would have made up a pair.
      refine hempty (.carriageReturn fun hhead => ?_) ih
      obtain ⟨cs', rfl⟩ := List.head?_eq_some_iff.1 hhead
      exact hpair cs' rfl rfl
    · rw [unifyLineEnds, if_neg hreturn]
      · exact ih.cons_char hfeed hreturn
      · exact fun cs' hc _ => hreturn hc

/-- The lines of a text, whatever line ends it uses. -/
theorem hasLines_iff {content : String} {ls : List (List Char)} :
    HasLines content.toList ls ↔ ls = (lines content).map String.toList := by
  have hid : String.toList ∘ String.ofList = id := funext fun _ => String.toList_ofList
  rw [lines, List.map_map, hid, List.map_id]
  exact ⟨fun h => h.splitLines_eq.symm, fun h => h ▸ hasLines_splitLines _⟩

/-- A text without blanks is not cut. -/
theorem strip_eq_self {text : String} (h : ∀ c ∈ text.toList, ¬ isBlank c = true) :
    strip text = text := by
  have htrim {cs : List Char} (hcs : ∀ c ∈ cs, ¬ isBlank c = true) : trimStart cs = cs :=
    List.dropWhile_eq_self_iff.2 fun hpos => hcs _ (List.getElem_mem hpos)
  have hreverse : ∀ c ∈ text.toList.reverse, ¬ isBlank c = true := fun c hc =>
    h c (List.mem_reverse.1 hc)
  rw [strip, trim, htrim h, htrim hreverse, List.reverse_reverse, String.ofList_toList]

end Text

namespace Session

/-! ## Replies -/

section

variable {limits : Limits} {table : Table Data} {format : Format}

/-- A line is blank or its formula is what is left of it. -/
theorem formulaOfLine?_cases (line : String) :
    Text.strip line = "" ∧ formulaOfLine? line = none ∨
      Text.strip line ≠ "" ∧ formulaOfLine? line = some (Text.strip line) := by
  by_cases h : Text.strip line = ""
  · exact Or.inl ⟨h, by simp [formulaOfLine?, h]⟩
  · exact Or.inr ⟨h, by simp [formulaOfLine?, h]⟩

theorem batch_cons_of_pos {text : String} (h : isAnswerable limits table format text = true)
    (formulas : List String) :
    batch limits table format (text :: formulas) =
      (answer limits table format text).printed ++ batch limits table format formulas := by
  rw [batch, answers, answered, List.takeWhile_cons_of_pos h, List.map_cons, List.map_cons,
    String.join_cons]
  rfl

theorem batch_cons_of_neg {text : String} (h : ¬ isAnswerable limits table format text = true)
    (formulas : List String) : batch limits table format (text :: formulas) = "" := by
  rw [batch, answers, answered, List.takeWhile_cons_of_neg h]
  rfl

/-- Nothing hinders the answer to an empty formula. -/
theorem not_hinders_empty (ht : table.WellFormed) (o : Obstacle) :
    ¬ Hinders limits table format "" o := by
  have hblank : Formula.parseLabelled table "" = .error (.failure (.fault .blank)) := rfl
  rw [← obstacle?_eq_some_iff ht, answer, result, hblank]
  cases limits.reads table "" <;> simp [obstacle?]

/-- A dialogue goes on unless something hinders the answer. -/
theorem goesOn_iff (ht : table.WellFormed) {line : String} :
    goesOn limits table format line = true ↔
      ∀ o, ¬ Hinders limits table format (Text.strip line) o := by
  rcases formulaOfLine?_cases line with ⟨hblank, hnone⟩ | ⟨-, hsome⟩
  · rw [goesOn, hnone, hblank]
    exact iff_of_true rfl (not_hinders_empty ht)
  · rw [goesOn, hsome]
    exact isAnswerable_iff ht

/-- The reply to a line is what a batch prints for it. -/
theorem reply_eq {line : String} (h : goesOn limits table format line = true) :
    reply limits table format line =
      if Text.strip line = "" then "" else batch limits table format [Text.strip line] := by
  rcases formulaOfLine?_cases line with ⟨hblank, hnone⟩ | ⟨hformula, hsome⟩
  · rw [reply, hnone, if_pos hblank]
  · rw [goesOn, hsome] at h
    rw [reply, hsome, if_neg hformula, batch_cons_of_pos h []]
    exact (String.append_empty).symm

/-! ## Whole inputs -/

/-- The lines are replied to up to the first one that ends the dialogue. -/
theorem dialogue_eq (lines : List String) :
    dialogue limits table format lines =
      String.join ((lines.takeWhile (goesOn limits table format)).map
          (prompt ++ reply limits table format ·)) ++
        prompt ++ (if lines.takeWhile (goesOn limits table format) = lines then "\n" else "") := by
  induction lines with
  | nil => rfl
  | cons line lines ih =>
    cases hon : goesOn limits table format line with
    | true =>
      rw [dialogue, hon, if_pos rfl, List.takeWhile_cons_of_pos hon, List.map_cons, String.join_cons,
        ih]
      simp only [String.append_assoc, List.cons.injEq, true_and]
    | false =>
      rw [dialogue, hon, List.takeWhile_cons_of_neg (by simp [hon])]
      simp

/-- The replies are what a batch prints for the formulas of all lines. -/
theorem join_reply (lines : List String) :
    String.join ((lines.takeWhile (goesOn limits table format)).map (reply limits table format)) =
      batch limits table format (lines.filterMap formulaOfLine?) := by
  induction lines with
  | nil => rfl
  | cons line lines ih =>
    rcases formulaOfLine?_cases line with ⟨-, hnone⟩ | ⟨-, hsome⟩
    · have hon : goesOn limits table format line = true := by rw [goesOn, hnone]
      have hreply : reply limits table format line = "" := by rw [reply, hnone]
      rw [List.takeWhile_cons_of_pos hon, List.map_cons, String.join_cons, hreply, ih,
        List.filterMap_cons_none hnone, String.empty_append]
    · -- The formula on the line decides for the dialogue as for the batch.
      have hon : goesOn limits table format line =
          isAnswerable limits table format (Text.strip line) := by
        rw [goesOn, hsome]
      have hreply : reply limits table format line =
          (answer limits table format (Text.strip line)).printed := by
        rw [reply, hsome]
      rw [List.filterMap_cons_some hsome]
      by_cases h : isAnswerable limits table format (Text.strip line) = true
      · rw [List.takeWhile_cons_of_pos (hon.trans h), List.map_cons, String.join_cons, hreply, ih,
          batch_cons_of_pos h]
      · rw [List.takeWhile_cons_of_neg (hon ▸ h), batch_cons_of_neg h]
        rfl

/-- Without comments a file gives the formulas of all its lines. -/
theorem formulasOfFile_of_no_comment {content : String}
    (h : ∀ line ∈ Text.lines content, (Text.strip line).startsWith "%" = false) :
    formulasOfFile content = (Text.lines content).filterMap formulaOfLine? := by
  refine List.filter_eq_self.2 fun text htext => ?_
  obtain ⟨line, hline, hformula⟩ := List.mem_filterMap.1 htext
  rcases formulaOfLine?_cases line with ⟨-, hnone⟩ | ⟨-, hsome⟩
  · cases hnone.symm.trans hformula
  · cases hsome.symm.trans hformula
    rw [h line hline, Bool.not_false]

/-- Either all lines are replied to, or those before the first formula that has no answer. -/
theorem takeWhile_goesOn_cases (ht : table.WellFormed) (lines : List String) :
    lines.takeWhile (goesOn limits table format) = lines ∨
      ∃ line rest o, lines = lines.takeWhile (goesOn limits table format) ++ line :: rest ∧
        Hinders limits table format (Text.strip line) o := by
  have hsplit := List.takeWhile_append_dropWhile (p := goesOn limits table format) (l := lines)
  have hstop := List.head?_dropWhile_not (goesOn limits table format) lines
  cases hdrop : lines.dropWhile (goesOn limits table format) with
  | nil =>
    rw [hdrop, List.append_nil] at hsplit
    exact Or.inl hsplit
  | cons line rest =>
    rw [hdrop] at hsplit hstop
    have hnot : ¬ goesOn limits table format line = true := by simpa using hstop
    obtain ⟨o, ho⟩ := not_forall_not.1 ((goesOn_iff ht).not.1 hnot)
    exact Or.inr ⟨line, rest, o, hsplit.symm, ho⟩

end

/-- How a dialogue is framed. The lines of the input are replied to in order, each behind a prompt, with
what a batch of its one formula prints; a blank line has no reply. Nothing hinders the replies that are
given. One more prompt follows, with a line end behind it if all lines had their reply; otherwise it
is the prompt for a line whose formula has no answer. Without comments the replies are those of a
batch over the formulas of a file with the same content. -/
theorem transcript_framed (limits : Limits) {table : Table Data} (ht : table.WellFormed)
    (format : Format) (content : String) :
    let lines := Text.lines content
    let done := lines.takeWhile (goesOn limits table format)
    (∀ ls, Text.HasLines content.toList ls ↔ ls = lines.map String.toList) ∧
    transcript limits table format content =
      String.join (done.map (prompt ++ reply limits table format ·)) ++ prompt ++
        (if done = lines then "\n" else "") ∧
    (∀ line ∈ done, reply limits table format line =
      if Text.strip line = "" then "" else batch limits table format [Text.strip line]) ∧
    (∀ line ∈ done, ∀ o, ¬ Hinders limits table format (Text.strip line) o) ∧
    (done = lines ∨ ∃ line rest o, lines = done ++ line :: rest ∧
      Hinders limits table format (Text.strip line) o) ∧
    ((∀ line ∈ lines, (Text.strip line).startsWith "%" = false) →
      String.join (done.map (reply limits table format)) =
        batch limits table format (formulasOfFile content)) := by
  intro lines done
  have hon : ∀ line ∈ done, goesOn limits table format line = true := fun _ h =>
    List.mem_takeWhile_imp h
  refine ⟨fun _ => Text.hasLines_iff, dialogue_eq lines, fun line h => reply_eq (hon line h),
    fun line h => (goesOn_iff ht).1 (hon line h), takeWhile_goesOn_cases ht lines,
    fun hcomment => ?_⟩
  rw [formulasOfFile_of_no_comment hcomment]
  exact join_reply lines

/-- A carriage return ends a line of its own if no line feed is behind it. -/
theorem transcript_framed_returns :
    Table.standard.valued.WellFormed ∧
      transcript thousandLevels Table.standard.valued .sexpr "\\top\r\r\n \\bot " =
        "fol-parser> true\nfol-parser> fol-parser> false\nfol-parser> \n" ∧
      (∀ line ∈ Text.lines "\\top\r\r\n \\bot ", (Text.strip line).startsWith "%" = false) ∧
      batch thousandLevels Table.standard.valued .sexpr (formulasOfFile "\\top\r\r\n \\bot ") =
        "true\nfalse\n" := by
  have hstandard := Table.wellFormed_valued_iff.2 Table.standard_wellFormed
  have hcomment : ∀ line ∈ Text.lines "\\top\r\r\n \\bot ",
      (Text.strip line).startsWith "%" = false := by decide +kernel
  obtain ⟨-, htranscript, -, -, -, hbatch⟩ :=
    transcript_framed thousandLevels hstandard .sexpr "\\top\r\r\n \\bot "
  refine ⟨hstandard, htranscript.trans ?_, hcomment, (hbatch hcomment).symm.trans ?_⟩ <;>
    decide +kernel

/-! ## Dialogues that break off -/

theorem not_isBlank_of_mem_negatedText (n : Nat) :
    ∀ c ∈ (negatedText n).toList, ¬ Text.isBlank c = true := by
  have hphi : "\\phi".toList.any Text.isBlank = false := by decide
  have hneg : "\\neg".toList.any Text.isBlank = false := by decide
  induction n with
  | zero => exact List.any_eq_false.1 hphi
  | succ n ih =>
    rw [negatedText, String.toList_append]
    exact List.forall_mem_append.2 ⟨List.any_eq_false.1 hneg, ih⟩

theorem lines_negatedText (n : Nat) : Text.lines (negatedText n ++ "\n") = [negatedText n] := by
  have hnotMem {c : Char} (hc : Text.isBlank c = true) : c ∉ (negatedText n).toList := fun hmem =>
    not_isBlank_of_mem_negatedText n c hmem hc
  have hlines : Text.HasLines (negatedText n ++ "\n").toList [(negatedText n).toList] := by
    rw [String.toList_append]
    exact .cons (hnotMem (by decide)) (hnotMem (by decide)) (.feed []) .nil
  have hmap : [negatedText n].map String.toList = (Text.lines _).map String.toList :=
    Text.hasLines_iff.1 hlines
  exact (List.map_injective_iff.2 (fun _ _ h => String.toList_inj.1 h) hmap).symm

/-- Not every dialogue comes to its last line: here the first formula is accepted, but there is no reply
to it. -/
theorem not_transcript_to_end :
    ¬ ∀ (limits : Limits) (table : Table Data) (format : Format) (content : String),
      table.WellFormed →
      transcript limits table format content =
        String.join ((Text.lines content).map fun line =>
          prompt ++ if Text.strip line = "" then "" else
            batch limits table format [Text.strip line]) ++
        prompt ++ "\n" := by
  intro h
  have hstandard := Table.wellFormed_valued_iff.2 Table.standard_wellFormed
  have hstrip : Text.strip (negatedText 700) = negatedText 700 :=
    Text.strip_eq_self (not_isBlank_of_mem_negatedText 700)
  have hhinders : ¬ ∀ o,
      ¬ Hinders thousandLevels Table.standard.valued .sexpr (negatedText 700) o :=
    not_forall_not.2 ⟨.depth, hinders_negatedText .sexpr⟩
  have hon : goesOn thousandLevels Table.standard.valued .sexpr (negatedText 700) = false := by
    rw [← Bool.not_eq_true, goesOn_iff hstandard, hstrip]
    exact hhinders
  have hbatch : batch thousandLevels Table.standard.valued .sexpr [negatedText 700] = "" :=
    batch_cons_of_neg ((isAnswerable_iff hstandard).not.2 hhinders) []
  have hall := h thousandLevels _ .sexpr (negatedText 700 ++ "\n") hstandard
  rw [transcript, lines_negatedText, dialogue, hon, List.map_singleton, hstrip, hbatch,
    ite_self] at hall
  exact absurd hall (by decide)

end Session

end LatexLogic
