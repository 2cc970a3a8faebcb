import LatexLogic.Proofs.Export.Texts

/-!
# Reading expressions

The parenthesised expression of a tree can be read back (`Tree.read_sexpr`). The reader is as plain as
can be: it splits the text at single spaces and goes through the words with a stack of open lists
(`Expression.read`). A parenthesis that stands alone between spaces opens or closes a list, and every
other word is a text. What it finds is the nested list of the same tree, so the two exports agree.

For this to work no label or name may look like something else: it must hold no space and must not be a
parenthesis (`Expression.IsWord`). Names never do, and if the labels of a table do not either, different
trees of its formulas have different expressions (`Formula.sexpr_invertible`). The argument goes through
the nested lists, which keep apart any two trees in which metavariables are stripped to their names.
-/

set_option autoImplicit false

namespace LatexLogic

namespace Expression

/-! ## The reader -/

/-- The words of a text, which single spaces keep apart. -/
def split (text : String) : List String :=
  (text.toList.splitOn ' ').map String.ofList

/-- Reads one word. The lists that are open are given with the innermost one first. -/
def step (lists : List (List Data)) (word : String) : Option (List (List Data)) :=
  if word = "(" then some ([] :: lists)
  else
    match lists with
    | [] => none
    | items :: outer =>
      if word = ")" then
        match outer with
        | [] => none
        | around :: outer => some ((around ++ [.list items]) :: outer)
      else some ((items ++ [.text word]) :: outer)

/-- The value of an expression, if its parentheses match and it is one value. -/
def read (text : String) : Option Data :=
  match (split text).foldlM step [[]] with
  | some [[value]] => some value
  | _ => none

/-- Texts that are read as themselves. -/
def IsWord (s : String) : Prop :=
  ' ' ∉ s.toList ∧ s ≠ "(" ∧ s ≠ ")"

instance (s : String) : Decidable (IsWord s) :=
  inferInstanceAs (Decidable (_ ∧ _))

/-- Words without a space are found again. -/
theorem split_intercalate {ws : List String} (hne : ws ≠ []) (h : ∀ w ∈ ws, ' ' ∉ w.toList) :
    split (String.intercalate " " ws) = ws := by
  have hspaces : ∀ cs ∈ ws.map String.toList, ' ' ∉ cs := List.forall_mem_map.2 h
  have hsplit := List.splitOn_intercalate ' ' hspaces (by simpa using hne)
  have hid : String.ofList ∘ String.toList = id := funext fun _ => String.ofList_toList
  rw [split, String.toList_intercalate]
  show (List.splitOn ' ' ([' '].intercalate (ws.map String.toList))).map String.ofList = ws
  rw [hsplit, List.map_map, hid, List.map_id]

/-! ## Words and values -/

/-- Wherever the words stand, the reader takes them as the values. -/
def Reads (ws : List String) (values : List Data) : Prop :=
  ∀ items outer, ws.foldlM step (items :: outer) = some ((items ++ values) :: outer)

namespace Reads

variable {ws ws' : List String} {values values' : List Data}

theorem nil : Reads [] [] := by
  intro items outer
  rw [List.append_nil]
  rfl

theorem append (h : Reads ws values) (h' : Reads ws' values') :
    Reads (ws ++ ws') (values ++ values') := by
  intro items outer
  rw [List.foldlM_append, h, ← List.append_assoc]
  exact h' (items ++ values) outer

theorem word {w : String} (h : IsWord w) : Reads [w] [.text w] := by
  intro items outer
  simp [step, h.2.1, h.2.2]

theorem texts (h : ∀ w ∈ ws, IsWord w) : Reads ws (ws.map .text) := by
  induction ws with
  | nil => exact nil
  | cons w ws ih =>
    obtain ⟨hw, hws⟩ := List.forall_mem_cons.1 h
    exact (word hw).append (ih hws)

/-- Between parentheses the values make up a list. -/
theorem parens (h : Reads ws values) : Reads ("(" :: (ws ++ [")"])) [.list values] := by
  intro items outer
  have hopen : step (items :: outer) "(" = some ([] :: items :: outer) := if_pos rfl
  rw [List.foldlM_cons, hopen]
  show (ws ++ [")"]).foldlM step ([] :: items :: outer) = _
  rw [List.foldlM_append, h]
  rfl

/-- Lists of words that stand for one value each are read one after the other. -/
theorem flatten {α : Type} {words : α → List String} {value : α → Data} {xs : List α}
    (h : ∀ x ∈ xs, Reads (words x) [value x]) : Reads (xs.map words).flatten (xs.map value) := by
  induction xs with
  | nil => exact nil
  | cons x xs ih =>
    obtain ⟨hx, hxs⟩ := List.forall_mem_cons.1 h
    exact hx.append (ih hxs)

end Reads

/-! ## Joined words -/

/-- Parts that are made of words are joined like the words themselves. -/
theorem intercalate_flatten {separator : String} {parts : List (List String)}
    (h : ∀ part ∈ parts, part ≠ []) :
    separator.intercalate (parts.map separator.intercalate) =
      separator.intercalate parts.flatten := by
  induction parts with
  | nil => rfl
  | cons part parts ih =>
    obtain ⟨hpart, hparts⟩ := List.forall_mem_cons.1 h
    cases parts with
    | nil => simp
    | cons next parts =>
      have hnext : (next :: parts).flatten ≠ [] := by simp [hparts next List.mem_cons_self]
      rw [List.map_cons, String.intercalate_cons_of_ne_nil (by simp), ih hparts,
        List.flatten_cons (L := next :: parts), String.intercalate_append_of_ne_nil hpart hnext]

end Expression

namespace Tree

open Expression

/-! ## The words of a tree -/

mutual

/-- The words of an expression, parentheses among them. -/
def words : Tree → List String
  | .atom label => [label]
  | .metavar name declared => "(" :: (metavarLabel :: name :: declared ++ [")"])
  | .node label args => "(" :: (label :: wordsList args ++ [")"])

/-- The words of the expressions in a list. -/
def wordsList : List Tree → List String
  | [] => []
  | t :: ts => words t ++ wordsList ts

end

/-- The arguments of a node are worded one after the other. -/
theorem wordsList_eq (ts : List Tree) : wordsList ts = (ts.map words).flatten := by
  induction ts with
  | nil => rfl
  | cons t ts ih => rw [wordsList, ih, List.map_cons, List.flatten_cons]

theorem words_ne_nil (t : Tree) : t.words ≠ [] := by
  cases t <;> exact List.cons_ne_nil _ _

/-- A parenthesised expression consists of its parts and the two parentheses, as words. -/
theorem parenthesised_eq_intercalate {ws : List String} (h : ws ≠ []) :
    parenthesised [String.intercalate " " ws] = String.intercalate " " ("(" :: (ws ++ [")"])) := by
  rw [String.intercalate_cons_of_ne_nil (by simp), String.intercalate_append_of_ne_nil h (by simp),
    parenthesised, String.intercalate_singleton, String.intercalate_singleton]
  simp only [String.append_assoc]
  rfl

/-- The expression of a tree is its words with single spaces between them. -/
theorem sexpr_eq_intercalate (t : Tree) : t.sexpr = String.intercalate " " t.words := by
  induction t using Tree.induction with
  | atom label => rw [sexpr, words, String.intercalate_singleton]
  | metavar name declared =>
    rw [sexpr, words, ← parenthesised_eq_intercalate (List.cons_ne_nil _ _), parenthesised,
      parenthesised, String.intercalate_singleton]
  | node label args ih =>
    -- The label is a part of one word, and the arguments are parts of any number of words.
    have hparts : label :: args.map sexpr =
        ([label] :: args.map words).map (String.intercalate " ") := by
      rw [List.map_cons, String.intercalate_singleton, List.map_map]
      exact congrArg _ (List.map_congr_left ih)
    have hargs : ∀ part ∈ args.map words, part ≠ [] :=
      List.forall_mem_map.2 fun arg _ => words_ne_nil arg
    have hne : ∀ part ∈ [label] :: args.map words, part ≠ [] :=
      List.forall_mem_cons.2 ⟨List.cons_ne_nil _ _, hargs⟩
    rw [sexpr, words, wordsList_eq, ← parenthesised_eq_intercalate (List.cons_ne_nil _ _),
      sexprList_eq_map, parenthesised, parenthesised, hparts, intercalate_flatten hne,
      String.intercalate_singleton]
    rfl

/-- The words of a tree are its labels and names, apart from what the format puts between them. -/
theorem AllTexts.forall_mem_words {P : String → Prop} (hopen : P "(") (hclose : P ")")
    (hlabel : P metavarLabel) {t : Tree} (h : t.AllTexts P) : ∀ w ∈ t.words, P w := by
  have hparens {ws : List String} (hws : ∀ w ∈ ws, P w) : ∀ w ∈ "(" :: (ws ++ [")"]), P w :=
    List.forall_mem_cons.2 ⟨hopen, List.forall_mem_append.2 ⟨hws, List.forall_mem_singleton.2 hclose⟩⟩
  induction h with
  | atom htext => exact List.forall_mem_singleton.2 htext
  | metavar hname hdeclared =>
    exact hparens (List.forall_mem_cons.2 ⟨hlabel, List.forall_mem_cons.2 ⟨hname, hdeclared⟩⟩)
  | node htext _ ih =>
    rw [words, wordsList_eq]
    refine hparens (List.forall_mem_cons.2 ⟨htext, fun w hw => ?_⟩)
    obtain ⟨_, hws, hw⟩ := List.mem_flatten.1 hw
    obtain ⟨arg, harg, rfl⟩ := List.mem_map.1 hws
    exact ih arg harg w hw

/-- The words of a tree are read as its nested list. The induction is over the tree, and the reader is
back where it was behind every part. -/
theorem AllTexts.reads_words {t : Tree} (h : t.AllTexts IsWord) : Reads t.words [t.toData] := by
  induction h with
  | atom htext => exact .word htext
  | metavar hname hdeclared =>
    have hlabel : IsWord metavarLabel := by decide
    exact (Reads.texts (List.forall_mem_cons.2
      ⟨hlabel, List.forall_mem_cons.2 ⟨hname, hdeclared⟩⟩)).parens
  | node htext _ ih =>
    rw [words, toData_node, wordsList_eq]
    exact ((Reads.word htext).append (Reads.flatten ih)).parens

/-- Reading the expression of a tree gives its nested list. -/
theorem read_sexpr {t : Tree} (h : t.AllTexts IsWord) : read t.sexpr = some t.toData := by
  have htexts : t.AllTexts (' ' ∉ ·.toList) := h.mono fun _ hword => hword.1
  have hspaces := htexts.forall_mem_words (by decide) (by decide) (by decide)
  rw [sexpr_eq_intercalate, Expression.read, split_intercalate t.words_ne_nil hspaces, h.reads_words]
  rfl

/-- Nested lists keep trees apart if nothing is declared in them. With a declaration a metavariable has
the list that a node with its label would have. -/
theorem erased_inj_of_toData {s t : Tree} (h : s.erased.toData = t.erased.toData) :
    s.erased = t.erased := by
  induction s using Tree.induction generalizing t with
  | atom label | metavar label declared =>
    cases t with
    | atom label' | metavar label' declared' =>
      cases h
      rfl
    | node label' args' => cases h
  | node label args ih =>
    cases t with
    | atom label' | metavar label' declared' => cases h
    | node label' args' =>
      simp only [erased, erasedList_eq_map, toData_node, List.map_map] at h ⊢
      obtain ⟨hlabel, hargs⟩ := List.cons.inj (Data.list.inj h)
      obtain rfl := Data.text.inj hlabel
      -- Each argument has the list of the argument at the same place.
      have hlength : args.length = args'.length := by simpa using congrArg List.length hargs
      refine congrArg _ (List.ext_getElem (by simpa using hlength) fun i hi hi' => ?_)
      have hat := List.getElem_of_eq hargs (i := i) (by simpa using hi)
      rw [List.getElem_map, List.getElem_map] at hat ⊢
      exact ih _ (List.getElem_mem _) hat

end Tree

theorem IsNameLike.isWord {s : String} (h : IsNameLike s) : Expression.IsWord s := by
  refine ⟨h.notMem (by decide), ?_, ?_⟩
  · rintro rfl
    exact h.notMem (c := '(') (by decide) (by decide)
  · rintro rfl
    exact h.notMem (c := ')') (by decide) (by decide)

/-- The expressions of a table's formulas can be read back, and different trees have different
expressions. The labels of the table must be words: they hold no space and are no parentheses. Nothing
limits the depth of a tree or the number of its arguments. -/
theorem Formula.sexpr_invertible {table : Table}
    (htable : ∀ entry ∈ table.entries, Expression.IsWord entry.2.label) :
    (∀ text f, parse table text = .ok f → Expression.read f.tree.sexpr = some f.tree.toData) ∧
      ∀ text f text' f', parse table text = .ok f → parse table text' = .ok f' →
        f.tree.sexpr = f'.tree.sexpr → f.tree = f'.tree := by
  have hread {text : String} {f : Formula} (h : parse table text = .ok f) :
      Expression.read f.tree.sexpr = some f.tree.toData :=
    Tree.read_sexpr (allTexts_of_parse htable (fun _ hname => hname.isWord) h)
  refine ⟨fun _ _ => hread, fun text f text' f' h h' heq => ?_⟩
  obtain ⟨raw, -, htree⟩ := exists_sorted_of_parse h
  obtain ⟨raw', -, htree'⟩ := exists_sorted_of_parse h'
  have hdata : f.tree.toData = f'.tree.toData :=
    Option.some.inj ((hread h).symm.trans ((congrArg Expression.read heq).trans (hread h')))
  rw [htree, htree'] at hdata ⊢
  exact Tree.erased_inj_of_toData hdata

/-- Two ways of writing one formula, with one expression. -/
theorem Formula.sexpr_invertible_standard :
    (∀ entry ∈ Table.standard.entries, Expression.IsWord entry.2.label) ∧
      ∃ f f', parse Table.standard "\\forall x_{1} (\\phi(x_1) \\lor \\top)" = .ok f ∧
        parse Table.standard "\\forall x_1 \\left((\\phi(x_1)) \\lor \\top\\right)" = .ok f' ∧
        f.tree.sexpr = "( forall x_1 ( or phi true ) )" ∧
        Expression.read f.tree.sexpr = some f.tree.toData ∧ f.tree = f'.tree := by
  have htable : ∀ entry ∈ Table.standard.entries, Expression.IsWord entry.2.label := by decide
  have h : parse Table.standard "\\forall x_{1} (\\phi(x_1) \\lor \\top)" =
      .ok ⟨.node "forall" [.atom "x_1", .node "or" [.atom "phi", .atom "true"]],
        [("phi", ["x_1"])]⟩ := by decide +kernel
  have h' : parse Table.standard "\\forall x_1 \\left((\\phi(x_1)) \\lor \\top\\right)" =
      .ok ⟨.node "forall" [.atom "x_1", .node "or" [.atom "phi", .atom "true"]],
        [("phi", ["x_1"])]⟩ := by decide +kernel
  obtain ⟨hread, hinj⟩ := sexpr_invertible htable
  exact ⟨htable, _, _, h, h', by decide, hread _ _ h, hinj _ _ _ _ h h' rfl⟩

end LatexLogic
