import LatexLogic.Proofs.Binding.Discipline
import LatexLogic.Proofs.Grammar.Depth

/-!
# The texts in a tree

What the exports of a tree write is its labels and names, and between them only what the format puts
there. `Tree.AllTexts` says that all labels and names of a tree have a property. In the tree of a parsed
formula they are labels of the table and names of variables and metavariables, and names are made of
lower case letters, digits and underscores (`IsNameLike`). So a property of the labels of a table that
every such text has holds throughout the tree (`Formula.allTexts_of_parse`).
-/

set_option autoImplicit false

namespace LatexLogic

/-! ## Names -/

/-- The characters of names. -/
def isNameChar (c : Char) : Bool :=
  isVariableLetter c || c == '_' || isDecimalDigit c

/-- Texts of lower case letters, digits and underscores. -/
def IsNameLike (s : String) : Prop :=
  ∀ c ∈ s.toList, isNameChar c = true

theorem IsNameLike.notMem {s : String} (h : IsNameLike s) {c : Char} (hc : isNameChar c = false) :
    c ∉ s.toList := by
  intro hmem
  rw [h c hmem] at hc
  cases hc

theorem forall_isNameChar_of_isSubscriptPart {part : List Char} (h : isSubscriptPart part = true) :
    ∀ c ∈ part, isNameChar c = true := by
  obtain rfl | ⟨ds, -, hds, rfl⟩ := isSubscriptPart_iff.1 h
  · exact List.forall_mem_nil _
  · exact List.forall_mem_cons.2 ⟨by decide, fun d hd => by rw [isNameChar, hds d hd, Bool.or_true]⟩

theorem isNameLike_of_isVariable {name : String} (h : isVariable name = true) : IsNameLike name := by
  obtain ⟨c, part, hname, hc, hpart⟩ := isVariable_iff.1 h
  rw [IsNameLike, hname]
  refine List.forall_mem_cons.2 ⟨?_, forall_isNameChar_of_isSubscriptPart hpart⟩
  rw [isNameChar, hc, Bool.true_or, Bool.true_or]

theorem IsMetavariableName.isNameLike {name : String} (h : IsMetavariableName name) :
    IsNameLike name := by
  obtain ⟨letter, part, hpart, rfl⟩ := h
  have hletter : letter.name.toList.all isNameChar = true := by cases letter <;> decide
  rw [IsNameLike, String.toList_append, String.toList_ofList]
  exact List.forall_mem_append.2
    ⟨List.all_eq_true.1 hletter, forall_isNameChar_of_isSubscriptPart hpart⟩

/-! ## Trees -/

namespace Tree

variable {P : String → Prop}

/-- All labels and names in the tree have the property. -/
inductive AllTexts (P : String → Prop) : Tree → Prop where
  | atom {label : String} : P label → AllTexts P (.atom label)
  | metavar {name : String} {declared : List String} :
      P name → (∀ v ∈ declared, P v) → AllTexts P (.metavar name declared)
  | node {label : String} {args : List Tree} :
      P label → (∀ arg ∈ args, AllTexts P arg) → AllTexts P (.node label args)

theorem AllTexts.mono {Q : String → Prop} (hPQ : ∀ s, P s → Q s) {t : Tree} (h : t.AllTexts P) :
    t.AllTexts Q := by
  induction h with
  | atom hlabel => exact .atom (hPQ _ hlabel)
  | metavar hname hdeclared => exact .metavar (hPQ _ hname) fun v hv => hPQ v (hdeclared v hv)
  | node hlabel _ ih => exact .node (hPQ _ hlabel) ih

/-- The texts of a sorted tree are labels of constructs and names. -/
theorem IsSorted.allTexts {has : Construct → Prop} (hlabel : ∀ c, has c → P c.label)
    (hname : ∀ name, IsNameLike name → P name) {t : Tree} (ht : t.IsSorted has) : t.AllTexts P := by
  have hvariable (v : String) (hv : isVariable v = true) : P v := hname v (isNameLike_of_isVariable hv)
  induction t using Tree.induction with
  | atom label =>
    rcases ht with ht | ht
    · cases ht with
      | constant hc => exact .atom (hlabel _ hc)
    · cases ht with
      | name hv => exact .atom (hvariable _ hv)
  | metavar name declared =>
    rcases ht with ht | ht
    · cases ht with
      | metavariable hm hdeclared =>
        exact .metavar (hname _ hm.isNameLike) fun v hv => hvariable v (hdeclared v hv)
    · cases ht
  | node label args ih =>
    obtain ⟨c, hc, rfl, -⟩ := ht.exists_construct
    exact .node (hlabel c hc) fun arg harg => ih arg harg (ht.of_mem_args harg)

/-- Erasing declarations brings in no new text. -/
theorem AllTexts.erased {t : Tree} (h : t.AllTexts P) : t.erased.AllTexts P := by
  induction h with
  | atom hlabel => exact .atom hlabel
  | metavar hname _ => exact .atom hname
  | node hlabel _ ih =>
    rw [Tree.erased, erasedList_eq_map]
    exact .node hlabel (List.forall_mem_map.2 ih)

end Tree

namespace Formula

/-- The tree of a parsed formula is a sorted tree without its declarations. -/
theorem exists_sorted_of_parse {table : Table} {text : String} {f : Formula}
    (h : parse table text = .ok f) :
    ∃ raw : Tree, raw.IsSorted table.Has ∧ f.tree = raw.erased := by
  obtain ⟨raw, hraw, hchecks⟩ := exists_tree_of_parse h
  have hsorted := isSorted_of_treeOfTokens (fun _ ht => within_of_mem_tokenize ht) hraw
  obtain ⟨-, hstrip, -, -⟩ := ofTree_eq_ok hchecks
  exact ⟨raw, hsorted, (raw.strip_eq_ok _ _ hstrip).1⟩

/-- What holds of the labels of a table and of all names holds of the texts in the tree of a parsed
formula. -/
theorem allTexts_of_parse {P : String → Prop} {table : Table}
    (hlabel : ∀ entry ∈ table.entries, P entry.2.label) (hname : ∀ name, IsNameLike name → P name)
    {text : String} {f : Formula} (h : parse table text = .ok f) : f.tree.AllTexts P := by
  obtain ⟨raw, hsorted, htree⟩ := exists_sorted_of_parse h
  have hhas : ∀ c, table.Has c → P c.label := by
    rintro c ⟨spelling, hget⟩
    exact hlabel _ (Table.exists_mem_of_get? hget)
  rw [htree]
  exact (hsorted.allTexts hhas hname).erased

end Formula

end LatexLogic
