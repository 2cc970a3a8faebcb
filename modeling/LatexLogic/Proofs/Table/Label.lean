import LatexLogic.Proofs.Table.Build
import LatexLogic.Table.Named
import Mathlib.Data.List.MinMax
import Mathlib.Order.Nat

/-!
# Labels and their names

A table of names says the same as the table with the labels themselves. The name of a label leads back
to it (`Table.labelNamed_nameOf`), so constructs with one name have one label, and the names of a
well-formed table make up a well-formed table (`Table.WellFormed.named`). The name of a label that is
no text begins with a null character, so a name without one, such as a variable, stands for itself
(`Table.valueNamed_of_notMem`).

Tables whose labels are texts are among those that are built. Giving the labels as plain values keeps
the spellings, the meanings and well-formedness, and loses nothing.
-/

set_option autoImplicit false

namespace LatexLogic

namespace Table

/-! ## Names -/

section Names

variable {t : Table Data} {entry other : String × Construct Data}

/-- The mark is longer than every label that is a text. -/
theorem textLength_lt_length_mark (h : entry ∈ t.entries) :
    entry.2.label.textLength < t.mark.length := by
  have hmem := List.mem_map_of_mem (f := fun entry : String × Construct Data =>
    entry.2.label.textLength) h
  have hle : _ ≤ (t.entries.map fun entry => entry.2.label.textLength).foldr max 0 :=
    List.le_max_of_le hmem le_rfl
  rw [mark, String.length_ofList, List.length_replicate]
  exact Nat.lt_succ_of_le hle

/-- A label is a text and its own name, or its name is the mark with the spelling behind it. -/
theorem nameOf_cases (t : Table Data) (spelling : String) (label : Data) :
    label = .text (t.nameOf spelling label) ∨ t.nameOf spelling label = t.mark ++ spelling := by
  cases label with
  | text s => exact Or.inl rfl
  | _ => exact Or.inr rfl

/-- No label that is a text is the name of another label. -/
theorem not_eq_text_of_isText (h : entry ∈ t.entries) (spelling : String) :
    entry.2.label ≠ .text (t.mark ++ spelling) := by
  intro hlabel
  have hlength := textLength_lt_length_mark h
  rw [hlabel, Data.textLength, String.length_append] at hlength
  omega

/-- Labels with one name are one text, or they belong to one entry. -/
theorem eq_text_or_eq_of_nameOf_eq (hnodup : t.spellings.Nodup) (h : entry ∈ t.entries)
    (hother : other ∈ t.entries)
    (hname : t.nameOf entry.1 entry.2.label = t.nameOf other.1 other.2.label) :
    (∃ s, entry.2.label = .text s ∧ other.2.label = .text s) ∨ entry = other := by
  rcases t.nameOf_cases entry.1 entry.2.label with htext | hmark <;>
    rcases t.nameOf_cases other.1 other.2.label with htext' | hmark'
  · exact Or.inl ⟨_, htext, htext'.trans (by rw [hname])⟩
  · exact absurd (htext.trans (by rw [hname, hmark'])) (not_eq_text_of_isText h other.1)
  · exact absurd (htext'.trans (by rw [← hname, hmark])) (not_eq_text_of_isText hother entry.1)
  · -- Both names are marks, so the spellings are the same and with them the entries.
    rw [hmark, hmark', String.append_right_inj] at hname
    exact Or.inr (List.inj_on_of_nodup_map hnodup h hother hname)

/-- Different labels have different names. -/
theorem label_eq_of_nameOf_eq (hnodup : t.spellings.Nodup) (h : entry ∈ t.entries)
    (hother : other ∈ t.entries)
    (hname : t.nameOf entry.1 entry.2.label = t.nameOf other.1 other.2.label) :
    entry.2.label = other.2.label := by
  rcases eq_text_or_eq_of_nameOf_eq hnodup h hother hname with ⟨s, htext, htext'⟩ | rfl
  · rw [htext, htext']
  · rfl

section Values

variable {value : Construct Data → Data} (hvalue : Construct.KeepsTexts value)
include hvalue

/-- The name of a label leads back to what is noted of its construct. Constructs share a name only if
their labels are one text. -/
theorem valueNamed_nameOf (hnodup : t.spellings.Nodup) (h : entry ∈ t.entries) :
    t.valueNamed value (t.nameOf entry.1 entry.2.label) = value entry.2 := by
  unfold valueNamed
  split
  · next found hfind =>
    have hname := List.find?_some hfind
    rw [beq_iff_eq] at hname
    have hfound := List.mem_of_find?_eq_some hfind
    rcases eq_text_or_eq_of_nameOf_eq hnodup hfound h hname with ⟨s, htext, htext'⟩ | rfl
    · rw [hvalue _ _ htext, hvalue _ _ htext']
    · rfl
  · next hnone => exact absurd (beq_self_eq_true _) (List.find?_eq_none.1 hnone entry h)

/-- A name without a null character stands for itself. -/
theorem valueNamed_of_notMem {name : String} (h : '\x00' ∉ name.toList) :
    t.valueNamed value name = .text name := by
  unfold valueNamed
  split
  · next found hfind =>
    have hname := List.find?_some hfind
    rw [beq_iff_eq] at hname
    rcases t.nameOf_cases found.1 found.2.label with htext | hmark
    · exact hvalue _ _ (htext.trans (by rw [hname]))
    · refine absurd ?_ h
      rw [← hname, hmark, String.toList_append, mark, String.toList_ofList]
      exact List.mem_append_left _ List.mem_cons_self
  · rfl

end Values

/-- The name of a label leads back to it. -/
theorem labelNamed_nameOf (hnodup : t.spellings.Nodup) (h : entry ∈ t.entries) :
    t.labelNamed (t.nameOf entry.1 entry.2.label) = entry.2.label :=
  valueNamed_nameOf Construct.keepsTexts_label hnodup h

/-- The names of a well-formed table make up a well-formed one. -/
theorem WellFormed.named (ht : t.WellFormed) : t.named.WellFormed where
  spelling_ne_empty := List.forall_mem_map.2 ht.spelling_ne_empty
  nodup_spellings := by
    have hspellings : t.named.spellings = t.spellings := by
      rw [spellings, Table.named, List.map_map]
      rfl
    exact hspellings ▸ ht.nodup_spellings
  kind_eq_of_label_eq := by
    refine List.forall_mem_map.2 fun a ha => List.forall_mem_map.2 fun b hb hname => ?_
    rw [Construct.label_withLabel, Construct.label_withLabel] at hname
    rw [Construct.kind_withLabel, Construct.kind_withLabel]
    exact ht.kind_eq_of_label_eq a ha b hb (label_eq_of_nameOf_eq ht.nodup_spellings ha hb hname)

end Names

/-! ## Tables whose labels are texts -/

section Valued

variable (t : Table) (s : String)

theorem spellings_valued : t.valued.spellings = t.spellings := by
  rw [spellings, valued, List.map_map]
  rfl

theorem get?_valued : t.valued.get? s = (t.get? s).map Construct.valued := by
  simp only [get?, valued, List.find?_map, Option.map_map]
  rfl

theorem wellFormed_valued_iff {t : Table} : t.valued.WellFormed ↔ t.WellFormed := by
  refine ⟨fun h => ?_, fun h => ⟨?_, ?_, ?_⟩⟩
  · have hnamed := h.named
    rwa [named_valued] at hnamed
  · exact List.forall_mem_map.2 h.spelling_ne_empty
  · rw [spellings_valued]
    exact h.nodup_spellings
  · refine List.forall_mem_map.2 fun a ha => List.forall_mem_map.2 fun b hb hlabel => ?_
    rw [Construct.label_valued, Construct.label_valued] at hlabel
    rw [Construct.kind_valued, Construct.kind_valued]
    exact h.kind_eq_of_label_eq a ha b hb (Data.text.inj hlabel)

/-- The labels of a well-formed table pass the check: every text can be looked up. -/
theorem WellFormed.checkLabels_valued {t : Table} (ht : t.WellFormed) :
    checkLabels t.valued.entries = .ok () := by
  apply checkLabels_of_kind_eq
  · refine List.forall_mem_map.2 fun entry _ => ?_
    rw [Construct.label_valued]
    rfl
  · refine List.forall_mem_map.2 fun a ha => List.forall_mem_map.2 fun b hb hsame => ?_
    simp only [Construct.label_valued, Construct.kind_valued, Data.same, beq_iff_eq] at hsame ⊢
    exact ht.kind_eq_of_label_eq a ha b hb hsame

/-- A well-formed table is built from its own entries. -/
theorem ofItems_items {t : Table} (ht : t.WellFormed) : ofItems t.valued.items = .ok t.valued :=
  ofItems_items_of_checkLabels (wellFormed_valued_iff.2 ht) ht.checkLabels_valued

/-- Setting the meaning of a spelling does not depend on how labels are given. -/
theorem insert_valued (es : List (String × Construct)) (c : Construct) :
    insert (⟨es⟩ : Table).valued.entries (s, c.valued) =
      (⟨insert es (s, c)⟩ : Table).valued.entries := by
  induction es with
  | nil => rfl
  | cons e es ih =>
    -- Spellings alone decide where the new entry goes, and they are the same on both sides.
    simp only [valued, List.map_cons, insert, insertKeyed] at ih ⊢
    split
    · rfl
    · rw [ih, List.map_cons]

end Valued

end Table

theorem Construct.valued_injective : Function.Injective Construct.valued := by
  intro c d h
  have hlabel : c.label = d.label := by
    have hvalue := congrArg Construct.label h
    rw [label_valued, label_valued] at hvalue
    exact Data.text.inj hvalue
  have hrelabelled := congrArg (withLabel c.label) h
  rwa [valued, valued, withLabel_withLabel, withLabel_withLabel, withLabel_label, hlabel,
    withLabel_label] at hrelabelled

theorem Table.valued_injective : Function.Injective Table.valued := by
  intro s t h
  rw [← named_valued s, ← named_valued t, h]

end LatexLogic
