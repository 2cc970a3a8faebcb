import LatexLogic.Table.Basic

/-!
# Names for labels

Formulas are read with labels that are texts. In a table with any labels, a label that is a text is
its own name, and every other label gets a name of its own: a mark of null characters, more of them
than any text label has characters, and behind it the spelling whose label it is. So such a name is no
label of the table, and no variable either, and it leads back to the label that it stands for
(`Table.labelNamed_nameOf`).

A table whose labels are texts is its own table of names (`Table.named_valued`).
-/

set_option autoImplicit false

namespace LatexLogic

namespace Data

/-- The number of characters of a text. -/
def textLength : Data → Nat
  | .text s => s.length
  | _ => 0

end Data

/-- Of constructs whose labels are texts nothing but the label is noted. -/
def Construct.KeepsTexts (value : Construct Data → Data) : Prop :=
  ∀ c s, c.label = .text s → value c = .text s

theorem Construct.keepsTexts_label : KeepsTexts label :=
  fun _ _ h => h

namespace Table

/-- A run of null characters that is longer than every label that is a text. -/
def mark (t : Table Data) : String :=
  let longest := (t.entries.map fun entry => entry.2.label.textLength).foldr max 0
  String.ofList (List.replicate (longest + 1) '\x00')

/-- The name of the label that belongs to a spelling. -/
def nameOf (t : Table Data) (spelling : String) : Data → String
  | .text label => label
  | _ => t.mark ++ spelling

/-- The table with names in place of its labels. -/
def named (t : Table Data) : Table :=
  ⟨t.entries.map fun entry => (entry.1, entry.2.withLabel (t.nameOf entry.1 entry.2.label))⟩

/-- What is noted of the construct whose label has a name, be it the label or another value. Any other
text stands for itself. -/
def valueNamed (t : Table Data) (value : Construct Data → Data) (name : String) : Data :=
  match t.entries.find? fun entry => t.nameOf entry.1 entry.2.label == name with
  | some entry => value entry.2
  | none => .text name

/-- The label for which a name stands. -/
def labelNamed (t : Table Data) : String → Data :=
  t.valueNamed Construct.label

/-! ## Tables whose labels are texts -/

section Valued

variable (t : Table)

theorem nameOf_valued (spelling : String) {entry : String × Construct Data}
    (h : entry ∈ t.valued.entries) :
    Data.text (t.valued.nameOf spelling entry.2.label) = entry.2.label := by
  obtain ⟨entry, -, rfl⟩ := List.mem_map.1 h
  rw [Construct.label_valued]
  rfl

@[simp] theorem named_valued : t.valued.named = t := by
  obtain ⟨entries⟩ := t
  simp only [named, valued, List.map_map, mk.injEq]
  refine (List.map_congr_left fun entry _ => ?_).trans (List.map_id entries)
  simp [Construct.valued, nameOf]

theorem valueNamed_valued {value : Construct Data → Data} (hvalue : Construct.KeepsTexts value)
    (name : String) :
    t.valued.valueNamed value name = .text name := by
  unfold valueNamed
  split
  · next entry hfind =>
    have hname := List.find?_some hfind
    rw [beq_iff_eq] at hname
    refine hvalue _ _ ?_
    rw [← hname, nameOf_valued t entry.1 (List.mem_of_find?_eq_some hfind)]
  · rfl

@[simp] theorem labelNamed_valued (name : String) : t.valued.labelNamed name = .text name :=
  valueNamed_valued t Construct.keepsTexts_label name

end Valued

end Table

end LatexLogic
