import LatexLogic.Proofs.Table.Extend

/-!
# Tables that can be reached

Tables are built from items, and extended by further items any number of times; among the items there
may be finished constructs and the entries of other tables. `Table.Reachable` says so of a table.

Every step ends in the checks of `Table.ofItems`, so that a table that is reached is well formed
(`Table.Reachable.wellFormed`) and passes the checks again: it is built from its own entries
(`Table.Reachable.ofItems_items`). Conversely, the checks let every well-formed table with text labels
through. So well-formedness is all that can be known of a table with text labels that is reached
(`Table.reachable_iff_wellFormed`), whichever labels the tables have that it was made from.
-/

set_option autoImplicit false

namespace LatexLogic.Table

/-! ## Steps -/

/-- Tables that are made by building and by extending. -/
inductive Reachable : Table Data → Prop where
  | built {items : List (Data × Item)} {t : Table Data} : ofItems items = .ok t → Reachable t
  | extended {t ext : Table Data} {items : List (Data × Item)} :
      Reachable t → t.extendItems items = .ok ext → Reachable ext

/-- A table that is reached is well formed: the last step has checked it. -/
theorem Reachable.wellFormed {t : Table Data} (h : t.Reachable) : t.WellFormed := by
  cases h with
  | built hbuilt => exact wellFormed_of_ofItems hbuilt
  | extended _ hextended => exact wellFormed_of_extendItems hextended

/-- The last step has checked the labels, so a table that is reached is built from its own entries. -/
theorem Reachable.ofItems_items {t : Table Data} (h : t.Reachable) : ofItems t.items = .ok t := by
  have hlabels : checkLabels t.entries = .ok () := by
    cases h with
    | built hbuilt =>
      obtain ⟨_, -, -, hlabels⟩ := ofItems_eq_ok hbuilt
      exact hlabels
    | extended _ hextended =>
      obtain ⟨_, -, hbuilt⟩ := extendItems_eq_ok hextended
      obtain ⟨_, -, -, hlabels⟩ := ofItems_eq_ok hbuilt
      exact hlabels
  exact ofItems_items_of_checkLabels h.wellFormed hlabels

/-- The tables with text labels that are reached are the well-formed ones. -/
theorem reachable_iff_wellFormed {t : Table} : t.valued.Reachable ↔ t.WellFormed :=
  ⟨fun h => wellFormed_valued_iff.1 h.wellFormed, fun ht => .built (ofItems_items ht)⟩

/-! ## What a table that is reached looks like -/

/-- The labels of the quantifiers are those of the entries that give a spelling its meaning now. -/
theorem WellFormed.isQuantifierLabel_iff_get? {t : Table} (ht : t.WellFormed) {label : String} :
    t.isQuantifierLabel label = true ↔ ∃ s, t.get? s = some (.quantifier label) := by
  rw [isQuantifierLabel_iff]
  constructor
  · rintro ⟨⟨s, c⟩, hmem, rfl⟩
    exact ⟨s, ht.get?_eq_some_iff.2 hmem⟩
  · rintro ⟨s, hget⟩
    exact ⟨(s, .quantifier label), exists_mem_of_get? hget, rfl⟩

end LatexLogic.Table
