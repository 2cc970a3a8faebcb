import LatexLogic.Proofs.Table.Override
import LatexLogic.Proofs.Table.Read

/-!
# Plain forms

A table is written as a mapping from its spellings to the mappings that describe their meanings, and a
table that is built from this form is the same again, entry for entry; and so is the table that is
extended by its own form (`Table.Reachable.ofData_toData_iff`, `Table.Reachable.extend_toData_iff`).

The form of a construct is the entry that the construct was read from, whatever this entry was, but
for the order of the fields and for those that are null (`Construct.toEntries_perm`). For reading
loses nothing (`Construct.readFrom_ofEntries`), so that going through the fields of the construct finds
every field of the entry.

All of this needs labels that are not null. A label is required, but it may be null, and then the form
leaves out what is required: it is not read again (`Construct.ofEntries_toEntries_iff`).
-/

set_option autoImplicit false

namespace LatexLogic

/-! ## Entries -/

/-- The keys of a mapping are different. -/
def Data.KeysDiffer (entries : List (Data × Data)) : Prop :=
  entries.Pairwise fun a b => same a.1 b.1 = false

theorem Data.keysDiffer_textKeyed_iff {fields : List (String × Data)} :
    KeysDiffer (textKeyed fields) ↔ (fields.map Prod.fst).Nodup := by
  rw [KeysDiffer, textKeyed, List.pairwise_map, List.Nodup, List.pairwise_map]
  simp only [same, beq_eq_false_iff_ne]

/-- Entries whose keys are all texts are those of a mapping from texts. -/
theorem Data.exists_textKeyed {P : String → Prop} {entries : List (Data × Data)}
    (h : ∀ entry ∈ entries, ∃ name, P name ∧ entry.1 = .text name) :
    ∃ fields, entries = textKeyed fields ∧ ∀ field ∈ fields, P field.1 := by
  induction entries with
  | nil => exact ⟨[], rfl, nofun⟩
  | cons entry entries ih =>
    rw [List.forall_mem_cons] at h
    obtain ⟨⟨name, hname, hkey⟩, hrest⟩ := h
    obtain ⟨fields, rfl, hfields⟩ := ih hrest
    refine ⟨(name, entry.2) :: fields, ?_, List.forall_mem_cons.2 ⟨hname, hfields⟩⟩
    rw [textKeyed, textKeyed, List.map_cons, ← hkey]

namespace Construct

variable {entries : List (Data × Data)} {c : Construct Data}

/-- A field that is known has a text as its name. -/
theorem exists_of_isKnownField {kind : Kind} {key : Data} (h : isKnownField kind key = true) :
    ∃ name, name ∈ "kind" :: kind.fieldNames ∧ key = .text name := by
  cases key with
  | text name =>
    refine ⟨name, ?_, rfl⟩
    simpa [isKnownField] using h
  | _ => cases h

theorem nodup_kind_fieldNames (kind : Kind) : ("kind" :: kind.fieldNames).Nodup := by
  cases kind <;> decide

/-- The fields of a mapping that have a value are found by going through all names that it can have. -/
theorem filter_isPresent_perm {fields : List (String × Data)} {names : List String}
    (hnames : names.Nodup) (hkeys : (fields.map Prod.fst).Nodup)
    (hall : ∀ field ∈ fields, field.1 ∈ names) :
    ((names.map fun name => (name, (fields.lookup name).getD .null)).filter fun field =>
      isPresent field.2).Perm (fields.filter fun field => isPresent field.2) := by
  -- Neither list has an entry twice, so both have to have the same entries.
  have hnodup : (names.map fun name => (name, (fields.lookup name).getD .null)).Nodup :=
    hnames.map fun _ _ heq => (Prod.mk.inj heq).1
  refine (List.perm_ext_iff_of_nodup (hnodup.filter _) ((List.Nodup.of_map _ hkeys).filter _)).2 ?_
  rintro ⟨name, value⟩
  simp only [List.mem_filter, List.mem_map, Prod.mk.injEq]
  refine and_congr_left fun hpresent => ?_
  rw [← Mapping.lookup_eq_some_iff hkeys]
  constructor
  · rintro ⟨name', -, rfl, rfl⟩
    cases hlookup : fields.lookup name' with
    | some value => rfl
    | none =>
      rw [hlookup] at hpresent
      cases hpresent
  · intro hlookup
    have hmem := (Mapping.lookup_eq_some_iff hkeys).1 hlookup
    exact ⟨name, hall _ hmem, rfl, by rw [hlookup]; rfl⟩

/-- The form of a construct is the entry that it was read from, but for the order of the fields and
those that are null. -/
theorem toEntries_perm (hdiffer : Data.KeysDiffer entries) (h : ofEntries entries = .ok c) :
    (Data.textKeyed c.toEntries).Perm (entries.filter fun entry => isPresent entry.2) := by
  have hread := (readFrom_ofEntries entries).of_eq_ok h
  -- All keys are texts, or else the entry would have been refused.
  obtain ⟨fields, rfl, hnames⟩ := Data.exists_textKeyed fun entry hentry =>
    exists_of_isKnownField (hread.keys entry hentry)
  -- The form goes through the names in their own order, whatever the order of the entry was.
  have hform : c.toEntries = (("kind" :: c.kind.fieldNames).map fun name =>
      (name, (fields.lookup name).getD .null)).filter fun field => isPresent field.2 := by
    simp only [← fieldValue_textKeyed]
    rw [toEntries, hread.fields, List.map_cons, hread.kind]
    rfl
  have hperm := filter_isPresent_perm (nodup_kind_fieldNames c.kind)
    (Data.keysDiffer_textKeyed_iff.1 hdiffer) hnames
  have hfilter : (Data.textKeyed fields).filter (fun entry => isPresent entry.2) =
      Data.textKeyed (fields.filter fun field => isPresent field.2) := List.filter_map
  rw [hform, hfilter]
  exact hperm.map _

/-- The form of a construct is read again unless its label is null. -/
theorem ofEntries_toEntries_iff :
    ofEntries (Data.textKeyed c.toEntries) = .ok c ↔ c.label ≠ .null := by
  refine ⟨fun h hnull => ?_, ofEntries_toEntries⟩
  have hsome := (isSome_label_of_ofEntries _).of_eq_ok h
  have hvalue := fieldValue_toEntries_label c
  rw [hnull, fieldValue_textKeyed] at hvalue
  rw [Data.field?_textKeyed] at hsome
  obtain ⟨value, hfound⟩ := Option.isSome_iff_exists.1 hsome
  rw [hfound] at hvalue
  cases hvalue
  -- Every field that the form gives has a value.
  rw [toEntries, List.lookup_cons] at hfound
  have hnodup : ((c.fields.filter fun field => isPresent field.2).map Prod.fst).Nodup := by
    refine List.Nodup.sublist (List.filter_sublist.map _) ?_
    rw [map_fst_fields]
    exact Kind.nodup_fieldNames c.kind
  have hmem := List.mem_filter.1 ((Mapping.lookup_eq_some_iff hnodup).1 hfound)
  cases hmem.2

end Construct

/-! ## Tables -/

namespace Table

/-- The form of a construct is read as the construct, as an item of a table, unless its label is
null. -/
theorem Item.read_toData_iff {c : Construct Data} :
    Item.read (.plain c.toData) = .ok (.construct c) ↔ c.label ≠ .null := by
  refine ⟨fun h => Construct.ofEntries_toEntries_iff.1 ?_, Item.read_toData⟩
  rw [Construct.toData, Data.object_eq, read] at h
  split at h
  · next c' hread =>
    rw [hread, Item.construct.inj (Except.ok.inj h)]
  · cases h

variable {t : Table Data}

/-- The form of a table under its spellings. -/
theorem textKeyed_own (ht : t.WellFormed) :
    Data.textKeyed (ht.own.map Construct.toData).entries = t.toData :=
  List.map_map

section Form

variable (ht : t.Reachable)

/-- The form of a table is read like the table unless a label is null. -/
theorem Reachable.ofItems_plain_iff :
    ofItems ((ht.wellFormed.own.map Construct.toData).map .plain).items = .ok t ↔
      ∀ entry ∈ t.entries, entry.2.label ≠ .null := by
  constructor
  · intro h entry hentry
    -- The table has its own entries, so each form is read as the construct that it is of.
    have hread := corresponds_of_ofItems h
    rw [Mapping.corresponds_map_left_iff, Mapping.corresponds_map_left_iff] at hread
    exact Item.read_toData_iff.1 (List.forall₂_same.1 hread entry hentry).2
  · intro hlabels
    have hread : ReadAlike ((ht.wellFormed.own.map Construct.toData).map .plain)
        ht.wellFormed.ownItems := by
      rw [ReadAlike, WellFormed.ownItems, Mapping.corresponds_map_left_iff,
        Mapping.corresponds_map_left_iff]
      exact Mapping.corresponds_map fun entry hentry => Item.read_toData (hlabels entry hentry)
    rw [ofItems_congr hread, items_ownItems, ht.ofItems_items]

include ht

/-- A table is built from its form. -/
theorem Reachable.ofData_toData_iff :
    ofData t.toData = .ok t ↔ ∀ entry ∈ t.entries, entry.2.label ≠ .null := by
  rw [← textKeyed_own ht.wellFormed, ofData_textKeyed, ht.ofItems_plain_iff]

/-- A table that is extended by its own form stays what it is: every spelling is given the meaning
that it has. -/
theorem Reachable.extend_toData_iff :
    t.extend t.toData = .ok t ↔ ∀ entry ∈ t.entries, entry.2.label ≠ .null := by
  have hwell := ht.wellFormed
  -- Laid over the table, the form takes the place of all entries, and it is read like them.
  have hkeys : hwell.ownItems.keys = ((hwell.own.map Construct.toData).map Item.plain).keys := by
    rw [WellFormed.ownItems, Mapping.keys_map, Mapping.keys_map, Mapping.keys_map]
  rw [← textKeyed_own hwell, extend_textKeyed, extendItems_eq_ok_iff hwell,
    Mapping.override_of_keys_eq _ _ hkeys, ht.ofItems_plain_iff]

end Form

end Table

/-- A table is built again from its plain form, and extending it by this form changes nothing, exactly
if no label is null: then the spellings have the same meanings in the same order. The plain form of a
construct is the entry that it was read from, but for the order of the fields and those that are null,
and it is read as the construct again exactly if the label is not null. -/
theorem Table.reads_back_plain_form {t : Table Data} (ht : t.Reachable)
    {entries : List (Data × Data)} {c : Construct Data} (hdiffer : Data.KeysDiffer entries)
    (h : Construct.ofEntries entries = .ok c) :
    ((ofData t.toData = .ok t ↔ ∀ entry ∈ t.entries, entry.2.label ≠ .null) ∧
      (t.extend t.toData = .ok t ↔ ∀ entry ∈ t.entries, entry.2.label ≠ .null)) ∧
    (Data.textKeyed c.toEntries).Perm (entries.filter fun entry => Construct.isPresent entry.2) ∧
    (Construct.ofEntries (Data.textKeyed c.toEntries) = .ok c ↔ c.label ≠ .null) :=
  ⟨⟨ht.ofData_toData_iff, ht.extend_toData_iff⟩, Construct.toEntries_perm hdiffer h,
    Construct.ofEntries_toEntries_iff⟩

/-- A truth constant with a note that has no effect, and a function in front of its arguments with a
precedence that has none. -/
def Table.annotated : Table :=
  ⟨[("top", .connective "true" (.nullary none (.text "left"))),
    ("f", .function "f" (.prefixOp 2 (Nat.succ_pos 1) (some 5)))]⟩

/-- The truth constant, read from an entry whose precedence is null, keeps its note. -/
theorem Table.reads_back_plain_form_annotated :
    (annotated.valued.Reachable ∧ ofData annotated.valued.toData = .ok annotated.valued ∧
      annotated.valued.extend annotated.valued.toData = .ok annotated.valued) ∧
    let form := [("kind", .text "connective"), ("label", .text "true"), ("style", .text "nullary"),
      ("associativity", .text "left")]
    (Data.textKeyed form).Perm
      [(.text "associativity", .text "left"), (.text "kind", .text "connective"),
        (.text "label", .text "true"), (.text "style", .text "nullary")] ∧
      Construct.ofEntries (Data.textKeyed form) =
        .ok (.connective (.text "true") (.nullary none (.text "left"))) := by
  have hwell : annotated.WellFormed := ⟨by decide, by decide, by decide⟩
  have hreachable := reachable_iff_wellFormed.2 hwell
  have hread : Construct.ofEntries (Data.textKeyed [("associativity", .text "left"),
      ("kind", .text "connective"), ("precedence", .null), ("label", .text "true"),
      ("style", .text "nullary")]) =
      .ok (.connective (.text "true") (.nullary none (.text "left"))) := by
    simp only [Construct.ofEntries, Construct.checkKind, Construct.checkRequired,
      Construct.fieldValue_textKeyed, Data.field?_textKeyed]
    rfl
  have hnull : ∀ entry ∈ annotated.valued.entries, entry.2.label ≠ .null := by
    refine List.forall_mem_map.2 fun entry _ => ?_
    rw [Construct.label_valued]
    simp
  have hdiffer : Data.KeysDiffer (Data.textKeyed [("associativity", .text "left"),
      ("kind", .text "connective"), ("precedence", .null), ("label", .text "true"),
      ("style", .text "nullary")]) := Data.keysDiffer_textKeyed_iff.2 (by decide)
  obtain ⟨⟨hplain, hextended⟩, hperm, hagain⟩ := reads_back_plain_form hreachable hdiffer hread
  exact ⟨⟨hreachable, hplain.2 hnull, hextended.2 hnull⟩, hperm, hagain.2 (by simp [Construct.label])⟩

/-- A quantifier whose label is null is read from an entry, but not from its own plain form. -/
theorem Construct.not_ofEntries_toEntries :
    ¬ ∀ entries c, Data.KeysDiffer entries → ofEntries entries = .ok c →
      ofEntries (Data.textKeyed c.toEntries) = .ok c := by
  intro h
  have hdiffer :
      Data.KeysDiffer (Data.textKeyed [("kind", .text "quantifier"), ("label", .null)]) :=
    Data.keysDiffer_textKeyed_iff.2 (by decide)
  have hread : ofEntries (Data.textKeyed [("kind", .text "quantifier"), ("label", .null)]) =
      .ok (.quantifier .null) := by
    simp only [ofEntries, checkKind, checkRequired, fieldValue_textKeyed, Data.field?_textKeyed]
    rfl
  exact ofEntries_toEntries_iff.1 (h _ _ hdiffer hread) rfl

end LatexLogic
