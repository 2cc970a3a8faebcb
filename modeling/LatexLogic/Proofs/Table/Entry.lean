import LatexLogic.Table.Entry

/-!
# Entries that describe constructs

Every construct whose label is not null is described by a mapping, and the mapping passes all checks
and is read as the construct again (`Construct.ofEntries_toEntries`). So a construct carries in its form
what the checks of its kind demand: nothing else than what could be read from an entry can be built.

An absent field of a mapping counts as null (`Construct.lookup_filter_isPresent`), therefore it makes no
difference that a construct does not write its null fields down, unless the field is required. The one
required field that can be null is the label.
-/

set_option autoImplicit false

namespace LatexLogic

/-- The entries of a mapping whose keys are texts. -/
def Data.textKeyed (fields : List (String × Data)) : List (Data × Data) :=
  fields.map fun field => (.text field.1, field.2)

theorem Data.object_eq (fields : List (String × Data)) :
    Data.object fields = .map (Data.textKeyed fields) :=
  rfl

/-- Under a text key a mapping of texts has what stands under the same text. -/
theorem Data.field?_textKeyed (fields : List (String × Data)) (name : String) :
    Data.field? (Data.textKeyed fields) name = fields.lookup name := by
  induction fields with
  | nil => rfl
  | cons field fields ih =>
    have hsame : Data.same (.text field.1) (.text name) = (name == field.1) := by
      rw [Data.same, Bool.beq_comm]
    rw [Data.field?] at ih ⊢
    rw [textKeyed, List.map_cons, List.find?_cons, hsame, List.lookup_cons]
    cases name == field.1 with
    | true => rfl
    | false => exact ih

/-- A kind is found under its name. -/
theorem Kind.ofName?_name (kind : Kind) : Kind.ofName? kind.name = some kind := by
  cases kind <;> decide

theorem Kind.nodup_fieldNames (kind : Kind) : kind.fieldNames.Nodup := by
  cases kind <;> decide

namespace Construct

/-! ## Absent fields -/

theorem fieldValue_textKeyed (fields : List (String × Data)) (name : String) :
    fieldValue (Data.textKeyed fields) name = (fields.lookup name).getD .null := by
  rw [fieldValue, Data.field?_textKeyed]

/-- Fields without a value can be left out. -/
theorem lookup_filter_isPresent {fields : List (String × Data)}
    (hnodup : (fields.map Prod.fst).Nodup) (name : String) :
    ((fields.filter fun field => isPresent field.2).lookup name).getD .null =
      (fields.lookup name).getD .null := by
  induction fields with
  | nil => rfl
  | cons field fields ih =>
    obtain ⟨key, value⟩ := field
    rw [List.map_cons, List.nodup_cons] at hnodup
    specialize ih hnodup.2
    rw [List.lookup_cons]
    by_cases hkey : name = key
    · subst hkey
      rw [beq_self_eq_true, List.filter_cons]
      cases value with
      | null =>
        -- The name stands nowhere else, so it is absent from the fields that remain.
        have habsent : fields.lookup name = none := by
          apply List.lookup_eq_none_iff.2
          intro field hfield
          rw [bne_iff_ne]
          rintro rfl
          exact hnodup.1 (List.mem_map.2 ⟨field, hfield, rfl⟩)
        exact ih.trans (congrArg (Option.getD · .null) habsent)
      | _ => simp [isPresent]
    · have hne : (name == key) = false := by simpa using hkey
      rw [hne, List.filter_cons]
      split
      · rw [List.lookup_cons, hne]
        exact ih
      · exact ih

/-! ## The mapping of a construct -/

/-- A construct has the fields of its kind, in their order. -/
theorem map_fst_fields (c : Construct Data) : c.fields.map Prod.fst = c.kind.fieldNames := by
  cases c <;> rfl

/-- The value of a field of a construct, null where it is absent. -/
def shownValue (c : Construct Data) (name : String) : Data :=
  (c.fields.lookup name).getD .null

/-- The mapping of a construct gives every field its value. -/
theorem fieldValue_toEntries (c : Construct Data) {name : String} (hname : name ≠ "kind") :
    fieldValue (Data.textKeyed c.toEntries) name = c.shownValue name := by
  have hnodup : (c.fields.map Prod.fst).Nodup := by
    rw [map_fst_fields]
    exact Kind.nodup_fieldNames c.kind
  have hne : (name == "kind") = false := by simpa using hname
  rw [fieldValue_textKeyed, toEntries, List.lookup_cons, hne]
  exact lookup_filter_isPresent hnodup name

theorem fieldValue_toEntries_kind (c : Construct Data) :
    fieldValue (Data.textKeyed c.toEntries) "kind" = .text c.kind.name := by
  rw [fieldValue_textKeyed]
  rfl

section Checks

variable (c : Construct Data)

theorem checkKind_toEntries : checkKind (Data.textKeyed c.toEntries) = .ok c.kind := by
  simp only [checkKind, fieldValue_toEntries_kind, Kind.ofName?_name]

/-- A construct has no other fields than its kind. -/
theorem checkFieldNames_toEntries :
    checkFieldNames c.kind (Data.textKeyed c.toEntries) = .ok () := by
  have hnames : (((Data.textKeyed c.toEntries).map Prod.fst).filter fun name =>
      !isKnownField c.kind name) = [] := by
    apply List.filter_eq_nil_iff.2
    intro name hname
    simp only [Data.textKeyed, toEntries, List.map_cons, List.map_map, List.mem_cons,
      List.mem_map, List.mem_filter, Function.comp_apply] at hname
    rcases hname with rfl | ⟨field, ⟨hfield, -⟩, rfl⟩
    · simp [isKnownField]
    · have hmem : field.1 ∈ c.kind.fieldNames := by
        rw [← map_fst_fields]
        exact List.mem_map_of_mem hfield
      simp [isKnownField, hmem]
  simp only [checkFieldNames, hnames, List.isEmpty_nil, if_true]

/-- Every field that a kind requires has a value in its constructs, if the label has one. -/
theorem checkRequired_toEntries (hlabel : c.label ≠ .null) :
    checkRequired c.kind (Data.textKeyed c.toEntries) = .ok () := by
  have hrequired : ∀ name ∈ c.kind.requiredFields,
      (Data.field? (Data.textKeyed c.toEntries) name).isSome = true := by
    intro name hname
    -- Only fields that are not required can be null, and those that are null are left out.
    have hvalue : name ≠ "kind" ∧ c.shownValue name ≠ .null := by
      rcases c with ⟨label, _ | _ | _⟩ | _ | ⟨label, _ | _⟩ | ⟨label, _ | _⟩ <;>
        simp only [kind, Kind.requiredFields, List.mem_cons, List.not_mem_nil, or_false] at hname <;>
        rcases hname with rfl | rfl | rfl <;>
        first | exact ⟨by decide, hlabel⟩ | exact ⟨by decide, nofun⟩
    rw [← fieldValue_toEntries c hvalue.1, fieldValue] at hvalue
    cases hfield : Data.field? (Data.textKeyed c.toEntries) name with
    | none =>
      rw [hfield] at hvalue
      exact absurd rfl hvalue.2
    | some value => rfl
  rw [checkRequired, if_pos (List.all_eq_true.2 hrequired)]

theorem fieldValue_toEntries_label : fieldValue (Data.textKeyed c.toEntries) "label" = c.label := by
  rw [fieldValue_toEntries c (by decide)]
  cases c <;> rfl

end Checks

section Forms

variable {label : Data} (fields : List (Data × Data))

theorem checkInteger_optionalInt (kind : Kind) (field : String) (n : Option Int) :
    checkInteger kind label field (optionalInt n) = .ok n := by
  cases n with
  | none => rfl
  | some n => rfl

/-- A connective passes the checks of connectives. -/
theorem connectiveOf_fields (form : ConnectiveForm) :
    connectiveOf label (shownValue (.connective label form) "style")
      (shownValue (.connective label form) "precedence")
      (shownValue (.connective label form) "associativity") = .ok form := by
  cases form with
  | nullary precedence note => cases precedence <;> rfl
  | prefixOp precedence note => rfl
  | infixOp precedence side => cases side <;> rfl

/-- In front of its arguments an operator takes at least one. -/
theorem positionOf_front (kind : Kind) {arity : Nat} (positive : 0 < arity) :
    positionOf kind label fields (.text "prefix") (some (arity : Int)) =
      .ok (.front arity positive) :=
  dif_pos positive

/-- A predicate passes the checks of predicates. -/
theorem predicateOf_fields (form : PredicateForm) :
    predicateOf label fields (shownValue (.predicate label form) "style")
      (shownValue (.predicate label form) "arity") = .ok form := by
  cases form with
  | prefixOp arity positive =>
    show (positionOf .predicate label fields (.text "prefix") (some (arity : Int)) >>= _) = _
    rw [positionOf_front _ _ positive]
    rfl
  | infixOp => rfl

/-- A function passes the checks of functions. -/
theorem functionOf_fields (form : FunctionForm) :
    functionOf label fields (shownValue (.function label form) "style")
      (shownValue (.function label form) "arity")
      (shownValue (.function label form) "precedence") = .ok form := by
  cases form with
  | prefixOp arity positive precedence =>
    show (checkInteger .function label "precedence" (optionalInt precedence) >>= fun precedence =>
      positionOf .function label fields (.text "prefix") (some (arity : Int)) >>= _) = _
    rw [checkInteger_optionalInt]
    show (positionOf .function label fields (.text "prefix") (some (arity : Int)) >>= _) = _
    rw [positionOf_front _ _ positive]
    rfl
  | infixOp precedence => rfl

end Forms

/-- The mapping of a construct is read as the construct. -/
theorem ofEntries_toEntries {c : Construct Data} (hlabel : c.label ≠ .null) :
    ofEntries (Data.textKeyed c.toEntries) = .ok c := by
  have hvalue : ∀ name ∈ ["style", "arity", "precedence", "associativity"],
      fieldValue (Data.textKeyed c.toEntries) name = c.shownValue name := by
    intro name hname
    apply fieldValue_toEntries
    rintro rfl
    revert hname
    decide
  rw [List.forall_mem_cons, List.forall_mem_cons, List.forall_mem_cons, List.forall_mem_singleton]
    at hvalue
  obtain ⟨hstyle, harity, hprecedence, hside⟩ := hvalue
  simp only [ofEntries, checkKind_toEntries, checkFieldNames_toEntries,
    checkRequired_toEntries c hlabel, fieldValue_toEntries_label, bind, Except.bind, hstyle, harity,
    hprecedence, hside]
  cases c with
  | connective label form =>
    simp only [kind, Construct.label, connectiveOf_fields]
    rfl
  | quantifier label => rfl
  | predicate label form =>
    simp only [kind, Construct.label, predicateOf_fields]
    rfl
  | function label form =>
    simp only [kind, Construct.label, functionOf_fields]
    rfl

end Construct

end LatexLogic
