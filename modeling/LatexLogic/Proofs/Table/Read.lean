import LatexLogic.Proofs.Table.Entry
import LatexLogic.Proofs.Table.Mapping

/-!
# Constructs that were read

Reading a construct from an entry loses nothing (`Construct.readFrom_ofEntries`). The construct is of
the kind that the entry names, and each of its fields has the value that the entry gives it, also
where this value has no effect: the precedence of a nullary connective or of a function in front of
its arguments, or the side of a connective that is not between two formulas. Fields that the kind does
not have are refused.
-/

set_option autoImplicit false

namespace LatexLogic

/-! ## What a computation gives -/

/-- Whatever the computation gives has the property. -/
def GivesOnly {ε α : Type} (P : α → Prop) : Except ε α → Prop
  | .ok a => P a
  | .error _ => True

section GivesOnly

variable {ε α β : Type} {P : α → Prop} {Q : β → Prop}

theorem GivesOnly.of_eq_ok {x : Except ε α} (h : GivesOnly P x) {a : α} (ha : x = .ok a) : P a := by
  subst ha
  exact h

theorem givesOnly_ok {a : α} (h : P a) : GivesOnly P (.ok a : Except ε α) := h

theorem givesOnly_error (e : ε) : GivesOnly P (.error e : Except ε α) := trivial

theorem givesOnly_true (x : Except ε α) : GivesOnly (fun _ => True) x := by
  cases x with
  | ok a => exact givesOnly_ok trivial
  | error e => exact givesOnly_error e

theorem givesOnly_eq (x : Except ε α) : GivesOnly (fun a => x = .ok a) x := by
  cases x with
  | ok a => exact givesOnly_ok rfl
  | error e => exact givesOnly_error e

theorem GivesOnly.bind {x : Except ε α} {f : α → Except ε β} (hx : GivesOnly P x)
    (hf : ∀ a, P a → GivesOnly Q (f a)) : GivesOnly Q (x >>= f) := by
  cases x with
  | ok a => exact hf a hx
  | error e => exact givesOnly_error e

/-- Steps that keep an invariant keep it together. -/
theorem givesOnly_foldlM {f : β → α → Except ε β} {xs : List α}
    (h : ∀ x ∈ xs, ∀ b, Q b → GivesOnly Q (f b x)) {b : β} (hb : Q b) :
    GivesOnly Q (xs.foldlM f b) := by
  induction xs generalizing b with
  | nil => exact givesOnly_ok hb
  | cons x xs ih =>
    rw [List.forall_mem_cons] at h
    rw [List.foldlM_cons]
    exact (h.1 b hb).bind fun _ => ih h.2

end GivesOnly

/-! ## Fields -/

namespace Construct

section Checks

variable (label : Data) (entry : List (Data × Data))

/-- What passes the check is the value itself. -/
theorem givesOnly_checkInteger (kind : Kind) (field : String) (value : Data) :
    GivesOnly (fun found => value = optionalInt found) (checkInteger kind label field value) := by
  cases value with
  | null => exact givesOnly_ok rfl
  | int n => exact givesOnly_ok rfl
  | _ => exact givesOnly_error _

/-- A connective has the fields that it was read from. -/
theorem fields_connectiveOf (style precedence side : Data) :
    GivesOnly (fun form => (connective label form).fields = [("label", label),
        ("style", style), ("precedence", precedence), ("associativity", side)])
      (connectiveOf label style precedence side) := by
  unfold connectiveOf
  -- Two styles need a precedence, and both read it in the same way.
  extract_lets readPrecedence
  have hprecedence : GivesOnly (fun n => precedence = .int n) readPrecedence := by
    apply (givesOnly_checkInteger label .connective "precedence" precedence).bind
    intro found hfound
    cases found with
    | none => exact givesOnly_error _
    | some n => exact givesOnly_ok hfound
  split
  · apply (givesOnly_checkInteger label .connective "precedence" precedence).bind
    rintro found rfl
    exact givesOnly_ok rfl
  · apply hprecedence.bind
    rintro n rfl
    exact givesOnly_ok rfl
  · apply hprecedence.bind
    rintro n rfl
    split
    · exact givesOnly_ok rfl
    · exact givesOnly_ok rfl
    · exact givesOnly_error _
  · exact givesOnly_error _

/-- The style that stands for a position. -/
def Position.style : Position → String
  | front _ _ => "prefix"
  | between => "infix"

/-- The arity that stands for a position. -/
def Position.arity : Position → Nat
  | front arity _ => arity
  | between => 2

/-- A position is read from its style and its arity. -/
theorem givesOnly_positionOf (kind : Kind) (style : Data) (arity : Option Int) :
    GivesOnly (fun position => style = .text position.style ∧ arity = some (position.arity : Int))
      (positionOf kind label entry style arity) := by
  unfold positionOf
  split
  · split
    · exact givesOnly_error _
    · next n =>
      split
      · next hpos =>
        -- The arity is kept as a number that cannot be negative.
        have hcast : ((n.toNat : Nat) : Int) = n := by omega
        exact givesOnly_ok ⟨rfl, congrArg some hcast.symm⟩
      · exact givesOnly_error _
  · split
    · next harity => exact givesOnly_ok ⟨rfl, harity⟩
    · exact givesOnly_error _
  · exact givesOnly_error _

/-- A predicate has the fields that it was read from. -/
theorem fields_predicateOf (style arity : Data) :
    GivesOnly (fun form => (predicate label form).fields = [("label", label),
        ("style", style), ("arity", arity)])
      (predicateOf label entry style arity) := by
  apply (givesOnly_checkInteger label .predicate "arity" arity).bind
  rintro found rfl
  apply (givesOnly_positionOf label entry .predicate style found).bind
  rintro position ⟨rfl, rfl⟩
  cases position with
  | front arity positive => exact givesOnly_ok rfl
  | between => exact givesOnly_ok rfl

/-- A function has the fields that it was read from. -/
theorem fields_functionOf (style arity precedence : Data) :
    GivesOnly (fun form => (function label form).fields = [("label", label),
        ("style", style), ("arity", arity), ("precedence", precedence)])
      (functionOf label entry style arity precedence) := by
  apply (givesOnly_checkInteger label .function "arity" arity).bind
  rintro found rfl
  apply (givesOnly_checkInteger label .function "precedence" precedence).bind
  rintro noted rfl
  apply (givesOnly_positionOf label entry .function style found).bind
  rintro position ⟨rfl, rfl⟩
  cases position with
  | front arity positive => exact givesOnly_ok rfl
  | between =>
    cases noted with
    | none => exact givesOnly_error _
    | some n => exact givesOnly_ok rfl

end Checks

variable {entries : List (Data × Data)} {c : Construct Data}

/-- What is known of an entry from the construct that is read from it. -/
structure ReadFrom (entries : List (Data × Data)) (c : Construct Data) : Prop where
  kind : fieldValue entries "kind" = .text c.kind.name
  keys : ∀ entry ∈ entries, isKnownField c.kind entry.1 = true
  fields : c.fields = c.kind.fieldNames.map fun name => (name, fieldValue entries name)

/-- A kind that is found is named by the entry. -/
theorem fieldValue_of_checkKind {kind : Kind} (h : checkKind entries = .ok kind) :
    fieldValue entries "kind" = .text kind.name := by
  unfold checkKind at h
  split at h
  · next name hname =>
    split at h
    · next hfound =>
      cases h
      have hsame := List.find?_some hfound
      rw [hname, of_decide_eq_true hsame]
    · cases h
  · split at h <;> cases h

/-- Fields that the kind does not have are refused. -/
theorem isKnownField_of_checkFieldNames {kind : Kind} (h : checkFieldNames kind entries = .ok ()) :
    ∀ entry ∈ entries, isKnownField kind entry.1 = true := by
  unfold checkFieldNames at h
  dsimp only at h
  split at h
  · next hnone =>
    intro entry hentry
    have hknown := List.filter_eq_nil_iff.1 (List.isEmpty_iff.1 hnone) entry.1
      (List.mem_map_of_mem hentry)
    simpa using hknown
  · split at h <;> cases h

/-- A construct is read from all of the entry: its kind, its fields, and nothing else. -/
theorem readFrom_ofEntries (entries : List (Data × Data)) :
    GivesOnly (ReadFrom entries) (ofEntries entries) := by
  apply (givesOnly_eq (checkKind entries)).bind
  intro kind hkind
  apply (givesOnly_eq (checkFieldNames kind entries)).bind
  rintro ⟨⟩ hnames
  -- That the required fields are there plays no part: absent ones count as null.
  apply (givesOnly_true _).bind
  intro _ _
  have hvalue := fieldValue_of_checkKind hkind
  have hknown := isKnownField_of_checkFieldNames hnames
  cases kind with
  | connective =>
    apply (fields_connectiveOf _ _ _ _).bind
    intro form hform
    exact givesOnly_ok ⟨hvalue, hknown, hform⟩
  | quantifier =>
    -- A quantifier has no further checks, only its label.
    exact givesOnly_ok ⟨hvalue, hknown, rfl⟩
  | predicate =>
    apply (fields_predicateOf _ _ _ _).bind
    intro form hform
    exact givesOnly_ok ⟨hvalue, hknown, hform⟩
  | function =>
    apply (fields_functionOf _ _ _ _ _).bind
    intro form hform
    exact givesOnly_ok ⟨hvalue, hknown, hform⟩

/-- An entry that is read has a label, if only null. -/
theorem isSome_label_of_ofEntries (entries : List (Data × Data)) :
    GivesOnly (fun _ => (Data.field? entries "label").isSome = true) (ofEntries entries) := by
  apply (givesOnly_true (checkKind entries)).bind
  intro kind _
  apply (givesOnly_true (checkFieldNames kind entries)).bind
  intro _ _
  have hrequired : GivesOnly (fun _ => (Data.field? entries "label").isSome = true)
      (checkRequired kind entries) := by
    unfold checkRequired
    split
    · next hall => exact givesOnly_ok (List.all_eq_true.1 hall "label" (by cases kind <;> decide))
    · exact givesOnly_error _
  apply hrequired.bind
  intro _ hlabel
  cases kind with
  | quantifier => exact givesOnly_ok hlabel
  | _ => exact (givesOnly_true _).bind fun _ _ => givesOnly_ok hlabel

/-- A construct shows the values that the entry gives its fields. -/
theorem ReadFrom.shownValue_eq (h : ReadFrom entries c) {name : String}
    (hname : name ∈ c.kind.fieldNames) : c.shownValue name = fieldValue entries name := by
  have hnodup : (c.fields.map Prod.fst).Nodup := by
    rw [map_fst_fields]
    exact Kind.nodup_fieldNames c.kind
  have hmem : (name, fieldValue entries name) ∈ c.fields := by
    rw [h.fields]
    exact List.mem_map_of_mem hname
  rw [shownValue, (Mapping.lookup_eq_some_iff hnodup).2 hmem]
  rfl

end Construct

end LatexLogic
