import LatexLogic.Proofs.Table.Read
import LatexLogic.Proofs.Table.Reachable

/-!
# Entries that a table refuses

A table that cannot be built is refused with an error that is reported, with few exceptions. The kind
of an entry may be a value that is no key, such as a list, and then it cannot be looked up; and the
unknown fields of an entry may be values without a common order, and then they cannot be listed. Such
an entry is malformed (`Construct.isMalformed`), and no other entry is refused without a reason that
could be told (`Construct.failsWithin_sound_iff`). What is told shows parts of the entry
(`Construct.showsParts_ofEntries`), and a part that is nested too deeply cannot be shown. Which parts
these are is a parameter throughout: one refusal writes one message, so the parameter may be chosen
for the place where this message is written.

So a table whose labels can be looked up reports what is wrong with its entries unless it comes upon a
malformed one before or has to show too much (`Table.failsWithin_ofData_iff`,
`Table.failsWithin_extend_iff`). If all fields have texts as their names an entry is malformed through
its kind alone (`Construct.isMalformed_textKeyed`).
-/

set_option autoImplicit false

namespace LatexLogic

/-! ## Errors of a computation -/

/-- Every error in which the computation can end has the property. -/
def FailsWithin {ε α : Type} (P : ε → Prop) (x : Except ε α) : Prop :=
  ∀ e, x = .error e → P e

section FailsWithin

variable {ε α β : Type} {P : ε → Prop}

theorem failsWithin_ok (a : α) : FailsWithin P (.ok a : Except ε α) := nofun

theorem failsWithin_error_iff {e : ε} : FailsWithin P (.error e : Except ε α) ↔ P e := by
  constructor
  · intro h
    exact h e rfl
  · intro h e' heq
    cases heq
    exact h

theorem FailsWithin.mono {Q : ε → Prop} {x : Except ε α} (h : FailsWithin P x)
    (hPQ : ∀ e, P e → Q e) : FailsWithin Q x :=
  fun e he => hPQ e (h e he)

theorem failsWithin_and_iff {Q : ε → Prop} {x : Except ε α} :
    FailsWithin (fun e => P e ∧ Q e) x ↔ FailsWithin P x ∧ FailsWithin Q x :=
  ⟨fun h => ⟨fun e he => (h e he).1, fun e he => (h e he).2⟩, fun h e he => ⟨h.1 e he, h.2 e he⟩⟩

/-- One computation after the other fails within a property if both do. -/
theorem FailsWithin.bind {x : Except ε α} {f : α → Except ε β} (hx : FailsWithin P x)
    (hf : ∀ a, x = .ok a → FailsWithin P (f a)) : FailsWithin P (x >>= f) := by
  cases hresult : x with
  | error e => exact failsWithin_error_iff.2 (hx e hresult)
  | ok a => exact hf a hresult

/-- Going through a list ends in an error of the first item that has one. -/
theorem failsWithin_mapM_iff {f : α → Except ε β} {xs : List α} :
    FailsWithin P (xs.mapM f) ↔
      ∀ pre x post, xs = pre ++ x :: post → (∀ y ∈ pre, ∃ b, f y = .ok b) →
        FailsWithin P (f x) := by
  induction xs with
  | nil =>
    apply iff_of_true (failsWithin_ok [])
    intro pre x post heq
    simp at heq
  | cons x xs ih =>
    rw [List.mapM_cons]
    cases hx : f x with
    | error e =>
      -- The first item ends the computation: whatever stands behind it is never come to.
      constructor
      · intro h pre y post heq hpre
        cases pre with
        | nil =>
          obtain ⟨rfl, -⟩ := List.cons.inj heq
          rw [hx]
          exact failsWithin_error_iff.2 (failsWithin_error_iff.1 h)
        | cons z pre =>
          obtain ⟨rfl, -⟩ := List.cons.inj heq
          obtain ⟨b, hb⟩ := hpre x List.mem_cons_self
          rw [hx] at hb
          cases hb
      · intro h
        have hfirst := h [] x xs rfl nofun
        rw [hx] at hfirst
        exact failsWithin_error_iff.2 (failsWithin_error_iff.1 hfirst)
    | ok b =>
      -- The first item is passed, so the others decide.
      have hrest : FailsWithin P (xs.mapM f) ↔
          FailsWithin P (xs.mapM f >>= fun bs => (pure (b :: bs) : Except ε (List β))) := by
        cases xs.mapM f with
        | error e => exact failsWithin_error_iff.trans failsWithin_error_iff.symm
        | ok bs => exact iff_of_true (failsWithin_ok _) (failsWithin_ok _)
      apply hrest.symm.trans
      rw [ih]
      constructor
      · intro h pre y post heq hpre
        cases pre with
        | nil =>
          obtain ⟨rfl, -⟩ := List.cons.inj heq
          rw [hx]
          exact failsWithin_ok b
        | cons z pre =>
          obtain ⟨rfl, rfl⟩ := List.cons.inj heq
          exact h pre y post rfl (List.forall_mem_cons.1 hpre).2
      · intro h pre y post heq hpre
        exact h (x :: pre) y post (congrArg _ heq) (List.forall_mem_cons.2 ⟨⟨b, hx⟩, hpre⟩)

theorem failsWithin_forM {f : α → Except ε Unit} {xs : List α}
    (h : ∀ x ∈ xs, FailsWithin P (f x)) : FailsWithin P (xs.forM f) := by
  induction xs with
  | nil => exact failsWithin_ok ()
  | cons x xs ih =>
    rw [List.forall_mem_cons] at h
    exact h.1.bind fun _ _ => ih h.2

/-- Steps that keep an invariant fail within a property if each of them does where the invariant
holds. -/
theorem failsWithin_foldlM {I : β → Prop} {f : β → α → Except ε β} {xs : List α}
    (hkeeps : ∀ x ∈ xs, ∀ b, I b → GivesOnly I (f b x))
    (h : ∀ x ∈ xs, ∀ b, I b → FailsWithin P (f b x)) {b : β} (hb : I b) :
    FailsWithin P (xs.foldlM f b) := by
  induction xs generalizing b with
  | nil => exact failsWithin_ok b
  | cons x xs ih =>
    rw [List.forall_mem_cons] at h hkeeps
    rw [List.foldlM_cons]
    exact (h.1 b hb).bind fun b' hb' => ih hkeeps.2 h.2 ((hkeeps.1 b hb).of_eq_ok hb')

end FailsWithin

/-! ## Messages -/

/-- Whether values can be written into a message, or else one of them has a number with too many digits,
which is said in place of the message. -/
def Data.areWritable (shows : Data → Bool) (values : List Data) : Bool :=
  (writingObstacle? shows values).all Obstacle.isReported

namespace EntryError

/-- The entry is not malformed. -/
def Sound (e : EntryError) : Prop :=
  e.isMalformed = false

/-- The message of the error can be written. -/
def Writable (shows : Data → Bool) (e : EntryError) : Prop :=
  Data.areWritable shows e.shown = true

/-- The error is reported. -/
def Reported (shows : Data → Bool) (e : EntryError) : Prop :=
  e.isReported shows = true

theorem reported_iff {shows : Data → Bool} {e : EntryError} :
    e.Reported shows ↔ e.Sound ∧ e.Writable shows := by
  unfold Reported Sound Writable isReported obstacle? Data.areWritable
  cases e.isMalformed <;> simp [Obstacle.isReported]

end EntryError

/-! ## Entries -/

namespace Construct

open EntryError (Sound Writable Reported)

/-- What can be written into a message about an entry: a key, a value, null for a field that is absent,
and the entry without its kind. -/
inductive IsPart (entries : List (Data × Data)) : Data → Prop where
  | key {entry : Data × Data} : entry ∈ entries → IsPart entries entry.1
  | value {entry : Data × Data} : entry ∈ entries → IsPart entries entry.2
  | absent : IsPart entries .null
  | fields : IsPart entries (.map (withoutKind entries))

variable {entries : List (Data × Data)}

theorem isPart_fieldValue (entries : List (Data × Data)) (name : String) :
    IsPart entries (fieldValue entries name) := by
  rw [fieldValue, Data.field?]
  cases hfound : entries.find? fun entry => Data.same entry.1 (.text name) with
  | none => exact .absent
  | some entry => exact .value (List.mem_of_find?_eq_some hfound)

/-- The error shows parts of the entry. -/
def ShowsParts (entries : List (Data × Data)) (e : EntryError) : Prop :=
  ∀ value ∈ e.shown, IsPart entries value

/-- The error has a message about the entry. -/
def Told (entries : List (Data × Data)) (e : EntryError) : Prop :=
  e.Sound ∧ ShowsParts entries e

section Checks

variable {kind : Kind} {label style : Data} (hlabel : IsPart entries label)
  (hstyle : IsPart entries style)

theorem told_checkRequired (kind : Kind) (entries : List (Data × Data)) :
    FailsWithin (Told entries) (checkRequired kind entries) := by
  unfold checkRequired
  split
  · exact failsWithin_ok ()
  · exact failsWithin_error_iff.2 ⟨rfl, List.forall_mem_singleton.2 .fields⟩

theorem told_unknownStyle (kind : Kind) (hstyle : IsPart entries style) :
    Told entries (.unknownStyle kind style) :=
  ⟨rfl, List.forall_mem_singleton.2 hstyle⟩

include hlabel

theorem told_checkInteger {value : Data} (field : String) (hvalue : IsPart entries value) :
    FailsWithin (Told entries) (checkInteger kind label field value) := by
  cases value with
  | null => exact failsWithin_ok none
  | int n => exact failsWithin_ok (some n)
  | _ =>
    exact failsWithin_error_iff.2
      ⟨rfl, List.forall_mem_cons.2 ⟨hlabel, List.forall_mem_singleton.2 hvalue⟩⟩

include hstyle

theorem told_positionOf {arity : Option Int} (harity : IsPart entries (optionalInt arity)) :
    FailsWithin (Told entries) (positionOf kind label (withoutKind entries) style arity) := by
  have hname := List.forall_mem_singleton.2 hlabel
  unfold positionOf
  split
  · split
    · exact failsWithin_error_iff.2 ⟨rfl, List.forall_mem_singleton.2 .fields⟩
    · split
      · exact failsWithin_ok _
      · exact failsWithin_error_iff.2 ⟨rfl, hname⟩
  · split
    · exact failsWithin_ok _
    · exact failsWithin_error_iff.2
        ⟨rfl, List.forall_mem_cons.2 ⟨hlabel, List.forall_mem_singleton.2 harity⟩⟩
  · exact failsWithin_error_iff.2 (told_unknownStyle kind hstyle)

theorem told_connectiveOf {precedence : Data} (hprecedence : IsPart entries precedence)
    (side : Data) :
    FailsWithin (Told entries) (connectiveOf label style precedence side) := by
  have hname := List.forall_mem_singleton.2 hlabel
  have hinteger : FailsWithin (Told entries)
      (checkInteger .connective label "precedence" precedence) :=
    told_checkInteger hlabel "precedence" hprecedence
  unfold connectiveOf
  extract_lets readPrecedence
  have hread : FailsWithin (Told entries) readPrecedence := by
    apply hinteger.bind
    intro n _
    cases n with
    | none => exact failsWithin_error_iff.2 ⟨rfl, hname⟩
    | some n => exact failsWithin_ok n
  split
  · exact hinteger.bind fun _ _ => failsWithin_ok _
  · exact hread.bind fun _ _ => failsWithin_ok _
  · apply hread.bind
    intro n _
    split
    · exact failsWithin_ok _
    · exact failsWithin_ok _
    · exact failsWithin_error_iff.2 ⟨rfl, hname⟩
  · exact failsWithin_error_iff.2 (told_unknownStyle _ hstyle)

theorem told_predicateOf {arity : Data} (harity : IsPart entries arity) :
    FailsWithin (Told entries) (predicateOf label (withoutKind entries) style arity) := by
  apply (told_checkInteger hlabel "arity" harity).bind
  intro found hfound
  obtain rfl := (givesOnly_checkInteger _ _ _ _).of_eq_ok hfound
  apply (told_positionOf hlabel hstyle harity).bind
  intro position _
  cases position with
  | front arity positive => exact failsWithin_ok _
  | between => exact failsWithin_ok _

theorem told_functionOf {arity precedence : Data} (harity : IsPart entries arity)
    (hprecedence : IsPart entries precedence) :
    FailsWithin (Told entries)
      (functionOf label (withoutKind entries) style arity precedence) := by
  apply (told_checkInteger hlabel "arity" harity).bind
  intro found hfound
  obtain rfl := (givesOnly_checkInteger _ _ _ _).of_eq_ok hfound
  apply (told_checkInteger hlabel "precedence" hprecedence).bind
  intro noted _
  apply (told_positionOf hlabel hstyle harity).bind
  intro position _
  cases position with
  | front arity positive => exact failsWithin_ok _
  | between =>
    cases noted with
    | none => exact failsWithin_error_iff.2 ⟨rfl, List.forall_mem_singleton.2 hlabel⟩
    | some n => exact failsWithin_ok _

end Checks

/-- The names of the fields that a kind does not have. -/
def unknownFields (kind : Kind) (entries : List (Data × Data)) : List Data :=
  (entries.map Prod.fst).filter fun name => !isKnownField kind name

/-- Whether the kind of an entry cannot be looked up, or else its unknown fields cannot be put in
order. -/
def isMalformed (entries : List (Data × Data)) : Bool :=
  match checkKind entries with
  | .error _ => !(fieldValue entries "kind").isKey
  | .ok kind => !Data.comparable (unknownFields kind entries)

variable {kind : Kind} {P : EntryError → Prop}

/-- Once the kind is known and the names of the fields are checked, whatever is wrong is told. -/
theorem failsWithin_ofEntries (hkind : checkKind entries = .ok kind)
    (hnames : FailsWithin P (checkFieldNames kind entries)) (htold : ∀ e, Told entries e → P e) :
    FailsWithin P (ofEntries entries) := by
  have hpart := isPart_fieldValue entries
  rw [ofEntries, hkind]
  apply hnames.bind
  intro _ _
  apply ((told_checkRequired _ _).mono htold).bind
  intro _ _
  cases kind with
  | connective =>
    have hform := told_connectiveOf (hpart "label") (hpart "style") (hpart "precedence")
      (fieldValue entries "associativity")
    exact (hform.mono htold).bind fun _ _ => failsWithin_ok _
  | quantifier => exact failsWithin_ok _
  | predicate =>
    have hform := told_predicateOf (hpart "label") (hpart "style") (hpart "arity")
    exact (hform.mono htold).bind fun _ _ => failsWithin_ok _
  | function =>
    have hform := told_functionOf (hpart "label") (hpart "style") (hpart "arity")
      (hpart "precedence")
    exact (hform.mono htold).bind fun _ _ => failsWithin_ok _

/-- A kind that is found is a text. -/
theorem isKey_of_checkKind (h : checkKind entries = .ok kind) :
    (fieldValue entries "kind").isKey = true := by
  rw [fieldValue_of_checkKind h]
  rfl

/-- Nothing is asked of an entry before its kind is found. -/
theorem ofEntries_eq_error {e : EntryError} (h : checkKind entries = .error e) :
    ofEntries entries = .error e := by
  rw [ofEntries, h]
  rfl

/-- The error of a kind that is not found shows the kind, unless it is no key. -/
theorem cases_of_checkKind {e : EntryError} (h : checkKind entries = .error e) :
    e = .unknownKind (fieldValue entries "kind") ∧ (fieldValue entries "kind").isKey = true ∨
      e = .kindIsNoKey (fieldValue entries "kind") ∧ (fieldValue entries "kind").isKey = false := by
  unfold checkKind at h
  split at h
  · next name hvalue =>
    rw [hvalue]
    split at h
    · cases h
    · cases h
      exact Or.inl ⟨rfl, rfl⟩
  · split at h
    · next hkey =>
      cases h
      exact Or.inl ⟨rfl, hkey⟩
    · next hkey =>
      cases h
      exact Or.inr ⟨rfl, Bool.eq_false_iff.2 hkey⟩

/-- Unknown fields are told if they can be put in order. -/
theorem failsWithin_checkFieldNames_iff :
    FailsWithin Sound (checkFieldNames kind entries) ↔
      Data.comparable (unknownFields kind entries) = true := by
  unfold checkFieldNames
  show FailsWithin Sound (if (unknownFields kind entries).isEmpty then _ else
    if Data.comparable (unknownFields kind entries) then _ else _) ↔ _
  split
  · next hempty =>
    rw [List.isEmpty_iff.1 hempty]
    exact iff_of_true (failsWithin_ok ()) rfl
  · split
    · next hcomparable => exact iff_of_true (failsWithin_error_iff.2 rfl) hcomparable
    · next hcomparable =>
      apply iff_of_false ?_ hcomparable
      intro h
      have hsound := failsWithin_error_iff.1 h
      cases hsound

theorem showsParts_checkFieldNames :
    FailsWithin (ShowsParts entries) (checkFieldNames kind entries) := by
  unfold checkFieldNames
  dsimp only
  split
  · exact failsWithin_ok ()
  · split
    · refine failsWithin_error_iff.2 fun name hname => ?_
      have hkey := List.mem_of_mem_filter ((List.mergeSort_perm _ _).mem_iff.1 hname)
      obtain ⟨entry, hentry, rfl⟩ := List.mem_map.1 hkey
      exact .key hentry
    · exact failsWithin_error_iff.2 fun _ h => absurd h List.not_mem_nil

/-- An entry is read, or refused with an error that is told, exactly if it is not malformed. -/
theorem failsWithin_sound_iff (entries : List (Data × Data)) :
    FailsWithin Sound (ofEntries entries) ↔ isMalformed entries = false := by
  unfold isMalformed
  cases hkind : checkKind entries with
  | error e =>
    rw [ofEntries_eq_error hkind, failsWithin_error_iff, Bool.not_eq_false']
    rcases cases_of_checkKind hkind with ⟨rfl, hkey⟩ | ⟨rfl, hkey⟩
    · exact iff_of_true rfl hkey
    · exact iff_of_false Bool.false_ne_true.symm (by simp [hkey])
  | ok kind =>
    rw [Bool.not_eq_false', ← failsWithin_checkFieldNames_iff]
    constructor
    · -- The order of the unknown fields is asked for before anything else can go wrong.
      intro h e he
      apply h
      rw [ofEntries, hkind]
      show (checkFieldNames kind entries >>= _) = _
      rw [he]
      rfl
    · exact fun hnames => failsWithin_ofEntries hkind hnames fun _ he => he.1

/-- Whatever is written into the message of an error is a part of the entry. -/
theorem showsParts_ofEntries (entries : List (Data × Data)) :
    FailsWithin (ShowsParts entries) (ofEntries entries) := by
  cases hkind : checkKind entries with
  | ok kind => exact failsWithin_ofEntries hkind showsParts_checkFieldNames fun _ he => he.2
  | error e =>
    rw [ofEntries_eq_error hkind, failsWithin_error_iff]
    rcases cases_of_checkKind hkind with ⟨rfl, -⟩ | ⟨rfl, -⟩
    · exact List.forall_mem_singleton.2 (isPart_fieldValue entries "kind")
    · exact fun _ h => absurd h List.not_mem_nil

/-- An entry is read, or refused with an error that is reported, exactly if it is not malformed and the
message of the error can be written. -/
theorem failsWithin_ofEntries_iff (shows : Data → Bool) (entries : List (Data × Data)) :
    FailsWithin (Reported shows) (ofEntries entries) ↔
      isMalformed entries = false ∧ FailsWithin (Writable shows) (ofEntries entries) := by
  have hreported : EntryError.Reported shows = fun e => e.Sound ∧ e.Writable shows :=
    funext fun _ => propext EntryError.reported_iff
  rw [hreported, failsWithin_and_iff, failsWithin_sound_iff]

/-- Texts can be put in order. -/
theorem comparable_of_texts {names : List Data} (h : ∀ name ∈ names, ∃ s, name = .text s) :
    Data.comparable names = true := by
  cases names with
  | nil => rfl
  | cons name names =>
    rw [List.forall_mem_cons] at h
    obtain ⟨⟨s, rfl⟩, hrest⟩ := h
    cases names with
    | nil => rfl
    | cons name names =>
      apply List.all_eq_true.2
      intro name hname
      obtain ⟨s, rfl⟩ := hrest name hname
      rfl

/-- Where all names of fields are texts the kind alone decides. -/
theorem isMalformed_textKeyed (fields : List (String × Data)) :
    isMalformed (Data.textKeyed fields) = !((fields.lookup "kind").getD .null).isKey := by
  unfold isMalformed
  rw [fieldValue_textKeyed]
  cases hkind : checkKind (Data.textKeyed fields) with
  | error e => rfl
  | ok kind =>
    have hkey := isKey_of_checkKind hkind
    rw [fieldValue_textKeyed] at hkey
    dsimp only
    rw [hkey, comparable_of_texts]
    -- The unknown names are among the keys, which are texts.
    intro name hname
    obtain ⟨entry, hentry, rfl⟩ := List.mem_map.1 (List.mem_filter.1 hname).1
    obtain ⟨field, -, rfl⟩ := List.mem_map.1 hentry
    exact ⟨field.1, rfl⟩

end Construct

/-! ## Tables -/

namespace TableError

/-- Whether the table was refused for a value of the wrong sort: by a malformed entry, or for a label
that is no key. -/
def isMalformed : TableError → Bool
  | entry error => error.isMalformed
  | labelIsNoKey _ => true
  | _ => false

/-- The values that are written into the message of an error, in order. -/
def shown : TableError → List Data
  | entry error => error.shown
  | notAConstruct key value => [key, value]
  | sharedLabel label _ _ _ _ => [label]
  | _ => []

/-- No value of the wrong sort was met. -/
def Sound (e : TableError) : Prop :=
  e.isMalformed = false

/-- The message of the error can be written. -/
def Writable (shows : Data → Bool) (e : TableError) : Prop :=
  Data.areWritable shows e.shown = true

/-- The error is reported. -/
def Reported (shows : Data → Bool) (e : TableError) : Prop :=
  e.isReported shows = true

theorem reported_iff {shows : Data → Bool} {e : TableError} :
    e.Reported shows ↔ e.Sound ∧ e.Writable shows := by
  cases e with
  | entry error => exact EntryError.reported_iff
  | labelIsNoKey label => exact iff_of_false nofun fun h => Bool.noConfusion h.1
  | emptySpelling => exact iff_of_true rfl ⟨rfl, rfl⟩
  | longSpelling key => exact iff_of_true rfl ⟨rfl, rfl⟩
  | notAConstruct key value => exact (and_iff_right rfl).symm
  | sharedLabel label firstKind firstSpelling kind spelling => exact (and_iff_right rfl).symm

end TableError

/-- Whether a value is a mapping that is malformed as an entry. -/
def Data.isMalformed : Data → Bool
  | .map entries => Construct.isMalformed entries
  | _ => false

/-- Whether a value is no mapping, or one whose label, if it has one, can be looked up. -/
def Data.hasKeyLabel : Data → Bool
  | .map entries => (Construct.fieldValue entries "label").isKey
  | _ => true

theorem Kind.label_mem_fieldNames (kind : Kind) : "label" ∈ kind.fieldNames := by
  cases kind <;> decide

namespace Table

open TableError (Sound Writable Reported)

/-! ### Labels -/

/-- Whether the label of an item can be looked up. -/
def Item.hasKeyLabel : Item → Bool
  | .construct c => c.label.isKey
  | .plain value => value.hasKeyLabel

/-- Reading keeps the label. -/
theorem Item.hasKeyLabel_of_read {item item' : Item} (h : item.hasKeyLabel = true)
    (hread : item.read = .ok item') : item'.hasKeyLabel = true := by
  unfold read at hread
  split at hread
  · next entries =>
    split at hread
    · next c hc =>
      cases hread
      have hlabel : c.label = Construct.fieldValue entries "label" := by
        rw [← ((Construct.readFrom_ofEntries entries).of_eq_ok hc).shownValue_eq
          (Kind.label_mem_fieldNames _)]
        cases c <;> rfl
      rw [hasKeyLabel, hlabel]
      exact h
    · cases hread
  · cases hread
    exact h

/-! ### Errors -/

/-- A plain value is told about, if it is refused at all, exactly if it is not malformed. -/
theorem failsWithin_read_iff (value : Data) :
    FailsWithin Sound (Item.read (.plain value)) ↔ value.isMalformed = false := by
  cases value with
  | map entries =>
    have hentries : FailsWithin Sound (Item.read (.plain (.map entries))) ↔
        FailsWithin EntryError.Sound (Construct.ofEntries entries) := by
      cases hresult : Construct.ofEntries entries with
      | ok c =>
        simp only [Item.read, hresult]
        exact iff_of_true (failsWithin_ok _) (failsWithin_ok _)
      | error e =>
        simp only [Item.read, hresult, failsWithin_error_iff]
        rfl
    exact hentries.trans (Construct.failsWithin_sound_iff entries)
  | _ => exact iff_of_true (failsWithin_ok _) rfl

theorem sound_spellingOf (key : Data) : FailsWithin Sound (spellingOf key) := by
  unfold spellingOf
  split
  · exact failsWithin_error_iff.2 rfl
  · split
    · exact failsWithin_error_iff.2 rfl
    · exact failsWithin_ok _

/-- Beside the errors of reading, an item has errors that are told. -/
theorem failsWithin_checkItem_iff (key : Data) (item : Item) :
    FailsWithin Sound (checkItem key item) ↔ FailsWithin Sound item.read := by
  unfold checkItem
  cases item.read with
  | error e => exact failsWithin_error_iff.trans failsWithin_error_iff.symm
  | ok item' =>
    apply iff_of_true ?_ (failsWithin_ok _)
    cases item' with
    | plain value => exact failsWithin_error_iff.2 rfl
    | construct c => exact (sound_spellingOf key).bind fun _ _ => failsWithin_ok _

/-- A clash of labels is told, and labels that are keys are looked up. -/
theorem sound_checkLabels {built : List (String × Construct Data)}
    (h : ∀ entry ∈ built, entry.2.label.isKey = true) : FailsWithin Sound (checkLabels built) := by
  apply failsWithin_forM
  rintro ⟨spelling, construct⟩ hentry
  dsimp only
  rw [if_pos (h _ hentry)]
  split
  · exact failsWithin_ok ()
  · split
    · exact failsWithin_ok ()
    · exact failsWithin_error_iff.2 rfl

/-- What is built from items with labels that can be looked up has such labels. -/
theorem isKey_label_of_mapM {items : List (Data × Item)} {checked : List (String × Construct Data)}
    (hlabels : ∀ item ∈ items, item.2.hasKeyLabel = true)
    (h : (items.mapM fun item => checkItem item.1 item.2) = .ok checked) :
    ∀ entry ∈ checked.foldl insert [], entry.2.label.isKey = true := by
  apply forall_mem_foldl_insertKeyed (P := fun c : Construct Data => c.label.isKey = true) ?_
    fun _ h => absurd h List.not_mem_nil
  rintro ⟨s, c⟩ hentry
  obtain ⟨item, hitem, hcheck⟩ := List.mem_map.1 (mapM_eq_ok_iff.1 h ▸ List.mem_map_of_mem hentry)
  exact Item.hasKeyLabel_of_read (hlabels item hitem) (checkItem_eq_ok_iff.1 hcheck).1

/-- Beside the errors of its items, a table has errors that are told. -/
theorem failsWithin_ofItems_iff {items : List (Data × Item)}
    (hlabels : ∀ item ∈ items, item.2.hasKeyLabel = true) :
    FailsWithin Sound (ofItems items) ↔
      FailsWithin Sound (items.mapM fun item => checkItem item.1 item.2) := by
  unfold ofItems
  cases hchecked : items.mapM fun item => checkItem item.1 item.2 with
  | error e => exact failsWithin_error_iff.trans failsWithin_error_iff.symm
  | ok checked =>
    apply iff_of_true ?_ (failsWithin_ok _)
    have hkeys := isKey_label_of_mapM hlabels hchecked
    exact (sound_checkLabels hkeys).bind fun _ _ => failsWithin_ok _

/-- Every malformed entry stands behind one that is not read. -/
def ReportsEntries (isRead : Data × Data → Prop) (entries : List (Data × Data)) : Prop :=
  ∀ pre entry post, entries = pre ++ entry :: post → (∀ other ∈ pre, isRead other) →
    entry.2.isMalformed = false

theorem reportsEntries_of_forall {entries : List (Data × Data)}
    (h : ∀ entry ∈ entries, entry.2.isMalformed = false) (isRead : Data × Data → Prop) :
    ReportsEntries isRead entries := by
  intro pre entry post heq _
  exact h entry (heq ▸ List.mem_append_right _ List.mem_cons_self)

theorem failsWithin_readItem_iff (item : Data × Item) :
    FailsWithin Sound (readItem item) ↔ FailsWithin Sound item.2.read := by
  unfold readItem
  cases item.2.read with
  | error e => exact failsWithin_error_iff.trans failsWithin_error_iff.symm
  | ok item' => exact iff_of_true (failsWithin_ok _) (failsWithin_ok _)

/-- The labels of a table that is reached have been looked up. -/
theorem Reachable.isKey_label {t : Table Data} (ht : t.Reachable) :
    ∀ entry ∈ t.entries, entry.2.label.isKey = true := by
  obtain ⟨_, -, -, hlabels⟩ := ofItems_eq_ok ht.ofItems_items
  exact isKey_label_of_checkLabels hlabels

/-- Extending a table by items ends in an error that is not told only if reading an item does. -/
theorem failsWithin_extendItems_iff {t : Table Data} (ht : t.Reachable) {items : List (Data × Item)}
    (hlabels : ∀ item ∈ items, item.2.hasKeyLabel = true) :
    FailsWithin Sound (t.extendItems items) ↔ FailsWithin Sound (items.mapM readItem) := by
  unfold extendItems
  cases hnew : items.mapM readItem with
  | error e => exact failsWithin_error_iff.trans failsWithin_error_iff.symm
  | ok new =>
    have hread := mapM_eq_ok_iff.1 hnew
    have hkeys : ∀ item ∈ layOver t.items new, item.2.hasKeyLabel = true := by
      apply forall_mem_foldl_insertKeyed (P := fun item : Item => item.hasKeyLabel = true)
      · rintro ⟨key, item⟩ hitem
        obtain ⟨given, hgiven, hitem⟩ := List.mem_map.1 (hread ▸ List.mem_map_of_mem hitem)
        exact Item.hasKeyLabel_of_read (hlabels given hgiven) (readItem_eq_ok_iff.1 hitem).2
      · exact List.forall_mem_map.2 ht.isKey_label
    -- All merged items are read already, so only errors that are told are left.
    apply iff_of_true ?_ (failsWithin_ok _)
    apply (failsWithin_ofItems_iff hkeys).2
    rw [failsWithin_mapM_iff]
    intro pre item post heq _
    have hitem : item ∈ layOver t.items new := heq ▸ List.mem_append_right _ List.mem_cons_self
    rw [failsWithin_checkItem_iff, read_of_mem_layOver hread item hitem]
    exact failsWithin_ok _

theorem reported_eq (shows : Data → Bool) : Reported shows = fun e => e.Sound ∧ e.Writable shows :=
  funext fun _ => propext TableError.reported_iff

section Plain

variable {entries : List (Data × Data)}
  (hlabels : ∀ entry ∈ entries, entry.2.hasKeyLabel = true)

include hlabels

/-- A table of plain values is built, or refused with an error that is told, exactly if no malformed
entry is the first that is refused. -/
theorem failsWithin_sound_ofData_iff :
    FailsWithin Sound (ofData entries) ↔
      ReportsEntries (fun entry => ∃ result, checkItem entry.1 (.plain entry.2) = .ok result)
        entries := by
  have hitem : ∀ entry : Data × Data, FailsWithin Sound (checkItem entry.1 (.plain entry.2)) ↔
      entry.2.isMalformed = false := by
    intro entry
    rw [failsWithin_checkItem_iff, failsWithin_read_iff]
  rw [ofData, failsWithin_ofItems_iff (List.forall_mem_map.2 hlabels), List.mapM_map]
  apply failsWithin_mapM_iff.trans
  simp only [Function.comp_apply, hitem, ReportsEntries]

/-- The same holds of a table that is extended, where all new entries are read before one is refused
for another reason. -/
theorem failsWithin_sound_extend_iff {t : Table Data} (ht : t.Reachable) :
    FailsWithin Sound (t.extend entries) ↔
      ReportsEntries (fun entry => ∃ item, Item.read (.plain entry.2) = .ok item) entries := by
  have hread : ∀ entry : Data × Data, (∃ result, readItem (entry.1, .plain entry.2) = .ok result) ↔
      ∃ item, Item.read (.plain entry.2) = .ok item := by
    intro entry
    simp only [Prod.exists, readItem_eq_ok_iff, exists_and_left, exists_eq_left']
  rw [extend, failsWithin_extendItems_iff ht (List.forall_mem_map.2 hlabels), List.mapM_map]
  apply failsWithin_mapM_iff.trans
  simp only [Function.comp_apply, hread, failsWithin_readItem_iff, failsWithin_read_iff,
    ReportsEntries]

/-- A table of plain values is built, or refused with an error that is reported, exactly if no malformed
entry is the first that is refused and the message of the error can be written. -/
theorem failsWithin_ofData_iff (shows : Data → Bool) :
    FailsWithin (Reported shows) (ofData entries) ↔
      ReportsEntries (fun entry => ∃ result, checkItem entry.1 (.plain entry.2) = .ok result)
        entries ∧ FailsWithin (Writable shows) (ofData entries) := by
  rw [reported_eq, failsWithin_and_iff, failsWithin_sound_ofData_iff hlabels]

theorem failsWithin_extend_iff (shows : Data → Bool) {t : Table Data} (ht : t.Reachable) :
    FailsWithin (Reported shows) (t.extend entries) ↔
      ReportsEntries (fun entry => ∃ item, Item.read (.plain entry.2) = .ok item) entries ∧
        FailsWithin (Writable shows) (t.extend entries) := by
  rw [reported_eq, failsWithin_and_iff, failsWithin_sound_extend_iff hlabels ht]

end Plain

end Table

end LatexLogic
