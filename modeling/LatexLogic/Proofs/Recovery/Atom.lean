import LatexLogic.Formula.Labelled
import LatexLogic.Proofs.Binding.Verdict
import LatexLogic.Proofs.Export.Texts
import LatexLogic.Proofs.Table.Label

/-!
# Atoms that the checks look into

Where labels need not be texts the checks on a tree look into its atoms. The atoms that they find there
are variables and connectives without operands (`Tree.IsSorted.of_mem_atoms`), and a variable is a text
(`Table.atomSort_of_isNameLike`). Stripping, which goes through a tree from left to right, stops at the
first atom without a first part, unless metavariables that are declared apart stop it before
(`Tree.stripMeets_iff`).
-/

set_option autoImplicit false

namespace LatexLogic

namespace Tree

/-! ## Other labels -/

section Relabelled

variable {atomLabel nodeLabel : String → String}

theorem relabelledList_eq_map (ts : List Tree) :
    relabelledList atomLabel nodeLabel ts = ts.map (relabelled atomLabel nodeLabel) := by
  induction ts with
  | nil => rfl
  | cons t ts ih => simp only [relabelledList, List.map_cons, ih]

theorem relabelled_of_id (hatom : ∀ label, atomLabel label = label)
    (hnode : ∀ label, nodeLabel label = label) (t : Tree) : t.relabelled atomLabel nodeLabel = t := by
  induction t using Tree.induction with
  | atom label => rw [relabelled, hatom]
  | metavar name declared => rfl
  | node label args ih =>
    rw [relabelled, hnode, relabelledList_eq_map, List.map_congr_left ih, List.map_id']

/-- Other atoms leave it to a quantifier to name its variable. -/
theorem NamesBinders.relabelled {isQuantifier : String → Bool} {t : Tree}
    (h : t.NamesBinders isQuantifier) : (t.relabelled atomLabel id).NamesBinders isQuantifier := by
  induction t using Tree.induction with
  | atom label => exact namesBinders_atom _
  | metavar name declared => exact namesBinders_metavar name declared
  | node label args ih =>
    rw [Tree.relabelled, relabelledList_eq_map, namesBinders_node_iff]
    rw [namesBinders_node_iff] at h
    refine ⟨fun binder scope hargs hlabel => ?_,
      List.forall_mem_map.2 fun arg harg => ih arg harg (h.2 arg harg)⟩
    obtain ⟨binder, rest, rfl, rfl, hrest⟩ := List.map_eq_cons_iff.1 hargs
    obtain ⟨scope, rest, rfl, rfl, hnil⟩ := List.map_eq_cons_iff.1 hrest
    obtain rfl := List.map_eq_nil_iff.1 hnil
    obtain ⟨name, rfl⟩ := h.1 binder scope rfl hlabel
    exact ⟨_, rfl⟩

end Relabelled

/-! ## Atoms of sorted trees -/

/-- The atoms of a sorted tree are variables and connectives without operands. -/
theorem IsSorted.of_mem_atoms {has : Construct → Prop} {t : Tree} (h : t.IsSorted has)
    {name : String} (hname : name ∈ t.atoms) :
    isVariable name = true ∨
      ∃ precedence note, has (.connective name (.nullary precedence note)) := by
  induction t using Tree.induction with
  | atom label =>
    obtain rfl := List.mem_singleton.1 hname
    rcases h with h | h
    · cases h with
      | constant hc => exact Or.inr ⟨_, _, hc⟩
    · cases h with
      | name hvariable => exact Or.inl hvariable
  | metavar label declared => exact absurd hname List.not_mem_nil
  | node label args ih =>
    obtain ⟨arg, harg, hname⟩ := mem_atomsList.1 hname
    exact ih arg harg (h.of_mem_args harg) hname

/-! ## Stripping -/

/-- An atom is met that has the property: in front of it, the arguments of every node that it is in
declare their metavariables alike. -/
inductive MeetsAtom (P : String → Prop) : Tree → Prop where
  | atom {label : String} : P label → MeetsAtom P (.atom label)
  | node {label : String} {front behind : List Tree} {arg : Tree} :
      (node label front).DeclaresAlike → MeetsAtom P arg →
        MeetsAtom P (.node label (front ++ arg :: behind))

/-- The atom that is met is one of the tree. -/
theorem MeetsAtom.exists_mem_atoms {P : String → Prop} {t : Tree} (h : t.MeetsAtom P) :
    ∃ name ∈ t.atoms, P name := by
  induction h with
  | atom hlabel => exact ⟨_, List.mem_singleton_self _, hlabel⟩
  | node _ _ ih =>
    obtain ⟨name, hname, hP⟩ := ih
    exact ⟨name, mem_atomsList.2 ⟨_, List.mem_append_right _ List.mem_cons_self, hname⟩, hP⟩

/-- Whether an atom is met depends on the atoms of the tree only. -/
theorem MeetsAtom.imp {P Q : String → Prop} {t : Tree} (h : t.MeetsAtom P) :
    (∀ name ∈ t.atoms, P name → Q name) → t.MeetsAtom Q := by
  induction h with
  | atom hlabel => exact fun hPQ => .atom (hPQ _ (List.mem_singleton_self _) hlabel)
  | node hfront _ ih =>
    intro hPQ
    refine .node hfront (ih fun name hname => hPQ name (mem_atomsList.2 ⟨_, ?_, hname⟩))
    exact List.mem_append_right _ List.mem_cons_self

theorem declaresAlike_iff_isOk_strip {t : Tree} : t.DeclaresAlike ↔ t.strip.isOk = true := by
  constructor
  · intro h
    obtain ⟨ds, hstrip, -⟩ := h.exists_strip
    rw [hstrip]
    rfl
  · intro h
    cases hstrip : t.strip with
    | error name =>
      rw [hstrip] at h
      cases h
    | ok result => exact declaresAlike_of_strip hstrip

section StripMeets

variable {isMet : String → Bool} {found : Declarations} {t : Tree} {ts : List Tree}

theorem isOk_stripFrom_cons_iff :
    (stripFrom found (t :: ts)).isOk = true ↔
      ∃ stripped declarations, t.strip = .ok (stripped, declarations) ∧
        found.conflict? declarations = none ∧
        (stripFrom (found.merge declarations) ts).isOk = true := by
  rw [stripFrom]
  cases t.strip with
  | error name => simp [Except.isOk, Except.toBool]
  | ok result =>
    obtain ⟨stripped, declarations⟩ := result
    cases hconflict : found.conflict? declarations with
    | some name => simp [hconflict, Except.isOk, Except.toBool]
    | none =>
      cases hrest : stripFrom (found.merge declarations) ts <;>
        simp [hconflict, hrest, Except.isOk, Except.toBool]

theorem stripMeetsFrom_cons_iff :
    stripMeetsFrom isMet found (t :: ts) = true ↔ t.stripMeets isMet = true ∨
      ∃ stripped declarations, t.strip = .ok (stripped, declarations) ∧
        found.conflict? declarations = none ∧
        stripMeetsFrom isMet (found.merge declarations) ts = true := by
  rw [stripMeetsFrom, Bool.or_eq_true]
  refine or_congr_right ?_
  cases t.strip with
  | error name => simp
  | ok result =>
    obtain ⟨stripped, declarations⟩ := result
    cases hconflict : found.conflict? declarations <;> simp [hconflict]

/-- Stripping a list comes to an atom in one of its trees if those in front of it can be stripped. -/
theorem stripMeetsFrom_iff (ts : List Tree) : ∀ found : Declarations,
    stripMeetsFrom isMet found ts = true ↔
      ∃ front t behind, ts = front ++ t :: behind ∧ (stripFrom found front).isOk = true ∧
        t.stripMeets isMet = true := by
  induction ts with
  | nil => simp [stripMeetsFrom]
  | cons t ts ih =>
    intro found
    rw [stripMeetsFrom_cons_iff]
    simp only [ih]
    constructor
    · rintro (hmet | ⟨stripped, ds, hstrip, hno, front, arg, behind, rfl, hfront, hmet⟩)
      · exact ⟨[], t, ts, rfl, rfl, hmet⟩
      · have hok := isOk_stripFrom_cons_iff.2 ⟨stripped, ds, hstrip, hno, hfront⟩
        exact ⟨t :: front, arg, behind, rfl, hok, hmet⟩
    · rintro ⟨_ | ⟨first, front⟩, arg, behind, hts, hok, hmet⟩
      · obtain ⟨rfl, -⟩ := List.cons.inj hts
        exact Or.inl hmet
      · obtain ⟨rfl, rfl⟩ := List.cons.inj hts
        obtain ⟨stripped, ds, hstrip, hno, hfront⟩ := isOk_stripFrom_cons_iff.1 hok
        exact Or.inr ⟨stripped, ds, hstrip, hno, front, arg, behind, rfl, hfront, hmet⟩

/-- What stripping comes to is an atom that is met. -/
theorem stripMeets_iff :
    t.stripMeets isMet = true ↔ t.MeetsAtom fun name => isMet name = true := by
  induction t using Tree.induction with
  | atom label =>
    rw [stripMeets]
    refine ⟨fun hmet => .atom hmet, fun h => ?_⟩
    cases h with
    | atom hmet => exact hmet
  | metavar name declared => exact iff_of_false Bool.false_ne_true nofun
  | node label args ih =>
    have hstrip (front : List Tree) :
        (node label front).DeclaresAlike ↔ (stripFrom [] front).isOk = true := by
      rw [declaresAlike_iff_isOk_strip, strip]
      cases stripFrom [] front <;> rfl
    rw [stripMeets, stripMeetsFrom_iff]
    constructor
    · rintro ⟨front, arg, behind, rfl, hfront, hmet⟩
      have hmem : arg ∈ front ++ arg :: behind := List.mem_append_right _ List.mem_cons_self
      exact .node ((hstrip front).2 hfront) ((ih arg hmem).1 hmet)
    · intro h
      cases h with
      | @node _ front behind arg hfront hmet =>
        have hmem : arg ∈ front ++ arg :: behind := List.mem_append_right _ List.mem_cons_self
        exact ⟨front, arg, behind, rfl, (hstrip front).1 hfront, (ih arg hmem).2 hmet⟩

end StripMeets

end Tree

/-! ## Names of labels -/

theorem Construct.keepsTexts_treeLabel : KeepsTexts treeLabel := by
  intro c s h
  cases c with
  | connective label form =>
    cases h
    cases form <;> rfl
  | _ => exact h

namespace Table

variable {t : Table Data}

/-- The name of a label leads to what the label is in a finished tree. -/
theorem treeLabelNamed_nameOf (hnodup : t.spellings.Nodup) {entry : String × Construct Data}
    (h : entry ∈ t.entries) :
    t.treeLabelNamed (t.nameOf entry.1 entry.2.label) = entry.2.treeLabel :=
  valueNamed_nameOf Construct.keepsTexts_treeLabel hnodup h

/-- A variable and any other name is its own label. -/
theorem treeLabelNamed_of_isNameLike {name : String} (h : IsNameLike name) :
    t.treeLabelNamed name = .text name :=
  valueNamed_of_notMem Construct.keepsTexts_treeLabel (h.notMem (by decide))

theorem atomSort_of_isNameLike {name : String} (h : IsNameLike name) :
    t.atomSort name = .text name := by
  rw [atomSort, labelNamed, valueNamed_of_notMem Construct.keepsTexts_label (h.notMem (by decide))]
  rfl

/-- The name belongs to a connective without operands whose label is of the given sort as an atom. -/
def NamesAtom (t : Table Data) (sort : Data.AtomSort) (name : String) : Prop :=
  ∃ s label precedence note,
    (s, Construct.connective label (.nullary precedence note)) ∈ t.entries ∧
      label.atomSort = sort ∧ t.nameOf s label = name

/-- The atoms of a sorted tree that are no texts to the checks are connectives without operands. -/
theorem atomSort_eq_iff (hnodup : t.spellings.Nodup) {raw : Tree} (hraw : raw.IsSorted t.named.Has)
    {sort : Data.AtomSort} (hsort : ∀ s, sort ≠ .text s) {name : String} (hname : name ∈ raw.atoms) :
    t.atomSort name = sort ↔ t.NamesAtom sort name := by
  constructor
  · intro hatom
    rcases hraw.of_mem_atoms hname with hvariable | ⟨precedence, note, spelling, hget⟩
    · rw [atomSort_of_isNameLike (isNameLike_of_isVariable hvariable)] at hatom
      exact absurd hatom.symm (hsort name)
    · obtain ⟨⟨s, c⟩, hentry, heq⟩ := List.mem_map.1 (exists_mem_of_get? hget)
      cases c with
      | connective label form =>
        cases heq
        refine ⟨s, label, precedence, note, hentry, ?_, rfl⟩
        rw [← hatom, atomSort, labelNamed_nameOf hnodup hentry]
        rfl
      | _ => cases heq
  · rintro ⟨s, label, precedence, note, hentry, hatom, rfl⟩
    have hlabel : t.labelNamed (t.nameOf s label) = label := labelNamed_nameOf hnodup hentry
    rw [atomSort, hlabel, hatom]

section Valued

variable (t : Table) (name : String)

theorem atomSort_valued : t.valued.atomSort name = .text name := by
  rw [atomSort, labelNamed_valued]
  rfl

theorem atomText_valued : t.valued.atomText name = name := by
  rw [atomText, atomSort_valued]

theorem treeLabelNamed_valued : t.valued.treeLabelNamed name = .text name :=
  valueNamed_valued t Construct.keepsTexts_treeLabel name

end Valued

end Table

/-- With labels that are texts the expression of a formula is that of its tree. -/
theorem Formula.expression_valued (table : Table) (f : Formula) :
    f.expression table.valued = f.tree.sexpr := by
  have hlabel (name : String) : (table.valued.treeLabelNamed name).expression = name := by
    rw [Table.treeLabelNamed_valued]
    rfl
  rw [expression, Tree.relabelled_of_id hlabel hlabel]

end LatexLogic
