import LatexLogic.Proofs.Binding.Discipline

/-!
# Agreement on quantifiers

The checks on a tree ask for the labels of its nodes whether they belong to quantifiers, and for no
other label. Two answers to that question that agree on the labels of a tree (`Tree.AgreeOn`) give
the same outcome of all checks (`Formula.ofTree_congr`).
-/

set_option autoImplicit false

namespace LatexLogic

namespace Tree

/-- Two sets of quantifier labels agree on the label of every node of a tree. -/
def AgreeOn (isQuantifier isQuantifier' : String → Bool) (t : Tree) : Prop :=
  ∀ p label args, t.at? p = some (.node label args) → isQuantifier label = isQuantifier' label

section Agreement

variable {isQuantifier isQuantifier' : String → Bool} {t : Tree}

theorem AgreeOn.of_mem_args {arg : Tree} (h : t.AgreeOn isQuantifier isQuantifier')
    (harg : arg ∈ t.args) : arg.AgreeOn isQuantifier isQuantifier' := by
  obtain ⟨i, hi⟩ := List.mem_iff_getElem?.1 harg
  intro p label args hat
  exact h (i :: p) label args (at?_cons_eq_some_iff.2 ⟨arg, hi, hat⟩)

/-- The tree without declarations has the same nodes. -/
theorem AgreeOn.erased (h : t.AgreeOn isQuantifier isQuantifier') :
    t.erased.AgreeOn isQuantifier isQuantifier' := by
  intro p label args hat
  rw [at?_erased, Option.map_eq_some_iff] at hat
  obtain ⟨s, hs, hnode⟩ := hat
  obtain ⟨args', rfl, -⟩ := erased_eq_node_iff.1 hnode
  exact h p label args' hs

theorem freeVariablesFrom_congr {ts : List Tree}
    (h : ∀ t ∈ ts, t.freeVariables isQuantifier = t.freeVariables isQuantifier') :
    ∀ found : List String, freeVariablesFrom isQuantifier found ts =
      freeVariablesFrom isQuantifier' found ts := by
  induction ts with
  | nil =>
    intro found
    rfl
  | cons t ts ih =>
    intro found
    rw [List.forall_mem_cons] at h
    rw [freeVariablesFrom, freeVariablesFrom, h.1, ih h.2]

/-- The free variables of a tree depend on the labels of its nodes only. -/
theorem freeVariables_congr (h : t.AgreeOn isQuantifier isQuantifier') :
    t.freeVariables isQuantifier = t.freeVariables isQuantifier' := by
  induction t using induction with
  | atom label => rfl
  | metavar name declared => rfl
  | node label args ih =>
    have hlabel : isQuantifier label = isQuantifier' label := h [] label args rfl
    have hargs : ∀ arg ∈ args, arg.freeVariables isQuantifier = arg.freeVariables isQuantifier' :=
      fun arg harg => ih arg harg (h.of_mem_args harg)
    by_cases hshape : ∃ binder scope, args = [binder, scope] ∧ isQuantifier label = true
    · obtain ⟨binder, scope, rfl, hquantifier⟩ := hshape
      rw [freeVariables, freeVariables, if_pos hquantifier, if_pos (hlabel ▸ hquantifier),
        hargs scope (by simp)]
    · rw [freeVariables_node hshape, freeVariables_node (hlabel ▸ hshape),
        freeVariablesFrom_congr hargs]

theorem boundVariablesFrom_congr {ts : List Tree}
    (h : ∀ t ∈ ts, t.boundVariables isQuantifier = t.boundVariables isQuantifier') :
    ∀ found : List Tree, boundVariablesFrom isQuantifier found ts =
      boundVariablesFrom isQuantifier' found ts := by
  induction ts with
  | nil =>
    intro found
    rfl
  | cons t ts ih =>
    intro found
    rw [List.forall_mem_cons] at h
    rw [boundVariablesFrom, boundVariablesFrom, h.1]
    simp only [ih h.2]

/-- The check on bound variables depends on the labels of the nodes only. -/
theorem boundVariables_congr (h : t.AgreeOn isQuantifier isQuantifier') :
    t.boundVariables isQuantifier = t.boundVariables isQuantifier' := by
  induction t using induction with
  | atom label => rfl
  | metavar name declared => rfl
  | node label args ih =>
    have hlabel : isQuantifier label = isQuantifier' label := h [] label args rfl
    have hargs : ∀ arg ∈ args, arg.boundVariables isQuantifier = arg.boundVariables isQuantifier' :=
      fun arg harg => ih arg harg (h.of_mem_args harg)
    by_cases hshape : ∃ binder scope, args = [binder, scope] ∧ isQuantifier label = true
    · obtain ⟨binder, scope, rfl, hquantifier⟩ := hshape
      rw [boundVariables, boundVariables, if_pos hquantifier, if_pos (hlabel ▸ hquantifier),
        hargs scope (by simp)]
    · rw [boundVariables_node hshape, boundVariables_node (hlabel ▸ hshape),
        boundVariablesFrom_congr hargs]

end Agreement

end Tree

/-- The outcome of the checks depends on the labels of the nodes only. -/
theorem Formula.ofTree_congr {isQuantifier isQuantifier' : String → Bool} {raw : Tree}
    (h : raw.AgreeOn isQuantifier isQuantifier') :
    ofTree isQuantifier raw = ofTree isQuantifier' raw := by
  unfold ofTree
  rw [Tree.freeVariables_congr h]
  cases raw.freeVariables isQuantifier' with
  | cons free rest => rfl
  | nil =>
    cases hstrip : raw.strip with
    | error name => rfl
    | ok result =>
      obtain ⟨tree, declarations⟩ := result
      obtain ⟨rfl, -⟩ := raw.strip_eq_ok tree declarations hstrip
      dsimp only
      rw [Tree.boundVariables_congr h.erased]

/-! ## Labels of a table -/

/-- In a well-formed table the label of a construct tells whether it is a quantifier. -/
theorem Table.isQuantifierLabel_eq {t : Table} (ht : t.WellFormed) {c : Construct} (hc : t.Has c) :
    t.isQuantifierLabel c.label = decide (c.kind = .quantifier) := by
  obtain ⟨spelling, hget⟩ := hc
  have hmem := exists_mem_of_get? hget
  rw [Bool.eq_iff_iff, isQuantifierLabel_iff, decide_eq_true_eq]
  constructor
  · rintro ⟨⟨spelling', c'⟩, hmem', rfl⟩
    exact ht.kind_eq_of_label_eq _ hmem _ hmem' rfl
  · intro hkind
    cases c with
    | quantifier label => exact ⟨_, hmem, rfl⟩
    | _ => cases hkind

/-- Two well-formed tables that have all the constructs of a tree agree on its quantifiers. -/
theorem Tree.NodesDeclared.agreeOn {s t : Table} (hs : s.WellFormed) (ht : t.WellFormed) {tree : Tree}
    (h : tree.NodesDeclared fun c => s.Has c ∧ t.Has c) :
    tree.AgreeOn s.isQuantifierLabel t.isQuantifierLabel := by
  intro p label args hat
  obtain ⟨c, ⟨hcs, hct⟩, rfl, -⟩ := h p label args hat
  rw [Table.isQuantifierLabel_eq hs hcs, Table.isQuantifierLabel_eq ht hct]

end LatexLogic
