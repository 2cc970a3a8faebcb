import LatexLogic.Binding.Bound
import LatexLogic.Proofs.Grammar.Sorted

/-!
# Scopes

Where a variable is bound and where it occurs, said by paths. A path leads from the top of a tree to
a part of it by the positions of the arguments on the way, so two parts that look the same are told
apart. A quantifier node stands at a path, and all paths through its second argument are in its
scope.

The check for free variables computes what the paths say: it finds the variables that occur outside
the scopes of their quantifiers (`mem_freeVariables_iff`). It needs that the first argument of a
quantifier node is a name (`Tree.NamesBinders`), as it is in every sorted tree.
-/

set_option autoImplicit false

namespace LatexLogic

namespace Tree

/-- A tree has a property if atoms and metavariables have it, and a node has it whenever its
arguments have. -/
theorem induction {motive : Tree → Prop} (atom : ∀ label, motive (.atom label))
    (metavar : ∀ name declared, motive (.metavar name declared))
    (node : ∀ label args, (∀ arg ∈ args, motive arg) → motive (.node label args)) :
    ∀ t, motive t
  | .atom label => atom label
  | .metavar name declared => metavar name declared
  | .node label args => node label args fun arg harg =>
    have hlt : sizeOf arg < sizeOf (Tree.node label args) :=
      (List.sizeOf_lt_of_mem harg).trans_le (by simp)
    induction atom metavar node arg
  termination_by t => sizeOf t
  decreasing_by exact hlt

/-! ## Paths -/

/-- The part of a tree to which a path leads, if it stays inside the tree. -/
def at? (t : Tree) : List Nat → Option Tree
  | [] => some t
  | i :: p => t.args[i]?.bind fun arg => arg.at? p

@[simp] theorem at?_nil (t : Tree) : t.at? [] = some t := rfl

@[simp] theorem at?_cons (t : Tree) (i : Nat) (p : List Nat) :
    t.at? (i :: p) = t.args[i]?.bind fun arg => arg.at? p := rfl

@[simp] theorem args_atom (label : String) : (atom label).args = [] := rfl

@[simp] theorem args_metavar (name : String) (declared : List String) :
    (metavar name declared).args = [] := rfl

@[simp] theorem args_node (label : String) (args : List Tree) : (node label args).args = args := rfl

theorem at?_cons_eq_some_iff {t s : Tree} {i : Nat} {p : List Nat} :
    t.at? (i :: p) = some s ↔ ∃ arg, t.args[i]? = some arg ∧ arg.at? p = some s := by
  rw [at?_cons, Option.bind_eq_some_iff]

/-- The path is in the scope of the quantifier node at the other one. -/
def InScope (q p : List Nat) : Prop :=
  (q ++ [1]) <+: p

@[simp] theorem inScope_cons_cons {i j : Nat} {q p : List Nat} :
    InScope (i :: q) (j :: p) ↔ i = j ∧ InScope q p := by
  simp [InScope, List.cons_prefix_cons]

@[simp] theorem inScope_nil_cons {j : Nat} {p : List Nat} : InScope [] (j :: p) ↔ j = 1 := by
  simp [InScope, List.cons_prefix_cons, eq_comm]

@[simp] theorem not_inScope_nil {q : List Nat} : ¬ InScope q [] := by
  simp [InScope]

section

variable (isQuantifier : String → Bool)

/-! ## Binders and occurrences -/

/-- A quantifier node that binds the variable stands at the path. -/
def BindsAt (t : Tree) (q : List Nat) (name : String) : Prop :=
  ∃ label scope, t.at? q = some (.node label [.atom name, scope]) ∧ isQuantifier label = true

/-- The first argument of every quantifier node is a name. -/
def NamesBinders (t : Tree) : Prop :=
  ∀ q label binder scope, t.at? q = some (.node label [binder, scope]) →
    isQuantifier label = true → ∃ name, binder = .atom name

/-- The variable occurs at the path: as an atom other than the one after a quantifier, or in the
declaration of a metavariable. -/
def OccursAt (t : Tree) (p : List Nat) (name : String) : Prop :=
  (t.at? p = some (.atom name) ∧ ∀ q, p = q ++ [0] → ¬ t.BindsAt isQuantifier q name) ∨
    ∃ metavariable declared, t.at? p = some (.metavar metavariable declared) ∧ name ∈ declared

end

variable {isQuantifier : String → Bool}

theorem bindsAt_nil_iff {t : Tree} {name : String} :
    t.BindsAt isQuantifier [] name ↔
      ∃ label scope, t = .node label [.atom name, scope] ∧ isQuantifier label = true := by
  simp [BindsAt]

theorem bindsAt_cons_iff {t : Tree} {i : Nat} {q : List Nat} {name : String} :
    t.BindsAt isQuantifier (i :: q) name ↔
      ∃ arg, t.args[i]? = some arg ∧ arg.BindsAt isQuantifier q name := by
  simp only [BindsAt, at?_cons_eq_some_iff]
  constructor
  · rintro ⟨label, scope, ⟨arg, harg, hat⟩, hlabel⟩
    exact ⟨arg, harg, label, scope, hat, hlabel⟩
  · rintro ⟨arg, harg, label, scope, hat, hlabel⟩
    exact ⟨label, scope, ⟨arg, harg, hat⟩, hlabel⟩

theorem NamesBinders.of_mem_args {t arg : Tree} (h : t.NamesBinders isQuantifier)
    (harg : arg ∈ t.args) : arg.NamesBinders isQuantifier := by
  obtain ⟨i, hi⟩ := List.mem_iff_getElem?.1 harg
  intro q label binder scope hat hlabel
  exact h (i :: q) label binder scope (at?_cons_eq_some_iff.2 ⟨arg, hi, hat⟩) hlabel

@[simp] theorem namesBinders_atom (label : String) : (atom label).NamesBinders isQuantifier := by
  rintro (_ | ⟨i, q⟩) label' binder scope hat
  · simp at hat
  · simp at hat

@[simp] theorem namesBinders_metavar (m : String) (declared : List String) :
    (metavar m declared).NamesBinders isQuantifier := by
  rintro (_ | ⟨i, q⟩) label binder scope hat
  · simp at hat
  · simp at hat

@[simp] theorem namesBinders_node_iff {label : String} {args : List Tree} :
    (node label args).NamesBinders isQuantifier ↔
      (∀ binder scope, args = [binder, scope] → isQuantifier label = true →
        ∃ name, binder = .atom name) ∧ ∀ arg ∈ args, arg.NamesBinders isQuantifier := by
  constructor
  · intro h
    refine ⟨fun binder scope hargs hlabel => ?_, fun arg harg => h.of_mem_args harg⟩
    exact h [] label binder scope (by rw [hargs]; rfl) hlabel
  · rintro ⟨htop, hargs⟩ (_ | ⟨i, q⟩) label' binder scope hat hlabel
    · obtain ⟨rfl, rfl⟩ := Tree.node.inj (Option.some.inj hat)
      exact htop binder scope rfl hlabel
    · obtain ⟨arg, harg, hat⟩ := at?_cons_eq_some_iff.1 hat
      exact hargs arg (List.mem_of_getElem? harg) q label' binder scope hat hlabel

/-- The checks look at the arguments of a node only to see whether it is one of a quantifier. So where
it is not, they need to be compared with their equations once for each number of arguments. -/
@[elab_as_elim]
theorem other_args_cases {label : String}
    {motive : ∀ args : List Tree,
      (¬ ∃ binder scope, args = [binder, scope] ∧ isQuantifier label = true) → Prop}
    (pair : ∀ binder scope h, isQuantifier label = false → motive [binder, scope] h)
    (nil : ∀ h, motive [] h) (single : ∀ t h, motive [t] h)
    (more : ∀ t u v ts h, motive (t :: u :: v :: ts) h) (args : List Tree)
    (h : ¬ ∃ binder scope, args = [binder, scope] ∧ isQuantifier label = true) :
    motive args h := by
  match args, h with
  | [], h => exact nil h
  | [t], h => exact single t h
  | [binder, scope], h =>
    have hlabel : isQuantifier label ≠ true := fun hlabel => h ⟨binder, scope, rfl, hlabel⟩
    exact pair binder scope h (Bool.eq_false_iff.2 hlabel)
  | t :: u :: v :: ts, h => exact more t u v ts h

/-- The two shapes that the checks tell apart: the node of a quantifier, and any other tree. -/
theorem NamesBinders.cases_node {label : String} {args : List Tree}
    (h : (node label args).NamesBinders isQuantifier) :
    (∃ bound scope, args = [.atom bound, scope] ∧ isQuantifier label = true) ∨
      ∀ name, ¬ (node label args).BindsAt isQuantifier [] name := by
  by_cases hshape : ∃ binder scope, args = [binder, scope] ∧ isQuantifier label = true
  · obtain ⟨binder, scope, rfl, hlabel⟩ := hshape
    obtain ⟨bound, rfl⟩ := h [] label binder scope rfl hlabel
    exact Or.inl ⟨bound, scope, rfl, hlabel⟩
  · refine Or.inr fun name hbinds => hshape ?_
    obtain ⟨label', scope, heq, hlabel⟩ := bindsAt_nil_iff.1 hbinds
    obtain ⟨rfl, rfl⟩ := Tree.node.inj heq
    exact ⟨.atom name, scope, rfl, hlabel⟩

theorem NamesBinders.not_shape {label : String} {args : List Tree}
    (h : (node label args).NamesBinders isQuantifier)
    (htop : ∀ name, ¬ (node label args).BindsAt isQuantifier [] name) :
    ¬ ∃ binder scope, args = [binder, scope] ∧ isQuantifier label = true := by
  rintro ⟨binder, scope, rfl, hlabel⟩
  obtain ⟨bound, rfl⟩ := h [] label binder scope rfl hlabel
  exact htop bound (bindsAt_nil_iff.2 ⟨label, scope, rfl, hlabel⟩)

@[simp] theorem not_bindsAt_atom {label : String} {q : List Nat} {name : String} :
    ¬ (atom label).BindsAt isQuantifier q name := by
  cases q with
  | nil => simp [bindsAt_nil_iff]
  | cons i q => simp [bindsAt_cons_iff]

@[simp] theorem not_bindsAt_metavar {m : String} {declared : List String} {q : List Nat}
    {name : String} : ¬ (metavar m declared).BindsAt isQuantifier q name := by
  cases q with
  | nil => simp [bindsAt_nil_iff]
  | cons i q => simp [bindsAt_cons_iff]

/-- An occurrence in an argument is one in the node, unless it is the variable of the quantifier at
the top. -/
theorem occursAt_cons_iff {t : Tree} {i : Nat} {p : List Nat} {name : String} :
    t.OccursAt isQuantifier (i :: p) name ↔
      (∃ arg, t.args[i]? = some arg ∧ arg.OccursAt isQuantifier p name) ∧
        ¬ (i = 0 ∧ p = [] ∧ t.BindsAt isQuantifier [] name) := by
  simp only [OccursAt, at?_cons_eq_some_iff]
  constructor
  · rintro (⟨⟨arg, harg, hat⟩, hnot⟩ | ⟨m, declared, ⟨arg, harg, hat⟩, hname⟩)
    · refine ⟨⟨arg, harg, Or.inl ⟨hat, fun q hq hbinds => ?_⟩⟩, ?_⟩
      · exact hnot (i :: q) (by rw [hq]; rfl) (bindsAt_cons_iff.2 ⟨arg, harg, hbinds⟩)
      · rintro ⟨rfl, rfl, hbinds⟩
        exact hnot [] rfl hbinds
    · -- A metavariable is not the variable of a quantifier, which is an atom.
      refine ⟨⟨arg, harg, Or.inr ⟨m, declared, hat, hname⟩⟩, ?_⟩
      rintro ⟨rfl, rfl, hbinds⟩
      obtain ⟨label, scope, rfl, -⟩ := bindsAt_nil_iff.1 hbinds
      simp only [args_node, List.getElem?_cons_zero, Option.some.injEq] at harg
      subst harg
      simp at hat
  · rintro ⟨⟨arg, harg, ⟨hat, hnot⟩ | ⟨m, declared, hat, hname⟩⟩, hbinder⟩
    · refine Or.inl ⟨⟨arg, harg, hat⟩, fun q hq hbinds => ?_⟩
      -- The quantifier may stand at the top or in the argument.
      cases q with
      | nil =>
        obtain ⟨rfl, rfl⟩ := List.cons.inj hq
        exact hbinder ⟨rfl, rfl, hbinds⟩
      | cons j q =>
        obtain ⟨rfl, rfl⟩ := List.cons.inj hq
        obtain ⟨arg', harg', hbinds⟩ := bindsAt_cons_iff.1 hbinds
        obtain rfl : arg = arg' := by simpa [harg] using harg'
        exact hnot q rfl hbinds
    · exact Or.inr ⟨m, declared, ⟨arg, harg, hat⟩, hname⟩

/-! ## Names that are not bound -/

/-- A place in an argument is in the scopes that it is in there, and in that of a quantifier at the top
if the argument is the second one. -/
theorem forall_not_inScope_cons_iff {label name : String} {args : List Tree} {arg : Tree} {i : Nat}
    {p : List Nat} (harg : args[i]? = some arg) :
    (∀ q, (node label args).BindsAt isQuantifier q name → ¬ InScope q (i :: p)) ↔
      (∀ q, arg.BindsAt isQuantifier q name → ¬ InScope q p) ∧
        ¬ (i = 1 ∧ (node label args).BindsAt isQuantifier [] name) := by
  constructor
  · intro h
    refine ⟨fun q hq hscope => ?_, ?_⟩
    · exact h (i :: q) (bindsAt_cons_iff.2 ⟨arg, harg, hq⟩) (inScope_cons_cons.2 ⟨rfl, hscope⟩)
    · rintro ⟨rfl, hbinds⟩
      exact h [] hbinds (inScope_nil_cons.2 rfl)
  · rintro ⟨hinside, htop⟩ q hq hscope
    cases q with
    | nil => exact htop ⟨inScope_nil_cons.1 hscope, hq⟩
    | cons j q =>
      obtain ⟨rfl, hinner⟩ := inScope_cons_cons.1 hscope
      obtain ⟨arg', harg', hq⟩ := bindsAt_cons_iff.1 hq
      obtain rfl : arg = arg' := Option.some.inj (harg.symm.trans harg')
      exact hinside q hq hinner

section Unbound

variable (isQuantifier : String → Bool) (StandsAt : Tree → List Nat → String → Prop)

/-- The name stands at the place, which is in the scope of no quantifier for it. -/
def Unbound (t : Tree) (p : List Nat) (name : String) : Prop :=
  StandsAt t p name ∧ ∀ q, t.BindsAt isQuantifier q name → ¬ InScope q p

/-- Names have their places in the atoms and in the arguments of nodes. The variable after a quantifier
has none. -/
structure Placed : Prop where
  atom_iff : ∀ {label name p}, StandsAt (.atom label) p name ↔ p = [] ∧ label = name
  not_node_nil : ∀ {label args name}, ¬ StandsAt (.node label args) [] name
  node_cons_iff : ∀ {label args i p name}, StandsAt (.node label args) (i :: p) name ↔
    (∃ arg, args[i]? = some arg ∧ StandsAt arg p name) ∧
      ¬ (i = 0 ∧ p = [] ∧ (node label args).BindsAt isQuantifier [] name)

variable {isQuantifier StandsAt} (h : Placed isQuantifier StandsAt) {label name : String}
  {p : List Nat}

include h

/-- What is not bound in a quantifier node stands in its scope and is not bound by it. -/
theorem Placed.unbound_quantifier_iff {bound : String} {scope : Tree}
    (hlabel : isQuantifier label = true) :
    (node label [.atom bound, scope]).Unbound isQuantifier StandsAt p name ↔
      ∃ p', p = 1 :: p' ∧ scope.Unbound isQuantifier StandsAt p' name ∧ bound ≠ name := by
  have htop : (node label [.atom bound, scope]).BindsAt isQuantifier [] name ↔ bound = name := by
    simp [bindsAt_nil_iff, hlabel]
  constructor
  · rintro ⟨hstands, hfree⟩
    match p, hstands, hfree with
    | [], hstands, _ => exact absurd hstands h.not_node_nil
    | i :: p, hstands, hfree =>
      obtain ⟨⟨arg, harg, hstands⟩, hbinder⟩ := h.node_cons_iff.1 hstands
      obtain ⟨hinside, hscope⟩ := (forall_not_inScope_cons_iff harg).1 hfree
      match i, harg with
      | 0, harg =>
        -- The variable itself has no place, and nothing stands below it.
        obtain rfl := Option.some.inj harg
        obtain ⟨rfl, hname⟩ := h.atom_iff.1 hstands
        exact absurd ⟨rfl, rfl, htop.2 hname⟩ hbinder
      | 1, harg =>
        obtain rfl := Option.some.inj harg
        exact ⟨p, rfl, ⟨hstands, hinside⟩, fun hname => hscope ⟨rfl, htop.2 hname⟩⟩
      | i + 2, harg => simp at harg
  · rintro ⟨p', rfl, ⟨hstands, hinside⟩, hne⟩
    refine ⟨h.node_cons_iff.2 ⟨⟨scope, rfl, hstands⟩, by simp⟩, ?_⟩
    exact (forall_not_inScope_cons_iff rfl).2 ⟨hinside, fun hbinds => hne (htop.1 hbinds.2)⟩

/-- What is not bound in any other node is not bound in the argument where it stands. -/
theorem Placed.unbound_node_iff {args : List Tree}
    (htop : ∀ name, ¬ (node label args).BindsAt isQuantifier [] name) :
    (node label args).Unbound isQuantifier StandsAt p name ↔
      ∃ i arg p', args[i]? = some arg ∧ p = i :: p' ∧
        arg.Unbound isQuantifier StandsAt p' name := by
  constructor
  · rintro ⟨hstands, hfree⟩
    cases p with
    | nil => exact absurd hstands h.not_node_nil
    | cons i p =>
      obtain ⟨⟨arg, harg, hstands⟩, -⟩ := h.node_cons_iff.1 hstands
      exact ⟨i, arg, p, harg, rfl, hstands, ((forall_not_inScope_cons_iff harg).1 hfree).1⟩
  · rintro ⟨i, arg, p', harg, rfl, hstands, hinside⟩
    refine ⟨h.node_cons_iff.2 ⟨⟨arg, harg, hstands⟩, fun hbinder => htop name hbinder.2.2⟩, ?_⟩
    exact (forall_not_inScope_cons_iff harg).2 ⟨hinside, fun hbinds => htop name hbinds.2⟩

end Unbound

/-! ## Free variables -/

/-- The variable occurs at some place that is in the scope of no quantifier for it. -/
def OccursFree (isQuantifier : String → Bool) (t : Tree) (name : String) : Prop :=
  ∃ p, t.OccursAt isQuantifier p name ∧
    ∀ q, t.BindsAt isQuantifier q name → ¬ InScope q p

theorem occursAt_atom_iff {label name : String} {p : List Nat} :
    (atom label).OccursAt isQuantifier p name ↔ p = [] ∧ label = name := by
  constructor
  · rintro (⟨hat, -⟩ | ⟨m, declared, hat, -⟩)
    · cases p with
      | nil => exact ⟨rfl, by simpa using hat⟩
      | cons i p => simp at hat
    · cases p with
      | nil => simp at hat
      | cons i p => simp at hat
  · rintro ⟨rfl, rfl⟩
    exact Or.inl ⟨rfl, by simp⟩

/-- Occurrences have their places so. -/
theorem placed_occursAt : Placed isQuantifier fun t p name => t.OccursAt isQuantifier p name where
  atom_iff := occursAt_atom_iff
  not_node_nil := by simp [OccursAt]
  node_cons_iff := occursAt_cons_iff

theorem occursFree_atom_iff {label name : String} :
    (atom label).OccursFree isQuantifier name ↔ label = name := by
  constructor
  · rintro ⟨p, hoccurs, -⟩
    exact (occursAt_atom_iff.1 hoccurs).2
  · rintro rfl
    exact ⟨[], occursAt_atom_iff.2 ⟨rfl, rfl⟩, by simp⟩

theorem occursFree_metavar_iff {m name : String} {declared : List String} :
    (metavar m declared).OccursFree isQuantifier name ↔ name ∈ declared := by
  constructor
  · rintro ⟨p, ⟨hat, -⟩ | ⟨m', declared', hat, hname⟩, -⟩
    · cases p with
      | nil => simp at hat
      | cons i p => simp at hat
    · cases p with
      | nil =>
        simp only [at?_nil, Option.some.injEq, metavar.injEq] at hat
        rwa [hat.2]
      | cons i p => simp at hat
  · intro h
    exact ⟨[], Or.inr ⟨m, declared, rfl, h⟩, by simp⟩

/-- What occurs free in a quantifier node occurs free in its scope and is not bound by it. -/
theorem occursFree_quantifier_iff {label bound name : String} {scope : Tree}
    (hlabel : isQuantifier label = true) :
    (node label [.atom bound, scope]).OccursFree isQuantifier name ↔
      scope.OccursFree isQuantifier name ∧ bound ≠ name := by
  constructor
  · rintro ⟨p, hfree⟩
    obtain ⟨p', -, hfree, hne⟩ := (placed_occursAt.unbound_quantifier_iff hlabel).1 hfree
    exact ⟨⟨p', hfree⟩, hne⟩
  · rintro ⟨⟨p', hfree⟩, hne⟩
    exact ⟨1 :: p', (placed_occursAt.unbound_quantifier_iff hlabel).2 ⟨p', rfl, hfree, hne⟩⟩

/-- What occurs free in any other node occurs free in one of its arguments. -/
theorem occursFree_node_iff {label name : String} {args : List Tree}
    (htop : ∀ name, ¬ (node label args).BindsAt isQuantifier [] name) :
    (node label args).OccursFree isQuantifier name ↔
      ∃ arg ∈ args, arg.OccursFree isQuantifier name := by
  constructor
  · rintro ⟨p, hfree⟩
    obtain ⟨i, arg, p', harg, -, hfree⟩ := (placed_occursAt.unbound_node_iff htop).1 hfree
    exact ⟨arg, List.mem_of_getElem? harg, p', hfree⟩
  · rintro ⟨arg, hmem, p', hfree⟩
    obtain ⟨i, harg⟩ := List.mem_iff_getElem?.1 hmem
    exact ⟨i :: p', (placed_occursAt.unbound_node_iff htop).2 ⟨i, arg, p', harg, rfl, hfree⟩⟩

/-- The free variables of a list are those found before and those of its trees. -/
theorem mem_freeVariablesFrom_iff {name : String} (ts : List Tree) :
    ∀ found : List String, name ∈ freeVariablesFrom isQuantifier found ts ↔
      name ∈ found ∨ ∃ t ∈ ts, name ∈ t.freeVariables isQuantifier := by
  induction ts with
  | nil => simp [freeVariablesFrom]
  | cons t ts ih =>
    intro found
    rw [freeVariablesFrom, ih, mem_appendNew, or_assoc]
    simp

theorem freeVariables_node {label : String} {args : List Tree}
    (h : ¬ ∃ binder scope, args = [binder, scope] ∧ isQuantifier label = true) :
    (node label args).freeVariables isQuantifier = freeVariablesFrom isQuantifier [] args := by
  cases args, h using other_args_cases with
  | pair binder scope _ hlabel => simp [freeVariables, hlabel]
  | nil => rfl
  | single => rfl
  | more => rfl

/-- The free variables of a tree are the ordinary variables that occur free in it. -/
theorem mem_freeVariables_iff {t : Tree} {name : String} (h : t.NamesBinders isQuantifier) :
    name ∈ t.freeVariables isQuantifier ↔
      isOrdinaryVariable name = true ∧ t.OccursFree isQuantifier name := by
  induction t using induction with
  | atom label =>
    rw [occursFree_atom_iff, freeVariables]
    by_cases hlabel : isOrdinaryVariable label = true
    · rw [if_pos hlabel, List.mem_singleton]
      constructor
      · rintro rfl
        exact ⟨hlabel, rfl⟩
      · rintro ⟨-, rfl⟩
        rfl
    · rw [if_neg hlabel]
      constructor
      · intro hmem
        exact absurd hmem List.not_mem_nil
      · rintro ⟨hname, rfl⟩
        exact absurd hname hlabel
  | metavar m declared =>
    rw [occursFree_metavar_iff, freeVariables, mem_appendNew, List.mem_filter, and_comm]
    simp
  | node label args ih =>
    have hargs : ∀ arg ∈ args, name ∈ arg.freeVariables isQuantifier ↔
        isOrdinaryVariable name = true ∧ arg.OccursFree isQuantifier name :=
      fun arg harg => ih arg harg (h.of_mem_args harg)
    rcases h.cases_node with ⟨bound, scope, rfl, hlabel⟩ | htop
    · rw [occursFree_quantifier_iff hlabel, freeVariables, if_pos hlabel, List.mem_filter,
        hargs scope (by simp), and_assoc]
      simp
    · rw [freeVariables_node (h.not_shape htop), mem_freeVariablesFrom_iff,
        occursFree_node_iff htop]
      constructor
      · rintro (hmem | ⟨arg, harg, hmem⟩)
        · exact absurd hmem List.not_mem_nil
        · obtain ⟨hordinary, hfree⟩ := (hargs arg harg).1 hmem
          exact ⟨hordinary, arg, harg, hfree⟩
      · rintro ⟨hordinary, arg, harg, hfree⟩
        exact Or.inr ⟨arg, harg, (hargs arg harg).2 ⟨hordinary, hfree⟩⟩

end Tree

end LatexLogic
