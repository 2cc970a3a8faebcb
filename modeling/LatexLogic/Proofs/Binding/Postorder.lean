import LatexLogic.Proofs.Binding.Verdict
import Mathlib.Data.Set.List

/-!
# The list of bound variables

The check on bound variables compares a quantifier with its own scope only, and an argument only with
those before it. These comparisons find every variable that is bound twice, however far apart the two
quantifiers stand. If there is none, the check lists the variables of all quantifier nodes in the order
in which the nodes end: inner ones before outer ones, and left ones before right ones
(`Tree.boundVariables_postorder`).

Stripping a tree changes neither its quantifier nodes nor their variables, so the check has the same
outcome on the tree that was read and on the stripped one (`Tree.boundVariables_erased`).
-/

set_option autoImplicit false

namespace LatexLogic

namespace Tree

variable {isQuantifier : String → Bool} {t : Tree}

/-! ## The order of the nodes -/

/-- A quantifier node has two arguments. -/
theorem BindsAt.lt_two {name name' : String} {i : Nat} {q : List Nat}
    (h : t.BindsAt isQuantifier [] name) (h' : t.BindsAt isQuantifier (i :: q) name') : i < 2 := by
  obtain ⟨label, scope, rfl, -⟩ := bindsAt_nil_iff.1 h
  obtain ⟨arg, harg, -⟩ := bindsAt_cons_iff.1 h'
  exact (List.getElem?_eq_some_iff.1 harg).1

/-- Of two quantifier nodes the one with the left place after its scope ends first. -/
theorem endsBefore_of_leftOf {name name' : String} {q : List Nat} :
    ∀ {t : Tree} {q' : List Nat}, t.BindsAt isQuantifier q name → t.BindsAt isQuantifier q' name' →
      LeftOf (bindingPlace q) (bindingPlace q') → EndsBefore q q' := by
  induction q with
  | nil =>
    intro t q' hq hq' hleft
    cases q' with
    | nil => exact absurd rfl hleft.ne
    | cons j q' =>
      -- Only a third argument would stand behind the place after the scope.
      have hlt := hq.lt_two hq'
      rcases hleft with hgt | ⟨rfl, -⟩
      · exact absurd hgt (Nat.lt_asymm hlt)
      · exact absurd hlt (Nat.lt_irrefl 2)
  | cons i q ih =>
    intro t q' hq hq' hleft
    cases q' with
    | nil => exact endsBefore_cons_nil
    | cons j q' =>
      rcases hleft with hlt | ⟨rfl, hleft⟩
      · exact Or.inl hlt
      · obtain ⟨arg, harg, hq⟩ := bindsAt_cons_iff.1 hq
        obtain ⟨arg', harg', hq'⟩ := bindsAt_cons_iff.1 hq'
        obtain rfl : arg = arg' := Option.some.inj (harg.symm.trans harg')
        exact Or.inr ⟨rfl, ih hq hq' hleft⟩

/-- The variables of all quantifier nodes, in the order in which the nodes end. -/
structure ListsBinders (isQuantifier : String → Bool) (t : Tree) (names : List String) : Prop where
  nodup : names.Nodup
  mem_iff : ∀ name, name ∈ names ↔ ∃ q, t.BindsAt isQuantifier q name
  ordered : names.Pairwise fun v w => ∀ q q', t.BindsAt isQuantifier q v →
    t.BindsAt isQuantifier q' w → EndsBefore q q'

/-- Where each variable is bound once, the binders list them. -/
theorem BindsOnce.exists_listsBinders (h : t.NamesBinders isQuantifier)
    (honce : t.BindsOnce isQuantifier) :
    ∃ names, t.binders isQuantifier = names.map .atom ∧ t.ListsBinders isQuantifier names := by
  have hnames : ∀ binder ∈ t.binders isQuantifier, binder ∈ Set.range Tree.atom := by
    intro binder hbinder
    obtain ⟨name, q, rfl, -⟩ := (mem_binders_iff h).1 hbinder
    exact ⟨name, rfl⟩
  obtain ⟨names, heq⟩ := (Set.ext_iff.1 (Set.range_list_map Tree.atom) _).2 hnames
  have hmem : ∀ name, name ∈ names ↔ ∃ q, t.BindsAt isQuantifier q name := by
    intro name
    have hmap : name ∈ names ↔ .atom name ∈ t.binders isQuantifier := by simp [← heq]
    rw [hmap, mem_binders_iff h]
    simp
  refine ⟨names, heq.symm, ?nodup, hmem, ?ordered⟩
  case nodup =>
    rw [← nodup_binders_iff h, ← heq] at honce
    exact honce.of_map
  case ordered =>
    -- The marks stand from left to right, and the one of a variable is at its only quantifier.
    have hmarks : (t.bindingMarks isQuantifier).LeftToRight := leftToRight_bindingMarks t
    have hplaces : (t.binders isQuantifier).Pairwise fun a b => ∃ p p',
        (p, a) ∈ t.bindingMarks isQuantifier ∧ (p', b) ∈ t.bindingMarks isQuantifier ∧
          LeftOf p p' := by
      rw [← map_snd_bindingMarks, List.pairwise_map]
      exact hmarks.imp_of_mem fun hm hn hleft => ⟨_, _, hm, hn, hleft⟩
    rw [← heq, List.pairwise_map] at hplaces
    refine hplaces.imp ?_
    rintro v w ⟨p, p', hp, hp', hleft⟩ q q' hq hq'
    obtain ⟨r, name, rfl, hname, hr⟩ := (mem_bindingMarks_iff h p).1 hp
    obtain ⟨r', name', rfl, hname', hr'⟩ := (mem_bindingMarks_iff h p').1 hp'
    obtain rfl := Tree.atom.inj hname
    obtain rfl := Tree.atom.inj hname'
    rw [honce v q r hq hr, honce w q' r' hq' hr']
    exact endsBefore_of_leftOf hr hr' hleft

/-! ## Stripped trees -/

theorem boundVariablesFrom_erased {ts : List Tree}
    (ih : ∀ t ∈ ts, t.erased.boundVariables isQuantifier = t.boundVariables isQuantifier) :
    ∀ found, boundVariablesFrom isQuantifier found (ts.map erased) =
      boundVariablesFrom isQuantifier found ts := by
  induction ts with
  | nil =>
    intro found
    rfl
  | cons t ts ihts =>
    intro found
    rw [List.forall_mem_cons] at ih
    rw [List.map_cons, boundVariablesFrom, boundVariablesFrom, ih.1]
    simp only [ihts ih.2]

/-- The check on bound variables does not look at declarations. -/
theorem boundVariables_erased (h : t.NamesBinders isQuantifier) :
    t.erased.boundVariables isQuantifier = t.boundVariables isQuantifier := by
  induction t using induction with
  | atom label => rfl
  | metavar m declared => rfl
  | node label args ih =>
    have hargs := fun arg (harg : arg ∈ args) => ih arg harg (h.of_mem_args harg)
    rw [erased, erasedList_eq_map]
    rcases h.cases_node with ⟨bound, scope, rfl, hlabel⟩ | htop
    · rw [List.map_cons, List.map_cons, List.map_nil, boundVariables, boundVariables, if_pos hlabel,
        if_pos hlabel, hargs scope (by simp)]
      rfl
    · -- The erased arguments are as many as before, so they are no quantifier's either.
      have hshape := h.not_shape htop
      have hshape' : ¬ ∃ binder scope, args.map erased = [binder, scope] ∧
          isQuantifier label = true := by
        rintro ⟨_, _, heq, hlabel⟩
        obtain ⟨binder, ts, rfl, -, heq⟩ := List.map_eq_cons_iff.1 heq
        obtain ⟨scope, ts, rfl, -, heq⟩ := List.map_eq_cons_iff.1 heq
        rw [List.map_eq_nil_iff.1 heq] at hshape
        exact hshape ⟨binder, scope, rfl, hlabel⟩
      rw [boundVariables_node hshape', boundVariables_node hshape,
        boundVariablesFrom_erased hargs]

/-! ## The check -/

/-- The check on bound variables succeeds exactly if no variable is bound by two quantifier nodes, and
then lists the bound variables in the order in which their nodes end. Where it fails it names a
variable that is bound by two nodes. On the stripped tree it has the same outcome. -/
theorem boundVariables_postorder (table : Table) {t : Tree}
    (h : t.NamesBinders table.isQuantifierLabel) :
    let isQuantifier := table.isQuantifierLabel
    ((∃ bound, t.boundVariables isQuantifier = .ok bound) ↔ t.BindsOnce isQuantifier) ∧
    (∀ bound, t.boundVariables isQuantifier = .ok bound →
      ∃ names, bound = names.map .atom ∧ t.ListsBinders isQuantifier names) ∧
    (∀ e, t.boundVariables isQuantifier = .error e →
      ∃ name, e = .atom name ∧ t.BoundTwice isQuantifier name) ∧
    ∀ s ds, t.strip = .ok (s, ds) →
      s.boundVariables isQuantifier = t.boundVariables isQuantifier := by
  intro isQuantifier
  refine ⟨?decides, fun bound hbound => ?lists, fun e herror => ?names, fun s ds hstrip => ?strip⟩
  case decides =>
    simp only [boundVariables_eq_ok_iff, exists_eq_left]
    exact nodup_binders_iff h
  case lists =>
    obtain ⟨rfl, hnodup⟩ := (boundVariables_eq_ok_iff t bound).1 hbound
    exact BindsOnce.exists_listsBinders h ((nodup_binders_iff h).1 hnodup)
  case names =>
    obtain ⟨name, hfirst, rfl⟩ := (boundVariables_eq_error_iff h).1 herror
    exact ⟨name, rfl, hfirst.boundTwice⟩
  case strip =>
    obtain ⟨rfl, -⟩ := t.strip_eq_ok s ds hstrip
    exact boundVariables_erased h

/-- In `(\\forall x \\exists y x=y) \\lor \\forall z \\phi` the inner quantifier ends first, and in
`(\\exists y \\phi) \\lor (\\psi \\land \\forall y \\chi)` two distant quantifiers bind one variable. -/
theorem boundVariables_postorder_nested :
    let t : Tree := .node "or" [
      .node "forall" [.atom "x", .node "exists" [.atom "y", .node "eq" [.atom "x", .atom "y"]]],
      .node "forall" [.atom "z", .metavar "phi" []]]
    let u : Tree := .node "or" [.node "exists" [.atom "y", .metavar "phi" []],
      .node "and" [.metavar "psi" [], .node "forall" [.atom "y", .metavar "chi" []]]]
    t.NamesBinders Table.standard.isQuantifierLabel ∧
      t.boundVariables Table.standard.isQuantifierLabel = .ok [.atom "y", .atom "x", .atom "z"] ∧
      t.ListsBinders Table.standard.isQuantifierLabel ["y", "x", "z"] ∧
      u.NamesBinders Table.standard.isQuantifierLabel ∧
      u.boundVariables Table.standard.isQuantifierLabel = .error (.atom "y") ∧
      u.BoundTwice Table.standard.isQuantifierLabel "y" := by
  intro t u
  have hand : Table.standard.isQuantifierLabel "and" = false := by decide
  have hor : Table.standard.isQuantifierLabel "or" = false := by decide
  have ht : t.NamesBinders Table.standard.isQuantifierLabel := by simp [t, hor]
  have hu : u.NamesBinders Table.standard.isQuantifierLabel := by simp [u, hand, hor]
  have hbound : t.boundVariables Table.standard.isQuantifierLabel =
      .ok [.atom "y", .atom "x", .atom "z"] := by decide
  have htwice : u.boundVariables Table.standard.isQuantifierLabel = .error (.atom "y") := by decide
  obtain ⟨names, heq, hlists⟩ := (boundVariables_postorder Table.standard ht).2.1 _ hbound
  obtain ⟨name, hname, hname'⟩ := (boundVariables_postorder Table.standard hu).2.2.1 _ htwice
  obtain rfl : ["y", "x", "z"] = names :=
    List.map_injective_iff.2 (fun _ _ => Tree.atom.inj) heq
  obtain rfl := Tree.atom.inj hname
  exact ⟨ht, hbound, hlists, hu, htwice, hname'⟩

end Tree

end LatexLogic
