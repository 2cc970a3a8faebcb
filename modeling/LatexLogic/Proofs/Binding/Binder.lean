import LatexLogic.Proofs.Binding.Scope
import Mathlib.Data.List.Nodup

/-!
# Binders

The check on bound variables compares the variables of scopes and of neighbouring arguments while it
goes up the tree. It succeeds exactly if no variable is bound twice, and then lists all of them
(`boundVariables_eq_ok_iff`). In terms of paths, each variable is bound by one quantifier node at
most (`nodup_binders_iff`).
-/

set_option autoImplicit false

namespace LatexLogic

namespace Tree

/-! ## All binders of a tree -/

mutual

/-- The first arguments of the quantifier nodes in a tree, inner ones before outer ones and left
ones before right ones, repeated as often as they occur. -/
def binders (isQuantifier : String → Bool) : Tree → List Tree
  | .atom _ => []
  | .metavar _ _ => []
  | .node label [binder, scope] =>
    if isQuantifier label then binders isQuantifier scope ++ [binder]
    else bindersList isQuantifier [binder, scope]
  | .node _ args => bindersList isQuantifier args

/-- The binders of the trees in a list. -/
def bindersList (isQuantifier : String → Bool) : List Tree → List Tree
  | [] => []
  | t :: ts => binders isQuantifier t ++ bindersList isQuantifier ts

end

variable {isQuantifier : String → Bool}

/-- The binders of a list are those of its trees one after the other. -/
theorem bindersList_eq_flatMap (ts : List Tree) :
    bindersList isQuantifier ts = ts.flatMap (binders isQuantifier) := by
  induction ts with
  | nil => rfl
  | cons t ts ih => rw [bindersList, ih, List.flatMap_cons]

theorem binders_node {label : String} {args : List Tree}
    (h : ¬ ∃ binder scope, args = [binder, scope] ∧ isQuantifier label = true) :
    (node label args).binders isQuantifier = bindersList isQuantifier args := by
  cases args, h using other_args_cases with
  | pair binder scope _ hlabel => simp [binders, hlabel]
  | nil => rfl
  | single => rfl
  | more => rfl

theorem boundVariables_node {label : String} {args : List Tree}
    (h : ¬ ∃ binder scope, args = [binder, scope] ∧ isQuantifier label = true) :
    (node label args).boundVariables isQuantifier = boundVariablesFrom isQuantifier [] args := by
  cases args, h using other_args_cases with
  | pair binder scope _ hlabel => simp [boundVariables, hlabel]
  | nil => rfl
  | single => rfl
  | more => rfl

/-! ## The check -/

/-- The check goes through a list if it goes through each tree and no binder was found before. -/
theorem boundVariablesFrom_eq_ok_iff {ts : List Tree}
    (ih : ∀ t ∈ ts, ∀ bound, t.boundVariables isQuantifier = .ok bound ↔
      bound = t.binders isQuantifier ∧ (t.binders isQuantifier).Nodup) :
    ∀ found bound : List Tree, found.Nodup →
      (boundVariablesFrom isQuantifier found ts = .ok bound ↔
        bound = found ++ bindersList isQuantifier ts ∧
          (found ++ bindersList isQuantifier ts).Nodup) := by
  induction ts with
  | nil =>
    intro found bound hfound
    simp [boundVariablesFrom, bindersList, hfound, eq_comm]
  | cons t ts ihts =>
    intro found bound hfound
    have iht := ih t List.mem_cons_self
    rw [boundVariablesFrom, bindersList, ← List.append_assoc]
    cases hbound : t.boundVariables isQuantifier with
    | error twice =>
      have hnodup : ¬ (t.binders isQuantifier).Nodup := by
        intro hnodup
        rw [(iht _).2 ⟨rfl, hnodup⟩] at hbound
        cases hbound
      refine iff_of_false (by simp) fun h => hnodup ?_
      exact (List.nodup_append.1 (List.nodup_append.1 h.2).1).2.1
    | ok inner =>
      obtain ⟨rfl, hinner⟩ := (iht _).1 hbound
      dsimp only
      cases hshared : found.find? fun v => v ∈ t.binders isQuantifier with
      | some shared =>
        -- Two neighbouring trees bind the same variable.
        refine iff_of_false (by simp) fun h => ?_
        have hmem := List.mem_of_find?_eq_some hshared
        have hmem' : shared ∈ t.binders isQuantifier := by simpa using List.find?_some hshared
        exact (List.nodup_append.1 (List.nodup_append.1 h.2).1).2.2 shared hmem shared hmem' rfl
      | none =>
        have hdisjoint : ∀ v ∈ found, v ∉ t.binders isQuantifier := by
          intro v hv
          simpa using List.find?_eq_none.1 hshared v hv
        have hnodup : (found ++ t.binders isQuantifier).Nodup := by
          refine List.nodup_append.2 ⟨hfound, hinner, fun v hv w hw hvw => ?_⟩
          exact hdisjoint v hv (hvw ▸ hw)
        exact ihts (fun t' ht' => ih t' (List.mem_cons_of_mem _ ht')) _ _ hnodup

/-- The check on bound variables succeeds exactly if no binder is repeated, and then gives all
binders. -/
theorem boundVariables_eq_ok_iff (t : Tree) :
    ∀ bound, t.boundVariables isQuantifier = .ok bound ↔
      bound = t.binders isQuantifier ∧ (t.binders isQuantifier).Nodup := by
  induction t using induction with
  | atom label => simp [boundVariables, binders, eq_comm]
  | metavar name declared => simp [boundVariables, binders, eq_comm]
  | node label args ih =>
    intro bound
    by_cases hshape : ∃ binder scope, args = [binder, scope] ∧ isQuantifier label = true
    · obtain ⟨binder, scope, rfl, hlabel⟩ := hshape
      have ihscope := ih scope (by simp)
      rw [boundVariables, if_pos hlabel, binders, if_pos hlabel]
      cases hscope : scope.boundVariables isQuantifier with
      | error twice =>
        refine iff_of_false (by simp) fun h => ?_
        rw [(ihscope _).2 ⟨rfl, (List.nodup_append.1 h.2).1⟩] at hscope
        cases hscope
      | ok inner =>
        obtain ⟨rfl, hnodup⟩ := (ihscope _).1 hscope
        dsimp only
        by_cases hmem : binder ∈ scope.binders isQuantifier
        · -- The variable is bound again inside its own scope.
          rw [if_pos hmem]
          refine iff_of_false (by simp) fun h => ?_
          exact (List.nodup_append.1 h.2).2.2 binder hmem binder List.mem_cons_self rfl
        · rw [if_neg hmem, Except.ok.injEq, eq_comm, iff_self_and]
          rintro -
          refine List.nodup_append.2 ⟨hnodup, List.nodup_singleton _, fun v hv w hw hvw => ?_⟩
          rw [List.mem_singleton] at hw
          exact hmem (hw ▸ hvw ▸ hv)
    · rw [boundVariables_node hshape, binders_node hshape,
        boundVariablesFrom_eq_ok_iff ih [] bound List.nodup_nil, List.nil_append]

/-! ## Binders and paths -/

/-- No variable is bound by quantifier nodes at two places. -/
def BindsOnce (isQuantifier : String → Bool) (t : Tree) : Prop :=
  ∀ name q q', t.BindsAt isQuantifier q name → t.BindsAt isQuantifier q' name → q = q'

/-- A quantifier node binds its variable, and what its scope binds. -/
theorem bindsAt_quantifier_iff {label bound name : String} {scope : Tree} {q : List Nat}
    (hlabel : isQuantifier label = true) :
    (node label [.atom bound, scope]).BindsAt isQuantifier q name ↔
      (q = [] ∧ name = bound) ∨ ∃ q', q = 1 :: q' ∧ scope.BindsAt isQuantifier q' name := by
  cases q with
  | nil => simp [bindsAt_nil_iff, hlabel, eq_comm (a := name)]
  | cons i q =>
    rw [bindsAt_cons_iff]
    match i with
    | 0 => simp
    | 1 => simp
    | i + 2 => simp

/-- The binders of a tree are the variables of its quantifier nodes. -/
theorem mem_binders_iff {t : Tree} (h : t.NamesBinders isQuantifier) {binder : Tree} :
    binder ∈ t.binders isQuantifier ↔
      ∃ name q, binder = .atom name ∧ t.BindsAt isQuantifier q name := by
  induction t using induction with
  | atom label => simp [binders]
  | metavar m declared => simp [binders]
  | node label args ih =>
    have hargs := fun arg (harg : arg ∈ args) => ih arg harg (h.of_mem_args harg)
    rcases h.cases_node with ⟨bound, scope, rfl, hlabel⟩ | htop
    · rw [binders, if_pos hlabel, List.mem_append, hargs scope (by simp), List.mem_singleton]
      constructor
      · rintro (⟨name, q, rfl, hq⟩ | rfl)
        · exact ⟨name, 1 :: q, rfl, (bindsAt_quantifier_iff hlabel).2 (Or.inr ⟨q, rfl, hq⟩)⟩
        · exact ⟨bound, [], rfl, (bindsAt_quantifier_iff hlabel).2 (Or.inl ⟨rfl, rfl⟩)⟩
      · rintro ⟨name, q, rfl, hq⟩
        rcases (bindsAt_quantifier_iff hlabel).1 hq with ⟨rfl, rfl⟩ | ⟨q, rfl, hq⟩
        · exact Or.inr rfl
        · exact Or.inl ⟨name, q, rfl, hq⟩
    · rw [binders_node (h.not_shape htop), bindersList_eq_flatMap, List.mem_flatMap]
      constructor
      · rintro ⟨arg, harg, hmem⟩
        obtain ⟨name, q, rfl, hq⟩ := (hargs arg harg).1 hmem
        obtain ⟨i, hi⟩ := List.mem_iff_getElem?.1 harg
        exact ⟨name, i :: q, rfl, bindsAt_cons_iff.2 ⟨arg, hi, hq⟩⟩
      · rintro ⟨name, q, rfl, hq⟩
        cases q with
        | nil => exact absurd hq (htop name)
        | cons i q =>
          obtain ⟨arg, hi, hq⟩ := bindsAt_cons_iff.1 hq
          have harg := List.mem_of_getElem? hi
          exact ⟨arg, harg, (hargs arg harg).2 ⟨name, q, rfl, hq⟩⟩

theorem bindsOnce_quantifier_iff {label bound : String} {scope : Tree}
    (hlabel : isQuantifier label = true) :
    (node label [.atom bound, scope]).BindsOnce isQuantifier ↔
      scope.BindsOnce isQuantifier ∧ ∀ q, ¬ scope.BindsAt isQuantifier q bound := by
  constructor
  · intro honce
    have hscope : ∀ {q name}, scope.BindsAt isQuantifier q name →
        (node label [.atom bound, scope]).BindsAt isQuantifier (1 :: q) name :=
      fun hq => (bindsAt_quantifier_iff hlabel).2 (Or.inr ⟨_, rfl, hq⟩)
    refine ⟨fun name q q' hq hq' => ?_, fun q hq => ?_⟩
    · exact (List.cons.inj (honce name _ _ (hscope hq) (hscope hq'))).2
    · have heq := honce bound [] (1 :: q) ((bindsAt_quantifier_iff hlabel).2 (Or.inl ⟨rfl, rfl⟩))
        (hscope hq)
      cases heq
  · rintro ⟨honce, hnew⟩ name q q' hq hq'
    rcases (bindsAt_quantifier_iff hlabel).1 hq with ⟨rfl, rfl⟩ | ⟨q, rfl, hq⟩
    · rcases (bindsAt_quantifier_iff hlabel).1 hq' with ⟨rfl, -⟩ | ⟨q', rfl, hq'⟩
      · rfl
      · exact absurd hq' (hnew q')
    · rcases (bindsAt_quantifier_iff hlabel).1 hq' with ⟨rfl, rfl⟩ | ⟨q', rfl, hq'⟩
      · exact absurd hq (hnew q)
      · rw [honce name q q' hq hq']

/-- Neighbouring arguments bind different variables if each variable is bound once. -/
theorem bindsOnce_node_iff {label : String} {args : List Tree}
    (htop : ∀ name, ¬ (node label args).BindsAt isQuantifier [] name) :
    (node label args).BindsOnce isQuantifier ↔
      (∀ arg ∈ args, arg.BindsOnce isQuantifier) ∧
        args.Pairwise fun a b => ∀ name q q', a.BindsAt isQuantifier q name →
          ¬ b.BindsAt isQuantifier q' name := by
  have hcons : ∀ {i q name} (hi : i < args.length), args[i].BindsAt isQuantifier q name →
      (node label args).BindsAt isQuantifier (i :: q) name :=
    fun hi hq => bindsAt_cons_iff.2 ⟨_, List.getElem?_eq_getElem hi, hq⟩
  constructor
  · intro honce
    refine ⟨fun arg harg name q q' hq hq' => ?_,
      List.pairwise_iff_getElem.2 fun i j hi hj hij name q q' hq hq' => ?_⟩
    · obtain ⟨i, hi, rfl⟩ := List.getElem_of_mem harg
      exact (List.cons.inj (honce name _ _ (hcons hi hq) (hcons hi hq'))).2
    · exact hij.ne (List.cons.inj (honce name _ _ (hcons hi hq) (hcons hj hq'))).1
  · rintro ⟨honce, hpairwise⟩ name q q' hq hq'
    have hdisjoint := List.pairwise_iff_getElem.1 hpairwise
    match q, q', hq, hq' with
    | [], _, hq, _ => exact absurd hq (htop name)
    | _ :: _, [], _, hq' => exact absurd hq' (htop name)
    | i :: q, j :: q', hq, hq' =>
      obtain ⟨arg, harg, hq⟩ := bindsAt_cons_iff.1 hq
      obtain ⟨arg', harg', hq'⟩ := bindsAt_cons_iff.1 hq'
      obtain ⟨hi, rfl⟩ := List.getElem?_eq_some_iff.1 harg
      obtain ⟨hj, rfl⟩ := List.getElem?_eq_some_iff.1 harg'
      -- At different arguments two binders differ, in the same argument each variable has one.
      rcases Nat.lt_trichotomy i j with hij | rfl | hij
      · exact absurd hq' (hdisjoint i j hi hj hij name q q' hq)
      · rw [honce _ (List.getElem_mem hi) name q q' hq hq']
      · exact absurd hq (hdisjoint j i hj hi hij name q' q hq')

/-- Binders that are not repeated are those of quantifier nodes for different variables. -/
theorem nodup_binders_iff {t : Tree} (h : t.NamesBinders isQuantifier) :
    (t.binders isQuantifier).Nodup ↔ t.BindsOnce isQuantifier := by
  induction t using induction with
  | atom label => simp [binders, BindsOnce]
  | metavar m declared => simp [binders, BindsOnce]
  | node label args ih =>
    have hnames : ∀ arg ∈ args, arg.NamesBinders isQuantifier := fun _ harg => h.of_mem_args harg
    have hargs := fun arg (harg : arg ∈ args) => ih arg harg (hnames arg harg)
    rcases h.cases_node with ⟨bound, scope, rfl, hlabel⟩ | htop
    · have hscope := hnames scope (by simp)
      rw [binders, if_pos hlabel, List.nodup_append, hargs scope (by simp),
        bindsOnce_quantifier_iff hlabel]
      constructor
      · rintro ⟨honce, -, hnew⟩
        refine ⟨honce, fun q hq => ?_⟩
        exact hnew _ ((mem_binders_iff hscope).2 ⟨bound, q, rfl, hq⟩) _ List.mem_cons_self rfl
      · rintro ⟨honce, hnew⟩
        refine ⟨honce, List.nodup_singleton _, ?_⟩
        rintro binder hmem binder' hbinder' rfl
        obtain ⟨name, q, rfl, hq⟩ := (mem_binders_iff hscope).1 hmem
        obtain rfl := Tree.atom.inj (List.mem_singleton.1 hbinder')
        exact hnew q hq
    · rw [binders_node (h.not_shape htop), bindersList_eq_flatMap, List.nodup_flatMap,
        bindsOnce_node_iff htop]
      refine and_congr (forall₂_congr hargs) ?_
      refine List.Pairwise.iff_of_mem fun {a b} ha hb => ?_
      constructor
      · intro hdisjoint name q q' hq hq'
        exact hdisjoint ((mem_binders_iff (hnames a ha)).2 ⟨name, q, rfl, hq⟩)
          ((mem_binders_iff (hnames b hb)).2 ⟨name, q', rfl, hq'⟩)
      · intro hdisjoint binder hmem hmem'
        obtain ⟨name, q, rfl, hq⟩ := (mem_binders_iff (hnames a ha)).1 hmem
        obtain ⟨name', q', hname, hq'⟩ := (mem_binders_iff (hnames b hb)).1 hmem'
        obtain rfl := Tree.atom.inj hname
        exact hdisjoint name q q' hq hq'

end Tree

end LatexLogic
