import LatexLogic.Proofs.Binding.Binder
import LatexLogic.Proofs.Binding.Clash

/-!
# Variables bound twice

The check on bound variables reports the first clash of binders, where the place of a binder is after
its scope (`Tree.reports_boundVariables`). So quantifiers in a scope are compared with each other
before the one in front of the scope is compared with them.
-/

set_option autoImplicit false

namespace LatexLogic

namespace Tree

open Marks (ofArguments)

/-! ## Binders with their places -/

mutual

/-- The binders of a tree with their places, which are after the scopes. -/
def bindingMarks (isQuantifier : String → Bool) : Tree → Marks Tree
  | .atom _ => []
  | .metavar _ _ => []
  | .node label [binder, scope] =>
    if isQuantifier label then (bindingMarks isQuantifier scope).under 1 ++ [([2], binder)]
    else bindingMarksFrom isQuantifier 0 [binder, scope]
  | .node _ args => bindingMarksFrom isQuantifier 0 args

/-- The binders of arguments from the given one on. -/
def bindingMarksFrom (isQuantifier : String → Bool) (i : Nat) : List Tree → Marks Tree
  | [] => []
  | t :: ts => (bindingMarks isQuantifier t).under i ++ bindingMarksFrom isQuantifier (i + 1) ts

end

/-- Where the variable of a quantifier node has its place: after the scope. -/
def bindingPlace (q : List Nat) : List Nat :=
  q ++ [2]

/-- Quantifier nodes bind one variable at the two places, the first of them to the left. -/
def RebindsAt (isQuantifier : String → Bool) (t : Tree) (p p' : List Nat) : Prop :=
  LeftOf p p' ∧ ∃ q q' name, p = bindingPlace q ∧ p' = bindingPlace q' ∧
    t.BindsAt isQuantifier q name ∧ t.BindsAt isQuantifier q' name

variable {isQuantifier : String → Bool}

theorem bindingMarks_node {label : String} {args : List Tree}
    (h : ¬ ∃ binder scope, args = [binder, scope] ∧ isQuantifier label = true) :
    (node label args).bindingMarks isQuantifier =
      ofArguments (bindingMarks isQuantifier) 0 args := by
  rw [← Marks.eq_ofArguments (f := bindingMarksFrom isQuantifier) (fun _ => rfl) fun _ _ _ => rfl]
  cases args, h using other_args_cases with
  | pair binder scope _ hlabel => simp [bindingMarks, hlabel]
  | nil => rfl
  | single => rfl
  | more => rfl

theorem bindingMarks_quantifier {label : String} {binder scope : Tree}
    (hlabel : isQuantifier label = true) :
    (node label [binder, scope]).bindingMarks isQuantifier =
      (scope.bindingMarks isQuantifier).under 1 ++ Marks.under 2 [([], binder)] := by
  rw [bindingMarks, if_pos hlabel]
  rfl

/-- The marks of a tree are its binders in their order. -/
theorem map_snd_bindingMarks (t : Tree) :
    (t.bindingMarks isQuantifier).map Prod.snd = t.binders isQuantifier := by
  induction t using induction with
  | atom label => rfl
  | metavar name declared => rfl
  | node label args ih =>
    by_cases hshape : ∃ binder scope, args = [binder, scope] ∧ isQuantifier label = true
    · obtain ⟨binder, scope, rfl, hlabel⟩ := hshape
      rw [bindingMarks_quantifier hlabel, binders, if_pos hlabel, List.map_append,
        Marks.map_snd_under, Marks.map_snd_under, ih scope (by simp)]
      rfl
    · rw [bindingMarks_node hshape, binders_node hshape, bindersList_eq_flatMap,
        Marks.map_snd_ofArguments]
      exact List.flatMap_congr ih

theorem leftToRight_bindingMarks (t : Tree) : (t.bindingMarks isQuantifier).LeftToRight := by
  induction t using induction with
  | atom label => exact Marks.leftToRight_nil
  | metavar name declared => exact Marks.leftToRight_nil
  | node label args ih =>
    by_cases hshape : ∃ binder scope, args = [binder, scope] ∧ isQuantifier label = true
    · obtain ⟨binder, scope, rfl, hlabel⟩ := hshape
      rw [bindingMarks_quantifier hlabel]
      exact (ih scope (by simp)).under.append_under (List.pairwise_singleton _ _)
        Marks.before_under
    · rw [bindingMarks_node hshape]
      exact Marks.leftToRight_ofArguments ih 0

/-- The marks are the variables of the quantifier nodes. -/
theorem mem_bindingMarks_iff {t : Tree} (h : t.NamesBinders isQuantifier) {binder : Tree} :
    ∀ p, (p, binder) ∈ t.bindingMarks isQuantifier ↔
      ∃ q name, p = bindingPlace q ∧ binder = .atom name ∧ t.BindsAt isQuantifier q name := by
  induction t using induction with
  | atom label => simp [bindingMarks]
  | metavar m declared => simp [bindingMarks]
  | node label args ih =>
    intro p
    have hargs := fun arg (harg : arg ∈ args) => ih arg harg (h.of_mem_args harg)
    rcases h.cases_node with ⟨bound, scope, rfl, hlabel⟩ | htop
    · rw [bindingMarks_quantifier hlabel, List.mem_append, Marks.mem_under_iff,
        Marks.mem_under_iff]
      constructor
      · rintro (⟨p, rfl, hmem⟩ | ⟨p, rfl, hmem⟩)
        · obtain ⟨q, name, rfl, rfl, hq⟩ := (hargs scope (by simp) p).1 hmem
          exact ⟨1 :: q, name, rfl, rfl, (bindsAt_quantifier_iff hlabel).2 (Or.inr ⟨q, rfl, hq⟩)⟩
        · obtain ⟨rfl, rfl⟩ := Prod.mk.inj (List.mem_singleton.1 hmem)
          exact ⟨[], bound, rfl, rfl, (bindsAt_quantifier_iff hlabel).2 (Or.inl ⟨rfl, rfl⟩)⟩
      · rintro ⟨q, name, rfl, rfl, hq⟩
        rcases (bindsAt_quantifier_iff hlabel).1 hq with ⟨rfl, rfl⟩ | ⟨q, rfl, hq⟩
        · exact Or.inr ⟨[], rfl, List.mem_singleton_self _⟩
        · exact Or.inl ⟨bindingPlace q, rfl, (hargs scope (by simp) _).2 ⟨q, name, rfl, rfl, hq⟩⟩
    · rw [bindingMarks_node (h.not_shape htop), Marks.mem_ofArguments_iff]
      simp only [Nat.zero_add]
      constructor
      · rintro ⟨i, arg, p, harg, rfl, hmem⟩
        obtain ⟨q, name, rfl, rfl, hq⟩ := (hargs arg (List.mem_of_getElem? harg) p).1 hmem
        exact ⟨i :: q, name, rfl, rfl, bindsAt_cons_iff.2 ⟨arg, harg, hq⟩⟩
      · rintro ⟨_ | ⟨i, q⟩, name, rfl, rfl, hq⟩
        · exact absurd hq (htop name)
        · obtain ⟨arg, harg, hq⟩ := bindsAt_cons_iff.1 hq
          exact ⟨i, arg, bindingPlace q, harg, rfl,
            (hargs arg (List.mem_of_getElem? harg) _).2 ⟨q, name, rfl, rfl, hq⟩⟩

/-- Binders clash if quantifier nodes bind one variable. -/
theorem clashAt_bindingMarks_iff {t : Tree} (h : t.NamesBinders isQuantifier) (p p' : List Nat) :
    ClashAt (· = ·) (t.bindingMarks isQuantifier) p p' ↔ t.RebindsAt isQuantifier p p' := by
  refine and_congr_right fun _ => ?_
  constructor
  · rintro ⟨binder, _, hmem, hmem', rfl⟩
    obtain ⟨q, name, rfl, rfl, hq⟩ := (mem_bindingMarks_iff h p).1 hmem
    obtain ⟨q', name', rfl, heq, hq'⟩ := (mem_bindingMarks_iff h p').1 hmem'
    obtain rfl := Tree.atom.inj heq
    exact ⟨q, q', name, rfl, rfl, hq, hq'⟩
  · rintro ⟨q, q', name, rfl, rfl, hq, hq'⟩
    exact ⟨.atom name, .atom name, (mem_bindingMarks_iff h _).2 ⟨q, name, rfl, rfl, hq⟩,
      (mem_bindingMarks_iff h _).2 ⟨q', name, rfl, rfl, hq'⟩, rfl⟩

/-! ## The check -/

/-- A binder is found again exactly if the next argument has it as well. -/
theorem mem_binders_iff_exists_mark {t binder : Tree} :
    decide (binder ∈ t.binders isQuantifier) = true ↔
      ∃ q b, (q, b) ∈ t.bindingMarks isQuantifier ∧ binder = b := by
  rw [decide_eq_true_eq, ← map_snd_bindingMarks]
  simp

/-- Going through more arguments, the check reports the first clash, if it did so in each of them
and there was none before. -/
theorem reports_boundVariablesFrom {ts : List Tree}
    (ih : ∀ t ∈ ts, Reports (· = ·) id (t.bindingMarks isQuantifier)
      (t.boundVariables isQuantifier)) :
    ∀ (i : Nat) (found : Marks Tree), found.Before i → found.LeftToRight →
      NoClash (· = ·) found →
      Reports (· = ·) id (found ++ ofArguments (bindingMarks isQuantifier) i ts)
        (boundVariablesFrom isQuantifier (found.map Prod.snd) ts) := by
  induction ts with
  | nil =>
    intro i found _ _ hno
    rwa [ofArguments, List.append_nil]
  | cons t ts ihts =>
    intro i found hfound hordered hno
    have iht := ih t List.mem_cons_self
    have hlater : (ofArguments (bindingMarks isQuantifier) (i + 1) ts).From (i + 1) :=
      Marks.from_ofArguments ts (i + 1)
    rw [ofArguments, ← List.append_assoc, boundVariablesFrom]
    cases hbound : t.boundVariables isQuantifier with
    | error twice =>
      rw [hbound] at iht
      obtain ⟨_, hfirst, rfl⟩ := iht
      -- The arguments behind are not looked at, and would not change which clash is the first.
      exact ⟨_, (firstClash_of_argument hfound hno hfirst).append hfound.append_under hlater, rfl⟩
    | ok bound =>
      rw [hbound] at iht
      obtain ⟨rfl, -⟩ := (boundVariables_eq_ok_iff t bound).1 hbound
      -- The argument is in order by itself, so it is compared with those before it.
      have hP : ∀ n ∈ found, ((fun v => decide (v ∈ t.binders isQuantifier)) ∘ Prod.snd) n = true ↔
          ∃ q b, (q, b) ∈ t.bindingMarks isQuantifier ∧ n.2 = b :=
        fun n _ => mem_binders_iff_exists_mark
      dsimp only
      rw [List.find?_map]
      cases hfind : found.find? ((fun v => decide (v ∈ t.binders isQuantifier)) ∘ Prod.snd) with
      | some m =>
        have hfirst := firstClash_of_find? hfound hordered hno iht hP hfind
        exact ⟨m.2, hfirst.append hfound.append_under hlater, rfl⟩
      | none =>
        have hnext := ihts (fun t' ht' => ih t' (List.mem_cons_of_mem _ ht')) (i + 1) _
          hfound.append_under (hordered.append_under (leftToRight_bindingMarks t) hfound)
          (noClash_of_find? hfound hno iht hP hfind)
        rwa [List.map_append, Marks.map_snd_under, map_snd_bindingMarks] at hnext

/-- The check on bound variables reports the first clash of binders. -/
theorem reports_boundVariables (t : Tree) :
    Reports (· = ·) id (t.bindingMarks isQuantifier) (t.boundVariables isQuantifier) := by
  induction t using induction with
  | atom label => exact noClash_nil
  | metavar name declared => exact noClash_nil
  | node label args ih =>
    by_cases hshape : ∃ binder scope, args = [binder, scope] ∧ isQuantifier label = true
    · obtain ⟨binder, scope, rfl, hlabel⟩ := hshape
      have ihscope := ih scope (by simp)
      rw [bindingMarks_quantifier hlabel, boundVariables, if_pos hlabel]
      cases hbound : scope.boundVariables isQuantifier with
      | error twice =>
        rw [hbound] at ihscope
        obtain ⟨_, hfirst, rfl⟩ := ihscope
        exact ⟨_, hfirst.under.append Marks.before_under Marks.from_under, rfl⟩
      | ok bound =>
        rw [hbound] at ihscope
        obtain ⟨rfl, -⟩ := (boundVariables_eq_ok_iff scope bound).1 hbound
        -- The variable of the node is compared with those of the scope, as one more argument.
        have hordered : ((scope.bindingMarks isQuantifier).under 1).LeftToRight :=
          (leftToRight_bindingMarks scope).under
        have hP : ∀ n ∈ (scope.bindingMarks isQuantifier).under 1, decide (n.2 = binder) = true ↔
            ∃ q b, (q, b) ∈ ([([], binder)] : Marks Tree) ∧ n.2 = b := by
          simp
        dsimp only
        rw [← map_snd_bindingMarks, ← Marks.map_snd_under (i := 1)]
        cases hfind : ((scope.bindingMarks isQuantifier).under 1).find?
            fun n => decide (n.2 = binder) with
        | some m =>
          obtain rfl : m.2 = binder := by simpa using List.find?_some hfind
          rw [if_pos (List.mem_map_of_mem (List.mem_of_find?_eq_some hfind))]
          exact ⟨m.2, firstClash_of_find? Marks.before_under hordered ihscope.under
            noClash_singleton hP hfind, rfl⟩
        | none =>
          have hnew : binder ∉ ((scope.bindingMarks isQuantifier).under 1).map Prod.snd := by
            intro hmem
            obtain ⟨n, hn, rfl⟩ := List.mem_map.1 hmem
            simpa using List.find?_eq_none.1 hfind n hn
          rw [if_neg hnew]
          exact noClash_of_find? Marks.before_under ihscope.under noClash_singleton hP hfind
    · rw [bindingMarks_node hshape, boundVariables_node hshape]
      exact reports_boundVariablesFrom ih 0 [] (by simp [Marks.Before]) Marks.leftToRight_nil
        noClash_nil

end Tree

end LatexLogic
