import LatexLogic.Proofs.Binding.Clash
import LatexLogic.Proofs.Binding.Mention

/-!
# First places

Some checks on a tree list what stands in it, each item once, although it may stand at many places.
What matters is then where it stands first: the items come in the order of their first places
(`Tree.ListsFirstPlaces`). This is what remains of marks in the order of reading when only the first
mark of each item is kept (`Tree.Marks.listsFirstPlaces`), whatever the items are.
-/

set_option autoImplicit false

namespace LatexLogic

theorem appendNew_concat {α : Type} [DecidableEq α] (xs ys : List α) (y : α) :
    appendNew xs (ys ++ [y]) =
      if y ∈ appendNew xs ys then appendNew xs ys else appendNew xs ys ++ [y] := by
  rw [appendNew_append]
  rfl

/-- Of items that are not repeated, those that are new are put behind the others. -/
theorem appendNew_of_nodup {α : Type} [DecidableEq α] {ys : List α} (h : ys.Nodup) :
    ∀ xs : List α, appendNew xs ys = xs ++ ys.filter fun y => y ∉ xs := by
  induction h with
  | nil =>
    intro xs
    rw [List.filter_nil, List.append_nil]
    rfl
  | @cons y ys hy _ ih =>
    intro xs
    rw [appendNew, ih]
    by_cases hmem : y ∈ xs
    · rw [if_pos hmem, List.filter_cons_of_neg (by simpa using hmem)]
    · rw [if_neg hmem, List.filter_cons_of_pos (by simpa using hmem), List.append_assoc,
        List.singleton_append]
      -- The first item does not come again, so it makes no difference for the later ones.
      congr 2
      refine List.filter_congr fun z hz => ?_
      have hne : z ≠ y := fun heq => hy z hz heq.symm
      simp [hne]

namespace Tree

/-- The list has the items that stand anywhere in a tree, each once, and in the order of their first
places: of two items the first one stands somewhere to the left of all places of the second one. -/
structure ListsFirstPlaces {α : Type} (StandsAt : List Nat → α → Prop) (items : List α) : Prop where
  nodup : items.Nodup
  mem_iff : ∀ a, a ∈ items ↔ ∃ p, StandsAt p a
  ordered : items.Pairwise fun a b => ∃ p, StandsAt p a ∧ ∀ q, StandsAt q b → LeftOf p q

namespace Marks

variable {α : Type} [DecidableEq α] {ms : Marks α}

/-- Where only the first mark of each item is kept, the items stay in order. -/
theorem LeftToRight.ordered_appendNew (h : ms.LeftToRight) :
    (appendNew [] (ms.map Prod.snd)).Pairwise fun a b =>
      ∃ p, (p, a) ∈ ms ∧ ∀ q, (q, b) ∈ ms → LeftOf p q := by
  -- The induction takes the marks away from the right, where they have no influence on the others.
  induction ms using List.reverseRecOn with
  | nil => exact List.Pairwise.nil
  | append_singleton ms m ih =>
    obtain ⟨hms, -, hlast⟩ := List.pairwise_append.1 h
    have hleft : ∀ n ∈ ms, LeftOf n.1 m.1 := fun n hn => hlast n hn m (List.mem_singleton_self m)
    have hold : (appendNew [] (ms.map Prod.snd)).Pairwise fun a b =>
        ∃ p, (p, a) ∈ ms ++ [m] ∧ ∀ q, (q, b) ∈ ms ++ [m] → LeftOf p q := by
      refine (ih hms).imp ?_
      rintro a b ⟨p, hp, hbefore⟩
      refine ⟨p, List.mem_append_left _ hp, fun q hq => ?_⟩
      rcases List.mem_append.1 hq with hq | hq
      · exact hbefore q hq
      · obtain rfl := List.mem_singleton.1 hq
        exact hleft _ hp
    rw [List.map_append, List.map_singleton, appendNew_concat]
    split
    · exact hold
    · next hnew =>
      refine List.pairwise_append.2 ⟨hold, List.pairwise_singleton _ _, fun a ha b hb => ?_⟩
      obtain rfl := List.mem_singleton.1 hb
      have hmem : a ∈ ms.map Prod.snd := by simpa using ha
      obtain ⟨⟨p, a⟩, hp, rfl⟩ := List.mem_map.1 hmem
      refine ⟨p, List.mem_append_left _ hp, fun q hq => ?_⟩
      rcases List.mem_append.1 hq with hq | hq
      · -- The last item is new, so it has no mark further to the left.
        exact absurd (by simpa using ⟨q, hq⟩) hnew
      · have hplace : q = m.1 := congrArg Prod.fst (List.mem_singleton.1 hq)
        rw [hplace]
        exact hleft _ hp

/-- The items of marks in order, each kept once, are listed by their first places. -/
theorem listsFirstPlaces (h : ms.LeftToRight) :
    ListsFirstPlaces (fun p a => (p, a) ∈ ms) (appendNew [] (ms.map Prod.snd)) where
  nodup := nodup_appendNew _ [] List.nodup_nil
  mem_iff := by simp
  ordered := h.ordered_appendNew

end Marks

end Tree

end LatexLogic
