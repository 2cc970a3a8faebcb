import LatexLogic.Proofs.Table.Entry
import LatexLogic.Table.Basic
import Mathlib.Data.List.Nodup

/-!
# Built tables

A table is built by reading and checking items one by one and laying them over each other. Every
table that is built is well formed (`Table.wellFormed_of_ofItems`), whatever the items are: a key
that is no text is read as the text that stands for it, and that text is not empty.

Of the items with one spelling the last one gives the meaning (`Table.get?_foldl_insert`).
-/

set_option autoImplicit false

namespace LatexLogic

/-- Reading a list item by item gives a list of what the items are read as. -/
theorem mapM_eq_ok_iff {α β ε : Type} {f : α → Except ε β} {xs : List α} {ys : List β} :
    xs.mapM f = .ok ys ↔ xs.map f = ys.map .ok := by
  induction xs generalizing ys with
  | nil =>
    show Except.ok [] = Except.ok ys ↔ _
    rw [Except.ok.injEq, List.map_nil, eq_comm, eq_comm (a := []), List.map_eq_nil_iff]
  | cons x xs ih =>
    rw [List.mapM_cons, List.map_cons]
    cases ys with
    | nil =>
      refine iff_of_false (fun h => ?_) (List.cons_ne_nil _ _)
      cases hx : f x <;> cases hxs : xs.mapM f <;> rw [hx, hxs] at h <;> cases h
    | cons y ys =>
      rw [List.map_cons, List.cons.injEq, ← ih]
      cases f x with
      | error e => exact iff_of_false nofun fun h => absurd h.1 nofun
      | ok y' =>
        cases xs.mapM f with
        | error e => exact iff_of_false nofun fun h => absurd h.2 nofun
        | ok ys' =>
          show Except.ok (y' :: ys') = Except.ok (y :: ys) ↔ _
          rw [Except.ok.injEq, List.cons.injEq, Except.ok.injEq, Except.ok.injEq]

/-- Going through a list without a result succeeds if every step does. -/
theorem forM_eq_ok_iff {α ε : Type} {f : α → Except ε Unit} {xs : List α} :
    xs.forM f = .ok () ↔ ∀ x ∈ xs, f x = .ok () := by
  induction xs with
  | nil => exact iff_of_true rfl nofun
  | cons x xs ih =>
    rw [List.forM_eq_forM, List.forM_cons, List.forall_mem_cons]
    cases hx : f x with
    | error e => exact iff_of_false nofun fun h => absurd h.1 nofun
    | ok u => exact ih.trans (iff_and_self.2 fun _ => rfl)

/-! ## Keys -/

theorem Binary64.layout_ne_nil (digits : List Char) (point : Int) : layout digits point ≠ [] := by
  unfold layout
  split
  · split <;> simp
  · simp [exponentText]

theorem Binary64.text_ne_empty (x : Binary64) : x.text ≠ "" := by
  unfold text
  dsimp only
  split
  · decide
  · simp
  · simp
  · simp [layout_ne_nil]

theorem Timestamp.text_ne_empty (t : Timestamp) : t.text ≠ "" := by
  cases t <;> simp [text, dayText]

/-- A number is equal to itself. -/
theorem Data.sameNumber_self {a : Data} (h : a.isNumber = true) : sameNumber a a = true := by
  unfold sameNumber
  cases hscaled : a.scaled? with
  | some scaled => simp [Binary64.compareScaled]
  | none =>
    cases a with
    | float x => simp
    | bool b => cases hscaled
    | int n => cases hscaled
    | _ => cases h

/-- A value that may be a key is the same as itself. -/
theorem Data.same_self_of_isKey {key : Data} (h : key.isKey = true) : key.same key = true := by
  cases key with
  | null => simp [same]
  | bool b | int n | float x => simpa [same, isNumber] using sameNumber_self rfl
  | text s => simp [same]
  | timestamp t => cases t <;> simp [same, Timestamp.same, Timestamp.comparable]
  | bytes xs => simp [same]
  | pair a b =>
    obtain ⟨ha, hb⟩ := Bool.and_eq_true_iff.1 h
    rw [same, same_self_of_isKey ha, same_self_of_isKey hb, Bool.and_self]
  | _ => cases h

/-- A value that does not count as empty is not written as the empty text. -/
theorem Data.plainText_ne_empty {key : Data} (h : key.isEmpty = false) : key.plainText ≠ "" := by
  cases key with
  | null => cases h
  | bool b => cases b <;> decide
  | int n =>
    cases n with
    | ofNat n => exact Nat.repr_ne_empty
    | negSucc n => simp [plainText, display, toString, Int.repr]
  | float x => exact x.text_ne_empty
  | text s =>
    rintro rfl
    cases h
  | timestamp t => exact t.text_ne_empty
  | bytes xs => simp [plainText, display, Text.quotedBytes]
  | list xs => simp [plainText, display]
  | pair a b => simp [plainText, display]
  | set xs =>
    show display (.set xs) ≠ ""
    rw [display]
    split
    · decide
    · simp
  | map es => simp [plainText, display]
  | again isMap => cases isMap <;> decide

/-! ## Keyed lists -/

section Keyed

variable {κ α : Type} {sameKey : κ → κ → Bool} {P : α → Prop}

/-- What holds of the new value and of all old ones holds of all values. -/
theorem forall_mem_insertKeyed {key : κ} {value : α} {xs : List (κ × α)} (hvalue : P value)
    (hxs : ∀ x ∈ xs, P x.2) : ∀ x ∈ insertKeyed sameKey key value xs, P x.2 := by
  induction xs with
  | nil => exact List.forall_mem_singleton.2 hvalue
  | cons x xs ih =>
    rw [List.forall_mem_cons] at hxs
    rw [insertKeyed]
    split
    · exact List.forall_mem_cons.2 ⟨hvalue, hxs.2⟩
    · exact List.forall_mem_cons.2 ⟨hxs.1, ih hxs.2⟩

/-- What holds of all new values and of all old ones holds after the new ones are laid over. -/
theorem forall_mem_foldl_insertKeyed {new base : List (κ × α)} (hnew : ∀ x ∈ new, P x.2)
    (hbase : ∀ x ∈ base, P x.2) :
    ∀ x ∈ new.foldl (fun merged x => insertKeyed sameKey x.1 x.2 merged) base, P x.2 := by
  induction new generalizing base with
  | nil => exact hbase
  | cons x new ih =>
    rw [List.forall_mem_cons] at hnew
    exact ih hnew.2 (forall_mem_insertKeyed hnew.1 hbase)

end Keyed

namespace Table

variable {Λ : Type} {es : List (String × Construct Λ)} {entry : String × Construct Λ} {s : String}

/-! ## Laying entries over each other -/

theorem get?_append (es fs : List (String × Construct Λ)) (s : String) :
    (⟨es ++ fs⟩ : Table Λ).get? s = ((⟨es⟩ : Table Λ).get? s).or ((⟨fs⟩ : Table Λ).get? s) := by
  simp only [get?, List.find?_append, Option.map_or]

theorem get?_cons (entry : String × Construct Λ) (es : List (String × Construct Λ)) (s : String) :
    (⟨entry :: es⟩ : Table Λ).get? s =
      if entry.1 = s then some entry.2 else (⟨es⟩ : Table Λ).get? s := by
  by_cases h : entry.1 = s
  · simp [get?, h]
  · simp [get?, h]

/-- A new entry gives the meaning of its own spelling and changes no other. -/
theorem get?_insert (es : List (String × Construct Λ)) (entry : String × Construct Λ) (s : String) :
    (⟨insert es entry⟩ : Table Λ).get? s =
      if entry.1 = s then some entry.2 else (⟨es⟩ : Table Λ).get? s := by
  induction es with
  | nil => exact get?_cons entry [] s
  | cons e es ih =>
    show (⟨if entry.1 == e.1 then (e.1, entry.2) :: es else e :: insert es entry⟩ :
      Table Λ).get? s = _
    by_cases h : entry.1 = e.1
    · rw [if_pos (beq_iff_eq.2 h), get?_cons, get?_cons, h]
      split <;> rfl
    · rw [if_neg (by simpa using h), get?_cons, get?_cons, ih]
      by_cases he : e.1 = s
      · rw [if_pos he, if_pos he, if_neg (he ▸ h)]
      · rw [if_neg he, if_neg he]

/-- Of the entries with one spelling the last one gives its meaning. -/
theorem get?_foldl_insert (new es : List (String × Construct Λ)) (s : String) :
    (⟨new.foldl insert es⟩ : Table Λ).get? s =
      ((⟨new.reverse⟩ : Table Λ).get? s).or ((⟨es⟩ : Table Λ).get? s) := by
  induction new generalizing es with
  | nil => rfl
  | cons entry new ih =>
    rw [List.foldl_cons, ih, get?_insert, List.reverse_cons, get?_append, get?_cons,
      Option.or_assoc]
    congr 1
    split <;> rfl

/-- The spellings of a list of entries after a new entry, which takes the place of the old one. -/
theorem map_fst_insert (es : List (String × Construct Λ)) (entry : String × Construct Λ) :
    (insert es entry).map Prod.fst =
      if entry.1 ∈ es.map Prod.fst then es.map Prod.fst else es.map Prod.fst ++ [entry.1] := by
  induction es with
  | nil => rfl
  | cons e es ih =>
    show (if entry.1 == e.1 then (e.1, entry.2) :: es else e :: insert es entry).map Prod.fst = _
    by_cases h : entry.1 = e.1
    · rw [if_pos (beq_iff_eq.2 h), List.map_cons, List.map_cons, if_pos (h ▸ List.mem_cons_self)]
    · rw [if_neg (by simpa using h), List.map_cons, List.map_cons, ih]
      by_cases hmem : entry.1 ∈ es.map Prod.fst
      · rw [if_pos hmem, if_pos (List.mem_cons_of_mem _ hmem)]
      · rw [if_neg hmem, if_neg (by simp only [List.mem_cons, h, hmem, or_self, not_false_iff]),
          List.cons_append]

theorem nodup_insert (h : (es.map Prod.fst).Nodup) : ((insert es entry).map Prod.fst).Nodup := by
  rw [map_fst_insert]
  split
  · exact h
  · next hmem =>
    rw [← List.concat_eq_append]
    exact h.concat hmem

theorem nodup_foldl_insert (new : List (String × Construct Λ)) (h : (es.map Prod.fst).Nodup) :
    ((new.foldl insert es).map Prod.fst).Nodup := by
  induction new generalizing es with
  | nil => exact h
  | cons entry new ih => exact ih (nodup_insert h)

/-- Laying entries over each other brings in no other spelling. -/
theorem mem_map_fst_foldl_insert (new : List (String × Construct Λ))
    (h : s ∈ (new.foldl insert es).map Prod.fst) :
    s ∈ es.map Prod.fst ∨ s ∈ new.map Prod.fst := by
  induction new generalizing es with
  | nil => exact Or.inl h
  | cons entry new ih =>
    rw [List.map_cons, List.mem_cons]
    rcases ih h with hmem | hmem
    · rw [map_fst_insert] at hmem
      split at hmem
      · exact Or.inl hmem
      · rw [List.mem_append, List.mem_singleton] at hmem
        exact hmem.imp_right Or.inl
    · exact Or.inr (Or.inr hmem)

/-! ## Checks -/

variable {built : List (String × Construct Data)} {c : Construct Data}

/-- If the check of labels goes through, all labels could be looked up. -/
theorem isKey_label_of_checkLabels (h : checkLabels built = .ok ()) :
    ∀ entry ∈ built, entry.2.label.isKey = true := by
  intro entry hentry
  have hcheck := forM_eq_ok_iff.1 h entry hentry
  by_contra hkey
  simp only [hkey, if_false] at hcheck
  cases hcheck

/-- If the check of labels goes through, constructs with one label are of one kind: both are of the
kind of the first construct with the label. -/
theorem kind_eq_of_checkLabels (h : checkLabels built = .ok ()) {a b : String × Construct Data}
    (ha : a ∈ built) (hb : b ∈ built) (hlabel : a.2.label = b.2.label) : a.2.kind = b.2.kind := by
  have hchecked := forM_eq_ok_iff.1 h
  have hkey := isKey_label_of_checkLabels h a ha
  cases hfirst : firstWithLabel? built a.2.label with
  | none =>
    have hnone := List.find?_eq_none.1 hfirst a ha
    exact absurd (Data.same_self_of_isKey hkey) hnone
  | some first =>
    have hkind : ∀ e ∈ built, e.2.label = a.2.label → first.2.kind = e.2.kind := by
      intro e he heq
      have hcheck := hchecked e he
      simp only [heq, hkey, hfirst, if_true] at hcheck
      split at hcheck
      · next hkind => exact hkind
      · cases hcheck
    rw [← hkind a ha rfl, ← hkind b hb hlabel.symm]

theorem spellingOf_eq_ok_iff {key : Data} :
    spellingOf key = .ok s ↔
      key.isEmpty = false ∧ key.hasLongInteger = false ∧ s = key.plainText := by
  unfold spellingOf
  cases key.isEmpty with
  | true => simp
  | false =>
    cases key.hasLongInteger with
    | true => simp
    | false => simp [eq_comm]

/-- What an item is read as under its key. -/
theorem checkItem_eq_ok_iff {key : Data} {item : Item} :
    checkItem key item = .ok (s, c) ↔
      item.read = .ok (.construct c) ∧ spellingOf key = .ok s := by
  unfold checkItem
  cases hread : item.read with
  | error e => exact iff_of_false nofun fun h => absurd h.1 nofun
  | ok item' =>
    cases item' with
    | plain value => exact iff_of_false nofun fun h => absurd h.1 nofun
    | construct c' =>
      cases hspelling : spellingOf key with
      | error e => exact iff_of_false nofun fun h => absurd h.2 nofun
      | ok s' =>
        show Except.ok (s', c') = Except.ok (s, c) ↔ _
        simp [and_comm]

/-- A table is built from items that are all read, and laid over each other in their order. -/
theorem ofItems_eq_ok {items : List (Data × Item)} {t : Table Data} (h : ofItems items = .ok t) :
    ∃ new : List (String × Construct Data),
      items.map (fun item => checkItem item.1 item.2) = new.map .ok ∧
      t.entries = new.foldl insert [] ∧ checkLabels t.entries = .ok () := by
  unfold ofItems at h
  cases hnew : items.mapM fun item => checkItem item.1 item.2 with
  | error e =>
    rw [hnew] at h
    cases h
  | ok new =>
    rw [hnew] at h
    cases hlabels : checkLabels (new.foldl insert []) with
    | error e =>
      simp only [bind, Except.bind, hlabels] at h
      cases h
    | ok u =>
      simp only [bind, Except.bind, hlabels] at h
      cases h
      exact ⟨new, mapM_eq_ok_iff.1 hnew, rfl, hlabels⟩

/-- Every table that is built is well formed. -/
theorem wellFormed_of_ofItems {items : List (Data × Item)} {t : Table Data}
    (h : ofItems items = .ok t) : t.WellFormed := by
  obtain ⟨new, hitems, hentries, hlabels⟩ := ofItems_eq_ok h
  constructor
  case spelling_ne_empty =>
    intro entry hentry
    have hspelling := List.mem_map_of_mem (f := Prod.fst) hentry
    rw [hentries] at hspelling
    rcases mem_map_fst_foldl_insert new hspelling with hmem | hmem
    · cases hmem
    · obtain ⟨⟨s, c⟩, hmem, hs⟩ := List.mem_map.1 hmem
      obtain ⟨item, -, hitem⟩ := List.mem_map.1 (hitems ▸ List.mem_map_of_mem hmem)
      obtain ⟨-, hspelling⟩ := checkItem_eq_ok_iff.1 hitem
      obtain ⟨hempty, -, rfl⟩ := spellingOf_eq_ok_iff.1 hspelling
      rw [← hs]
      exact Data.plainText_ne_empty hempty
  case nodup_spellings =>
    rw [spellings, hentries]
    exact nodup_foldl_insert new List.nodup_nil
  case kind_eq_of_label_eq =>
    intro a ha b hb
    exact kind_eq_of_checkLabels hlabels ha hb

/-! ## Building a table from itself -/

/-- An entry with a new spelling goes to the end. -/
theorem insert_of_notMem (h : entry.1 ∉ es.map Prod.fst) : insert es entry = es ++ [entry] := by
  induction es with
  | nil => rfl
  | cons e es ih =>
    rw [List.map_cons, List.mem_cons, not_or] at h
    show (if entry.1 == e.1 then (e.1, entry.2) :: es else e :: insert es entry) = _
    rw [if_neg (by simpa using h.1), ih h.2, List.cons_append]

/-- Entries with new spellings, each given once, are appended in their order. -/
theorem foldl_insert_eq_append (new : List (String × Construct Λ))
    (h : ((es ++ new).map Prod.fst).Nodup) : new.foldl insert es = es ++ new := by
  induction new generalizing es with
  | nil => exact (List.append_nil es).symm
  | cons entry new ih =>
    have hsplit : es ++ entry :: new = es ++ [entry] ++ new := by
      rw [List.append_assoc, List.singleton_append]
    have hentry : entry.1 ∉ es.map Prod.fst := by
      rw [List.map_append, List.map_cons] at h
      exact fun hmem => (List.nodup_append.1 h).2.2 _ hmem _ List.mem_cons_self rfl
    rw [List.foldl_cons, insert_of_notMem hentry, hsplit]
    exact ih (hsplit ▸ h)

/-- The check of labels lets constructs of one kind share a label. -/
theorem checkLabels_of_kind_eq (hkey : ∀ entry ∈ built, entry.2.label.isKey = true)
    (hkind : ∀ a ∈ built, ∀ b ∈ built, a.2.label.same b.2.label = true → a.2.kind = b.2.kind) :
    checkLabels built = .ok () := by
  apply forM_eq_ok_iff.2
  intro e he
  simp only [hkey e he, if_true]
  cases hfirst : firstWithLabel? built e.2.label with
  | none => rfl
  | some first =>
    have hsame := List.find?_some hfirst
    exact if_pos (hkind first (List.mem_of_find?_eq_some hfirst) e he hsame)

/-- A table whose labels pass the check is built from its own entries. -/
theorem ofItems_items_of_checkLabels {t : Table Data} (ht : t.WellFormed)
    (hlabels : checkLabels t.entries = .ok ()) : ofItems t.items = .ok t := by
  have hread : (t.items.mapM fun item => checkItem item.1 item.2) = .ok t.entries := by
    apply mapM_eq_ok_iff.2
    rw [items, List.map_map]
    apply List.map_congr_left
    intro entry hentry
    -- A construct is read as itself, and a text that is not empty is its own spelling.
    apply checkItem_eq_ok_iff.2
    refine ⟨rfl, spellingOf_eq_ok_iff.2 ⟨?_, rfl, rfl⟩⟩
    exact Bool.eq_false_iff.2 fun hempty =>
      ht.spelling_ne_empty entry hentry (String.isEmpty_iff.1 hempty)
  -- No spelling occurs twice, so no entry takes the place of another.
  have hlaid : t.entries.foldl insert [] = t.entries :=
    foldl_insert_eq_append t.entries ht.nodup_spellings
  simp only [ofItems, hread, bind, Except.bind, hlaid, hlabels]
  rfl

/-! ## Reading items -/

/-- An item that is read as a construct or that is no mapping is read as itself. -/
theorem Item.read_of_read {item item' : Item} (h : item.read = .ok item') :
    item'.read = .ok item' := by
  unfold read at h
  split at h
  · split at h
    · cases h
      rfl
    · cases h
  · next hmap =>
    obtain rfl := Except.ok.inj h
    cases item with
    | construct c => rfl
    | plain value =>
      cases value with
      | map entries => exact absurd rfl (hmap entries)
      | _ => rfl

/-- The mapping of a construct is read as the construct. -/
theorem Item.read_toData {c : Construct Data} (hlabel : c.label ≠ .null) :
    Item.read (.plain c.toData) = .ok (.construct c) := by
  rw [Construct.toData, Data.object_eq, read, Construct.ofEntries_toEntries hlabel]

/-- The mapping of a construct makes up a table on its own if the label can be looked up. -/
theorem ofData_singleton {s : String} {c : Construct Data} (hs : s ≠ "") (hlabel : c.label ≠ .null)
    (hkey : c.label.isKey = true) : ofData [(.text s, c.toData)] = .ok ⟨[(s, c)]⟩ := by
  have hitem : checkItem (.text s) (.plain c.toData) = .ok (s, c) := by
    refine checkItem_eq_ok_iff.2
      ⟨Item.read_toData hlabel, spellingOf_eq_ok_iff.2 ⟨?_, rfl, rfl⟩⟩
    exact Bool.eq_false_iff.2 fun hempty => hs (String.isEmpty_iff.1 hempty)
  have hlabels : checkLabels [(s, c)] = .ok () :=
    checkLabels_of_kind_eq (List.forall_mem_singleton.2 hkey)
      (List.forall_mem_singleton.2 (List.forall_mem_singleton.2 fun _ => rfl))
  rw [ofData, ofItems, List.map_cons, List.map_nil, List.mapM_cons, hitem]
  simp only [List.mapM_nil, bind, Except.bind, pure, Except.pure, List.foldl_cons, List.foldl_nil,
    insert, insertKeyed, hlabels]

/-! ## Extending -/

theorem readItem_eq_ok_iff {item : Data × Item} {key : Data} {item' : Item} :
    readItem item = .ok (key, item') ↔ item.1 = key ∧ item.2.read = .ok item' := by
  unfold readItem
  cases item.2.read with
  | error e => exact iff_of_false nofun fun h => absurd h.2 nofun
  | ok read =>
    show Except.ok (item.1, read) = Except.ok (key, item') ↔ _
    simp

/-- An extended table is built from items that are read already. -/
theorem extendItems_eq_ok {t ext : Table Data} {items : List (Data × Item)}
    (h : t.extendItems items = .ok ext) :
    ∃ new, items.map readItem = new.map .ok ∧ ofItems (layOver t.items new) = .ok ext := by
  unfold extendItems at h
  cases hread : items.mapM readItem with
  | error e =>
    rw [hread] at h
    cases h
  | ok new =>
    rw [hread] at h
    exact ⟨new, mapM_eq_ok_iff.1 hread, h⟩

/-- Extending a table ends with the checks of a table that is built. -/
theorem wellFormed_of_extendItems {t ext : Table Data} {items : List (Data × Item)}
    (h : t.extendItems items = .ok ext) : ext.WellFormed := by
  obtain ⟨new, -, hbuilt⟩ := extendItems_eq_ok h
  exact wellFormed_of_ofItems hbuilt

/-- Of the merged items of an extended table each is read as itself. -/
theorem read_of_mem_layOver {t : Table Data} {items new : List (Data × Item)}
    (hnew : items.map readItem = new.map .ok) :
    ∀ item ∈ layOver t.items new, item.2.read = .ok item.2 := by
  apply forall_mem_foldl_insertKeyed (P := fun item : Item => item.read = .ok item)
  · intro item hitem
    obtain ⟨item₀, -, hread⟩ := List.mem_map.1 (hnew ▸ List.mem_map_of_mem hitem)
    exact Item.read_of_read (readItem_eq_ok_iff.1 hread).2
  · intro item hitem
    obtain ⟨entry, -, rfl⟩ := List.mem_map.1 hitem
    rfl

end Table

end LatexLogic
