import LatexLogic.Proofs.Table.Mapping
import LatexLogic.Proofs.Table.Reachable

/-!
# Extending is overriding

A table that is extended is the table of its own entries with the new ones laid over them
(`Table.extendItems_eq_ok_iff`): old spellings keep their position, new ones follow in their order, and
a spelling means what the new entries say of it, or else what it meant before
(`Table.spellings_extendItems`, `Table.get?_extendItems`). The two ways are not the same computation.
Extending reads all new entries before any is checked, while building reads and checks them one by
one, so that they can fail with different errors, but they fail together.

Extending twice is extending once by the second mapping laid over the first
(`Table.extendItems_override`). The converse does not hold (`Table.not_extendItems_of_override`). Labels
are checked in the finished table only, so a clash that the first mapping brings in can be gone when
the second is laid over it.
-/

set_option autoImplicit false

namespace LatexLogic

open Table (Item ofItems)

/-- The entries of a mapping as keys and items. -/
def Mapping.items (m : Mapping Item) : List (Data × Item) :=
  m.entries.map fun e => (.text e.1, e.2)

namespace Table

/-! ## Tables as mappings -/

section Own

variable {t : Table Data} (ht : t.WellFormed)

/-- The meanings of the spellings of a table. -/
def WellFormed.own : Mapping (Construct Data) where
  entries := t.entries
  nodup_keys := ht.nodup_spellings

/-- The entries of a table, as such that it could be built from. -/
def WellFormed.ownItems : Mapping Item :=
  ht.own.map .construct

theorem items_ownItems : ht.ownItems.items = t.items :=
  List.map_map

theorem get?_own (s : String) : ht.own.get? s = t.get? s := by
  have hall : ∀ es : List (String × Construct Data), es.lookup s = (⟨es⟩ : Table Data).get? s := by
    intro es
    induction es with
    | nil => rfl
    | cons e es ih =>
      rw [Mapping.lookup_cons, get?_cons, ih]
      simp only [eq_comm]
  exact hall t.entries

theorem keys_ownItems : ht.ownItems.keys = t.spellings :=
  Mapping.keys_map _ _

theorem get?_ownItems (s : String) : ht.ownItems.get? s = (t.get? s).map .construct := by
  rw [WellFormed.ownItems, Mapping.get?_map, get?_own]

end Own

/-! ## Laying items over each other -/

/-- Under text keys items are set one after the other like in the mapping that they come from. -/
theorem layOver_setAll (base : Mapping Item) (es : List (String × Item)) :
    layOver base.items (es.map fun e => (.text e.1, e.2)) = (base.setAll es).items := by
  induction es generalizing base with
  | nil => rfl
  | cons e es ih =>
    have hset : insertKeyed Data.same (.text e.1) e.2 base.items = (base.set e.1 e.2).items :=
      insertKeyed_text id base.entries e.1 e.2
    rw [List.map_cons, layOver, List.foldl_cons, hset]
    exact ih _

theorem layOver_items (base new : Mapping Item) :
    layOver base.items new.items = (base.override new).items :=
  layOver_setAll base new.entries

/-- A table of plain values under texts is built from the items that they are. -/
theorem ofData_textKeyed (m : Mapping Data) :
    ofData (Data.textKeyed m.entries) = ofItems (m.map .plain).items := by
  rw [ofData, Data.textKeyed, Mapping.items, Mapping.map, List.map_map, List.map_map]
  rfl

/-- Plain values under texts are laid over a table like the items that they are. -/
theorem extend_textKeyed (t : Table Data) (m : Mapping Data) :
    t.extend (Data.textKeyed m.entries) = t.extendItems (m.map .plain).items := by
  rw [extend, Data.textKeyed, Mapping.items, Mapping.map, List.map_map, List.map_map]
  rfl

/-! ## Reading items -/

theorem mapM_eq_of_forall₂ {α β γ ε : Type} {f : α → Except ε γ} {g : β → Except ε γ} {xs : List α}
    {ys : List β} (h : List.Forall₂ (fun x y => f x = g y) xs ys) : xs.mapM f = ys.mapM g := by
  induction h with
  | nil => rfl
  | cons hhead _ ih => rw [List.mapM_cons, List.mapM_cons, hhead, ih]

theorem checkItem_congr {key : Data} {item item' : Item} (h : item.read = item'.read) :
    checkItem key item = checkItem key item' := by
  unfold checkItem
  rw [h]

/-- Mappings with the same keys, whose items are read alike. -/
def ReadAlike (m n : Mapping Item) : Prop :=
  m.Corresponds (fun x y => x.read = y.read) n

theorem ReadAlike.refl (m : Mapping Item) : ReadAlike m m :=
  Mapping.Corresponds.refl (R := fun x y : Item => x.read = y.read) (fun _ => rfl) m

/-- Laying over keeps items read alike. -/
theorem ReadAlike.override {m m' n n' : Mapping Item} (hbase : ReadAlike m n)
    (hnew : ReadAlike m' n') : ReadAlike (m.override m') (n.override n') :=
  Mapping.Corresponds.override hbase hnew

/-- Items that are read alike make the same table. -/
theorem ofItems_congr {m n : Mapping Item} (h : ReadAlike m n) :
    ofItems m.items = ofItems n.items := by
  have hchecked : (m.items.mapM fun item => checkItem item.1 item.2) =
      n.items.mapM fun item => checkItem item.1 item.2 := by
    rw [Mapping.items, Mapping.items, List.mapM_map, List.mapM_map]
    apply mapM_eq_of_forall₂
    refine List.Forall₂.imp (fun d e he => ?_) h
    rw [Function.comp_apply, Function.comp_apply, he.1, checkItem_congr he.2]
  rw [ofItems, ofItems, hchecked]

/-- The entries of a table are what the items are read as that it was built from. -/
theorem corresponds_of_ofItems {m : Mapping Item} {ext : Table Data}
    (h : ofItems m.items = .ok ext) :
    m.Corresponds (fun item c => item.read = .ok (.construct c)) (wellFormed_of_ofItems h).own := by
  obtain ⟨new, hnew, hentries, -⟩ := ofItems_eq_ok h
  have hread : List.Forall₂ (fun d e => d.1 = e.1 ∧ d.2.read = .ok (.construct e.2))
      m.entries new := by
    rw [Mapping.items, List.map_map, ← List.forall₂_eq_eq_eq, List.forall₂_map_left_iff,
      List.forall₂_map_right_iff] at hnew
    refine List.Forall₂.imp (fun d e he => ?_) hnew
    obtain ⟨hread, hspelling⟩ := checkItem_eq_ok_iff.1 he
    exact ⟨(spellingOf_eq_ok_iff.1 hspelling).2.2.symm, hread⟩
  -- The spellings are the keys, so no entry takes the place of another.
  have hkeys : new.map Prod.fst = m.keys := (Mapping.map_fst_eq_of_forall₂
    (R := fun item c => item.read = .ok (.construct c)) hread).symm
  have hlaid : new.foldl insert [] = new := by
    apply foldl_insert_eq_append
    rw [List.nil_append, hkeys]
    exact m.nodup_keys
  show List.Forall₂ _ m.entries ext.entries
  rw [hentries, hlaid]
  exact hread

/-- What an item is read as, or the item itself if it is not read. -/
def Item.reading (item : Item) : Item :=
  item.read.toOption.getD item

theorem Item.reading_of_read {item item' : Item} (h : item.read = .ok item') :
    item.reading = item' := by
  rw [reading, h]
  rfl

/-- Items that are all read are read in the order of the mapping. -/
theorem mapM_readItem_eq_ok {m : Mapping Item} (h : ∀ e ∈ m.entries, ∃ item, e.2.read = .ok item) :
    m.items.mapM readItem = .ok (m.map Item.reading).items := by
  apply mapM_eq_ok_iff.2
  rw [Mapping.items, Mapping.items, Mapping.map, List.map_map, List.map_map, List.map_map]
  apply List.map_congr_left
  intro e he
  obtain ⟨item, hitem⟩ := h e he
  apply readItem_eq_ok_iff.2
  dsimp only
  rw [Item.reading_of_read hitem]
  exact ⟨rfl, hitem⟩

theorem exists_read_of_mapM {m : Mapping Item} {new : List (Data × Item)}
    (h : m.items.mapM readItem = .ok new) : ∀ e ∈ m.entries, ∃ item, e.2.read = .ok item := by
  intro e he
  rw [mapM_eq_ok_iff] at h
  have hmem : readItem (.text e.1, e.2) ∈ m.items.map readItem :=
    List.mem_map_of_mem (List.mem_map_of_mem he)
  obtain ⟨⟨key, item⟩, -, hitem⟩ := List.mem_map.1 (h ▸ hmem)
  exact ⟨item, (readItem_eq_ok_iff.1 hitem.symm).2⟩

/-! ## Extending -/

section Extend

variable {t ext mid : Table Data} (ht : t.WellFormed) {a b : Mapping Item}

include ht

/-- Where all new items are read, the table is built from its own items with the new ones laid over
them. -/
theorem extendItems_eq (h : ∀ e ∈ a.entries, ∃ item, e.2.read = .ok item) :
    t.extendItems a.items = ofItems (ht.ownItems.override a).items := by
  -- What is read once is read as itself when it is checked.
  have hreading : ReadAlike a (a.map Item.reading) := by
    apply Mapping.corresponds_map
    intro e he
    obtain ⟨item, hitem⟩ := h e he
    rw [Item.reading_of_read hitem, hitem, Item.read_of_read hitem]
  rw [extendItems, mapM_readItem_eq_ok h, ← items_ownItems ht]
  show ofItems (layOver _ _) = _
  rw [layOver_items]
  exact (ofItems_congr ((ReadAlike.refl ht.ownItems).override hreading)).symm

/-- Every item that a table was built from is read. -/
theorem exists_read_of_ofItems (h : ofItems (ht.ownItems.override a).items = .ok ext) :
    ∀ e ∈ a.entries, ∃ item, e.2.read = .ok item := by
  intro e he
  -- No new item is lost among the old ones, for a mapping has one for each key.
  have hget : (ht.ownItems.override a).get? e.1 = some e.2 := by
    rw [Mapping.get?_override, Mapping.get?_eq_some_iff.2 he]
    rfl
  obtain ⟨c, -, hread⟩ := (corresponds_of_ofItems h).get?_eq_some hget
  exact ⟨_, hread⟩

/-- A table can be extended exactly if it can be built with the new entries laid over its own, and
then both give the same table. -/
theorem extendItems_eq_ok_iff :
    t.extendItems a.items = .ok ext ↔ ofItems (ht.ownItems.override a).items = .ok ext := by
  constructor
  · intro h
    obtain ⟨new, hnew, -⟩ := extendItems_eq_ok h
    rwa [← extendItems_eq ht (exists_read_of_mapM (mapM_eq_ok_iff.2 hnew))]
  · intro h
    rwa [extendItems_eq ht (exists_read_of_ofItems ht h)]

/-- Old spellings keep their position, and new ones follow in their order. -/
theorem spellings_extendItems (h : t.extendItems a.items = .ok ext) :
    ext.spellings = t.spellings ++ a.keys.filter (· ∉ t.spellings) := by
  have hbuilt := (extendItems_eq_ok_iff ht).1 h
  have hkeys := (corresponds_of_ofItems hbuilt).keys_eq
  rw [Mapping.keys_override, keys_ownItems] at hkeys
  exact hkeys.symm

/-- A spelling means what the new entries say of it. -/
theorem get?_extendItems (h : t.extendItems a.items = .ok ext) {s : String} {item : Item}
    (hs : a.get? s = some item) :
    ∃ c, item.read = .ok (.construct c) ∧ ext.get? s = some c := by
  have hbuilt := (extendItems_eq_ok_iff ht).1 h
  have hget : (ht.ownItems.override a).get? s = some item := by
    rw [Mapping.get?_override, hs]
    rfl
  obtain ⟨c, hc, hread⟩ := (corresponds_of_ofItems hbuilt).get?_eq_some hget
  exact ⟨c, hread, get?_own _ s ▸ hc⟩

/-- A spelling of which the new entries say nothing means what it meant before. -/
theorem get?_extendItems_of_none (h : t.extendItems a.items = .ok ext) {s : String}
    (hs : a.get? s = none) : ext.get? s = t.get? s := by
  have hbuilt := (extendItems_eq_ok_iff ht).1 h
  have hcorresponds := corresponds_of_ofItems hbuilt
  have hget : (ht.ownItems.override a).get? s = (t.get? s).map .construct := by
    rw [Mapping.get?_override, hs, get?_ownItems]
    rfl
  rw [← get?_own (wellFormed_of_ofItems hbuilt)]
  -- The overridden mapping has the old item or none, and the new table has a like of it.
  cases hold : t.get? s with
  | some c =>
    rw [hold] at hget
    obtain ⟨c', hc', hread⟩ := hcorresponds.get?_eq_some hget
    cases hread
    exact hc'
  | none =>
    rw [hold] at hget
    rw [Mapping.get?_eq_none_iff, ← hcorresponds.keys_eq]
    exact Mapping.get?_eq_none_iff.1 hget

/-- Extending twice is extending once, by the second mapping laid over the first. -/
theorem extendItems_override (h : t.extendItems a.items = .ok mid)
    (h' : mid.extendItems b.items = .ok ext) : t.extendItems (a.override b).items = .ok ext := by
  have hbuilt := (extendItems_eq_ok_iff ht).1 h
  have hmid := wellFormed_of_ofItems hbuilt
  -- The items of the table in between are read like those that it was built from.
  have hmiddle : ReadAlike (ht.ownItems.override a) hmid.ownItems :=
    Mapping.corresponds_map_right_iff.2 (corresponds_of_ofItems hbuilt)
  have hsame := hmiddle.override (ReadAlike.refl b)
  rw [extendItems_eq_ok_iff ht, ← Mapping.override_assoc, ofItems_congr hsame]
  exact (extendItems_eq_ok_iff hmid).1 h'

end Extend

/-- Extending by nothing changes nothing. -/
theorem Reachable.extendItems_empty {t : Table Data} (ht : t.Reachable) :
    t.extendItems Mapping.empty.items = .ok t := by
  rw [extendItems_eq_ok_iff ht.wellFormed, Mapping.override_empty, items_ownItems]
  exact ht.ofItems_items

/-- A predicate that takes the label of a quantifier can be added to no table with this quantifier, but
it can be replaced before it is added: extending once can do what extending twice cannot. -/
theorem not_extendItems_of_override :
    ¬ ∀ (t ext : Table Data) (a b : Mapping Item), t.WellFormed →
      t.extendItems (a.override b).items = .ok ext → ∃ mid, t.extendItems a.items = .ok mid := by
  intro h
  have hwell : standard.valued.WellFormed := wellFormed_valued_iff.2 standard_wellFormed
  let added : Construct Data := .predicate (.text "forall") .infixOp
  let replaced : Construct Data := .quantifier (.text "forall")
  let ext : Table := ⟨insert standard.entries ("P", .quantifier "forall")⟩
  have hext : ofItems ext.valued.items = .ok ext.valued :=
    ofItems_items ⟨by decide, by decide, by decide⟩
  have honce : standard.valued.extendItems
      ((Mapping.empty.set "P" (Item.construct added)).override
        (Mapping.empty.set "P" (.construct replaced))).items = .ok ext.valued :=
    (extendItems_eq_ok_iff hwell).2 hext
  -- So the table in between would have both the predicate and the quantifier.
  obtain ⟨mid, hmid⟩ := h _ _ _ _ hwell honce
  have hadded : (Mapping.empty.set "P" (Item.construct added)).get? "P" = some (.construct added) :=
    rfl
  obtain ⟨c, hc, hnew⟩ := get?_extendItems hwell hmid hadded
  cases hc
  have hold : mid.get? "forall" = some replaced := get?_extendItems_of_none hwell hmid rfl
  -- Two constructs of different kinds would share a label.
  have hkind := (wellFormed_of_extendItems hmid).kind_eq_of_label_eq _ (exists_mem_of_get? hnew) _
    (exists_mem_of_get? hold) rfl
  cases hkind

/-- Extending several times is extending once, by the mappings laid over each other in turn. -/
theorem Reachable.extendItems_foldl_override {t ext : Table Data} (ht : t.Reachable)
    {ms : List (Mapping Item)} (h : ms.foldlM (fun t m => t.extendItems m.items) t = .ok ext) :
    t.extendItems (ms.foldl Mapping.override .empty).items = .ok ext := by
  induction ms generalizing t with
  | nil =>
    cases h
    exact ht.extendItems_empty
  | cons m ms ih =>
    rw [List.foldlM_cons] at h
    cases hmid : t.extendItems m.items with
    | error e =>
      rw [hmid] at h
      cases h
    | ok mid =>
      rw [hmid] at h
      have hrest := ih (ht.extended hmid) h
      rw [List.foldl_cons, Mapping.empty_override, Mapping.foldl_override]
      exact extendItems_override ht.wellFormed hmid hrest

end Table

end LatexLogic
