import LatexLogic.Proofs.Reading.Outcome
import Mathlib.Data.List.Infix

/-!
# Readers move forward

Whatever a reader does, it leaves a part at the end of the tokens that it was given
(`Reader.Forward`). The property is closed under sequencing, so it holds of every reader that is
made of readers that have it, the readers of a level above another one among them
(`Level.forward_ofDepth`).

Two readers of this library count: a list has no more items than there are tokens, and a run has no
more operators. As readers move forward the counts are never reached, and the two readers satisfy
the plain equations of their loops (`list_eq_ok_iff`, `infixRest_of_none`, `infixRest_of_some`).
-/

set_option autoImplicit false

namespace LatexLogic

namespace Reader

variable {α β : Type}

/-- A reader moves forward: what it leaves, on success or failure, is a part at the end of what it
was given. -/
def Forward (r : Reader α) : Prop :=
  ∀ ts, match r ts with
    | .ok _ rest => rest <:+ ts
    | .error _ rest => rest <:+ ts

/-! ## Closure -/

theorem Forward.ok {r : Reader α} (h : r.Forward) {ts rest : List Token} {a : α}
    (hread : r ts = .ok a rest) : rest <:+ ts := by
  have hts := h ts
  rwa [hread] at hts

theorem Forward.error {r : Reader α} (h : r.Forward) {ts rest : List Token} {failure : Failure}
    (hread : r ts = .error failure rest) : rest <:+ ts := by
  have hts := h ts
  rwa [hread] at hts

theorem forward_pure (a : α) : (pure a : Reader α).Forward := fun ts => List.suffix_refl ts

theorem forward_throw (f : Failure) : (throw f : Reader α).Forward := fun ts => List.suffix_refl ts

theorem forward_fail (e : FormulaError) : (fail e : Reader α).Forward := forward_throw _

theorem forward_get : (get : Reader (List Token)).Forward := fun ts => List.suffix_refl ts

theorem forward_peek? : peek?.Forward := fun ts => List.suffix_refl ts

theorem forward_next? : next?.Forward
  | [] => List.suffix_refl _
  | t :: ts => List.suffix_cons t ts

/-- One reader after the other moves forward if both do. -/
theorem Forward.bind {x : Reader α} {f : α → Reader β} (hx : x.Forward)
    (hf : ∀ a, (f a).Forward) : (x >>= f).Forward := by
  intro ts
  show match EStateM.bind x f ts with
    | .ok _ rest => rest <:+ ts
    | .error _ rest => rest <:+ ts
  unfold EStateM.bind
  cases h : x ts with
  | error e mid => exact hx.error h
  | ok a mid =>
    have hmid := hx.ok h
    have hfa := hf a mid
    show match f a mid with
      | .ok _ rest => rest <:+ ts
      | .error _ rest => rest <:+ ts
    cases h' : f a mid with
    | error e rest =>
      rw [h'] at hfa
      exact hfa.trans hmid
    | ok b rest =>
      rw [h'] at hfa
      exact hfa.trans hmid

theorem forward_next : next.Forward := by
  refine forward_next?.bind fun o => ?_
  cases o with
  | none => exact forward_fail _
  | some t => exact forward_pure t

theorem forward_expect (written : String) : (expect written).Forward := by
  refine forward_next?.bind fun o => ?_
  cases o with
  | none => exact forward_fail _
  | some t =>
    show (if t.written = written then pure t else fail _ : Reader Token).Forward
    split
    · exact forward_pure t
    · exact forward_fail _

theorem Forward.parenthesised {inner : Reader α} (h : inner.Forward) :
    (parenthesised inner).Forward := by
  refine forward_next?.bind fun o => ?_
  cases o with
  | none => exact forward_fail _
  | some t =>
    dsimp only
    split
    · refine (forward_expect _).bind fun _ => h.bind fun a => ?_
      exact (forward_expect _).bind fun _ => (forward_expect _).bind fun _ => forward_pure a
    · split
      · exact h.bind fun a => (forward_expect _).bind fun _ => forward_pure a
      · exact forward_fail _

theorem Forward.braced {inner : Reader α} (h : inner.Forward) : (braced inner).Forward :=
  (forward_expect _).bind fun _ => h.bind fun a => (forward_expect _).bind fun _ => forward_pure a

/-! ## Lists -/

theorem Forward.moreItems {item : Reader α} (h : item.Forward) :
    ∀ limit, (moreItems item limit).Forward
  | 0 => forward_pure []
  | limit + 1 => by
    refine forward_get.bind fun ts => ?_
    split
    · refine forward_next?.bind fun _ => h.bind fun a => ?_
      exact (Forward.moreItems h limit).bind fun as => forward_pure (a :: as)
    · exact forward_pure []

theorem Forward.list {item : Reader α} (h : item.Forward) : (list item).Forward :=
  h.bind fun a => forward_get.bind fun ts =>
    (h.moreItems ts.length).bind fun as => forward_pure (a :: as)

/-- More than one item per token is never read, so a larger limit makes no difference. -/
theorem moreItems_limit {item : Reader α} (h : item.Forward) :
    ∀ (limit limit' : Nat) (ts : List Token), ts.length ≤ limit → ts.length ≤ limit' →
      moreItems item limit ts = moreItems item limit' ts
  | 0, limit', ts, hlimit, _ => by
    obtain rfl := List.eq_nil_of_length_eq_zero (Nat.le_zero.1 hlimit)
    cases limit' <;> rfl
  | limit + 1, 0, ts, _, hlimit' => by
    obtain rfl := List.eq_nil_of_length_eq_zero (Nat.le_zero.1 hlimit')
    rfl
  | limit + 1, limit' + 1, ts, hlimit, hlimit' => by
    simp only [moreItems, get_bind]
    cases ts with
    | nil => rfl
    | cons t ts =>
      split
      · simp only [next?_bind_cons]
        apply bind_congr_at rfl
        intro a mid hread
        have hle := (h.ok hread).length_le
        simp only [List.length_cons] at hlimit hlimit'
        rw [bind_congr_at (moreItems_limit h limit limit' mid (by omega) (by omega))
          fun _ _ _ => rfl]
      · rfl

/-- A list of which the first item is not followed by a comma ends there. -/
theorem list_of_end {item : Reader α} {ts mid : List Token} {a : α} (hread : item ts = .ok a mid)
    (hmid : nextIs "," mid = false) : list item ts = .ok [a] mid := by
  rw [list, bind_of_eq_ok hread, get_bind]
  cases mid with
  | nil => rfl
  | cons t us =>
    rw [nextIs_cons] at hmid
    simp only [List.length_cons, moreItems, bind_assoc, get_bind, nextIs_cons, hmid,
      Bool.false_eq_true, if_false]
    rfl

/-- A list of which the first item is followed by a comma goes on with a list. -/
theorem list_of_comma {item : Reader α} (h : item.Forward) {ts us : List Token} {t : Token} {a : α}
    (hread : item ts = .ok a (t :: us)) (ht : t.written = ",") :
    list item ts = (list item >>= fun as => pure (a :: as)) us := by
  rw [list, bind_of_eq_ok hread, get_bind]
  simp only [List.length_cons, moreItems, bind_assoc, get_bind, nextIs_cons, ht, beq_self_eq_true,
    if_true, next?_bind_cons, pure_bind]
  apply bind_congr_at rfl
  intro b mid hmid
  have hle := (h.ok hmid).length_le
  exact bind_congr_at (moreItems_limit h _ _ mid hle le_rfl) fun _ _ _ => rfl

/-- A list fails if its first item does. -/
theorem list_of_error {item : Reader α} {ts rest : List Token} {failure : Failure}
    (hread : item ts = .error failure rest) : list item ts = .error failure rest :=
  bind_of_eq_error hread

/-- A list is read item by item. -/
theorem list_eq_ok_iff {item : Reader α} (h : item.Forward) {ts rest : List Token} {as : List α} :
    list item ts = .ok as rest ↔ ∃ a mid, item ts = .ok a mid ∧
      ((nextIs "," mid = false ∧ as = [a] ∧ rest = mid) ∨
        ∃ t us bs, mid = t :: us ∧ t.written = "," ∧ list item us = .ok bs rest ∧
          as = a :: bs) := by
  cases hread : item ts with
  | error e mid => simp [list_of_error hread]
  | ok a mid =>
    cases hmid : nextIs "," mid with
    | false =>
      rw [list_of_end hread hmid]
      constructor
      · intro heq
        cases heq
        exact ⟨a, _, rfl, Or.inl ⟨hmid, rfl, rfl⟩⟩
      · rintro ⟨a', mid', heq, ⟨-, has, hrest⟩ | ⟨t, us, bs, rfl, ht, -⟩⟩
        · cases heq
          rw [has, hrest]
        · cases heq
          simp [ht] at hmid
    | true =>
      cases mid with
      | nil => simp at hmid
      | cons t us =>
        have ht : t.written = "," := by simpa using hmid
        rw [list_of_comma h hread ht, bind_eq_ok_iff]
        constructor
        · rintro ⟨bs, mid, hbs, hpure⟩
          obtain ⟨rfl, rfl⟩ := pure_eq_ok_iff.1 hpure
          exact ⟨a, _, rfl, Or.inr ⟨t, us, bs, rfl, ht, hbs, rfl⟩⟩
        · rintro ⟨a', mid', heq, ⟨hno, -⟩ | ⟨t', us', bs, rfl, -, hbs, rfl⟩⟩
          · cases heq
            simp [ht] at hno
          · cases heq
            exact ⟨bs, rest, hbs, pure_eq_ok_iff.2 ⟨rfl, rfl⟩⟩

/-- A list fails at one of its items. -/
theorem list_eq_error {item : Reader α} (h : item.Forward) {ts rest : List Token}
    {failure : Failure} (hlist : list item ts = .error failure rest) :
    item ts = .error failure rest ∨ ∃ a t us, item ts = .ok a (t :: us) ∧ t.written = "," ∧
      list item us = .error failure rest := by
  cases hread : item ts with
  | error e mid =>
    rw [list_of_error hread] at hlist
    cases hlist
    exact Or.inl rfl
  | ok a mid =>
    cases hmid : nextIs "," mid with
    | false =>
      rw [list_of_end hread hmid] at hlist
      cases hlist
    | true =>
      cases mid with
      | nil => simp at hmid
      | cons t us =>
        have ht : t.written = "," := by simpa using hmid
        rw [list_of_comma h hread ht, bind_eq_error_iff] at hlist
        rcases hlist with hlist | ⟨_, _, -, hpure⟩
        · exact Or.inr ⟨a, t, us, rfl, ht, hlist⟩
        · exact absurd hpure pure_ne_error

/-- What holds of a list of one item and is kept by putting an item in front holds of every list
that is read. The bound on the number of tokens lets the items be read by a recursion on it. -/
theorem list_induction {item : Reader α} (h : item.Forward) {n : Nat}
    {R : List Token → List α → List Token → Prop}
    (last : ∀ {ts a mid}, ts.length ≤ n → item ts = .ok a mid → nextIs "," mid = false →
      R ts [a] mid)
    (comma : ∀ {ts a t us as rest}, ts.length ≤ n → item ts = .ok a (t :: us) → t.written = "," →
      R us as rest → R ts (a :: as) rest)
    {ts rest : List Token} {as : List α} (hts : ts.length ≤ n)
    (hread : list item ts = .ok as rest) : R ts as rest := by
  induction hlength : ts.length using Nat.strong_induction_on generalizing ts as rest with
  | _ k ih =>
    obtain ⟨a, mid, hitem, ⟨hmid, rfl, rfl⟩ | ⟨t, us, bs, rfl, ht, hbs, rfl⟩⟩ :=
      (list_eq_ok_iff h).1 hread
    · exact last hts hitem hmid
    · have hle := (h.ok hitem).length_le
      simp only [List.length_cons] at hle
      exact comma hts hitem ht (ih us.length (by omega) (by omega) hbs rfl)

/-- A list fails at one of its items. -/
theorem list_fails {item : Reader α} (h : item.Forward) {n : Nat} {E : List Token → Prop}
    {failure : Failure} {rest : List Token}
    (here : ∀ {ts}, ts.length ≤ n → item ts = .error failure rest → E ts)
    (later : ∀ {ts a t us}, ts.length ≤ n → item ts = .ok a (t :: us) → t.written = "," →
      E us → E ts)
    {ts : List Token} (hts : ts.length ≤ n) (hread : list item ts = .error failure rest) :
    E ts := by
  induction hlength : ts.length using Nat.strong_induction_on generalizing ts with
  | _ k ih =>
    rcases list_eq_error h hread with hitem | ⟨a, t, us, hitem, ht, hus⟩
    · exact here hts hitem
    · have hle := (h.ok hitem).length_le
      simp only [List.length_cons] at hle
      exact later hts hitem ht (ih us.length (by omega) (by omega) hus rfl)

/-- Two readers that agree on all lists up to the length of a list read the same items from it. -/
theorem list_congr {item item' : Reader α} (h : item.Forward) (h' : item'.Forward)
    {ts : List Token} (hitem : ∀ us : List Token, us.length ≤ ts.length → item us = item' us) :
    list item ts = list item' ts := by
  induction hn : ts.length using Nat.strong_induction_on generalizing ts with
  | _ n ih =>
    subst hn
    have hts := hitem ts le_rfl
    cases hread : item ts with
    | error e mid => rw [list_of_error hread, list_of_error (hts ▸ hread)]
    | ok a mid =>
      have hread' := hts ▸ hread
      cases hmid : nextIs "," mid with
      | false => rw [list_of_end hread hmid, list_of_end hread' hmid]
      | true =>
        cases mid with
        | nil => simp at hmid
        | cons t us =>
          have ht : t.written = "," := by simpa using hmid
          have hlt : us.length < ts.length := by
            have hle := (h.ok hread).length_le
            simp only [List.length_cons] at hle
            omega
          rw [list_of_comma h hread ht, list_of_comma h' hread' ht]
          refine bind_congr_at (ih us.length hlt (fun vs hvs => ?_) rfl) fun _ _ _ => rfl
          exact hitem vs (hvs.trans hlt.le)

/-! ## Names -/

theorem leadingDigits_suffix (ts : List Token) : (leadingDigits ts).2 <:+ ts := by
  fun_induction leadingDigits ts with
  | case1 c ts hc digits rest hrest ih =>
    rw [hrest] at ih
    exact ih.trans (List.suffix_cons _ _)
  | case2 c ts hc => exact List.suffix_refl _
  | case3 ts hts => exact List.suffix_refl _

theorem forward_integer : integer.Forward := by
  intro ts
  have hsuffix := leadingDigits_suffix ts
  unfold integer
  cases h : leadingDigits ts with
  | mk digits rest =>
    rw [h] at hsuffix
    cases digits with
    | nil => cases rest <;> exact hsuffix
    | cons d ds => exact hsuffix

theorem forward_subscript : subscript.Forward := by
  refine (forward_expect _).bind fun _ => forward_peek?.bind fun o => ?_
  cases o with
  | none => exact forward_fail _
  | some t =>
    dsimp only
    cases digitOf? t with
    | some d => exact forward_next?.bind fun _ => forward_pure _
    | none => exact forward_integer.braced

theorem forward_withSubscript (name : String) : (withSubscript name).Forward := by
  refine forward_get.bind fun ts => ?_
  split
  · exact forward_subscript.bind fun _ => forward_pure _
  · exact forward_pure _

theorem forward_variableName : variableName.Forward := by
  refine forward_next.bind fun t => ?_
  cases variableLetter? t with
  | some c => exact forward_withSubscript _
  | none => exact forward_fail _

theorem forward_declaration : declaration.Forward := by
  refine forward_get.bind fun ts => ?_
  split
  · exact forward_variableName.list.parenthesised
  · exact forward_pure _

theorem forward_metavariable (letter : MetaLetter) : (metavariable letter).Forward :=
  (forward_withSubscript _).bind fun _ => forward_declaration.bind fun _ => forward_pure _

/-! ## Runs of operators -/

section Runs

variable {operator? : Token → Option InfixOperator} {operand operand' : Threshold → Reader Tree}
  {threshold : Threshold}

theorem forward_infixRun (h : ∀ m, (operand m).Forward) :
    ∀ (limit : Nat) (tree : Tree), (infixRun operator? operand threshold limit tree).Forward
  | 0, tree => forward_pure tree
  | limit + 1, tree => by
    refine forward_get.bind fun ts => ?_
    cases continuing? operator? threshold ts with
    | none => exact forward_pure tree
    | some op =>
      exact forward_next?.bind fun _ => (h _).bind fun _ => forward_infixRun h limit _

theorem forward_infixRest (h : ∀ m, (operand m).Forward) (tree : Tree) :
    (infixRest operator? operand threshold tree).Forward :=
  forward_get.bind fun ts => forward_infixRun h ts.length tree

@[simp] theorem continuing?_nil : continuing? operator? threshold [] = none := rfl

@[simp] theorem continuing?_cons {t : Token} {ts : List Token} :
    continuing? operator? threshold (t :: ts) =
      (operator? t).filter fun op => threshold.admits op.leftPower := rfl

/-- More than one operator per token is never read, so a larger limit makes no difference; and
readers of operands that agree on all shorter lists read the same run. -/
theorem infixRun_congr (h : ∀ m, (operand m).Forward) :
    ∀ (limit limit' : Nat) (ts : List Token) (tree : Tree), ts.length ≤ limit →
      ts.length ≤ limit' →
      (∀ m (us : List Token), us.length < ts.length → operand m us = operand' m us) →
      infixRun operator? operand threshold limit tree ts =
        infixRun operator? operand' threshold limit' tree ts
  | 0, limit', ts, tree, hlimit, _, _ => by
    obtain rfl := List.eq_nil_of_length_eq_zero (Nat.le_zero.1 hlimit)
    cases limit' <;> rfl
  | limit + 1, 0, ts, tree, _, hlimit', _ => by
    obtain rfl := List.eq_nil_of_length_eq_zero (Nat.le_zero.1 hlimit')
    rfl
  | limit + 1, limit' + 1, ts, tree, hlimit, hlimit', hoperand => by
    simp only [infixRun, get_bind]
    cases hop : continuing? operator? threshold ts with
    | none => rfl
    | some op =>
      cases ts with
      | nil => simp at hop
      | cons t us =>
        simp only [List.length_cons] at hlimit hlimit' hoperand
        simp only [next?_bind_cons]
        refine bind_congr_at (hoperand _ us (by omega)) fun right mid hread => ?_
        have hle := ((h _).ok hread).length_le
        refine infixRun_congr h limit limit' mid _ (by omega) (by omega) fun m vs hvs => ?_
        exact hoperand m vs (by omega)

/-- Readers of operands that agree on all shorter lists read the same rest of a run. -/
theorem infixRest_congr (h : ∀ m, (operand m).Forward) {ts : List Token}
    (hoperand : ∀ m (us : List Token), us.length < ts.length → operand m us = operand' m us)
    (tree : Tree) :
    infixRest operator? operand threshold tree ts =
      infixRest operator? operand' threshold tree ts :=
  infixRun_congr h _ _ ts tree le_rfl le_rfl hoperand

/-- A run ends where no operator continues it. -/
theorem infixRest_of_none {ts : List Token} (hop : continuing? operator? threshold ts = none)
    (tree : Tree) : infixRest operator? operand threshold tree ts = .ok tree ts := by
  rw [infixRest, get_bind]
  cases ts with
  | nil => rfl
  | cons t us =>
    simp only [List.length_cons, infixRun, get_bind, hop]
    rfl

/-- An operator that continues a run takes what was read so far and an operand. -/
theorem infixRest_of_some (h : ∀ m, (operand m).Forward) {t : Token} {ts : List Token}
    {op : InfixOperator} (hop : continuing? operator? threshold (t :: ts) = some op) (tree : Tree) :
    infixRest operator? operand threshold tree (t :: ts) =
      (operand (.power op.rightPower) >>= fun right =>
        infixRest operator? operand threshold (.node op.label [tree, right])) ts := by
  rw [infixRest, get_bind]
  simp only [List.length_cons, infixRun, get_bind, hop, next?_bind_cons]
  refine bind_congr_at rfl fun right mid hread => ?_
  have hle := ((h _).ok hread).length_le
  exact infixRun_congr h _ _ mid _ hle le_rfl fun _ _ _ => rfl

/-- What holds where a run ends and is kept by putting an operator and its operand in front holds of
every run that is read. -/
theorem infixRest_induction (h : ∀ m, (operand m).Forward) {n : Nat}
    {R : Tree → List Token → Tree → List Token → Prop}
    (stop : ∀ {ts tree}, continuing? operator? threshold ts = none → R tree ts tree ts)
    (step : ∀ {t us op left right mid tree rest}, us.length < n →
      continuing? operator? threshold (t :: us) = some op →
      operand (.power op.rightPower) us = .ok right mid →
      R (.node op.label [left, right]) mid tree rest → R left (t :: us) tree rest)
    {ts rest : List Token} {left tree : Tree} (hts : ts.length ≤ n)
    (hread : infixRest operator? operand threshold left ts = .ok tree rest) :
    R left ts tree rest := by
  induction hlength : ts.length using Nat.strong_induction_on generalizing ts left with
  | _ k ih =>
    cases hop : continuing? operator? threshold ts with
    | none =>
      rw [infixRest_of_none hop] at hread
      cases hread
      exact stop hop
    | some op =>
      cases ts with
      | nil => simp at hop
      | cons t us =>
        rw [infixRest_of_some h hop, bind_eq_ok_iff] at hread
        obtain ⟨right, mid, hright, hread⟩ := hread
        have hle := ((h _).ok hright).length_le
        simp only [List.length_cons] at hts hlength
        exact step (by omega) hop hright (ih mid.length (by omega) (by omega) hread rfl)

/-- A run fails at one of its operands. -/
theorem infixRest_fails (h : ∀ m, (operand m).Forward) {n : Nat} {E : List Token → Prop}
    {failure : Failure} {rest : List Token}
    (here : ∀ {t us op}, us.length < n → continuing? operator? threshold (t :: us) = some op →
      operand (.power op.rightPower) us = .error failure rest → E (t :: us))
    (later : ∀ {t us op right mid}, us.length < n →
      continuing? operator? threshold (t :: us) = some op →
      operand (.power op.rightPower) us = .ok right mid → E mid → E (t :: us))
    {ts : List Token} {left : Tree} (hts : ts.length ≤ n)
    (hread : infixRest operator? operand threshold left ts = .error failure rest) : E ts := by
  induction hlength : ts.length using Nat.strong_induction_on generalizing ts left with
  | _ k ih =>
    cases hop : continuing? operator? threshold ts with
    | none =>
      rw [infixRest_of_none hop] at hread
      cases hread
    | some op =>
      cases ts with
      | nil => simp at hop
      | cons t us =>
        simp only [List.length_cons] at hts hlength
        rw [infixRest_of_some h hop, bind_eq_error_iff] at hread
        rcases hread with hread | ⟨right, mid, hright, hread⟩
        · exact here (by omega) hop hread
        · have hle := ((h _).ok hright).length_le
          exact later (by omega) hop hright (ih mid.length (by omega) (by omega) hread rfl)

end Runs

end Reader

end LatexLogic
