import Mathlib.Data.List.Induction
import StagedEdits.Bindings
import StagedEdits.Proofs.SortedMap

/-!
# Bindings and their history

An edit of the bindings is about one item and at most one row, and it displaces up to two earlier
bindings: the one of the item and the one of the row.  So a binding stands after a run of edits if
it was made by one of them and no later one is about its item or gives its row away
(`Bindings.Stands`).  Both look-ups show the bindings that stand, hence they never disagree.

* `Bindings.item?_bind_eq_some_iff`, `Bindings.item?_release_eq_some_iff`: what one edit does to
  all bindings at once.
* `Bindings.bijective_of_edits`: the look-ups and the list of bound rows after any edits, and what one
  more binding changes.
-/

namespace StagedEdits.Bindings

variable {b : Bindings} {i j : ItemId} {d e : DbId}

/-- Bindings that give the same items are the same. -/
theorem ext_item? {a b : Bindings} (h : ∀ d, a.item? d = b.item? d) : a = b := by
  obtain ⟨owners, rows, hinv⟩ := a
  obtain ⟨owners', rows', hinv'⟩ := b
  obtain rfl : owners = owners' := SortedMap.ext_get? h
  obtain rfl : rows = rows' :=
    SortedMap.ext_get? fun i => Option.ext fun d => hinv.symm.trans hinv'
  rfl

/-- No item stands for two rows. -/
theorem injective (b : Bindings) (hd : b.item? d = some i) (he : b.item? e = some i) : d = e :=
  Option.some.inj ((item?_eq_some_iff.1 hd).symm.trans (item?_eq_some_iff.1 he))

/-! ### One edit -/

/-- A released item stands for no row, and the other items stand for theirs. -/
theorem item?_release_eq_some_iff :
    (b.release i).item? d = some j ↔ j ≠ i ∧ b.item? d = some j := by
  rw [item?_release, Option.filter_eq_some_iff, decide_eq_true_eq]
  exact and_comm

/-- A bound item and a bound row have each other, and the others what they had of the others. -/
theorem item?_bind_eq_some_iff :
    (b.bind i d).item? e = some j ↔ (j = i ∧ e = d) ∨ (j ≠ i ∧ e ≠ d ∧ b.item? e = some j) := by
  rw [item?_bind]
  split
  next he => simp [he, eq_comm]
  next he =>
    rw [Option.filter_eq_some_iff, decide_eq_true_eq]
    simp [he, and_comm]

/-! ### The list of bound rows -/

theorem nodup_pairs_fst (b : Bindings) : (b.pairs.map (·.1)).Nodup := SortedMap.nodup_keys b.owners

theorem nodup_pairs_snd (b : Bindings) : (b.pairs.map (·.2)).Nodup := by
  unfold List.Nodup
  rw [List.pairwise_map]
  refine b.owners.sorted.imp_of_mem ?_
  rintro ⟨d, i⟩ ⟨e, j⟩ hd he hlt hij
  obtain rfl : i = j := hij
  exact SortedMap.ne_of_compare_lt hlt (b.injective (mem_pairs_iff.1 hd) (mem_pairs_iff.1 he))

/-! ### Runs of edits -/

/-- A change of bindings: an item is bound to a row, or an item is released. -/
inductive Edit where
  | bind (i : ItemId) (d : DbId)
  | release (i : ItemId)

/-- Whether an edit is about an item or gives a row away. -/
def Edit.Touches (i : ItemId) (d : DbId) : Edit → Prop
  | bind j e => j = i ∨ e = d
  | release j => j = i

def edit (b : Bindings) : Edit → Bindings
  | .bind i d => b.bind i d
  | .release i => b.release i

/-- The bindings that edits make of none. -/
def made (edits : List Edit) : Bindings := edits.foldl edit empty

/-- Edits that bind an item to a row and do not touch the two again. -/
def Stands (edits : List Edit) (i : ItemId) (d : DbId) : Prop :=
  ∃ earlier later, edits = earlier ++ .bind i d :: later ∧ ∀ c ∈ later, ¬ c.Touches i d

theorem made_append (edits : List Edit) (c : Edit) : made (edits ++ [c]) = (made edits).edit c := by
  unfold made
  rw [List.foldl_append, List.foldl_cons, List.foldl_nil]

theorem not_stands_nil : ¬ Stands [] i d := by
  rintro ⟨earlier, later, h, -⟩
  exact List.append_ne_nil_of_right_ne_nil earlier (List.cons_ne_nil _ later) h.symm

/-- The last edit makes a binding, or lets it stand. -/
theorem stands_append {edits : List Edit} {c : Edit} :
    Stands (edits ++ [c]) i d ↔ c = .bind i d ∨ (¬ c.Touches i d ∧ Stands edits i d) := by
  constructor
  · rintro ⟨earlier, later, h, hlater⟩
    cases later using List.reverseRecOn with
    | nil =>
      obtain ⟨-, he⟩ := List.append_inj' h rfl
      exact .inl (List.cons.inj he).1
    | append_singleton later c' =>
      rw [← List.cons_append, ← List.append_assoc] at h
      obtain ⟨hedits, he⟩ := List.append_inj' h rfl
      obtain rfl := (List.cons.inj he).1
      exact .inr ⟨hlater c (List.mem_append_right _ (List.mem_singleton_self c)), earlier, later,
        hedits, fun c' hc' => hlater c' (List.mem_append_left _ hc')⟩
  · rintro (rfl | ⟨hc, earlier, later, rfl, hlater⟩)
    · exact ⟨edits, [], rfl, fun c hc => absurd hc List.not_mem_nil⟩
    · refine ⟨earlier, later ++ [c], List.append_assoc .., fun c' hc' => ?_⟩
      rcases List.mem_append.1 hc' with hc' | hc'
      · exact hlater c' hc'
      · exact List.mem_singleton.1 hc' ▸ hc

/-- After any edits a row has the item whose binding to it stands. -/
theorem item?_made_eq_some_iff {edits : List Edit} :
    (made edits).item? d = some i ↔ Stands edits i d := by
  induction edits using List.reverseRecOn generalizing i d with
  | nil => exact iff_of_false nofun not_stands_nil
  | append_singleton edits c ih =>
    rw [made_append, stands_append, ← ih]
    cases c with
    | bind j e =>
      refine item?_bind_eq_some_iff.trans ?_
      simp only [Edit.Touches, Edit.bind.injEq, not_or, and_assoc, eq_comm, ne_eq]
    | release j =>
      refine item?_release_eq_some_iff.trans ?_
      simp only [Edit.Touches, reduceCtorEq, false_or, eq_comm, ne_eq]

/-- After any edits a row has an item exactly when the item has the row, which is when their binding
stands.  The bound rows are listed once each, with different items.  One more binding joins its item
and its row, leaves nothing that either was bound to before, and changes no other binding. -/
theorem bijective_of_edits (edits : List Edit) :
    (∀ d i, (made edits).item? d = some i ↔ (made edits).dbId? i = some d) ∧
      (∀ d i, (made edits).item? d = some i ↔ Stands edits i d) ∧
      (∀ d i, (d, i) ∈ (made edits).pairs ↔ (made edits).item? d = some i) ∧
      ((made edits).pairs.map (·.1)).Nodup ∧ ((made edits).pairs.map (·.2)).Nodup ∧
      ∀ i d, ((made edits).bind i d).item? d = some i ∧ ((made edits).bind i d).dbId? i = some d ∧
        (∀ e, e ≠ d → ((made edits).bind i d).item? e ≠ some i) ∧
        (∀ j, j ≠ i → ((made edits).bind i d).dbId? j ≠ some d) ∧
        ∀ j e, j ≠ i → e ≠ d →
          (((made edits).bind i d).item? e = some j ↔ (made edits).item? e = some j) ∧
          (((made edits).bind i d).dbId? j = some e ↔ (made edits).dbId? j = some e) := by
  refine ⟨fun _ _ => item?_eq_some_iff, fun _ _ => item?_made_eq_some_iff, fun _ _ => mem_pairs_iff,
    nodup_pairs_fst _, nodup_pairs_snd _, fun i d => ?_⟩
  have hself : ((made edits).bind i d).item? d = some i := item?_bind_eq_some_iff.2 (.inl ⟨rfl, rfl⟩)
  have hkept : ∀ {j e}, j ≠ i → e ≠ d →
      (((made edits).bind i d).item? e = some j ↔ (made edits).item? e = some j) := by
    intro j e hj he
    rw [item?_bind_eq_some_iff]
    simp [hj, he]
  refine ⟨hself, item?_eq_some_iff.1 hself, fun e he h => he (injective _ h hself),
    fun j hj h => hj ?_, fun j e hj he => ⟨hkept hj he, ?_⟩⟩
  · exact Option.some.inj ((item?_eq_some_iff.2 h).symm.trans hself)
  · rw [← item?_eq_some_iff, ← item?_eq_some_iff]
    exact hkept hj he

end StagedEdits.Bindings
