import StagedEdits.Proofs.Faithful
import StagedEdits.Proofs.RemovalOrder

/-!
# Edits of an item are tracked exactly

Edits, removals and restorations of an item in any order (`Item.Reworked`) come to the same as one
edit: restored, a committed item is the original with the content that it has now, to be updated
with the original content as its backup if the two differ (`Item.rewrittenTo`).

* `Reworked.restored_eq`: this, by one lemma for an edit (`edit_rewrittenTo`) and the fact that
  restoring undoes a removal.
* `Reworked.exists_ownStatus?`, `Reworked.added`: the status apart from the removal is never
  forgotten, and an added item stays added.
-/

namespace StagedEdits

namespace Item

/-- What edits, removals and restorations make of item `a`.  Only a live item is edited. -/
inductive Reworked (a : Item) : Item → Prop
  | refl : Reworked a a
  | edit {b : Item} (changes : Record) (h : Reworked a b) (hlive : b.removed = false) :
    Reworked a (b.edit changes)
  | remove {b : Item} (source : Option ItemRef) (h : Reworked a b) :
    Reworked a (b.markRemoved source)
  | restore {b : Item} (h : Reworked a b) : Reworked a b.restored

/-- The status apart from a removal: the one that a removed item had, if that is known. -/
def ownStatus? (item : Item) : Option Status :=
  if item.removed then item.statusWhenRemoved else some item.status

/-- A committed item that has nothing to undo. -/
structure Pristine (item : Item) : Prop where
  committed : item.status = .committed
  backup : item.backup = none
  unmarked : item.Unmarked

/-- A pristine item with another content: its update is pending, and undoing it goes back to the
content it has now. -/
def rewrittenTo (a : Item) (content : Record) : Item :=
  if content = a.content then a
  else { a with content := content, status := .toUpdate, backup := some a.content }

variable {a b item : Item} {content : Record}

theorem Pristine.live (h : a.Pristine) : a.removed = false := by
  rw [removed, h.committed]
  rfl

/-! ### The status apart from a removal -/

theorem ownStatus?_of_live (h : item.removed = false) : item.ownStatus? = some item.status := by
  rw [ownStatus?, if_neg (by simp [h])]

/-- Removing an item does not change what it was. -/
theorem ownStatus?_markRemoved (item : Item) (source : Option ItemRef) :
    (item.markRemoved source).ownStatus? = item.ownStatus? := by
  cases h : item.removed with
  | true => rw [markRemoved_of_removed h]
  | false =>
    rw [ownStatus?, if_pos (item.removed_markRemoved source), statusWhenRemoved_markRemoved h,
      ownStatus?_of_live h]

/-- Restored, an item has the status that it had apart from its removal. -/
theorem status_restored_of_ownStatus? {status : Status} (h : item.ownStatus? = some status) :
    item.restored.status = status := by
  cases hr : item.removed with
  | true =>
    rw [ownStatus?, if_pos hr] at h
    rw [status_restored hr, h, Option.getD_some]
  | false =>
    rw [ownStatus?_of_live hr] at h
    rw [restored_of_live hr]
    exact Option.some.inj h

theorem ownStatus?_restored (item : Item) : item.restored.ownStatus? = some item.restored.status :=
  ownStatus?_of_live item.removed_restored

/-- A reworked item knows what it was, if the item that it is made from was live. -/
theorem Reworked.exists_ownStatus? (h : a.Reworked b) (hlive : a.removed = false) :
    ∃ status, b.ownStatus? = some status := by
  induction h with
  | refl => exact ⟨_, ownStatus?_of_live hlive⟩
  | edit changes _ hb => exact ⟨_, ownStatus?_of_live ((removed_edit _ changes).trans hb)⟩
  | remove source _ ih => rw [ownStatus?_markRemoved]; exact ih
  | restore => exact ⟨_, ownStatus?_restored _⟩

theorem Reworked.ownStatus?_eq (h : a.Reworked b) (hlive : a.removed = false) :
    b.ownStatus? = some b.restored.status := by
  obtain ⟨status, hstatus⟩ := h.exists_ownStatus? hlive
  rw [hstatus, status_restored_of_ownStatus? hstatus]

/-! ### Added items -/

theorem backup_markRemoved (item : Item) (source : Option ItemRef) :
    (item.markRemoved source).backup = item.backup := by
  unfold markRemoved
  split <;> rfl

theorem edit_of_added (h : item.status = .toAdd) (changes : Record) :
    (item.edit changes).status = .toAdd ∧ (item.edit changes).backup = item.backup := by
  unfold edit
  split
  · simp [h]
  · exact ⟨h, rfl⟩

/-- An item that was never written stays one, and nothing is saved of it. -/
theorem Reworked.added (h : a.Reworked b) (ha : a.status = .toAdd) :
    b.ownStatus? = some .toAdd ∧ b.backup = a.backup := by
  induction h with
  | refl => exact ⟨by rw [ownStatus?_of_live (by rw [removed, ha]; rfl), ha], rfl⟩
  | @edit b changes _ hlive ih =>
    obtain ⟨hstatus, hbackup⟩ := ih
    rw [ownStatus?_of_live hlive] at hstatus
    obtain ⟨hstatus', hbackup'⟩ := edit_of_added (Option.some.inj hstatus) changes
    rw [ownStatus?_of_live ((b.removed_edit changes).trans hlive), hstatus', hbackup']
    exact ⟨rfl, hbackup⟩
  | @remove b source _ ih =>
    rw [ownStatus?_markRemoved, backup_markRemoved]
    exact ih
  | @restore b _ ih =>
    rw [ownStatus?_restored, status_restored_of_ownStatus? ih.1, backup_restored]
    exact ⟨rfl, ih.2⟩

/-! ### Committed items -/

theorem rewrittenTo_self (a : Item) : a.rewrittenTo a.content = a := if_pos rfl

theorem rewrittenTo_of_ne (h : content ≠ a.content) : a.rewrittenTo content =
    { a with content := content, status := .toUpdate, backup := some a.content } :=
  if_neg h

theorem content_rewrittenTo (a : Item) (content : Record) :
    (a.rewrittenTo content).content = content := by
  unfold rewrittenTo
  split
  next h => exact h.symm
  next => rfl

theorem unmarked_rewrittenTo (h : a.Unmarked) (content : Record) :
    (a.rewrittenTo content).Unmarked := by
  unfold rewrittenTo
  split <;> exact h

/-- Changes that give some field another value give another content.  The converse fails: storing
null in a field that is absent is no change, but alters the content. -/
theorem insertAll_ne_of_differsFrom {changes : Record} (h : item.differsFrom changes = true) :
    item.content.insertAll changes ≠ item.content := by
  obtain ⟨⟨field, v⟩, hmem, hne⟩ := List.any_eq_true.1 h
  intro heq
  have hget := item.content.get?_insertAll changes field
  rw [heq, SortedMap.mem_entries_iff.1 hmem, Option.some_or] at hget
  exact of_decide_eq_true hne (by rw [Record.value, hget]; rfl)

/-- Going back from a rewriting gives the item. -/
theorem committed_rewrittenTo (h : a.Pristine) :
    ({ a with status := .committed, backup := none } : Item) = a := by
  obtain ⟨hstatus, hbackup, -⟩ := h
  cases a
  simp_all

/-- An edit of a rewritten item is another rewriting of the same item.  The first change saves the
content, later ones leave what is saved, and one that leads back to it ends the rewriting. -/
theorem edit_rewrittenTo (h : a.Pristine) (content changes : Record) :
    (a.rewrittenTo content).edit changes =
      a.rewrittenTo ((a.rewrittenTo content).edit changes).content := by
  cases hdiff : (a.rewrittenTo content).differsFrom changes with
  | false =>
    have hsame : (a.rewrittenTo content).edit changes = a.rewrittenTo content := by
      rw [edit, if_neg (by simp [hdiff])]
    rw [hsame, content_rewrittenTo]
  | true =>
    have hne := insertAll_ne_of_differsFrom hdiff
    by_cases hc : content = a.content
    · subst hc
      rw [rewrittenTo_self] at hdiff hne ⊢
      have hedit : a.edit changes = { a with
          content := a.content.insertAll changes, status := .toUpdate, backup := some a.content } := by
        simp [edit, hdiff, h.committed, hne.symm]
      rw [hedit, rewrittenTo_of_ne hne]
    · rw [rewrittenTo_of_ne hc] at hdiff ⊢
      by_cases hback : content.insertAll changes = a.content
      · simp [edit, hdiff, hback, rewrittenTo_self, committed_rewrittenTo h]
      · simp [edit, hdiff, Ne.symm hback, rewrittenTo_of_ne hback]

/-- Restored, a reworked item is the original with the content that it has now. -/
theorem Reworked.restored_eq (h : a.Reworked b) (ha : a.Pristine) :
    b.restored = a.rewrittenTo b.content := by
  induction h with
  | refl => rw [restored_of_live ha.live, rewrittenTo_self]
  | @edit b changes _ hlive ih =>
    rw [restored_of_live hlive] at ih
    rw [restored_of_live ((b.removed_edit changes).trans hlive)]
    have hedit := edit_rewrittenTo ha b.content changes
    rw [← ih] at hedit
    exact hedit
  | @remove b source _ ih =>
    cases hr : b.removed with
    | true => rw [markRemoved_of_removed hr]; exact ih
    | false =>
      rw [restored_of_live hr] at ih
      have hun : b.Unmarked := ih ▸ unmarked_rewrittenTo ha.unmarked b.content
      rw [restored_markRemoved hr hun, content_markRemoved]
      exact ih
  | @restore b _ ih => rw [restored_of_live b.removed_restored, content_restored]; exact ih

/-- Undoing the update that is pending in a rewritten item. -/
theorem reverted_rewrittenTo (ha : a.Pristine) (content : Record) :
    (if (a.rewrittenTo content).status = .toUpdate then (a.rewrittenTo content).reverted
      else a.rewrittenTo content) = a := by
  by_cases hc : content = a.content
  · rw [hc, rewrittenTo_self, if_neg (by rw [ha.committed]; decide)]
  · rw [rewrittenTo_of_ne hc, if_pos rfl]
    exact committed_rewrittenTo ha

/-- Reworking a pristine item: apart from a removal it is committed, without a backup, exactly if
its content is the original one, and otherwise to be updated with the original content as backup;
restoring it and undoing the update, if there is one, gives the original item.  An added item stays
one and nothing is saved of it. -/
theorem tracked_of_reworked (h : a.Reworked b) :
    (a.Pristine →
      (b.ownStatus? = some .committed ∧ b.backup = none ↔ b.content = a.content) ∧
      (b.ownStatus? = some .toUpdate ∧ b.backup = some a.content ↔ b.content ≠ a.content) ∧
      (if b.restored.status = .toUpdate then b.restored.reverted else b.restored) = a) ∧
    (a.status = .toAdd → b.ownStatus? = some .toAdd ∧ b.backup = a.backup) := by
  refine ⟨fun ha => ?_, h.added⟩
  have hrest := h.restored_eq ha
  have hown := h.ownStatus?_eq ha.live
  have hback := b.backup_restored
  rw [hrest] at hown hback
  rw [hrest, hown, ← hback]
  refine ⟨?_, ?_, reverted_rewrittenTo ha b.content⟩ <;> by_cases hc : b.content = a.content
  · rw [hc, rewrittenTo_self]
    exact iff_of_true ⟨congrArg some ha.committed, ha.backup⟩ rfl
  · rw [rewrittenTo_of_ne hc]
    exact iff_of_false (fun hb => nomatch hb.2) hc
  · rw [hc, rewrittenTo_self]
    exact iff_of_false (fun hb => by rw [ha.backup] at hb; cases hb.2) (not_not_intro rfl)
  · rw [rewrittenTo_of_ne hc]
    exact iff_of_true ⟨rfl, rfl⟩ hc

/-- An alternative that is renamed, described, removed and then restored and removed again for
another one, and a new one that is edited and removed. -/
theorem tracked_of_renamed_alternative : ∃ a b c d : Item,
    (a.Reworked b ∧ a.Pristine ∧ c.Reworked d ∧ c.status = .toAdd) ∧
      (b.removed = true ∧ b.content ≠ a.content ∧ d.removed = true ∧ d.content ≠ c.content) ∧
      b.ownStatus? = some .toUpdate ∧ b.backup = some a.content ∧ b.restored.reverted = a ∧
      d.ownStatus? = some .toAdd ∧ d.backup = none := by
  let row : Record := .ofList [("commit_id", .integer 1), ("description", .text ""), ("id", .integer 7),
    ("name", .text "base")]
  let renamed : Record := .ofList [("name", .text "high")]
  let described : Record := .ofList [("description", .null), ("name", .text "high")]
  let a := loaded ⟨1⟩ .alternative row
  let c := added ⟨2⟩ .alternative (Kind.alternative.contentOf row)
  have hb := ((((Reworked.refl (a := a)).edit renamed (by decide)).edit described
    (by decide)).remove none).restore.remove (some ⟨.alternative, ⟨9⟩⟩)
  have hd := ((Reworked.refl (a := c)).edit renamed (by decide)).remove none
  have ha : a.Pristine := ⟨rfl, rfl, rfl, rfl⟩
  obtain ⟨htracked, -⟩ := tracked_of_reworked hb
  obtain ⟨-, hupdate, hback⟩ := htracked ha
  obtain ⟨-, hadded⟩ := tracked_of_reworked hd
  have hne : ((((a.edit renamed).edit described).markRemoved none).restored.markRemoved
      (some ⟨.alternative, ⟨9⟩⟩)).content ≠ a.content := by decide +kernel
  rw [if_pos (by decide +kernel)] at hback
  exact ⟨a, _, c, _, ⟨hb, ha, hd, rfl⟩, ⟨by decide +kernel, hne, by decide +kernel, by decide +kernel⟩,
    (hupdate.2 hne).1, (hupdate.2 hne).2, hback, hadded rfl⟩

end Item

end StagedEdits
