import StagedEdits.Proofs.SortedMap
import StagedEdits.Reconcile.Conflict
import StagedEdits.Session.Removal
import StagedEdits.Session.Rollback

/-!
# What the transitions of an item keep

* `Item.Consistent`: the identity fields of an item are those of the row it last agreed with.
* `Item.Edited`: a local edit changes neither the identity of an item nor its row.
* `Item.Takes`: reconciling gives an item the row that was fetched for it, or none
  (`Resolved.takes_outcome?`).
-/

namespace StagedEdits

/-- Whether an item of this status was never written, as far as its session knows. -/
def Status.isNew : Status → Bool
  | toAdd => true
  | addedAndRemoved => true
  | _ => false

namespace Item

/-- The identity fields are those of the row that the item last agreed with, and an item that was
added and removed was an added one before. -/
structure Consistent (item : Item) : Prop where
  dbId_eq : item.dbId = item.synced.bind Record.dbId?
  commitId_eq : item.commitId = item.synced.bind Record.commitId?
  wasNew : item.status = .addedAndRemoved →
    item.statusWhenRemoved = none ∨ item.statusWhenRemoved = some .toAdd

/-- What a local edit keeps of an item: everything about its row, and that it is new. -/
structure Edited (a b : Item) : Prop where
  id_eq : b.id = a.id
  kind_eq : b.kind = a.kind
  dbId_eq : b.dbId = a.dbId
  synced_eq : b.synced = a.synced
  consistent : b.Consistent
  isNew : a.status.isNew = true → b.status.isNew = true

/-- `b` is `a` with the given row, or without one. -/
structure Takes (a : Item) (row : Option Record) (b : Item) : Prop where
  id_eq : b.id = a.id
  kind_eq : b.kind = a.kind
  synced_eq : b.synced = row
  consistent : b.Consistent

theorem Takes.dbId_eq {a b : Item} {row : Option Record} (h : a.Takes row b) :
    b.dbId = row.bind Record.dbId? := by
  rw [h.consistent.dbId_eq, h.synced_eq]

/-! ### Local edits -/

variable {item : Item}

theorem Edited.refl (h : item.Consistent) : item.Edited item := ⟨rfl, rfl, rfl, rfl, h, fun hn => hn⟩

theorem Edited.trans {a b c : Item} (hab : a.Edited b) (hbc : b.Edited c) : a.Edited c where
  id_eq := hbc.id_eq.trans hab.id_eq
  kind_eq := hbc.kind_eq.trans hab.kind_eq
  dbId_eq := hbc.dbId_eq.trans hab.dbId_eq
  synced_eq := hbc.synced_eq.trans hab.synced_eq
  consistent := hbc.consistent
  isNew := fun h => hbc.isNew (hab.isNew h)

theorem consistent_added (id : ItemId) (kind : Kind) (content : Record) :
    (added id kind content).Consistent :=
  ⟨rfl, rfl, nofun⟩

theorem edited_edit (h : item.Consistent) (changes : Record) : item.Edited (item.edit changes) := by
  unfold edit
  split
  · dsimp only
    by_cases hs : item.status = .committed
    · simp only [hs, if_true]
      split
      · exact ⟨rfl, rfl, rfl, rfl, ⟨h.dbId_eq, h.commitId_eq, by rintro ⟨⟩⟩, by simp [hs, Status.isNew]⟩
      · exact ⟨rfl, rfl, rfl, rfl, ⟨h.dbId_eq, h.commitId_eq, by rintro ⟨⟩⟩, by simp [hs, Status.isNew]⟩
    · simp only [hs, if_false]
      split
      next hu =>
        exact ⟨rfl, rfl, rfl, rfl, ⟨h.dbId_eq, h.commitId_eq, by rintro ⟨⟩⟩,
          by simp [hu.1, Status.isNew]⟩
      next => exact ⟨rfl, rfl, rfl, rfl, ⟨h.dbId_eq, h.commitId_eq, h.wasNew⟩, fun hn => hn⟩
  · exact .refl h

theorem kind_edit (item : Item) (changes : Record) : (item.edit changes).kind = item.kind := by
  unfold edit
  split
  · dsimp only
    split <;> split <;> rfl
  · rfl

/-- An edit stores the changes, or there is nothing to change. -/
theorem edit_cases (item : Item) (changes : Record) :
    (item.differsFrom changes = false ∧ item.edit changes = item) ∨
      (item.edit changes).content = item.content.insertAll changes := by
  unfold edit
  split
  next =>
    right
    dsimp only
    split <;> split <;> rfl
  next hsame => exact .inl ⟨Bool.eq_false_iff.2 hsame, rfl⟩

theorem removed_edit (item : Item) (changes : Record) :
    (item.edit changes).removed = item.removed := by
  unfold edit removed
  split
  · dsimp only
    by_cases hs : item.status = .committed
    · simp only [hs, if_true]
      split <;> rfl
    · simp only [hs, if_false]
      split
      next hu => exact (congrArg Status.isRemoved hu.1).symm
      next => rfl
  · rfl

theorem status_markRemoved (h : item.removed = false) (source : Option ItemRef) :
    (item.markRemoved source).status =
      if item.status = .toAdd then .addedAndRemoved else .toRemove := by
  rw [markRemoved, dif_neg (by simp [h])]

theorem statusWhenRemoved_markRemoved (h : item.removed = false) (source : Option ItemRef) :
    (item.markRemoved source).statusWhenRemoved = some item.status := by
  rw [markRemoved, dif_neg (by simp [h])]

theorem markRemoved_of_removed (h : item.removed = true) (source : Option ItemRef) :
    item.markRemoved source = item := by
  rw [markRemoved, dif_pos h]

theorem restored_of_live (h : item.removed = false) : item.restored = item := by
  rw [restored, if_neg (by simp [h])]

theorem status_restored (h : item.removed = true) :
    item.restored.status =
      item.statusWhenRemoved.getD (if item.status = .addedAndRemoved then .toAdd else .committed) := by
  rw [restored, if_pos h]

/-- An item added and removed is an added one when it is restored. -/
theorem status_restored_of_added (h : item.Consistent) (hs : item.status = .addedAndRemoved) :
    item.restored.status = .toAdd := by
  rw [status_restored (by rw [removed, hs]; rfl)]
  rcases h.wasNew hs with hw | hw
  · rw [hw, Option.getD_none, if_pos hs]
  · rw [hw, Option.getD_some]

theorem status_of_live (h : item.removed = false) :
    item.status = .committed ∨ item.status = .toAdd ∨ item.status = .toUpdate := by
  rw [removed] at h
  revert h
  cases item.status <;> simp [Status.isRemoved]

/-- An item that a commit inserts or updates is live and not committed. -/
theorem live_of_unwritten (h : item.status = .toAdd ∨ item.status = .toUpdate) :
    item.removed = false ∧ item.status ≠ .committed := by
  rw [removed]
  rcases h with h | h <;> rw [h] <;> exact ⟨rfl, by decide⟩

theorem edited_markRemoved (h : item.Consistent) (source : Option ItemRef) :
    item.Edited (item.markRemoved source) := by
  cases hr : item.removed with
  | true =>
    rw [markRemoved_of_removed hr]
    exact .refl h
  | false =>
    have hst := status_markRemoved hr source
    have hw := statusWhenRemoved_markRemoved hr source
    have hfields : (item.markRemoved source).dbId = item.dbId ∧
        (item.markRemoved source).commitId = item.commitId ∧
        (item.markRemoved source).synced = item.synced ∧
        (item.markRemoved source).kind = item.kind ∧ (item.markRemoved source).id = item.id := by
      rw [markRemoved, dif_neg (by simp [hr])]
      exact ⟨rfl, rfl, rfl, rfl, rfl⟩
    obtain ⟨hd, hc, hsync, hk, hid⟩ := hfields
    refine ⟨hid, hk, hd, hsync, ⟨?_, ?_, ?_⟩, ?_⟩
    · rw [hd, hsync]; exact h.dbId_eq
    · rw [hc, hsync]; exact h.commitId_eq
    · intro hadded
      rw [hst] at hadded
      rw [hw]
      by_cases hs : item.status = .toAdd
      · exact .inr (congrArg some hs)
      · rw [if_neg hs] at hadded
        cases hadded
    · intro hnew
      have hs : item.status = .toAdd := by
        rw [removed] at hr
        revert hnew hr
        cases item.status <;> simp [Status.isNew, Status.isRemoved]
      rw [hst, if_pos hs]
      rfl

theorem edited_restored (h : item.Consistent) : item.Edited item.restored := by
  cases hr : item.removed with
  | false =>
    rw [restored_of_live hr]
    exact .refl h
  | true =>
    have hlive := item.removed_restored
    have hnew : item.status.isNew = true → item.restored.status.isNew = true := by
      intro hnew
      have hs : item.status = .addedAndRemoved := by
        rw [removed] at hr
        revert hnew hr
        cases item.status <;> simp [Status.isNew, Status.isRemoved]
      rw [status_restored_of_added h hs]
      rfl
    have hwas : item.restored.status ≠ .addedAndRemoved := by
      intro hs
      rw [removed, hs] at hlive
      cases hlive
    rw [restored, if_pos hr] at hnew hwas ⊢
    exact ⟨rfl, rfl, rfl, rfl, ⟨h.dbId_eq, h.commitId_eq, fun hs => absurd hs hwas⟩, hnew⟩

/-! ### Rows -/

theorem takes_adopt (h : item.Consistent) (row : Record) : item.Takes (some row) (item.adopt row) :=
  ⟨rfl, rfl, rfl, rfl, rfl, h.wasNew⟩

theorem takes_loaded (id : ItemId) (kind : Kind) (row : Record) :
    (added id kind (kind.contentOf row)).Takes (some row) (loaded id kind row) :=
  ⟨rfl, rfl, rfl, rfl, rfl, nofun⟩

theorem takes_claim (item : Item) (row : Record) : item.Takes (some row) (item.claim row) := by
  unfold claim
  dsimp only
  split
  · exact ⟨rfl, rfl, rfl, rfl, rfl, by rintro ⟨⟩⟩
  · exact ⟨rfl, rfl, rfl, rfl, rfl, by rintro ⟨⟩⟩

theorem takes_keptAgainst (h : item.Consistent) (row : Option Record) :
    item.Takes row (item.keptAgainst row) := by
  have hkept : ∀ p : Prop, [Decidable p] →
      item.Edited (if p ∧ item.status = .committed then item.withStatus .toUpdate else item) := by
    intro p _
    split
    next hp =>
      exact ⟨rfl, rfl, rfl, rfl, ⟨h.dbId_eq, h.commitId_eq, nofun⟩, by simp [hp.2, Status.isNew]⟩
    next => exact .refl h
  have hkept := hkept (item.isUncommittedAgainst row = true)
  unfold keptAgainst
  dsimp only
  generalize (if item.isUncommittedAgainst row = true ∧ item.status = .committed then
    item.withStatus .toUpdate else item) = kept at hkept ⊢
  cases row with
  | some row =>
    dsimp only
    split
    · exact ⟨hkept.id_eq, hkept.kind_eq, rfl, rfl, rfl, hkept.consistent.wasNew⟩
    · exact ⟨hkept.id_eq, hkept.kind_eq, rfl, rfl, rfl, hkept.consistent.wasNew⟩
  | none =>
    dsimp only
    split
    · exact ⟨hkept.id_eq, hkept.kind_eq, rfl, rfl, rfl, hkept.consistent.wasNew⟩
    · exact ⟨hkept.id_eq, hkept.kind_eq, rfl, rfl, rfl, nofun⟩

theorem removed_claim (item : Item) (row : Record) : (item.claim row).removed = false := by
  unfold claim
  dsimp only
  split <;> rfl

theorem content_claim (item : Item) (row : Record) : (item.claim row).content = item.content := by
  unfold claim
  dsimp only
  split <;> rfl

theorem removed_keptAgainst (item : Item) (row : Option Record) :
    (item.keptAgainst row).removed = item.removed := by
  unfold keptAgainst
  dsimp only
  generalize hkept : (if item.isUncommittedAgainst row ∧ item.status = .committed then
    item.withStatus .toUpdate else item) = kept
  have hrem : kept.removed = item.removed := by
    rw [← hkept]
    split
    next h => rw [removed, removed, h.2]; rfl
    next => rfl
  rw [← hrem]
  cases row with
  | none =>
    dsimp only
    split
    next => rfl
    next hlive => exact (Bool.eq_false_iff.2 hlive).symm
  | some row =>
    dsimp only
    split <;> rfl

theorem content_keptAgainst (item : Item) (row : Option Record) :
    (item.keptAgainst row).content = item.content := by
  unfold keptAgainst
  dsimp only
  generalize hkept : (if item.isUncommittedAgainst row ∧ item.status = .committed then
    item.withStatus .toUpdate else item) = kept
  have hcontent : kept.content = item.content := by
    rw [← hkept]
    split <;> rfl
  rw [← hcontent]
  cases row with
  | none =>
    dsimp only
    split <;> rfl
  | some row =>
    dsimp only
    split <;> rfl

/-- An item in conflict is pending, and not one to add. -/
theorem status_of_divergence? {row : Option Record} {d : Divergence}
    (h : item.divergence? row = some d) : item.status ≠ .committed ∧ item.status ≠ .toAdd := by
  unfold divergence? at h
  constructor <;> intro hst <;> rw [hst] at h <;> cases h

/-- A row in conflict is not the one that the item last agreed with. -/
theorem synced_ne_of_divergence? {row : Record} {d : Divergence}
    (h : item.divergence? (some row) = some d) : item.synced ≠ some row := by
  intro heq
  unfold divergence? at h
  cases hst : item.status <;> simp [hst, heq] at h

theorem takes_overwrittenBy (h : item.Consistent) (row : Record) :
    item.Takes (some row) (item.overwrittenBy row) := by
  have hr := edited_restored h
  exact ⟨hr.id_eq, hr.kind_eq, rfl, rfl, rfl, nofun⟩

theorem takes_resurrectedBy (h : item.Consistent) (row : Record) :
    item.Takes (some row) (item.resurrectedBy row) := by
  have hr := edited_restored h
  unfold resurrectedBy
  dsimp only
  split
  · exact ⟨hr.id_eq, hr.kind_eq, rfl, rfl, rfl, nofun⟩
  · exact ⟨hr.id_eq, hr.kind_eq, rfl, rfl, rfl, nofun⟩

/-- Writing an item gives it the row that was written. -/
theorem takes_written (item : Item) (dbId : DbId) (commitId : CommitId) :
    item.Takes (item.written dbId commitId).synced (item.written dbId commitId) := by
  refine ⟨rfl, rfl, rfl, ?_, ?_, nofun⟩
  · simp [written, asRow, Record.dbId?, Record.idField, Record.commitField, Value.integer?]
  · simp [written, asRow, Record.commitId?, Record.commitField, Value.integer?]

/-! ### Rolling back -/

/-- An item that goes back to its row is one that was not new. -/
theorem edited_backToRow (h : item.Consistent) (hs : item.status.isNew = false) :
    item.Edited item.backToRow := by
  have hnew : ∀ b : Item, item.status.isNew = true → b.status.isNew = true := fun _ hn =>
    absurd hn (by simp [hs])
  unfold backToRow
  split
  next content _ hb =>
    unfold reverted
    rw [hb]
    exact ⟨rfl, rfl, rfl, rfl, ⟨h.dbId_eq, h.commitId_eq, nofun⟩, hnew _⟩
  next row _ hrow =>
    have hd : item.dbId = row.dbId? := by rw [h.dbId_eq, hrow]; rfl
    exact ⟨rfl, rfl, hd.symm, hrow.symm, ⟨rfl, rfl, nofun⟩, hnew _⟩
  next => exact ⟨rfl, rfl, rfl, rfl, ⟨h.dbId_eq, h.commitId_eq, nofun⟩, hnew _⟩

/-- What rolling back leaves of an item is a committed item with the same row. -/
theorem edited_rolledBack {b : Item} (h : item.Consistent) (hb : item.rolledBack? = some b) :
    item.Edited b ∧ b.status = .committed := by
  have hr := edited_restored h
  have hlive := item.removed_restored
  have hback : ∀ a : Item, a.backToRow.status = .committed := by
    intro a
    unfold backToRow
    split
    next hb => unfold reverted; rw [hb]
    next => rfl
    next => rfl
  unfold rolledBack? at hb
  split at hb
  next => cases hb
  next => cases hb
  next hs =>
    obtain rfl := Option.some.inj hb
    split
    next => exact ⟨hr.trans (edited_backToRow hr.consistent (by rw [hs]; rfl)), hback _⟩
    next hrem =>
      rw [restored_of_live (Bool.eq_false_iff.2 hrem)] at hs
      exact ⟨.refl h, hs⟩
  next hadd hrem _ =>
    obtain rfl := Option.some.inj hb
    refine ⟨hr.trans (edited_backToRow hr.consistent ?_), hback _⟩
    revert hadd hrem
    cases item.restored.status <;> simp [Status.isNew]

/-! ### Items keep their names -/

theorem ref_edit (item : Item) (changes : Record) : (item.edit changes).ref = item.ref := by
  unfold edit
  split
  · dsimp only
    split <;> split <;> rfl
  · rfl

theorem ref_markRemoved (item : Item) (source : Option ItemRef) :
    (item.markRemoved source).ref = item.ref := by
  unfold markRemoved
  split <;> rfl

theorem ref_restored (item : Item) : item.restored.ref = item.ref := by
  unfold restored
  split <;> rfl

theorem ref_keptAgainst (item : Item) (row : Option Record) : (item.keptAgainst row).ref = item.ref := by
  unfold keptAgainst
  dsimp only
  cases row <;> dsimp only <;> split <;> split <;> rfl

theorem ref_resurrectedBy (item : Item) (row : Record) : (item.resurrectedBy row).ref = item.ref := by
  unfold resurrectedBy
  dsimp only
  split
  · exact item.ref_restored
  · exact item.ref_restored

end Item

theorem Action.ref_result? {action : Action} {c : Conflict} {b : Item}
    (h : action.result? c = some b) : b.ref = c.item.ref := by
  cases action with
  | keep => exact Option.some.inj h ▸ c.item.ref_keptAgainst c.row
  | overwrite =>
    obtain ⟨row, -, rfl⟩ := Option.map_eq_some_iff.1 h
    exact c.item.ref_restored
  | resurrect =>
    obtain ⟨row, -, rfl⟩ := Option.map_eq_some_iff.1 h
    exact c.item.ref_resurrectedBy row

/-! ### Answers to conflicts -/

/-- What becomes of the item of an answered conflict; there is none if the row that was chosen is
gone. -/
def Resolved.outcome? (r : Resolved) : Option Item :=
  r.markedDirty.settlement.result? r.markedDirty.toConflict

namespace Resolved

variable {r : Resolved}

theorem choice_markedDirty (r : Resolved) : r.markedDirty.choice = r.choice := by
  unfold markedDirty
  cases hc : r.choice with
  | takeStored => exact hc
  | keepLocal =>
    dsimp only
    split
    · rfl
    · split
      · exact hc
      · rfl

theorem row_markedDirty (r : Resolved) : r.markedDirty.row = r.row := by
  unfold markedDirty
  split
  · rfl
  · split
    · rfl
    · split <;> rfl

theorem ref_markedDirty (r : Resolved) : r.markedDirty.item.ref = r.item.ref := by
  unfold markedDirty
  cases r.choice with
  | takeStored => rfl
  | keepLocal =>
    dsimp only
    split
    · rfl
    · split <;> rfl

/-- Marking keeps what there is to know about the row of the item. -/
theorem takes_markedDirty (h : r.item.Consistent) :
    r.item.Takes r.item.synced r.markedDirty.item := by
  unfold markedDirty
  split
  · exact ⟨rfl, rfl, rfl, h⟩
  · split
    · exact ⟨rfl, rfl, rfl, h.dbId_eq, h.commitId_eq, nofun⟩
    · split
      · exact ⟨rfl, rfl, rfl, h⟩
      · exact ⟨rfl, rfl, rfl, h.dbId_eq, h.commitId_eq, nofun⟩

/-- Whatever the answer, an item that stays has the row it was in conflict with, or none if that
is gone. -/
theorem takes_outcome? (h : r.item.Consistent) {b : Item} (hb : r.outcome? = some b) :
    r.item.Takes r.row b := by
  have hm := takes_markedDirty h
  have hrow := row_markedDirty r
  unfold outcome? at hb
  have hfrom : ∀ {b : Item}, r.markedDirty.item.Takes r.row b → r.item.Takes r.row b :=
    fun hb => ⟨hb.id_eq.trans hm.id_eq, hb.kind_eq.trans hm.kind_eq, hb.synced_eq, hb.consistent⟩
  apply hfrom
  cases hact : r.markedDirty.settlement with
  | keep =>
    rw [hact] at hb
    obtain rfl := Option.some.inj hb
    rw [← hrow]
    exact Item.takes_keptAgainst hm.consistent _
  | overwrite =>
    rw [hact] at hb
    obtain ⟨row, hr, rfl⟩ := Option.map_eq_some_iff.1 hb
    rw [← hrow, hr]
    exact Item.takes_overwrittenBy hm.consistent row
  | resurrect =>
    rw [hact] at hb
    obtain ⟨row, hr, rfl⟩ := Option.map_eq_some_iff.1 hb
    rw [← hrow, hr]
    exact Item.takes_resurrectedBy hm.consistent row

theorem ref_outcome? {b : Item} (hb : r.outcome? = some b) : b.ref = r.item.ref :=
  (Action.ref_result? hb).trans r.ref_markedDirty

/-- Only an item whose row is gone can itself be gone. -/
theorem row_eq_none_of_outcome? (h : r.outcome? = none) : r.row = none := by
  unfold outcome? at h
  rw [← row_markedDirty r]
  cases hact : r.markedDirty.settlement with
  | keep => rw [hact] at h; cases h
  | overwrite => rw [hact] at h; exact Option.map_eq_none_iff.1 h
  | resurrect => rw [hact] at h; exact Option.map_eq_none_iff.1 h

end Resolved

end StagedEdits
