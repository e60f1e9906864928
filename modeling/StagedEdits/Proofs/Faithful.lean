import StagedEdits.Proofs.Absorption
import StagedEdits.Proofs.Content

/-!
# Items that tell the truth

`Item.Truthful` says that the status of an item fits its row: only a new item has none, and a
committed one has the content of its row.  Together with contents and rows of the right shape this
is `Item.Faithful`.  Local edits keep items faithful, and so does everything that a fetch makes of
them (`Origin.faithful`), with one exception: an item that was kept in a conflict while it was
removed may be restored to a status that is no longer true.
-/

namespace StagedEdits

/-- The status of an item is true: exactly the new items have no row, and a committed one has the
content of its row and nothing to undo. -/
def Item.Truthful (item : Item) : Prop :=
  (item.status.isNew = true ↔ item.synced = none) ∧
    (item.status = .committed → item.backup = none ∧
      ∃ row, item.synced = some row ∧ item.content = item.kind.contentOf row)

/-- A row as a session reads it: it has an identity and all fields of its kind, and it refers to
items of the right kinds. -/
structure Session.Proper (s : Session) (kind : Kind) (row : Record) : Prop where
  covers : kind.Covers row
  refers : s.Refers kind row
  dbId? : ∃ d, row.dbId? = some d

/-- A truthful item with content, row and backup of the right shape. -/
structure Item.Faithful (item : Item) (s : Session) : Prop where
  complete : item.kind.Complete item.content
  refers : s.Refers item.kind item.content
  synced : ∀ row, item.synced = some row → s.Proper item.kind row
  backup : ∀ content, item.backup = some content →
    ∃ row, item.synced = some row ∧ content = item.kind.contentOf row
  truthful : item.Truthful

theorem Session.Proper.succeeds {s s' : Session} {kind : Kind} {row : Record}
    (h : s.Proper kind row) (hs : s.Succeeds s') : s'.Proper kind row :=
  ⟨h.covers, h.refers.succeeds hs, h.dbId?⟩

namespace Item

variable {s s' : Session} {item : Item} {row : Record}

theorem Faithful.succeeds (h : item.Faithful s) (hs : s.Succeeds s') : item.Faithful s' :=
  { h with
    refers := h.refers.succeeds hs
    synced := fun row hrow => (h.synced row hrow).succeeds hs }

/-- A committed item with the content of its row. -/
theorem faithful_of_committed (hc : item.content = item.kind.contentOf row)
    (hst : item.status = .committed) (hsync : item.synced = some row) (hb : item.backup = none)
    (hrow : s.Proper item.kind row) : item.Faithful s where
  complete := hc ▸ Kind.complete_contentOf _ _
  refers := hc ▸ hrow.refers.contentOf
  synced := fun row' hrow' => Option.some.inj (hsync.symm.trans hrow') ▸ hrow
  backup := fun _ hback => by rw [hb] at hback; cases hback
  truthful := by
    refine ⟨?_, fun _ => ⟨hb, row, hsync, hc⟩⟩
    rw [hst, hsync]
    exact ⟨fun h => (nomatch h), fun h => (nomatch h)⟩

/-- An item to update or remove, whose backup, if it has one, is the content of its row. -/
theorem faithful_of_pending (hc : item.kind.Complete item.content)
    (hr : s.Refers item.kind item.content) (hst : item.status = .toUpdate ∨ item.status = .toRemove)
    (hsync : item.synced = some row) (hb : ∀ content, item.backup = some content →
      content = item.kind.contentOf row)
    (hrow : s.Proper item.kind row) : item.Faithful s where
  complete := hc
  refers := hr
  synced := fun row' hrow' => Option.some.inj (hsync.symm.trans hrow') ▸ hrow
  backup := fun content hback => ⟨row, hsync, hb content hback⟩
  truthful := by
    rw [Truthful, hsync]
    rcases hst with hst | hst <;> rw [hst] <;>
      exact ⟨⟨fun h => (nomatch h), fun h => (nomatch h)⟩, nofun⟩

/-- A new item without a row. -/
theorem faithful_of_new (hc : item.kind.Complete item.content)
    (hr : s.Refers item.kind item.content) (hst : item.status.isNew = true)
    (hsync : item.synced = none) (hb : item.backup = none) : item.Faithful s where
  complete := hc
  refers := hr
  synced := fun _ hrow => by rw [hsync] at hrow; cases hrow
  backup := fun _ hback => by rw [hb] at hback; cases hback
  truthful := by
    refine ⟨⟨fun _ => hsync, fun _ => hst⟩, fun hcommitted => ?_⟩
    rw [hcommitted] at hst
    cases hst

/-- A faithful item that is not new has a row. -/
theorem Faithful.exists_row (h : item.Faithful s) (hnew : item.status.isNew = false) :
    ∃ row, item.synced = some row ∧ s.Proper item.kind row := by
  cases hsync : item.synced with
  | none =>
    rw [h.truthful.1.2 hsync] at hnew
    cases hnew
  | some row => exact ⟨row, rfl, h.synced row hsync⟩

theorem Faithful.backup_eq (h : item.Faithful s) (hsync : item.synced = some row) {content : Record}
    (hb : item.backup = some content) : content = item.kind.contentOf row := by
  obtain ⟨row', hrow', hc⟩ := h.backup content hb
  obtain rfl := Option.some.inj (hsync.symm.trans hrow')
  exact hc

/-! ### Local edits -/

theorem kind_restored (item : Item) : item.restored.kind = item.kind := by
  unfold restored
  split <;> rfl

theorem content_restored (item : Item) : item.restored.content = item.content := by
  unfold restored
  split <;> rfl

theorem synced_restored (item : Item) : item.restored.synced = item.synced := by
  unfold restored
  split <;> rfl

theorem backup_restored (item : Item) : item.restored.backup = item.backup := by
  unfold restored
  split <;> rfl

theorem faithful_added {id : ItemId} {kind : Kind} {content : Record} (hc : kind.Complete content)
    (hr : s.Refers kind content) : (added id kind content).Faithful s :=
  faithful_of_new hc hr rfl rfl rfl

theorem faithful_edit (h : item.Faithful s) (hlive : item.removed = false) {changes : Record}
    (hc : item.kind.Complete (item.content.insertAll changes))
    (hr : s.Refers item.kind (item.content.insertAll changes)) :
    (item.edit changes).Faithful s := by
  unfold edit
  split
  · dsimp only
    by_cases hst : item.status = .committed
    · simp only [hst, if_true]
      obtain ⟨row, hsync, hrow⟩ := h.exists_row (by rw [hst]; rfl)
      have hcontent : item.content = item.kind.contentOf row := by
        obtain ⟨-, row', hsync', hc'⟩ := h.truthful.2 hst
        obtain rfl := Option.some.inj (hsync.symm.trans hsync')
        exact hc'
      split
      next hback =>
        have heq : item.content.insertAll changes = item.content := (Option.some.inj hback.2).symm
        exact faithful_of_committed (heq.trans hcontent) rfl hsync rfl hrow
      next =>
        refine faithful_of_pending hc hr (.inl rfl) hsync ?_ hrow
        rintro content hb
        obtain rfl := Option.some.inj hb
        exact hcontent
    · simp only [hst, if_false]
      split
      next hback =>
        obtain ⟨row, hsync, hrow⟩ := h.exists_row (by rw [hback.1]; rfl)
        exact faithful_of_committed (h.backup_eq hsync hback.2) rfl hsync rfl hrow
      next hback =>
        rcases (status_of_live hlive).resolve_left hst with hs | hs
        · have hsync : item.synced = none := h.truthful.1.1 (by rw [hs]; rfl)
          refine faithful_of_new hc hr (by dsimp only; rw [hs]; rfl) hsync ?_
          cases hb : item.backup with
          | none => rfl
          | some content =>
            obtain ⟨row, hrow, -⟩ := h.backup content hb
            rw [hsync] at hrow
            cases hrow
        · obtain ⟨row, hsync, hrow⟩ := h.exists_row (by rw [hs]; rfl)
          exact faithful_of_pending hc hr (.inl hs) hsync (fun _ hb => h.backup_eq hsync hb) hrow
  · exact h

/-- An item is new with or without a removal. -/
theorem isNew_markRemoved (hlive : item.removed = false) (source : Option ItemRef) :
    (item.markRemoved source).status.isNew = item.status.isNew := by
  rw [status_markRemoved hlive]
  rw [removed] at hlive
  revert hlive
  cases item.status <;> simp [Status.isNew, Status.isRemoved]

theorem faithful_markRemoved (h : item.Faithful s) (source : Option ItemRef) :
    (item.markRemoved source).Faithful s := by
  cases hlive : item.removed with
  | true => rw [markRemoved_of_removed hlive]; exact h
  | false =>
    have hnew := isNew_markRemoved hlive source
    have hst := status_markRemoved hlive source
    rw [markRemoved, dif_neg (by simp [hlive])] at hnew hst ⊢
    refine ⟨h.complete, h.refers, h.synced, h.backup, ?_, ?_⟩
    · rw [hnew]; exact h.truthful.1
    · intro hcommitted
      rw [hst] at hcommitted
      split at hcommitted <;> cases hcommitted

/-- A restored item is faithful if its status is true. -/
theorem faithful_restored (h : item.Faithful s) (ht : item.restored.Truthful) :
    item.restored.Faithful s := by
  revert ht
  rw [restored]
  split
  · exact fun ht => ⟨h.complete, h.refers, h.synced, h.backup, ht⟩
  · exact fun _ => h

/-- Removing an item and restoring it gives it back the status that it had. -/
theorem truthful_restored_markRemoved (h : item.Truthful) (hlive : item.removed = false)
    (source : Option ItemRef) : (item.markRemoved source).restored.Truthful := by
  have hst : (item.markRemoved source).restored.status = item.status := by
    rw [status_restored (item.removed_markRemoved source),
      statusWhenRemoved_markRemoved hlive source, Option.getD_some]
  have hfields : (item.markRemoved source).restored.synced = item.synced ∧
      (item.markRemoved source).restored.backup = item.backup ∧
      (item.markRemoved source).restored.kind = item.kind ∧
      (item.markRemoved source).restored.content = item.content := by
    rw [restored, if_pos (item.removed_markRemoved source), markRemoved,
      dif_neg (by simp [hlive])]
    exact ⟨rfl, rfl, rfl, rfl⟩
  obtain ⟨hsync, hb, hk, hc⟩ := hfields
  unfold Truthful
  rw [hst, hsync, hb, hk, hc]
  exact h

/-- The backup of an item, or else its row, is what it goes back to. -/
theorem faithful_backToRow (hc : item.kind.Complete item.content) (hsync : item.synced = some row)
    (hb : ∀ content, item.backup = some content → content = item.kind.contentOf row)
    (hrow : s.Proper item.kind row) : item.backToRow.Faithful s := by
  unfold backToRow
  split
  next _ _ hback =>
    unfold reverted
    rw [hback]
    exact faithful_of_committed (hb _ hback) rfl hsync rfl hrow
  next row' hback hrow' =>
    obtain rfl := Option.some.inj (hsync.symm.trans hrow')
    exact faithful_of_committed (content_adopt hc hrow.covers) rfl rfl hback hrow
  next hsync' =>
    rw [hsync] at hsync'
    cases hsync'

/-- What rolling back leaves of a faithful item is faithful. -/
theorem faithful_rolledBack (h : item.Faithful s) (hcons : item.Consistent) {b : Item}
    (hb : item.rolledBack? = some b) : b.Faithful s := by
  have hback : item.status.isNew = false → item.restored.backToRow.Faithful s := by
    intro hnew
    obtain ⟨row, hsync, hrow⟩ := h.exists_row hnew
    refine faithful_backToRow ?_ (item.synced_restored.trans hsync) ?_ ?_
    · rw [kind_restored, content_restored]; exact h.complete
    · rw [kind_restored, backup_restored]; exact fun _ hback => h.backup_eq hsync hback
    · rw [kind_restored]; exact hrow
  unfold rolledBack? at hb
  split at hb
  next => cases hb
  next => cases hb
  next hst =>
    obtain rfl := Option.some.inj hb
    split
    next =>
      refine hback (Bool.eq_false_iff.2 fun hnew => ?_)
      have hnew := (edited_restored hcons).isNew hnew
      rw [hst] at hnew
      cases hnew
    next => exact h
  next hadd hrem hcommitted =>
    obtain rfl := Option.some.inj hb
    refine hback (Bool.eq_false_iff.2 fun hnew => ?_)
    have hnew := (edited_restored hcons).isNew hnew
    revert hnew hadd hrem
    cases item.restored.status <;> simp [Status.isNew]

/-! ### Rows -/

theorem faithful_loaded {id : ItemId} {kind : Kind} (hrow : s.Proper kind row) :
    (loaded id kind row).Faithful s :=
  have hc : (loaded id kind row).content = (loaded id kind row).kind.contentOf row := rfl
  faithful_of_committed hc rfl rfl rfl hrow

theorem faithful_adopt (h : item.Faithful s) (hst : item.status = .committed)
    (hrow : s.Proper item.kind row) : (item.adopt row).Faithful s :=
  faithful_of_committed (content_adopt h.complete hrow.covers) hst rfl (h.truthful.2 hst).1 hrow

theorem faithful_claim (h : item.Faithful s) (hrow : s.Proper item.kind row) :
    (item.claim row).Faithful s := by
  unfold claim
  dsimp only
  split
  next hagree =>
    have hcomplete : (item.bindTo row).kind.Complete (item.bindTo row).content := h.complete
    have hc : (item.bindTo row).content = (item.bindTo row).kind.contentOf row :=
      (agreesWith_iff hcomplete).1 hagree
    exact faithful_of_committed hc rfl rfl rfl hrow
  next =>
    refine faithful_of_pending h.complete h.refers (.inl rfl) rfl ?_ hrow
    rintro content hb
    exact (Option.some.inj hb).symm

theorem content_adopt_restored (h : item.Faithful s) (hrow : item.kind.Covers row) :
    (item.restored.adopt row).content = item.restored.kind.contentOf row := by
  refine content_adopt ?_ ?_
  · rw [kind_restored, content_restored]; exact h.complete
  · rw [kind_restored]; exact hrow

theorem faithful_overwrittenBy (h : item.Faithful s) (hrow : s.Proper item.kind row) :
    (item.overwrittenBy row).Faithful s := by
  have hk : s.Proper item.restored.kind row := by rw [kind_restored]; exact hrow
  exact faithful_of_committed (content_adopt_restored h hrow.covers) rfl rfl rfl hk

/-- An item that is brought back has the content of its row. -/
theorem faithful_resurrectedBy (h : item.Faithful s) (hrow : s.Proper item.kind row) :
    (item.resurrectedBy row).Faithful s := by
  have hk : s.Proper item.restored.kind row := by rw [kind_restored]; exact hrow
  have hadopt := content_adopt_restored h hrow.covers
  have hcomplete : (item.restored.adopt row).kind.Complete (item.restored.adopt row).content := by
    rw [hadopt]
    exact Kind.complete_contentOf _ _
  unfold resurrectedBy
  dsimp only
  rw [if_pos ((agreesWith_iff hcomplete).2 hadopt)]
  exact faithful_of_committed hadopt rfl rfl rfl hk

/-- A pending item that is kept takes a row, or becomes one to add. -/
theorem faithful_keptAgainst (hc : item.kind.Complete item.content)
    (hr : s.Refers item.kind item.content) {row : Option Record}
    (hst : item.status = .toUpdate ∨ (item.status = .toRemove ∧ row.isSome = true))
    (hrow : ∀ r, row = some r → s.Proper item.kind r) : (item.keptAgainst row).Faithful s := by
  have hne : item.status ≠ .committed := by
    rcases hst with hst | ⟨hst, -⟩ <;> rw [hst] <;> decide
  unfold keptAgainst
  dsimp only
  rw [if_neg (fun h => hne h.2)]
  cases row with
  | some r =>
    have hcase : (item.bindTo r).removed = true ∨ (item.bindTo r).status = .toUpdate := by
      rcases hst with hst | ⟨hst, -⟩
      · exact .inr hst
      · exact .inl (by rw [removed]; exact congrArg Status.isRemoved hst)
    dsimp only
    rw [if_pos hcase]
    refine faithful_of_pending hc hr (hst.imp_right And.left) rfl ?_ (hrow r rfl)
    rintro content hb
    exact (Option.some.inj hb).symm
  | none =>
    have hst : item.status = .toUpdate := hst.resolve_right fun h => Bool.false_ne_true h.2
    have hlive : item.unbound.removed = false := by
      rw [removed]
      exact congrArg Status.isRemoved hst
    dsimp only
    rw [if_neg (by simp [hlive])]
    exact faithful_of_new hc hr rfl rfl rfl

theorem faithful_written (h : item.Faithful s) (d : DbId) (commit : CommitId) :
    (item.written d commit).Faithful s := by
  have hne : ∀ {field}, field ∈ item.kind.fields →
      field ≠ Record.idField ∧ field ≠ Record.commitField := fun hf =>
    ⟨fun he => Kind.idField_not_mem_fields item.kind (he ▸ hf),
      fun he => Kind.commitField_not_mem_fields item.kind (he ▸ hf)⟩
  have hget : ∀ {field}, field ∈ item.kind.fields →
      ((item.content.insert Record.idField (.integer d.val)).insert Record.commitField
        (.integer commit.val)).get? field = item.content.get? field := by
    intro field hf
    rw [SortedMap.get?_insert, if_neg (hne hf).2, SortedMap.get?_insert, if_neg (hne hf).1]
  have hrow : s.Proper item.kind ((item.content.insert Record.idField (.integer d.val)).insert
      Record.commitField (.integer commit.val)) := by
    refine ⟨?_, ?_, ⟨d, by simp [Record.dbId?, Record.idField, Record.commitField, Value.integer?]⟩⟩
    · intro field hf
      rw [hget hf]
      exact (h.complete field).2 hf
    · intro e he
      obtain ⟨id, hid, hn⟩ := h.refers e he
      refine ⟨id, ?_, hn⟩
      rw [hget (Kind.referenceFields_subset _ _ (Kind.mem_referenceFields he))]
      exact hid
  exact faithful_of_committed (h.complete.contentOf_insert _ _).symm rfl rfl rfl hrow

end Item

/-! ### Fetched items -/

/-- A resolved conflict leaves a faithful item. -/
theorem Resolved.faithful_outcome? {s : Session} {r : Resolved} (h : r.item.Faithful s)
    {d : Divergence} (hd : r.item.divergence? r.row = some d)
    (hrow : ∀ row, r.row = some row → s.Proper r.item.kind row) {b : Item}
    (hb : r.outcome? = some b) : b.Faithful s := by
  -- only pending items come into conflict, and removed ones only with a row that is there
  have hpending : r.item.status = .toUpdate ∨ (r.item.removed = true ∧ r.row.isSome = true) := by
    unfold Item.divergence? at hd
    split at hd
    next hst _ => exact .inl hst
    next hst _ => exact .inl hst
    next hst heq => exact .inr ⟨by rw [Item.removed, hst]; rfl, by rw [heq]; rfl⟩
    next hst heq => exact .inr ⟨by rw [Item.removed, hst]; rfl, by rw [heq]; rfl⟩
    next => cases hd
  unfold outcome? settlement isResurrection action at hb
  rw [choice_markedDirty] at hb
  cases hchoice : r.choice with
  | takeStored =>
    have hmarked : r.markedDirty = r := by
      unfold markedDirty
      rw [hchoice]
    rw [hchoice, hmarked] at hb
    dsimp only at hb
    split at hb
    next =>
      obtain ⟨row, hr, rfl⟩ := Option.map_eq_some_iff.1 hb
      exact Item.faithful_resurrectedBy h (hrow row hr)
    next =>
      obtain ⟨row, hr, rfl⟩ := Option.map_eq_some_iff.1 hb
      exact Item.faithful_overwrittenBy h (hrow row hr)
  | keepLocal =>
    have hkept : ∀ item : Item, item.kind = r.item.kind → item.content = r.item.content →
        (item.status = .toUpdate ∨ (item.status = .toRemove ∧ r.row.isSome = true)) →
        (item.keptAgainst r.row).Faithful s := by
      intro item hk hc hst
      refine Item.faithful_keptAgainst ?_ ?_ hst fun row hr => ?_
      · rw [hk, hc]; exact h.complete
      · rw [hk, hc]; exact h.refers
      · rw [hk]; exact hrow row hr
    rw [hchoice] at hb
    have hb : b = r.markedDirty.item.keptAgainst r.row := by
      rw [← row_markedDirty r]
      exact (Option.some.inj hb).symm
    subst hb
    unfold markedDirty
    rw [hchoice]
    dsimp only
    split
    next hrem =>
      refine hkept _ rfl rfl (.inr ⟨rfl, ?_⟩)
      refine (hpending.resolve_left fun hst => ?_).2
      rw [Item.removed, hst] at hrem
      cases hrem
    next hlive =>
      have hst : r.item.status = .toUpdate := hpending.resolve_right fun hp => hlive hp.1
      split
      next => exact hkept _ rfl rfl (.inl hst)
      next => exact hkept _ rfl rfl (.inl rfl)

/-- What a fetch makes of faithful items is faithful. -/
theorem Origin.faithful {s : Session} {kind : Kind} {rows : List Record} {item : Item}
    (h : Origin s kind rows item) (hs : s.Coherent)
    (hitems : ∀ ⦃r a⦄, s.item? r = some a → a.Faithful s)
    (hrows : ∀ row ∈ rows, s.Proper kind row) : item.Faithful s := by
  cases h with
  | kept hitem => exact hitems hitem
  | loaded _ hrow => exact Item.faithful_loaded (hrows _ hrow)
  | changed hitem hst hrow =>
    have hk := hs.item_kind hitem
    exact Item.faithful_adopt (hitems hitem) hst (by rw [hk]; exact hrows _ hrow)
  | twin hitem _ hrow =>
    have hk := hs.item_kind hitem
    exact Item.faithful_claim (hitems hitem) (by rw [hk]; exact hrows _ hrow)
  | settled hitem hd hrow hb =>
    have hk := hs.item_kind hitem
    refine Resolved.faithful_outcome? (hitems hitem) hd (fun row hr => ?_) hb
    rw [hk]
    exact hrows _ (hrow row hr)

end StagedEdits
