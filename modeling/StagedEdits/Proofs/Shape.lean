import StagedEdits.Proofs.LostUpdate
import StagedEdits.Proofs.Mirror

/-!
# The shape of what is stored

In a session every content, row and backup has the fields of its kind, and items in the fields of
references (`Item.Shaped`).  This needs nothing of resolvers but that they keep the contract, and
nothing at all of the statuses of items.  What sessions write is therefore of the right shape too:
every row of a database has all fields of its kind and identities of rows in the fields of
references (`Workspace.regular_of_reachable`).
-/

namespace StagedEdits

namespace Kind

variable {k : Kind} {content row : Record}

/-- Every field of a reference refers to an item. -/
def Linked (k : Kind) (r : Record) : Prop :=
  ∀ e ∈ k.references, ∃ id, r.get? e.1 = some (.ref id)

/-- A row of a session with all fields of its kind, and with items in the fields of references. -/
structure Shaped (k : Kind) (row : Record) : Prop where
  covers : k.Covers row
  linked : k.Linked row

theorem Linked.contentOf (h : k.Linked row) : k.Linked (k.contentOf row) := by
  intro e he
  obtain ⟨id, hid⟩ := h e he
  exact ⟨id, get?_contentOf_of_some (k.referenceFields_subset e.1 (mem_referenceFields he)) hid⟩

/-- The identity fields are not fields of the kind. -/
theorem get?_stamped {field : String} (hf : field ∈ k.fields) (v w : Value) :
    ((content.insert Record.idField v).insert Record.commitField w).get? field =
      content.get? field := by
  have hid : field ≠ Record.idField := fun he => k.idField_not_mem_fields (he ▸ hf)
  have hcommit : field ≠ Record.commitField := fun he => k.commitField_not_mem_fields (he ▸ hf)
  rw [SortedMap.get?_insert, if_neg hcommit, SortedMap.get?_insert, if_neg hid]

/-- A content with identity fields is a row of the right shape. -/
theorem shaped_stamped (hc : k.Complete content) (hl : k.Linked content) (v w : Value) :
    k.Shaped ((content.insert Record.idField v).insert Record.commitField w) := by
  constructor
  case covers =>
    intro field hf
    rw [get?_stamped hf]
    exact hc.covers field hf
  case linked =>
    intro e he
    rw [get?_stamped (k.referenceFields_subset e.1 (mem_referenceFields he))]
    exact hl e he

end Kind

/-- An item whose content, row and backup are of the right shape. -/
structure Item.Shaped (item : Item) : Prop where
  complete : item.kind.Complete item.content
  linked : item.kind.Linked item.content
  synced : ∀ row, item.synced = some row → item.kind.Shaped row
  backup : ∀ content, item.backup = some content →
    item.kind.Complete content ∧ item.kind.Linked content

/-- What becomes of the item of an answered conflict that stays: it takes the row over, or it is
kept, with the status of a pending item. -/
theorem Resolved.outcome?_eq_some {r : Resolved} {b : Item} (h : r.outcome? = some b) :
    (r.choice = .takeStored ∧ ∃ row, r.row = some row ∧
      ((r.item.removed = true ∧ b = r.item.resurrectedBy row) ∨
        (r.item.removed = false ∧ b = r.item.overwrittenBy row))) ∨
    (r.choice = .keepLocal ∧ ∃ kept : Item, b = kept.keptAgainst r.row ∧
      ((r.item.removed = true ∧ kept = r.item.withStatus .toRemove) ∨
        (r.item.removed = false ∧ (kept = r.item ∨ kept = r.item.withStatus .toUpdate)))) := by
  unfold outcome? settlement isResurrection action at h
  rw [choice_markedDirty] at h
  cases hchoice : r.choice with
  | takeStored =>
    have hmarked : r.markedDirty = r := by
      unfold markedDirty
      rw [hchoice]
    rw [hchoice, hmarked] at h
    dsimp only at h
    split at h
    next hres =>
      obtain ⟨row, hr, rfl⟩ := Option.map_eq_some_iff.1 h
      exact .inl ⟨rfl, row, hr, .inl ⟨(of_decide_eq_true hres).2, rfl⟩⟩
    next hres =>
      obtain ⟨row, hr, rfl⟩ := Option.map_eq_some_iff.1 h
      have hlive : r.item.removed = false := by simpa using hres
      exact .inl ⟨rfl, row, hr, .inr ⟨hlive, rfl⟩⟩
  | keepLocal =>
    rw [hchoice] at h
    have hb : b = r.markedDirty.item.keptAgainst r.row := by
      rw [← row_markedDirty r]
      exact (Option.some.inj h).symm
    refine .inr ⟨rfl, _, hb, ?_⟩
    unfold markedDirty
    rw [hchoice]
    dsimp only
    split
    next hrem => exact .inl ⟨hrem, rfl⟩
    next hlive =>
      refine .inr ⟨Bool.eq_false_iff.2 hlive, ?_⟩
      split
      next => exact .inl rfl
      next => exact .inr rfl

/-- An item that is kept is as removed as it was, and has the content that it had. -/
theorem Resolved.kept_outcome? {r : Resolved} {b : Item} (h : r.outcome? = some b)
    (hkeep : r.choice = .keepLocal) : b.removed = r.item.removed ∧ b.content = r.item.content := by
  have hkept : ∀ kept : Item, kept.removed = r.item.removed → kept.content = r.item.content →
      (kept.keptAgainst r.row).removed = r.item.removed ∧
        (kept.keptAgainst r.row).content = r.item.content := fun kept hrem hcontent =>
    ⟨(kept.removed_keptAgainst r.row).trans hrem, (kept.content_keptAgainst r.row).trans hcontent⟩
  rcases outcome?_eq_some h with ⟨htake, -⟩ | ⟨-, kept, rfl, ⟨hrem, rfl⟩ | ⟨hlive, rfl | rfl⟩⟩
  · rw [hkeep] at htake
    cases htake
  · exact hkept _ hrem.symm rfl
  · exact hkept _ rfl rfl
  · exact hkept _ hlive.symm rfl

namespace Item

variable {item : Item} {row : Record}

/-! ### Local edits -/

/-- The shape of an item has nothing to do with its status. -/
theorem Shaped.withStatus (h : item.Shaped) (status : Status) : (item.withStatus status).Shaped :=
  ⟨h.complete, h.linked, h.synced, h.backup⟩

theorem Shaped.withoutBackup (h : item.Shaped) : item.withoutBackup.Shaped :=
  ⟨h.complete, h.linked, h.synced, nofun⟩

theorem shaped_added {id : ItemId} {kind : Kind} {content : Record} (hc : kind.Complete content)
    (hl : kind.Linked content) : (added id kind content).Shaped :=
  ⟨hc, hl, nofun, nofun⟩

theorem Shaped.edit (h : item.Shaped) {changes : Record}
    (hc : item.kind.Complete (item.content.insertAll changes))
    (hl : item.kind.Linked (item.content.insertAll changes)) : (item.edit changes).Shaped := by
  have hbackup : ∀ content, some item.content = some content →
      item.kind.Complete content ∧ item.kind.Linked content := by
    rintro _ ⟨⟩
    exact ⟨h.complete, h.linked⟩
  unfold Item.edit
  split
  · by_cases hst : item.status = .committed
    · simp only [hst, if_true]
      split
      next => exact ⟨hc, hl, h.synced, by rintro _ ⟨⟩⟩
      next => exact ⟨hc, hl, h.synced, hbackup⟩
    · simp only [hst, if_false]
      split
      next => exact ⟨hc, hl, h.synced, by rintro _ ⟨⟩⟩
      next => exact ⟨hc, hl, h.synced, h.backup⟩
  · exact h

theorem Shaped.markRemoved (h : item.Shaped) (source : Option ItemRef) :
    (item.markRemoved source).Shaped := by
  unfold Item.markRemoved
  split
  · exact h
  · exact ⟨h.complete, h.linked, h.synced, h.backup⟩

theorem Shaped.restored (h : item.Shaped) : item.restored.Shaped := by
  unfold Item.restored
  split
  · exact ⟨h.complete, h.linked, h.synced, h.backup⟩
  · exact h

/-! ### Rows -/

theorem Shaped.bindTo (h : item.Shaped) (hrow : item.kind.Shaped row) : (item.bindTo row).Shaped :=
  ⟨h.complete, h.linked, fun _ hr => Option.some.inj hr ▸ hrow, h.backup⟩

theorem Shaped.unbound (h : item.Shaped) : item.unbound.Shaped :=
  ⟨h.complete, h.linked, nofun, h.backup⟩

theorem Shaped.backedUpBy (h : item.Shaped) (hrow : item.kind.Shaped row) :
    (item.backedUpBy row).Shaped := by
  refine ⟨h.complete, h.linked, h.synced, fun content hb => ?_⟩
  obtain rfl := Option.some.inj hb
  exact ⟨Kind.complete_contentOf _ _, hrow.linked.contentOf⟩

theorem Shaped.adopt (h : item.Shaped) (hrow : item.kind.Shaped row) : (item.adopt row).Shaped := by
  have hcontent := content_adopt h.complete hrow.covers
  refine ⟨?_, ?_, fun _ hr => Option.some.inj hr ▸ hrow, h.backup⟩
  · rw [hcontent]; exact Kind.complete_contentOf _ _
  · rw [hcontent]; exact hrow.linked.contentOf

theorem shaped_loaded {id : ItemId} {kind : Kind} (hrow : kind.Shaped row) :
    (loaded id kind row).Shaped :=
  ((shaped_added (Kind.complete_contentOf kind row) hrow.linked.contentOf).withStatus _).bindTo hrow

theorem Shaped.claim (h : item.Shaped) (hrow : item.kind.Shaped row) : (item.claim row).Shaped := by
  have hbound := h.bindTo hrow
  unfold Item.claim
  dsimp only
  split
  · exact (hbound.withStatus .committed).withoutBackup
  · exact (hbound.withStatus .toUpdate).backedUpBy hrow

theorem Shaped.keptAgainst (h : item.Shaped) {row : Option Record}
    (hrow : ∀ r, row = some r → item.kind.Shaped r) : (item.keptAgainst row).Shaped := by
  unfold Item.keptAgainst
  dsimp only
  generalize hkept : (if item.isUncommittedAgainst row ∧ item.status = .committed then
    item.withStatus .toUpdate else item) = kept
  have hshaped : kept.Shaped ∧ kept.kind = item.kind := by
    rw [← hkept]
    split
    · exact ⟨h.withStatus _, rfl⟩
    · exact ⟨h, rfl⟩
  obtain ⟨hs, hk⟩ := hshaped
  cases row with
  | none =>
    dsimp only
    split
    · exact hs.unbound
    · exact hs.unbound.withoutBackup.withStatus _
  | some r =>
    have hr : kept.kind.Shaped r := hk ▸ hrow r rfl
    dsimp only
    split
    · exact (hs.bindTo hr).backedUpBy hr
    · exact hs.bindTo hr

theorem Shaped.overwrittenBy (h : item.Shaped) (hrow : item.kind.Shaped row) :
    (item.overwrittenBy row).Shaped := by
  have hk : item.restored.kind.Shaped row := by rw [kind_restored]; exact hrow
  exact ((h.restored.adopt hk).withoutBackup).withStatus _

theorem Shaped.resurrectedBy (h : item.Shaped) (hrow : item.kind.Shaped row) :
    (item.resurrectedBy row).Shaped := by
  have hk : item.restored.kind.Shaped row := by rw [kind_restored]; exact hrow
  have hback := h.restored.adopt hk
  unfold Item.resurrectedBy
  dsimp only
  split
  · exact hback.withoutBackup.withStatus _
  · exact hback.withStatus _

theorem Shaped.written (h : item.Shaped) (d : DbId) (commit : CommitId) :
    (item.written d commit).Shaped := by
  refine ⟨h.complete, h.linked, fun row hr => ?_, nofun⟩
  obtain rfl := Option.some.inj hr
  exact Kind.shaped_stamped h.complete h.linked _ _

/-! ### Rolling back -/

theorem Shaped.backToRow (h : item.Shaped) : item.backToRow.Shaped := by
  unfold Item.backToRow
  split
  next _ content hback =>
    obtain ⟨hc, hl⟩ := h.backup content hback
    unfold reverted
    rw [hback]
    exact ⟨hc, hl, h.synced, nofun⟩
  next row _ hsync => exact (h.adopt (h.synced row hsync)).withStatus _
  next => exact h.withStatus _

theorem Shaped.rolledBack (h : item.Shaped) {b : Item} (hb : item.rolledBack? = some b) :
    b.Shaped := by
  unfold rolledBack? at hb
  split at hb
  next => cases hb
  next => cases hb
  next =>
    obtain rfl := Option.some.inj hb
    split
    · exact h.restored.backToRow
    · exact h
  next =>
    obtain rfl := Option.some.inj hb
    exact h.restored.backToRow

end Item

/-- A resolved conflict leaves an item of the right shape. -/
theorem Resolved.shaped_outcome? {r : Resolved} (h : r.item.Shaped)
    (hrow : ∀ row, r.row = some row → r.item.kind.Shaped row) {b : Item} (hb : r.outcome? = some b) :
    b.Shaped := by
  rcases outcome?_eq_some hb with
    ⟨-, row, hr, ⟨-, rfl⟩ | ⟨-, rfl⟩⟩ | ⟨-, kept, rfl, ⟨-, rfl⟩ | ⟨-, rfl | rfl⟩⟩
  · exact h.resurrectedBy (hrow row hr)
  · exact h.overwrittenBy (hrow row hr)
  · exact (h.withStatus _).keptAgainst hrow
  · exact h.keptAgainst hrow
  · exact (h.withStatus _).keptAgainst hrow

/-- What a fetch makes of items of the right shape is of the right shape. -/
theorem Origin.shaped {s : Session} {kind : Kind} {rows : List Record} {item : Item}
    (h : Origin s kind rows item) (hs : s.Coherent)
    (hitems : ∀ ⦃r a⦄, s.item? r = some a → a.Shaped) (hrows : ∀ row ∈ rows, kind.Shaped row) :
    item.Shaped := by
  cases h with
  | kept hitem => exact hitems hitem
  | loaded _ hrow => exact Item.shaped_loaded (hrows _ hrow)
  | changed hitem _ hrow =>
    exact (hitems hitem).adopt (hs.item_kind hitem ▸ hrows _ hrow)
  | twin hitem _ hrow =>
    exact (hitems hitem).claim (hs.item_kind hitem ▸ hrows _ hrow)
  | settled hitem _ hrow hb =>
    refine Resolved.shaped_outcome? (hitems hitem) (fun row hr => ?_) hb
    exact hs.item_kind hitem ▸ hrows row (hrow row hr)

/-! ### Sessions and their database -/

namespace Session

variable {s s' : Session} {db db₁ db' : Database}

/-- All items are of the right shape. -/
def Shaped (s : Session) : Prop := ∀ ⦃r item⦄, s.item? r = some item → item.Shaped

/-- A row that can be read is of the right shape. -/
theorem shaped_of_localRow? (hsh : db.Shaped) {kind : Kind} {d : DbId} {row r : Record}
    (hrow : db.row? kind d = some row) (hr : s.localRow? kind row = some r) : kind.Shaped r := by
  have htrans := localRow?_eq_some_iff.1 hr
  have hlinked : kind.Linked r := by
    intro e he
    obtain ⟨n, hn⟩ := hsh.refs hrow e he
    rcases htrans.translated e he with ⟨hnull, -⟩ | ⟨-, id, -, -, hid⟩
    · rw [hn] at hnull
      cases hnull
    · exact ⟨id, hid⟩
  refine ⟨fun field hf => ?_, hlinked⟩
  by_cases href : field ∈ kind.references.map (·.1)
  · obtain ⟨e, he, rfl⟩ := List.mem_map.1 href
    obtain ⟨id, hid⟩ := hlinked e he
    exact ⟨_, hid⟩
  · rw [htrans.same field href]
    exact hsh.covers hrow field hf

theorem shaped_of_readable (hsh : db.Shaped) {kind : Kind} {r : Record}
    (hr : r ∈ s.readable kind (db.rows kind)) : kind.Shaped r := by
  obtain ⟨row, hrow, hlocal⟩ := mem_readable_iff.1 hr
  obtain ⟨d, hd⟩ := Database.mem_rows_iff.1 hrow
  exact shaped_of_localRow? hsh hd hlocal

theorem Fetches.shaped {kind : Kind} (hs : s.WellFormed) (h : s.Shaped) (hsh : db.Shaped)
    (hf : s.Fetches kind (db.rows kind) s') : s'.Shaped := by
  rintro ⟨k, id⟩ item hi
  by_cases hk : k = kind
  · subst hk
    exact (hf.origin hi).shaped hs.toCoherent h fun r hr => shaped_of_readable hsh hr
  · exact h (hf.item? (r := ⟨k, id⟩) hk hi)

theorem Pulls.shaped {kinds : List Kind} (hp : Pulls db kinds s s') (hs : s.WellFormed)
    (h : s.Shaped) (hsh : db.Shaped) : s'.Shaped := by
  induction hp with
  | nil => exact h
  | cons hf _ ih => exact ih hf.wellFormed (hf.shaped hs h hsh)

theorem Shaped.atCommit (h : s.Shaped) (hs : s.WellFormed) (hdb : db.Sound) (hsh : db.Shaped) :
    (s.atCommit db).Shaped := by
  rcases atCommit_cases hs hdb with ⟨heq, -⟩ | ⟨-, s₁, heq, hp⟩
  · rw [heq]; exact h
  · rw [heq]; exact hp.shaped hs h hsh

theorem Rewrites.shaped {R : Item → Item → Prop} (hr : Rewrites R s s') (h : s.Shaped)
    (hR : ∀ {a b}, a.Shaped → R a b → b.Shaped) : s'.Shaped := by
  intro r b hb
  obtain ⟨a, ha, hab⟩ := hr.some_of hb
  exact hR (h ha) hab

/-- A content without a fault has items in the fields of references. -/
theorem linked_of_contentFault? {kind : Kind} {content : Record} (hc : kind.Complete content)
    {exclude : Option ItemId} (h : s.contentFault? kind content exclude = none) :
    kind.Linked content := by
  intro e he
  obtain ⟨id, hid, -⟩ := contentFault?_eq_none hc h e he
  exact ⟨id, hid⟩

theorem Shaped.add (h : s.Shaped) {kind : Kind} {given : Record} {id : ItemId}
    (hadd : s.add kind given = .ok (id, s')) : s'.Shaped := by
  obtain ⟨-, -, -, hfault⟩ := add_eq_ok hadd
  intro r item hi
  rw [item?_add hadd] at hi
  split at hi
  next =>
    obtain rfl := Option.some.inj hi
    have hc := kind.complete_completed given
    exact Item.shaped_added hc (linked_of_contentFault? hc hfault)
  next => exact h hi

theorem Shaped.update (h : s.Shaped) (hs : s.WellFormed) {r : ItemRef} {changes : Record}
    (hup : s.update r changes = .ok s') : s'.Shaped := by
  obtain ⟨item, hitem, -, hknown, hfault, rfl⟩ := update_eq_ok hup
  have hk := hs.item_kind hitem
  have hget := hs.named.item?_modify hitem (·.ref_edit changes)
  intro r' b hb
  rw [hget] at hb
  split at hb
  next =>
    obtain rfl := Option.some.inj hb
    have hc : item.kind.Complete (item.content.insertAll changes) :=
      (h hitem).complete.insertAll (by rw [hk]; exact hknown)
    rw [← hk] at hfault
    exact (h hitem).edit hc (linked_of_contentFault? hc hfault)
  next => exact h hb

variable {reserved : List (ItemId × DbId)} {id : CommitId}

/-- What is stored for an item of the right shape is of the right shape. -/
theorem shaped_storedRow {item : Item} {d : DbId} {row : Record} (h : item.Shaped)
    (hstored : s.storedRow reserved item d = .ok row) (v : Value) :
    item.kind.Covers (row.insert Record.commitField v) ∧
      ∀ e ∈ item.kind.references, ∃ n,
        (row.insert Record.commitField v).get? e.1 = some (.integer n) := by
  obtain ⟨base, htrans, rfl⟩ := storedRow_eq_ok_iff.1 hstored
  have hrefs : ∀ e ∈ item.kind.references, ∃ n, base.get? e.1 = some (.integer n) := by
    intro e he
    obtain ⟨y, hy⟩ := h.linked e he
    rcases htrans.translated e he with ⟨-, d', -, -, hd⟩ | ⟨hnot, -⟩
    · exact ⟨d'.val, hd⟩
    · exact absurd hy (hnot y)
  have hbase : item.kind.Covers base := by
    intro field hf
    by_cases href : field ∈ item.kind.references.map (·.1)
    · obtain ⟨e, he, rfl⟩ := List.mem_map.1 href
      obtain ⟨n, hn⟩ := hrefs e he
      exact ⟨_, hn⟩
    · rw [htrans.same field href]
      exact h.complete.covers field hf
  constructor
  · intro field hf
    rw [Kind.get?_stamped hf]
    exact hbase field hf
  · intro e he
    rw [Kind.get?_stamped (item.kind.referenceFields_subset e.1
      (Kind.mem_referenceFields he))]
    exact hrefs e he

theorem Commits.shaped (h : s.Commits db reserved id s' db') (hs : s.WellFormed)
    (hres : s.Reserves db reserved db₁) (hsh : s.Shaped) : s'.Shaped := by
  intro r b hb
  obtain ⟨a, ha, -, ⟨-, rfl⟩ | ⟨d, row, -, -, -, -, rfl⟩⟩ := h.item_cases hs hres hb
  · exact hsh ha
  · exact (hsh ha).written d id

/-- A commit of a session of the right shape leaves rows of the right shape. -/
theorem Commits.shaped_store (h : s.Commits db reserved id s' db') (hs : s.WellFormed)
    (hsh : s.Shaped) (hdb : db.Shaped) : db'.Shaped := by
  have hrow : ∀ {kind d row}, db'.row? kind d = some row → kind.Covers row ∧
      ∀ e ∈ kind.references, ∃ n, row.get? e.1 = some (.integer n) := by
    intro kind d row hrow
    rcases h.writes.row_cases hrow with hold | ⟨i, item, stored, hi, hstored, rfl⟩
    · exact ⟨hdb.covers hold, hdb.refs hold⟩
    · have hk : item.kind = kind := hs.item_kind hi
      exact hk ▸ shaped_storedRow (hsh hi) hstored _
  exact ⟨fun _ _ _ hr => (hrow hr).1, fun _ _ _ hr => (hrow hr).2⟩

theorem shaped_reserved (hsh : db.Shaped) (hres : db.Reserved db') : db'.Shaped := by
  constructor
  · intro kind d row hrow
    exact hsh.covers ((hres.row?_eq kind d).symm.trans hrow)
  · intro kind d row hrow
    exact hsh.refs ((hres.row?_eq kind d).symm.trans hrow)

/-- Every command leaves items and rows of the right shape. -/
theorem Step.shaped {command : Command} (h : s.Step db command s' db') (hs : s.WellFormed)
    (hsh : s.Shaped) (hdb : db.Sound) (hshdb : db.Shaped) : s'.Shaped ∧ db'.Shaped := by
  cases h with
  | idle => exact ⟨hsh, hshdb⟩
  | add h => exact ⟨hsh.add h, hshdb⟩
  | update h => exact ⟨hsh.update hs h, hshdb⟩
  | remove h =>
    refine ⟨(rewrites_remove hs h).shaped hsh ?_, hshdb⟩
    rintro a b ha (rfl | ⟨-, source, rfl⟩)
    · exact ha
    · exact ha.markRemoved source
  | restore h =>
    refine ⟨(rewrites_restore hs h).shaped hsh ?_, hshdb⟩
    rintro a b ha (rfl | rfl)
    · exact ha
    · exact ha.restored
  | fetch h => exact ⟨h.shaped hs hsh hshdb, hshdb⟩
  | refresh h => exact ⟨h.shaped hs hsh hshdb, hshdb⟩
  | refused h => exact ⟨hsh.atCommit hs hdb hshdb, shaped_reserved hshdb h⟩
  | commit hres h =>
    have hmid := hsh.atCommit hs hdb hshdb
    have hwf := wellFormed_atCommit hs hdb
    exact ⟨h.shaped hwf hres hmid, h.shaped_store hwf hmid hshdb⟩
  | rollBack h =>
    obtain ⟨-, -, -, hitem⟩ := rollBack_spec hs h
    refine ⟨fun r b hb => ?_, hshdb⟩
    rw [hitem] at hb
    obtain ⟨a, ha, hb⟩ := Option.bind_eq_some_iff.1 hb
    exact (hsh ha).rolledBack hb
  | reset => exact ⟨fun r b hb => hsh (item?_reset hb), hshdb⟩

end Session

/-- What a run keeps true of a database. -/
structure Database.Regular (db : Database) : Prop extends db.Sound where
  shaped : db.Shaped

/-- What a run keeps true of a session. -/
structure Session.Regular (s : Session) (db : Database) : Prop extends s.Informed db where
  shaped : s.Shaped

namespace Session

variable {s s' : Session} {db db' : Database}

theorem Regular.advances (h : s.Regular db) (ha : db.Advances db') : s.Regular db' :=
  ⟨h.toInformed.advances ha, h.shaped⟩

theorem Regular.atCommit (h : s.Regular db) (hdb : db.Regular) : (s.atCommit db).Regular db :=
  ⟨h.toInformed.atCommit hdb.toSound, h.shaped.atCommit h.toWellFormed hdb.toSound hdb.shaped⟩

/-- What a command does to a regular session. -/
theorem Regular.step (h : s.Regular db) (hdb : db.Regular) {command : Command}
    (hh : command.Honest) (hr : command.InRange s db) :
    s.Step db command (s.outcome db command).1 (s.outcome db command).2 :=
  step_run h.toWellFormed h.bounded hdb.toSound hh hr

theorem Step.regular {command : Command} (h : s.Step db command s' db') (hs : s.Regular db)
    (hdb : db.Regular) : s'.Regular db' ∧ db'.Regular ∧ db.Advances db' := by
  obtain ⟨hinf, hadv⟩ := h.informed hs.toInformed hdb.toSound
  obtain ⟨hsh, hshdb⟩ := h.shaped hs.toWellFormed hs.shaped hdb.toSound hdb.shaped
  exact ⟨⟨hinf, hsh⟩, ⟨hadv.sound, hshdb⟩, hadv⟩

end Session

namespace Workspace

variable {w : Workspace Database}

theorem regular_new : (new Database.empty).All Database.Regular Session.Regular := by
  refine ⟨⟨Database.sound_empty, ?_, ?_⟩, fun _ _ h => nomatch h⟩
  · intro kind d row hrow; cases hrow
  · intro kind d row hrow; cases hrow

theorem regular_act (hw : w.All Database.Regular Session.Regular) {e : Event} (he : w.Orderly e) :
    (w.act e).All Database.Regular Session.Regular := by
  refine hw.act ?_ ?_
  · exact fun name config _ => ⟨Session.informed_new config w.store, fun _ _ h => nomatch h⟩
  · rintro name command s rfl hs
    obtain ⟨hh, hr⟩ := he s hs
    obtain ⟨hs', hdb', hadv⟩ :=
      ((hw.session hs).step hw.store hh hr).regular (hw.session hs) hw.store
    exact ⟨hdb', hs', fun t ht => ht.advances hadv⟩

/-- What every command of a session keeps that meets a condition, the session has after any run,
however the other sessions behave. -/
theorem heeding_of_reachable {name : String} {P : Session → Database → Command → Prop}
    {K : Session → Prop} (hw : w.Reachable fun w e => w.Orderly e ∧ w.Heeds name P e)
    (hnew : ∀ config count, K (.new config count))
    (hstep : ∀ {s db command}, s.Regular db → db.Regular → command.Honest → command.InRange s db →
      P s db command → K s → K (s.outcome db command).1) :
    w.All Database.Regular Session.Regular ∧ ∀ s, w.session? name = some s → K s := by
  refine hw.invariant (I := fun w => w.All Database.Regular Session.Regular ∧
    ∀ s, w.session? name = some s → K s) ⟨regular_new, fun _ h => nomatch h⟩ ?_
  rintro w e ⟨hreg, hK⟩ ⟨hord, hheeds⟩
  refine ⟨regular_act hreg hord, fun s' hs' => ?_⟩
  cases e with
  | connect n config =>
    rw [session?_connect] at hs'
    split at hs'
    · exact Option.some.inj hs' ▸ hnew _ _
    · exact hK s' hs'
  | ask n command =>
    cases hs : w.session? n with
    | none => exact hK s' (by rwa [act_ask_none hs command] at hs')
    | some s =>
      rw [(act_ask hs command).2] at hs'
      split at hs'
      next heq =>
        obtain rfl := Option.some.inj hs'
        obtain ⟨hh, hr⟩ := hord s hs
        exact hstep (hreg.session hs) hreg.store hh hr (hheeds heq.symm s hs) (hK s (heq ▸ hs))
      next => exact hK s' hs'

/-- What every step of a regular session keeps, all sessions have after any orderly run. -/
theorem kept_of_reachable {J : Session → Prop} (hw : w.Reachable Orderly)
    (hnew : ∀ config count, J (.new config count))
    (hstep : ∀ {s s' : Session} {db db' : Database} {command : Command},
      s.Step db command s' db' → s.Regular db → db.Regular → J s → J s') :
    w.All Database.Regular fun s db => s.Regular db ∧ J s := by
  refine hw.invariant ⟨regular_new.store, fun _ _ h => nomatch h⟩ fun w e hw he => hw.act ?_ ?_
  · intro name config _
    exact ⟨⟨Session.informed_new config w.store, fun _ _ h => nomatch h⟩, hnew config _⟩
  · rintro name command s rfl hs
    obtain ⟨hh, hr⟩ := he s hs
    obtain ⟨hreg, hJ⟩ := hw.session hs
    have hdone := hreg.step hw.store hh hr
    obtain ⟨hreg', hdb', hadv⟩ := hdone.regular hreg hw.store
    exact ⟨hdb', ⟨hreg', hstep hdone hreg hw.store hJ⟩, fun t ht => ⟨ht.1.advances hadv, ht.2⟩⟩

/-- After any orderly run the database and all sessions are regular. -/
theorem regular_of_reachable (hw : w.Reachable Orderly) :
    w.All Database.Regular Session.Regular :=
  hw.invariant regular_new fun _ _ hw he => regular_act hw he

end Workspace

end StagedEdits
