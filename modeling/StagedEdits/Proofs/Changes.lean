import StagedEdits.Proofs.PendingReferences

/-!
# What a commit changes

A commit that succeeds writes the pending items, each to a row of its own, and changes nothing else
(`Session.Publishes`).  What is written for an item is its content, with the row of each item that it
refers to (`Session.Holds`): pending items refer to live items, and all of these have rows by the time
the batch is made.
-/

namespace StagedEdits

namespace Session

/-- A row holds the content of an item of session `s`: a field that refers to an item holds the identity
of the row that this item has, or, if it has none, of the one that it has got in session `s'`. -/
structure Holds (s s' : Session) (item : Item) (row : Record) : Prop where
  plain : ∀ field, field ≠ Record.idField → field ≠ Record.commitField →
    field ∉ item.kind.references.map (·.1) → row.get? field = item.content.get? field
  refers : ∀ e ∈ item.kind.references, ∃ target x n, item.content.get? e.1 = some (.ref target) ∧
    s.item? ⟨e.2, target⟩ = some x ∧ row.get? e.1 = some (.integer n) ∧
    (x.dbId = some ⟨n⟩ ∨
      x.dbId = none ∧ ∃ y, s'.item? ⟨e.2, target⟩ = some y ∧ y.dbId = some ⟨n⟩)

/-- Commit `id` has written item `a` of session `s` to row `d`. -/
structure Puts (s : Session) (id : CommitId) (s' : Session) (db' : Database) (r : ItemRef) (a : Item)
    (d : DbId) : Prop where
  row : ∃ row, db'.row? r.kind d = some row ∧ row.dbId? = some d ∧ row.commitId? = some id ∧
    s.Holds s' a row
  item : ∃ b, s'.item? r = some b ∧ b.status = .committed ∧ b.commitId = some id ∧
    b.dbId = some d ∧ b.content = a.content

/-- Session `s` and its database after a commit that wrote exactly the pending items. -/
structure Publishes (s : Session) (db : Database) (info : CommitInfo) (id : CommitId) (s' : Session)
    (db' : Database) : Prop where
  commits : db'.commits = db.commits ++ [info]
  id_eq : id.val = db.commits.length + 1
  /-- Beyond the identities that were reserved none are used up. -/
  lastId : ∃ before, db.Reserved before ∧ ∀ kind, db'.lastId kind = before.lastId kind
  /-- An added item is written to a row whose identity was never given out before. -/
  added : ∀ ⦃r a⦄, s.item? r = some a → a.status = .toAdd →
    ∃ d, db.lastId r.kind < d.val ∧ db.row? r.kind d = none ∧ s.Puts id s' db' r a d
  /-- The row of an updated item is replaced. -/
  updated : ∀ ⦃r a⦄, s.item? r = some a → a.status = .toUpdate →
    ∃ d row, a.dbId = some d ∧ db.row? r.kind d = some row ∧ s.Puts id s' db' r a d
  removed : ∀ ⦃r a d⦄, s.item? r = some a → a.status = .toRemove → a.dbId = some d →
    db'.row? r.kind d = none
  /-- A row that is neither that of an item to remove nor one that an item was written to is
  unchanged. -/
  kept : ∀ ⦃kind d⦄,
    (∀ i a, s.item? ⟨kind, i⟩ = some a → a.status = .toRemove → a.dbId ≠ some d) →
    (∀ i a b, s.item? ⟨kind, i⟩ = some a → a.status = .toAdd ∨ a.status = .toUpdate →
      s'.item? ⟨kind, i⟩ = some b → b.dbId ≠ some d) →
    db'.row? kind d = db.row? kind d
  /-- No two items have the same row. -/
  apart : ∀ ⦃kind i j a b d⦄, s'.item? ⟨kind, i⟩ = some a → s'.item? ⟨kind, j⟩ = some b →
    a.dbId = some d → b.dbId = some d → i = j
  committed : ∀ ⦃r a⦄, s.item? r = some a → a.status = .committed → s'.item? r = some a
  dropped : ∀ ⦃r a⦄, s.item? r = some a → a.removed = true → s'.item? r = none
  absent : ∀ ⦃r⦄, s.item? r = none → s'.item? r = none

variable {s s' : Session} {db db₁ db' : Database} {reserved : List (ItemId × DbId)} {id : CommitId}
  {r : ItemRef} {a : Item} {d : DbId}

/-- A pending item that is not removed is committed in the end, with the row it was written to. -/
theorem Commits.item?_of_written (h : s.Commits db reserved id s' db') (hs : s.Coherent)
    (hres : s.Reserves db reserved db₁) (ha : s.item? r = some a)
    (hst : a.status = .toAdd ∨ a.status = .toUpdate) (hgoal : s.goal? reserved r = some d) :
    s'.item? r = some (a.written d id) := by
  obtain ⟨hlive, hdirty⟩ := Item.live_of_unwritten hst
  rw [h.item?, committedItem?, ha, Option.bind_some, if_neg (Bool.eq_false_iff.1 hlive),
    if_neg hdirty, writeItem, or_dbId_eq_goal? hs hres ha, hgoal]

/-- The row that is stored for a pending item holds its content. -/
theorem Commits.holds (h : s.Commits db reserved id s' db') (hs : s.Regular db)
    (hp : s.PendingLive) (hres : s.Reserves db reserved db₁) (ha : s.item? r = some a)
    (hst : a.status = .toAdd ∨ a.status = .toUpdate) {row : Record}
    (hstored : s.storedRow reserved a d = .ok row) :
    s.Holds s' a (row.insert Record.commitField (.integer id.val)) := by
  obtain ⟨base, htrans, rfl⟩ := storedRow_eq_ok_iff.1 hstored
  obtain ⟨hlive, hdirty⟩ := Item.live_of_unwritten hst
  constructor
  case plain =>
    intro field hid hcommit href
    rw [base.get?_stamped_of_ne _ _ hid hcommit]
    exact htrans.same field href
  case refers =>
    intro e he
    rw [base.get?_stamped_of_reference _ _ he]
    obtain ⟨target, htarget⟩ := (hs.shaped ha).linked e he
    -- what the item refers to is there
    have hmem : (⟨e.2, target⟩ : ItemRef) ∈ a.references :=
      Item.mem_references_iff.2 ⟨e.1, he, htarget⟩
    obtain ⟨x, hx, -⟩ := isLive_iff.1 (hp ha hlive hdirty _ hmem)
    rcases htrans.translated e he with ⟨target', n, ht, hrow, hbase⟩ | ⟨hnot, -⟩
    · obtain rfl := Value.ref.inj (Option.some.inj (htarget.symm.trans ht))
      refine ⟨target, x, n.val, htarget, hx, hbase, ?_⟩
      unfold rowOf? at hrow
      rw [hx, Option.bind_some, Option.or_eq_some_iff] at hrow
      refine hrow.imp_right ?_
      rintro ⟨hnone, hl⟩
      refine ⟨hnone, x.written n id, ?_, rfl⟩
      have hadd : x.status = .toAdd := by
        by_contra hadd
        rw [lookup_eq_none hs.toCoherent hres hx hadd] at hl
        cases hl
      exact h.item?_of_written hs.toCoherent hres hx (.inl hadd) ((goal?_of_added hx hadd).trans hl)
    · exact absurd htarget (hnot target)

/-- What a commit makes of a pending item that is not removed. -/
theorem Commits.puts (h : s.Commits db reserved id s' db') (hs : s.Regular db)
    (hp : s.PendingLive) (hres : s.Reserves db reserved db₁) (ha : s.item? r = some a)
    (hst : a.status = .toAdd ∨ a.status = .toUpdate) :
    ∃ d, s.goal? reserved r = some d ∧ s.Puts id s' db' r a d := by
  obtain ⟨d, row, hgoal, hstored, hrow⟩ := h.writes.written ha hst
  refine ⟨d, hgoal, ⟨_, hrow, ?_, Record.commitId?_stamped .., h.holds hs hp hres ha hst hstored⟩,
    _, h.item?_of_written hs.toCoherent hres ha hst hgoal, rfl, rfl, rfl, rfl⟩
  rw [Record.dbId?_stamped]
  exact dbId?_storedRow hstored

/-- The rows that a batch is about have identities that were given out before. -/
theorem Reserves.target_le (hres : s.Reserves db reserved db₁) (hs : s.WellFormed)
    (hb : s.Bounded db) {batch : List Mutation} (hbatch : s.batch s.pending reserved = .ok batch)
    {kind : Kind} (hmem : (kind, d) ∈ batch.filterMap Mutation.target?) :
    d.val ≤ db₁.lastId kind := by
  rw [targets_batch hs.toCoherent hbatch] at hmem
  obtain ⟨r, -, htarget⟩ := List.mem_filterMap.1 hmem
  obtain ⟨d', hgoal, he⟩ := Option.map_eq_some_iff.1 htarget
  cases he
  obtain ⟨a, ha, hgoal⟩ := Option.bind_eq_some_iff.1 hgoal
  split at hgoal
  next =>
    obtain ⟨kind, x, hx, -, -, hle⟩ := hres.given hgoal
    obtain rfl := hs.one_kind hx ha
    exact hle
  next => exact Int.le_trans (hb ha hgoal) (hres.lastId_le _)

/-- The row of an item to update was there before. -/
theorem exists_row_of_accepted (hs : s.Coherent) (hres : s.Reserves db reserved db₁)
    {batch : List Mutation} (hbatch : s.batch s.pending reserved = .ok batch)
    (haccepted : ∀ m ∈ batch, db₁.refusal? m = none) (ha : s.item? r = some a)
    (hst : a.status = .toUpdate) : ∃ d row, a.dbId = some d ∧ db.row? r.kind d = some row := by
  obtain ⟨d, row, hd, hstored, hmem⟩ := update_mem_batch hs hbatch ha hst
  have hrefusal := haccepted _ hmem
  unfold Database.refusal? at hrefusal
  dsimp only at hrefusal
  rw [dbId?_storedRow hstored] at hrefusal
  dsimp only at hrefusal
  split at hrefusal
  next hcontains =>
    obtain ⟨old, hold⟩ := SortedMap.contains_iff.1 hcontains
    exact ⟨d, old, hd, (hres.row?_eq r.kind d).symm.trans hold⟩
  next => cases hrefusal

/-- A commit whose batch is carried out writes exactly the pending items. -/
theorem Commits.publishes (h : s.Commits db reserved id s' db') (hs : s.Regular db)
    (hdb : db.Sound) (hp : s.PendingLive) (hres : s.Reserves db reserved db₁)
    {batch : List Mutation} (hbatch : s.batch s.pending reserved = .ok batch) {info : CommitInfo}
    (happly : db₁.apply info batch = (.ok id, db')) : s.Publishes db info id s' db' := by
  have hwf := hs.toWellFormed
  constructor
  case commits => rw [Database.commits_apply happly, hres.commits]
  case id_eq => exact h.commit_eq
  case lastId =>
    refine ⟨db₁, hres.toReserved, fun kind => Database.lastId_apply happly (fun k d hmem => ?_) kind⟩
    exact hres.target_le hwf hs.bounded hbatch hmem
  case added =>
    intro r a ha hst
    obtain ⟨d, hgoal, hputs⟩ := h.puts hs hp hres ha (.inl hst)
    have hl := (goal?_of_added ha hst).symm.trans hgoal
    obtain ⟨kind, x, hx, -, hlt, -⟩ := hres.given hl
    obtain rfl := hwf.one_kind hx ha
    exact ⟨d, hlt, hres.row?_eq_none hwf.toCoherent hdb ha hl, hputs⟩
  case updated =>
    intro r a ha hst
    obtain ⟨d, hgoal, hputs⟩ := h.puts hs hp hres ha (.inr hst)
    obtain ⟨d', row, hd, hrow⟩ := exists_row_of_accepted hwf.toCoherent hres hbatch
      (Database.applies_apply hres.sound happly).accepted ha hst
    have heq := (goal?_of_not_added ha (by rw [hst]; decide)).symm.trans hgoal
    obtain rfl := Option.some.inj (hd.symm.trans heq)
    exact ⟨d', row, hd, hrow, hputs⟩
  case removed => exact h.writes.deleted
  case kept =>
    intro kind d hremoved hwritten
    refine h.writes.kept ?_
    rintro ⟨k, i⟩ a ha rfl hpending hgoal
    rcases or_assoc.2 (Item.status_of_pending hpending) with hst | hst
    · exact hwritten i a _ ha hst (h.item?_of_written hwf.toCoherent hres ha hst hgoal) rfl
    · exact hremoved i a ha hst ((goal?_of_not_added ha (by rw [hst]; decide)).symm.trans hgoal)
  case apart => exact fun _ _ _ _ _ _ ha hb hda hdb => h.wellFormed.dbId_injective ha hb hda hdb
  case committed =>
    intro r a ha hst
    rw [h.item?, committedItem?, ha, Option.bind_some, if_neg (by rw [Item.removed, hst]; decide),
      if_pos hst]
  case dropped =>
    intro r a ha hrem
    rw [h.item?, committedItem?, ha, Option.bind_some, if_pos hrem]
  case absent =>
    intro r hnone
    rw [h.item?, committedItem?, hnone, Option.bind_none]

end Session

namespace Workspace

variable {w : Workspace Database} {name comment : String} {s : Session} {id : CommitId}

/-- What there is to know of a commit that succeeds after an orderly run. -/
theorem exists_commits_of_ok (hw : w.Reachable Orderly) (hs : w.session? name = some s)
    (he : w.Orderly (.ask name (.commit comment)))
    (hok : (w.perform name s (.commit comment)).1 = .ok (.commit id)) :
    (s.atCommit w.store).Regular w.store ∧ (s.atCommit w.store).PendingLive ∧
      ∃ s' db₁ reserved batch,
        (w.act (.ask name (.commit comment))).session? name = some s' ∧
        (s.atCommit w.store).Reserves w.store reserved db₁ ∧
        (s.atCommit w.store).Commits w.store reserved id s'
          (w.act (.ask name (.commit comment))).store ∧
        (s.atCommit w.store).batch (s.atCommit w.store).pending reserved = .ok batch ∧
        db₁.apply ⟨comment, s.config.user⟩ batch =
          (.ok id, (w.act (.ask name (.commit comment))).store) := by
  obtain ⟨hdb, hall⟩ := pendingLive_of_reachable hw
  obtain ⟨hreg, hlive⟩ := hall hs
  obtain ⟨id', s', db₁, reserved, batch, hid, hcommits⟩ :=
    commits_of_ok hs hreg.toWellFormed hreg.bounded hdb.toSound ((he s hs).2 rfl) hok
  cases hid
  exact ⟨hreg.atCommit hdb, hlive.atCommit hreg hdb, s', db₁, reserved, batch, hcommits⟩

/-- After any orderly run, a commit that succeeds writes exactly what is pending in the session once it
is refreshed. -/
theorem publishes_of_commit (hw : w.Reachable Orderly) (hs : w.session? name = some s)
    (he : w.Orderly (.ask name (.commit comment)))
    (hok : (w.perform name s (.commit comment)).1 = .ok (.commit id)) :
    ∃ s', (w.act (.ask name (.commit comment))).session? name = some s' ∧
      (s.atCommit w.store).Publishes w.store ⟨comment, s.config.user⟩ id s'
        (w.act (.ask name (.commit comment))).store := by
  obtain ⟨hmid, hlive, s', db₁, reserved, batch, hs', hres, hc, hbatch, happly⟩ :=
    exists_commits_of_ok hw hs he hok
  exact ⟨s', hs',
    hc.publishes hmid (regular_of_reachable hw).store.toSound hlive hres hbatch happly⟩

/-- A session has committed a class and two alternatives.  It has changed one alternative, removed the
other one, and added entities of the class and of a new one. -/
def mixedEdits : List Event :=
  [.connect "a" {}, .ask "a" (.add .entityClass (.ofList [("name", .text "unit")])),
    .ask "a" (.add .alternative (.ofList [("name", .text "base")])),
    .ask "a" (.add .alternative (.ofList [("name", .text "high")])), .ask "a" (.commit "add"),
    .ask "a" (.update ⟨.alternative, ⟨2⟩⟩ (.ofList [("description", .text "mine")])),
    .ask "a" (.remove ⟨.alternative, ⟨3⟩⟩),
    .ask "a" (.add .entity (.ofList [("class_id", .ref .first), ("name", .text "plant")])),
    .ask "a" (.add .entityClass (.ofList [("name", .text "node")])),
    .ask "a" (.add .entity (.ofList [("class_id", .ref ⟨5⟩), ("name", .text "hub")]))]

set_option maxRecDepth 4000 in
theorem publishes_of_commit_of_mixedEdits : ∃ (w : Workspace Database) (s s' : Session),
    w.Reachable Orderly ∧ w.session? "a" = some s ∧ w.Orderly (.ask "a" (.commit "change")) ∧
      (w.perform "a" s (.commit "change")).1 = .ok (.commit ⟨2⟩) ∧
      (w.act (.ask "a" (.commit "change"))).session? "a" = some s' ∧
      (s.atCommit w.store).Publishes w.store ⟨"change", s.config.user⟩ ⟨2⟩ s'
        (w.act (.ask "a" (.commit "change"))).store := by
  have hrun : Run Plain (new .empty) mixedEdits := by decide +kernel
  have hreach := hrun.reachable
  have hcheck : (((new .empty).after mixedEdits).session? "a").any (fun s =>
      decide (Plain ((new .empty).after mixedEdits) (.ask "a" (.commit "change"))) &&
      decide ((((new .empty).after mixedEdits).perform "a" s (.commit "change")).1 =
        .ok (.commit ⟨2⟩))) = true := by decide +kernel
  obtain ⟨s, hs, hcheck⟩ := (Option.any_eq_true ..).1 hcheck
  simp only [Bool.and_eq_true, decide_eq_true_eq] at hcheck
  obtain ⟨hplain, hok⟩ := hcheck
  obtain ⟨s', hs', hpub⟩ := publishes_of_commit hreach hs hplain.orderly hok
  exact ⟨_, s, s', hreach, hs, hplain.orderly, hok, hs', hpub⟩

end Workspace

end StagedEdits
