import StagedEdits.Proofs.Run

/-!
# What a commit overwrites

A session notices that others have committed by the number of commits, and a refresh takes in the
tables that it has fetched.  `Session.Informed` is what this leaves it with after any run: if it
knows all commits, the rows of those tables are the ones that its items last agreed with.  A commit
therefore overwrites or deletes a row of a fetched table only as the session has seen it
(`Workspace.commit_overwrites_seen_rows`).

A refresh counts all commits as known, also those that wrote to tables which it does not take in.  What
others have stored for an item of such a table is overwritten without a conflict
(`Workspace.overwrites_unseen_row`).  In the tables that it does take in, a row nobody has written can
still read differently, as its references can lead to other items by now
(`Workspace.overwrites_row_read_differently`).
-/

namespace StagedEdits

namespace Item

/-- The row that an item last agreed with was stored once.  If the row that is stored now is stamped
with the same commit, it is still that row, but for the references. -/
def Recalls (item : Item) (kind : Kind) (db : Database) : Prop :=
  ∀ d row, item.dbId = some d → item.synced = some row → d.val ≤ db.lastId kind ∧
    (∃ c, row.commitId? = some c ∧ c.val ≤ db.commits.length) ∧
    ∀ stored, db.row? kind d = some stored → stored.commitId? = row.commitId? →
      stored.SameButReferences kind row

/-- The row that an item last agreed with is the one that is stored, but for the references. -/
def Tracks (item : Item) (kind : Kind) (db : Database) : Prop :=
  ∀ d, item.dbId = some d → item.status.isNew = false →
    ∃ stored row, db.row? kind d = some stored ∧ item.synced = some row ∧
      stored.SameButReferences kind row

variable {a b item : Item} {kind : Kind} {db : Database}

theorem Recalls.edited (h : a.Recalls kind db) (he : a.Edited b) : b.Recalls kind db := by
  intro d row hd hrow
  rw [he.dbId_eq] at hd
  rw [he.synced_eq] at hrow
  exact h d row hd hrow

theorem Tracks.edited (h : a.Tracks kind db) (he : a.Edited b) : b.Tracks kind db := by
  intro d hd hnew
  rw [he.dbId_eq] at hd
  rw [he.synced_eq]
  refine h d hd ?_
  cases ha : a.status.isNew with
  | false => rfl
  | true => rw [he.isNew ha] at hnew; cases hnew

theorem recalls_of_stored (hdb : db.Sound) {d : DbId} {stored row : Record}
    (hd : item.dbId = some d) (hrow : db.row? kind d = some stored) (hsync : item.synced = some row)
    (hsame : stored.SameButReferences kind row) : item.Recalls kind db := by
  intro d' row' hd' hsync'
  obtain rfl := Option.some.inj (hd.symm.trans hd')
  obtain rfl := Option.some.inj (hsync.symm.trans hsync')
  refine ⟨hdb.id_le hrow, ?_, ?_⟩
  · rw [← hsame.commitId?]
    exact hdb.stamped hrow
  · intro stored' hrow' _
    obtain rfl := Option.some.inj (hrow.symm.trans hrow')
    exact hsame

end Item

/-! ### Other sessions -/

/-- How a database changes while others use it: rows that are written are stamped with new
commits. -/
structure Database.Advances (db db' : Database) : Prop where
  sound : db'.Sound
  lastId_le : ∀ kind, db.lastId kind ≤ db'.lastId kind
  commits_le : db.commits.length ≤ db'.commits.length
  row? : ∀ kind d, db'.row? kind d = db.row? kind d ∨
    db.commits.length < db'.commits.length ∧ ∀ row, db'.row? kind d = some row →
      ∃ c, row.commitId? = some c ∧ (db.commits.length : Int) < c.val

namespace Database

variable {db db' : Database}

theorem Reserved.advances (h : db.Reserved db') : db.Advances db' := by
  refine ⟨h.sound, h.lastId_le, Nat.le_of_eq (congrArg List.length h.commits.symm), ?_⟩
  exact fun kind d => .inl (h.row?_eq kind d)

end Database

/-! ### What a session knows -/

namespace Session

variable {s s' : Session} {db db' : Database}

/-- The items of a kind track their rows. -/
def TracksKind (s : Session) (db : Database) (kind : Kind) : Prop :=
  ∀ id item, s.item? ⟨kind, id⟩ = some item → item.Tracks kind db

/-- What a session knows of the database: every row that an item last agreed with was stored, and if
the session knows all commits, the items of the tables that it fetched track their rows. -/
structure Informed (s : Session) (db : Database) : Prop extends s.WellFormed where
  bounded : s.Bounded db
  known_le : s.knownCommits ≤ db.commits.length
  recalls : ∀ ⦃r item⦄, s.item? r = some item → item.Recalls r.kind db
  tracks : s.knownCommits = db.commits.length → ∀ kind ∈ s.fetched, s.TracksKind db kind

theorem informed_new (config : Config) (db : Database) :
    (new config db.commits.length).Informed db where
  toWellFormed := wellFormed_new config _
  bounded := fun _ _ _ h => nomatch h
  known_le := Nat.le_refl _
  recalls := fun _ _ h => nomatch h
  tracks := fun _ _ hk => absurd hk List.not_mem_nil

/-- Commits of others take nothing away from what a session knows. -/
theorem Informed.advances (h : s.Informed db) (ha : db.Advances db') : s.Informed db' where
  toWellFormed := h.toWellFormed
  bounded := fun _ _ _ hi hd => Int.le_trans (h.bounded hi hd) (ha.lastId_le _)
  known_le := Nat.le_trans h.known_le ha.commits_le
  recalls := by
    intro r item hi d row hd hrow
    obtain ⟨hle, ⟨c, hc, hcle⟩, hsame⟩ := h.recalls hi d row hd hrow
    have hcount : (db.commits.length : Int) ≤ db'.commits.length := Int.ofNat_le.2 ha.commits_le
    refine ⟨Int.le_trans hle (ha.lastId_le _), ⟨c, hc, Int.le_trans hcle hcount⟩, ?_⟩
    intro stored hstored hstamp
    rcases ha.row? r.kind d with heq | ⟨-, hnew⟩
    · exact hsame stored (heq ▸ hstored) hstamp
    · obtain ⟨c', hc', hlt⟩ := hnew stored hstored
      rw [hc', hc] at hstamp
      obtain rfl := Option.some.inj hstamp
      omega
  tracks := by
    intro hknown kind hk id item hi d hd hnew
    have hle := h.known_le
    have hle' := ha.commits_le
    obtain ⟨stored, row, hstored, hrow, hsame⟩ :=
      h.tracks (by omega) kind hk id item hi d hd hnew
    rcases ha.row? kind d with heq | ⟨hlt, -⟩
    · exact ⟨stored, row, heq.trans hstored, hrow, hsame⟩
    · omega

/-- Local edits take nothing away either. -/
theorem Informed.of_edited (h : s.Informed db) (hwf : s'.WellFormed)
    (hknown : s'.knownCommits = s.knownCommits) (hfetched : ∀ k ∈ s'.fetched, k ∈ s.fetched)
    (hitem : ∀ ⦃r b⦄, s'.item? r = some b → ∃ a, s.item? r = some a ∧ a.Edited b) :
    s'.Informed db where
  toWellFormed := hwf
  bounded := by
    intro r b d hb hd
    obtain ⟨a, ha, he⟩ := hitem hb
    exact h.bounded ha (he.dbId_eq.symm.trans hd)
  known_le := hknown ▸ h.known_le
  recalls := by
    intro r b hb
    obtain ⟨a, ha, he⟩ := hitem hb
    exact (h.recalls ha).edited he
  tracks := by
    intro heq kind hk id b hb
    obtain ⟨a, ha, he⟩ := hitem hb
    exact (h.tracks (hknown.symm.trans heq) kind (hfetched kind hk) id a ha).edited he

theorem Informed.rewrites (h : s.Informed db) (hr : Rewrites Item.Edited s s') : s'.Informed db :=
  h.of_edited hr.wellFormed hr.frame.knownCommits (fun _ hk => hr.frame.fetched ▸ hk)
    fun _ _ => hr.some_of

theorem Informed.add (h : s.Informed db) {kind : Kind} {fields : Record} {id : ItemId}
    (hadd : s.add kind fields = .ok (id, s')) : s'.Informed db := by
  have hitem := item?_add hadd
  have hwf := wellFormed_add h.toWellFormed hadd
  obtain ⟨-, hs', -⟩ := add_eq_ok hadd
  -- the new item has no row, and the others are as before
  have hold : ∀ {r item}, s'.item? r = some item → item.dbId = none ∨ s.item? r = some item := by
    intro r item hi
    rw [hitem] at hi
    split at hi
    next => exact .inl (Option.some.inj hi ▸ rfl)
    next => exact .inr hi
  have hknown : s'.knownCommits = s.knownCommits := by rw [hs']; rfl
  have hfetched : s'.fetched = s.fetched := by rw [hs']; rfl
  constructor
  case toWellFormed => exact hwf
  case bounded =>
    intro r item d hi hd
    rcases hold hi with hnone | hi
    · rw [hnone] at hd; cases hd
    · exact h.bounded hi hd
  case known_le => exact hknown ▸ h.known_le
  case recalls =>
    intro r item hi d row hd hrow
    rcases hold hi with hnone | hi
    · rw [hnone] at hd; cases hd
    · exact h.recalls hi d row hd hrow
  case tracks =>
    intro heq k hk id item hi d hd hnew
    rcases hold hi with hnone | hi
    · rw [hnone] at hd; cases hd
    · exact h.tracks (hknown ▸ heq) k (hfetched ▸ hk) id item hi d hd hnew

/-! ### Fetching -/

theorem Fetches.recalls {kind : Kind} (h : s.Informed db) (hdb : db.Sound)
    (hf : s.Fetches kind (db.rows kind) s') {r : ItemRef} {item : Item}
    (hi : s'.item? r = some item) : item.Recalls r.kind db := by
  by_cases hk : r.kind = kind
  · obtain ⟨k, id⟩ := r
    cases hk
    intro d row hd hrow
    rcases hf.row_cases h.toCoherent hdb hi hd with ⟨stored, r, hstored, hsync, hlocal⟩ | ⟨-, hold⟩
    · exact Item.recalls_of_stored hdb hd hstored hsync (same_of_localRow? hlocal) d row hd hrow
    · exact h.recalls hold d row hd hrow
  · exact h.recalls (hf.item? hk hi)

/-- The items of a table track their rows once it is fetched. -/
theorem Fetches.tracksKind {kind : Kind} (hs : s.Coherent) (hdb : db.Sound)
    (hf : s.Fetches kind (db.rows kind) s') {k : Kind} (hk : k = kind ∨ s.TracksKind db k) :
    s'.TracksKind db k := by
  intro id item hi d hd hnew
  by_cases heq : k = kind
  · subst heq
    rcases hf.row_cases hs hdb hi hd with ⟨stored, r, hstored, hsync, hlocal⟩ | ⟨hst, -⟩
    · exact ⟨stored, r, hstored, hsync, same_of_localRow? hlocal⟩
    · rw [hst] at hnew; cases hnew
  · exact hk.resolve_left heq id item (hf.item? (r := ⟨k, id⟩) heq hi) d hd hnew

theorem Informed.fetches {kind : Kind} (h : s.Informed db) (hdb : db.Sound)
    (hf : s.Fetches kind (db.rows kind) s') : s'.Informed db where
  toWellFormed := hf.wellFormed
  bounded := hf.bounded h.toCoherent h.bounded hdb
  known_le := hf.knownCommits ▸ h.known_le
  recalls := fun _ _ hi => hf.recalls h hdb hi
  tracks := by
    intro heq k hk
    refine hf.tracksKind h.toCoherent hdb (((mem_fetched_iff hf).1 hk).imp_right fun hk => ?_)
    exact h.tracks (hf.knownCommits ▸ heq) k hk

theorem Pulls.informed {kinds : List Kind} (hp : Pulls db kinds s s') (h : s.Informed db)
    (hdb : db.Sound) : s'.Informed db := by
  induction hp with
  | nil => exact h
  | cons hf _ ih => exact ih (h.fetches hdb hf)

theorem Pulls.tracksKind {kinds : List Kind} (hp : Pulls db kinds s s') (hs : s.WellFormed)
    (hdb : db.Sound) {k : Kind} (hk : k ∈ kinds ∨ s.TracksKind db k) : s'.TracksKind db k := by
  induction hp with
  | nil => exact hk.resolve_left List.not_mem_nil
  | cons hf _ ih =>
    refine ih hf.wellFormed ?_
    rcases hk with hk | hk
    · rcases List.mem_cons.1 hk with rfl | hk
      · exact .inr (hf.tracksKind hs.toCoherent hdb (.inl rfl))
      · exact .inl hk
    · exact .inr (hf.tracksKind hs.toCoherent hdb (.inr hk))

theorem mem_refreshOrder_iff {k : Kind} : k ∈ s.refreshOrder ↔ k ∈ s.fetched := by
  unfold refreshOrder
  rw [List.mem_filter, decide_eq_true_iff]
  exact ⟨fun h => h.2, fun h => ⟨Kind.mem_all k, h⟩⟩

/-- After a refresh a session knows all commits. -/
theorem knownCommits_upToDate (h : s.Informed db) :
    (s.upToDate db).knownCommits = db.commits.length :=
  Nat.max_eq_right h.known_le

theorem Informed.refreshed (h : s.Informed db) (hdb : db.Sound)
    (hp : Pulls db s.refreshOrder s s') : (s'.upToDate db).Informed db := by
  have h' := hp.informed h hdb
  constructor
  case toWellFormed => exact wellFormed_upToDate h'.toWellFormed
  case bounded => exact fun _ _ _ hi hd => h'.bounded hi hd
  case known_le => exact Nat.le_of_eq (knownCommits_upToDate h')
  case recalls => exact fun _ _ hi => h'.recalls hi
  case tracks =>
    intro _ k hk
    have hk : k ∈ s'.fetched := hk
    rw [hp.mem_fetched_iff, mem_refreshOrder_iff, or_self] at hk
    exact hp.tracksKind h.toWellFormed hdb (.inl (mem_refreshOrder_iff.2 hk))

theorem mem_fetched_atCommit (hs : s.WellFormed) (hdb : db.Sound) {k : Kind} :
    k ∈ (s.atCommit db).fetched ↔ k ∈ s.fetched := by
  rcases atCommit_cases hs hdb with ⟨heq, -⟩ | ⟨-, s₁, heq, hp⟩
  · rw [heq]
  · rw [heq]
    exact hp.mem_fetched_iff.trans (by rw [mem_refreshOrder_iff, or_self])

theorem Informed.atCommit (h : s.Informed db) (hdb : db.Sound) : (s.atCommit db).Informed db := by
  rcases atCommit_cases h.toWellFormed hdb with ⟨heq, -⟩ | ⟨-, s₁, heq, hp⟩
  · rw [heq]; exact h
  · rw [heq]; exact h.refreshed hdb hp

/-- A session that refreshes before its commits knows all commits when it writes. -/
theorem Informed.known_atCommit (h : s.Informed db) (hdb : db.Sound)
    (hcfg : s.config.refreshBeforeCommit = true) :
    (s.atCommit db).knownCommits = db.commits.length := by
  rcases atCommit_cases h.toWellFormed hdb with ⟨heq, hle⟩ | ⟨-, s₁, heq, hp⟩
  · rw [heq]; exact Nat.le_antisymm h.known_le (hle hcfg)
  · rw [heq]; exact knownCommits_upToDate (hp.informed h hdb)

/-! ### Committing -/

variable {reserved : List (ItemId × DbId)} {db₁ : Database} {id : CommitId}

/-- A row that a commit leaves behind differently is that of a pending item. -/
theorem Writes.pending_of_ne (h : s.Writes reserved db id db') {kind : Kind} {d : DbId}
    (hne : db'.row? kind d ≠ db.row? kind d) :
    ∃ i item, s.item? ⟨kind, i⟩ = some item ∧ item.status.isPending = true ∧
      s.goal? reserved ⟨kind, i⟩ = some d := by
  by_contra hnone
  refine hne (h.kept ?_)
  rintro ⟨k, i⟩ item hi rfl hpending hgoal
  exact hnone ⟨i, item, hi, hpending, hgoal⟩

/-- A row that a commit leaves behind was there before, or is what an item was written as. -/
theorem Writes.row_cases (h : s.Writes reserved db id db') {kind : Kind} {d : DbId} {row : Record}
    (hrow : db'.row? kind d = some row) :
    db.row? kind d = some row ∨ ∃ i item stored, s.item? ⟨kind, i⟩ = some item ∧
      s.storedRow reserved item d = .ok stored ∧
      row = stored.insert Record.commitField (.integer id.val) := by
  by_cases heq : db'.row? kind d = db.row? kind d
  · exact .inl (heq.symm.trans hrow)
  obtain ⟨i, item, hi, hpending, hgoal⟩ := h.pending_of_ne heq
  by_cases hrem : item.status = .toRemove
  · have hd := (goal?_of_not_added hi (by rw [hrem]; decide)).symm.trans hgoal
    have hnone : db'.row? kind d = none := h.deleted (r := ⟨kind, i⟩) hi hrem hd
    rw [hnone] at hrow
    cases hrow
  · have hst := (or_assoc.2 (Item.status_of_pending hpending)).resolve_right hrem
    obtain ⟨d', stored, hgoal', hstored, hrow'⟩ := h.written hi hst
    obtain rfl := Option.some.inj (hgoal.symm.trans hgoal')
    exact .inr ⟨i, item, stored, hi, hstored, Option.some.inj (hrow.symm.trans hrow')⟩

/-- A row is as it was before a commit, or stamped with it. -/
theorem Commits.stamped (h : s.Commits db reserved id s' db') (kind : Kind) (d : DbId) :
    db'.row? kind d = db.row? kind d ∨
      ∀ row, db'.row? kind d = some row → row.commitId? = some id := by
  by_cases heq : db'.row? kind d = db.row? kind d
  · exact .inl heq
  refine .inr fun row hrow => ?_
  rcases h.writes.row_cases hrow with hold | ⟨i, item, stored, -, -, rfl⟩
  · exact absurd (hrow.trans hold.symm) heq
  · exact Record.commitId?_stamped _ _

theorem Commits.lt_id (h : s.Commits db reserved id s' db') : (db.commits.length : Int) < id.val := by
  rw [h.commit_eq]
  omega

theorem Commits.advances (h : s.Commits db reserved id s' db') : db.Advances db' := by
  have hlen := h.commits_length
  refine ⟨h.sound, h.lastId_le, by omega, fun kind d => (h.stamped kind d).imp_right ?_⟩
  exact fun hstamp => ⟨by omega, fun row hrow => ⟨id, hstamp row hrow, h.lt_id⟩⟩

/-- The items after a commit: those that were written, with the rows that were stored for them, and
committed ones. -/
theorem Commits.item_cases (hs : s.WellFormed) (hres : s.Reserves db reserved db₁)
    (h : s.Commits db reserved id s' db') {r : ItemRef} {b : Item} (hb : s'.item? r = some b) :
    ∃ a, s.item? r = some a ∧ a.removed = false ∧
      ((a.status = .committed ∧ b = a) ∨
        ∃ d row, (a.status = .toAdd ∨ a.status = .toUpdate) ∧ s.goal? reserved r = some d ∧
          s.storedRow reserved a d = .ok row ∧
          db'.row? r.kind d = some (row.insert Record.commitField (.integer id.val)) ∧
          b = a.written d id) := by
  rw [h.item?] at hb
  obtain ⟨a, ha, hb⟩ := Option.bind_eq_some_iff.1 hb
  split at hb
  next => cases hb
  next hlive =>
    refine ⟨a, ha, Bool.eq_false_iff.2 hlive, ?_⟩
    split at hb
    next hst =>
      refine .inl ⟨hst, (Option.some.inj hb).symm⟩
    next hst =>
      have hpend := (Item.status_of_live (Bool.eq_false_iff.2 hlive)).resolve_left hst
      obtain ⟨d, row, hgoal, hstored, hrow⟩ := h.writes.written ha hpend
      refine .inr ⟨d, row, hpend, hgoal, hstored, hrow, ?_⟩
      rw [← Option.some.inj hb]
      unfold writeItem
      rw [or_dbId_eq_goal? hs.toCoherent hres ha, hgoal]

/-- The row of a committed item is left alone: no pending item is written to it. -/
theorem Commits.row?_of_committed (h : s.Commits db reserved id s' db') (hs : s.WellFormed)
    (hb : s.Bounded db) (hres : s.Reserves db reserved db₁) {kind : Kind} {i : ItemId} {a : Item}
    {d : DbId} (ha : s.item? ⟨kind, i⟩ = some a) (hst : a.status = .committed)
    (hd : a.dbId = some d) : db'.row? kind d = db.row? kind d := by
  refine h.writes.kept ?_
  rintro ⟨k, j⟩ x hx rfl hpending hgoal
  obtain rfl := eq_of_goal? hs hb hres hgoal ha hd
  obtain rfl := Option.some.inj (ha.symm.trans hx)
  rw [hst] at hpending
  cases hpending

/-- The row that is stored for an item is the one that the item then agrees with, but for the
references. -/
theorem same_of_storedRow (id : CommitId) {item : Item} {d : DbId} {row r : Record}
    (h : s.storedRow reserved item d = .ok row) (hr : (item.written d id).synced = some r) :
    Record.SameButReferences item.kind (row.insert Record.commitField (.integer id.val)) r := by
  obtain ⟨base, htrans, rfl⟩ := storedRow_eq_ok_iff.1 h
  have heq : r = (item.content.insert Record.idField (.integer d.val)).insert Record.commitField
      (.integer id.val) := (Option.some.inj hr).symm
  intro field hfield
  rw [heq]
  simp only [SortedMap.get?_insert, htrans.same field hfield]

theorem Commits.informed (hs : s.Informed db) (hres : s.Reserves db reserved db₁)
    (h : s.Commits db reserved id s' db') : s'.Informed db' := by
  have hadv := h.advances
  have hlen := h.commits_length
  have hle := hs.known_le
  have hid := h.commit_eq
  have hwritten : ∀ {r : ItemRef} {a : Item} {d row}, s.item? r = some a →
      s.storedRow reserved a d = .ok row →
      db'.row? r.kind d = some (row.insert Record.commitField (.integer id.val)) →
      ∃ r', (a.written d id).synced = some r' ∧
        Record.SameButReferences r.kind (row.insert Record.commitField (.integer id.val)) r' := by
    intro r a d row ha hstored hrow
    refine ⟨_, rfl, ?_⟩
    rw [← hs.item_kind ha]
    exact same_of_storedRow id hstored rfl
  constructor
  case toWellFormed => exact h.wellFormed
  case bounded => exact h.bounded
  case known_le =>
    rw [h.knownCommits]
    split <;> omega
  case recalls =>
    intro r b hb
    obtain ⟨a, ha, -, ⟨-, rfl⟩ | ⟨d, row, -, -, hstored, hrow, rfl⟩⟩ :=
      h.item_cases hs.toWellFormed hres hb
    · exact (hs.advances hadv).recalls ha
    · obtain ⟨r', hsync, hsame⟩ := hwritten ha hstored hrow
      exact Item.recalls_of_stored h.sound rfl hrow hsync hsame
  case tracks =>
    intro heq kind hk i b hb
    -- only a session that knew all commits knows this one
    have hknown : s.knownCommits = db.commits.length := by
      rw [h.knownCommits] at heq
      split at heq <;> omega
    obtain ⟨a, ha, -, ⟨hst, rfl⟩ | ⟨d, row, -, -, hstored, hrow, rfl⟩⟩ :=
      h.item_cases hs.toWellFormed hres hb
    · intro d hd hnew
      obtain ⟨stored, row, hstored, hsync, hsame⟩ :=
        hs.tracks hknown kind (h.fetched ▸ hk) i b ha d hd hnew
      refine ⟨stored, row, ?_, hsync, hsame⟩
      rw [h.row?_of_committed hs.toWellFormed hs.bounded hres ha hst hd, hstored]
    · intro d' hd' _
      obtain ⟨r', hsync, hsame⟩ := hwritten ha hstored hrow
      obtain rfl := Option.some.inj hd'
      exact ⟨_, r', hrow, hsync, hsame⟩

/-! ### All commands -/

/-- Every command leaves a session informed, and the other sessions too. -/
theorem Step.informed {command : Command} (h : s.Step db command s' db') (hs : s.Informed db)
    (hdb : db.Sound) : s'.Informed db' ∧ db.Advances db' := by
  have hsame : db.Advances db := (Database.Reserved.refl hdb).advances
  cases h with
  | idle => exact ⟨hs, hsame⟩
  | add h => exact ⟨hs.add h, hsame⟩
  | update h => exact ⟨hs.rewrites (edits_update hs.toWellFormed h), hsame⟩
  | remove h => exact ⟨hs.rewrites (edits_remove hs.toWellFormed h), hsame⟩
  | restore h => exact ⟨hs.rewrites (edits_restore hs.toWellFormed h), hsame⟩
  | fetch h => exact ⟨h.informed hs hdb, hsame⟩
  | refresh h => exact ⟨hs.refreshed hdb h, hsame⟩
  | refused h => exact ⟨(hs.atCommit hdb).advances h.advances, h.advances⟩
  | commit hres h =>
    have hmid := hs.atCommit hdb
    exact ⟨h.informed hmid hres, h.advances⟩
  | rollBack h =>
    obtain ⟨hframe, -, hwf, -⟩ := rollBack_spec hs.toWellFormed h
    exact ⟨hs.of_edited hwf hframe.knownCommits (fun k hk => hframe.fetched ▸ hk)
      fun _ _ => edited_rollBack hs.toWellFormed h, hsame⟩
  | reset =>
    refine ⟨hs.of_edited (wellFormed_reset hs.toWellFormed _) rfl ?_ ?_, hsame⟩
    · exact fun k hk => (List.mem_filter.1 hk).1
    · exact fun r b hb => ⟨b, item?_reset hb, .refl (hs.consistent (item?_reset hb))⟩

/-- If the items of a table, one by one, do not agree with what a row reads as, then no item that is
found in the table does. -/
theorem localRow?_ne_synced {kind : Kind} {row seen : Record} {i : ItemId} {item : Item}
    (h : (s.all kind).all (fun item => decide (item.synced ≠ s.localRow? kind row)) = true)
    (hi : s.item? ⟨kind, i⟩ = some item) (hseen : item.synced = some seen) :
    s.localRow? kind row ≠ some seen := by
  intro hlocal
  have hid := item_id hi
  have hitem := List.all_eq_true.1 h item (mem_all_iff.2 (by rw [hid]; exact hi))
  exact of_decide_eq_true hitem (hseen.trans hlocal.symm)

end Session

namespace Workspace

variable {w : Workspace Database}

theorem informed_new : (new Database.empty).All Database.Sound Session.Informed :=
  ⟨Database.sound_empty, fun _ _ h => nomatch h⟩

theorem informed_act (hw : w.All Database.Sound Session.Informed) {e : Event} (he : w.Orderly e) :
    (w.act e).All Database.Sound Session.Informed := by
  refine hw.act (fun name config _ => Session.informed_new config w.store) ?_
  rintro name command s rfl hs
  obtain ⟨hh, hr⟩ := he s hs
  have hinf := hw.session hs
  have hstep := Session.step_run hinf.toWellFormed hinf.bounded hw.store hh hr
  obtain ⟨hinf', hadv⟩ := hstep.informed hinf hw.store
  exact ⟨hadv.sound, hinf', fun t ht => ht.advances hadv⟩

/-- After any orderly run every session is informed. -/
theorem informed_of_reachable (hw : w.Reachable Orderly) :
    w.All Database.Sound Session.Informed :=
  hw.invariant informed_new fun _ _ hw he => informed_act hw he

/-- No lost update, as far as a session has fetched.  After every orderly run, a commit of a session
that refreshes before its commits overwrites or deletes only rows of items that are pending in it.  A
row of a table that was fetched is, but for its references, the row that the item last agreed with.
In every table that is so exactly if the row is still stamped with the same commit, and the row reads
exactly as the one that the item agreed with if besides its references still lead to the same items. -/
theorem commit_overwrites_seen_rows {name comment : String} {s : Session} {id : CommitId}
    (hw : w.Reachable Orderly) (hs : w.session? name = some s)
    (he : w.Orderly (.ask name (.commit comment))) (hcfg : s.config.refreshBeforeCommit = true)
    (hok : (w.perform name s (.commit comment)).1 = .ok (.commit id))
    {kind : Kind} {d : DbId} {row : Record} (hrow : w.store.row? kind d = some row)
    (hchanged : (w.act (.ask name (.commit comment))).store.row? kind d ≠ some row) :
    ∃ i item seen, (s.atCommit w.store).item? ⟨kind, i⟩ = some item ∧ item.dbId = some d ∧
      (item.status = .toUpdate ∨ item.status = .toRemove) ∧ item.synced = some seen ∧
      (kind ∈ s.fetched → row.SameButReferences kind seen) ∧
      (row.SameButReferences kind seen ↔ row.commitId? = seen.commitId?) ∧
      ((s.atCommit w.store).localRow? kind row = some seen ↔
        row.SameButReferences kind seen ∧ ∀ e ∈ kind.references,
          (s.atCommit w.store).ReadsAs e.2 (row.get? e.1) (seen.get? e.1)) := by
  obtain ⟨hdb, hall⟩ := informed_of_reachable hw
  have hinf := hall hs
  have hmid := hinf.atCommit hdb
  obtain ⟨id', s', db₁, reserved, batch, -, -, -, hcommits, -⟩ :=
    commits_of_ok hs hinf.toWellFormed hinf.bounded hdb ((he s hs).2 rfl) hok
  rw [← hrow] at hchanged
  obtain ⟨i, item, hi, hpending, hgoal⟩ := hcommits.writes.pending_of_ne hchanged
  have hadd : item.status ≠ .toAdd := by
    intro hst
    rw [hcommits.writes.fresh hi hst hgoal] at hrow
    cases hrow
  have hd : item.dbId = some d := by
    rw [← hgoal, Session.goal?_of_not_added hi hadd]
  have hst := (Item.status_of_pending hpending).resolve_left hadd
  obtain ⟨seen, hseen, -⟩ : ∃ seen, item.synced = some seen ∧ seen.dbId? = some d := by
    rw [(hmid.consistent hi).dbId_eq] at hd
    exact Option.bind_eq_some_iff.1 hd
  obtain ⟨-, -, hsame⟩ := hmid.recalls hi d seen hd hseen
  refine ⟨i, item, seen, hi, hd, hst, hseen, fun hk => ?_,
    ⟨fun h => h.commitId?, hsame row hrow⟩, fun hlocal => ?_, fun ⟨hrow, hrefs⟩ => ?_⟩
  · have hnew : item.status.isNew = false := by
      rcases hst with hst | hst <;> rw [hst] <;> rfl
    obtain ⟨stored, seen', hstored, hseen', hsame⟩ := hmid.tracks (hinf.known_atCommit hdb hcfg)
      kind ((Session.mem_fetched_atCommit hinf.toWellFormed hdb).2 hk) i item hi d hd hnew
    obtain rfl := Option.some.inj (hrow.symm.trans hstored)
    obtain rfl := Option.some.inj (hseen.symm.trans hseen')
    exact hsame
  · exact ⟨Session.same_of_localRow? hlocal, (Session.localRow?_eq_some_iff.1 hlocal).translated⟩
  · exact Session.localRow?_eq_some_iff.2 ⟨fun field hfield => (hrow field hfield).symm, hrefs⟩

/-- Two sessions have fetched the alternative that the first of them has stored.  The second one changes
its description and commits, and then the first one, which prefers its own edits, changes it too. -/
def crossedUpdates : List Event :=
  [.connect "a" {}, .ask "a" (.add .alternative (.ofList [("name", .text "base")])),
    .ask "a" (.commit "add"), .ask "a" (.fetch .alternative none),
    .connect "b" {}, .ask "b" (.fetch .alternative none),
    .ask "b" (.update ⟨.alternative, .first⟩ (.ofList [("description", .text "theirs")])),
    .ask "b" (.commit "theirs"),
    .ask "a" (.update ⟨.alternative, .first⟩ (.ofList [("description", .text "mine")]))]

set_option maxRecDepth 4000 in
/-- The first session does not know of the other commit.  Its own commit overwrites the row that the
other one has left, but only after the refresh has shown it. -/
theorem commit_overwrites_seen_rows_of_crossedUpdates : ∃ (w : Workspace Database) (s : Session)
    (old : Item) (row : Record), w.Reachable Orderly ∧ w.session? "a" = some s ∧
      w.Orderly (.ask "a" (.commit "mine")) ∧ s.config.refreshBeforeCommit = true ∧
      .alternative ∈ s.fetched ∧ s.knownCommits < w.store.commits.length ∧
      s.item? ⟨.alternative, .first⟩ = some old ∧ old.synced ≠ some row ∧
      (w.perform "a" s (.commit "mine")).1 = .ok (.commit ⟨3⟩) ∧
      w.store.row? .alternative ⟨1⟩ = some row ∧
      (w.act (.ask "a" (.commit "mine"))).store.row? .alternative ⟨1⟩ ≠ some row ∧
      ∃ i item seen, (s.atCommit w.store).item? ⟨.alternative, i⟩ = some item ∧
        item.dbId = some ⟨1⟩ ∧ (item.status = .toUpdate ∨ item.status = .toRemove) ∧
        item.synced = some seen ∧
        (.alternative ∈ s.fetched → row.SameButReferences .alternative seen) ∧
        (row.SameButReferences .alternative seen ↔ row.commitId? = seen.commitId?) ∧
        ((s.atCommit w.store).localRow? .alternative row = some seen ↔
          row.SameButReferences .alternative seen ∧ ∀ e ∈ Kind.alternative.references,
            (s.atCommit w.store).ReadsAs e.2 (row.get? e.1) (seen.get? e.1)) := by
  have hrun : Run Plain (new .empty) crossedUpdates := by decide +kernel
  have hreach := hrun.reachable
  have hcheck : (((new .empty).after crossedUpdates).session? "a").any (fun s =>
      (s.item? ⟨.alternative, .first⟩).any fun old =>
      (((new .empty).after crossedUpdates).store.row? .alternative ⟨1⟩).any fun row =>
        decide (Plain ((new .empty).after crossedUpdates) (.ask "a" (.commit "mine"))) &&
        s.config.refreshBeforeCommit && decide (.alternative ∈ s.fetched) &&
        decide (s.knownCommits < ((new .empty).after crossedUpdates).store.commits.length) &&
        decide (old.synced ≠ some row) &&
        decide ((((new .empty).after crossedUpdates).perform "a" s (.commit "mine")).1 =
          .ok (.commit ⟨3⟩)) &&
        decide ((((new .empty).after crossedUpdates).act (.ask "a" (.commit "mine"))).store.row?
          .alternative ⟨1⟩ ≠ some row)) = true := by decide +kernel
  obtain ⟨s, hs, hcheck⟩ := (Option.any_eq_true ..).1 hcheck
  obtain ⟨old, hold, hcheck⟩ := (Option.any_eq_true ..).1 hcheck
  obtain ⟨row, hrow, hcheck⟩ := (Option.any_eq_true ..).1 hcheck
  simp only [Bool.and_eq_true, decide_eq_true_eq] at hcheck
  obtain ⟨⟨⟨⟨⟨⟨hplain, hcfg⟩, hfetched⟩, hknown⟩, hsync⟩, hok⟩, hchanged⟩ := hcheck
  exact ⟨_, s, old, row, hreach, hs, hplain.orderly, hcfg, hfetched, hknown, hold, hsync, hok, hrow,
    hchanged, commit_overwrites_seen_rows hreach hs hplain.orderly hcfg hok hrow hchanged⟩

/-- A session that prefers what is stored adds an alternative and commits it.  Another session
fetches the alternative, changes its description and commits.  The first session, which has never
fetched the table, then changes the description too. -/
def unseenUpdate : List Event :=
  [.connect "a" { policy := .takeStored },
    .ask "a" (.add .alternative (.ofList [("name", .text "base")])), .ask "a" (.commit "add"),
    .connect "b" {}, .ask "b" (.fetch .alternative none),
    .ask "b" (.update ⟨.alternative, .first⟩ (.ofList [("description", .text "theirs")])),
    .ask "b" (.commit "theirs"),
    .ask "a" (.update ⟨.alternative, .first⟩ (.ofList [("description", .text "mine")]))]

set_option maxRecDepth 4000 in
/-- An update is lost.  The refresh before the commit of the first session takes in no table, and yet it
counts the other commit as known.  So the item still agrees with the row that was there before, no
conflict is found, and what the other session has stored is overwritten. -/
theorem overwrites_unseen_row : ∃ (w : Workspace Database) (s : Session) (row : Record),
    w.Reachable Orderly ∧ w.session? "a" = some s ∧ w.Orderly (.ask "a" (.commit "mine")) ∧
      s.config.refreshBeforeCommit = true ∧ s.config.policy = .takeStored ∧
      .alternative ∉ s.fetched ∧ s.knownCommits < w.store.commits.length ∧
      (s.atCommit w.store).knownCommits = w.store.commits.length ∧
      (w.perform "a" s (.commit "mine")).1 = .ok (.commit ⟨3⟩) ∧
      w.store.row? .alternative ⟨1⟩ = some row ∧
      (w.act (.ask "a" (.commit "mine"))).store.row? .alternative ⟨1⟩ ≠ some row ∧
      (∃ item seen, (s.atCommit w.store).item? ⟨.alternative, .first⟩ = some item ∧
        item.dbId = some ⟨1⟩ ∧ item.synced = some seen ∧ seen.commitId? ≠ row.commitId?) ∧
      ∀ i item seen, (s.atCommit w.store).item? ⟨.alternative, i⟩ = some item →
        item.dbId = some ⟨1⟩ → item.synced = some seen →
        (s.atCommit w.store).localRow? .alternative row ≠ some seen := by
  have hrun : Run Plain (new .empty) unseenUpdate := by decide +kernel
  have hreach := hrun.reachable
  have hcheck : (((new .empty).after unseenUpdate).session? "a").any (fun s =>
      (((new .empty).after unseenUpdate).store.row? .alternative ⟨1⟩).any fun row =>
        decide (Plain ((new .empty).after unseenUpdate) (.ask "a" (.commit "mine"))) &&
        s.config.refreshBeforeCommit && decide (s.config.policy = .takeStored) &&
        decide (.alternative ∉ s.fetched) &&
        decide (s.knownCommits < ((new .empty).after unseenUpdate).store.commits.length) &&
        decide ((s.atCommit ((new .empty).after unseenUpdate).store).knownCommits =
          ((new .empty).after unseenUpdate).store.commits.length) &&
        decide ((((new .empty).after unseenUpdate).perform "a" s (.commit "mine")).1 =
          .ok (.commit ⟨3⟩)) &&
        decide ((((new .empty).after unseenUpdate).act (.ask "a" (.commit "mine"))).store.row?
          .alternative ⟨1⟩ ≠ some row) &&
        (((s.atCommit ((new .empty).after unseenUpdate).store).item? ⟨.alternative, .first⟩).any
          fun item => item.synced.any fun seen =>
            decide (item.dbId = some ⟨1⟩ ∧ seen.commitId? ≠ row.commitId?)) &&
        ((s.atCommit ((new .empty).after unseenUpdate).store).all .alternative).all fun item =>
          decide (item.synced ≠
            (s.atCommit ((new .empty).after unseenUpdate).store).localRow? .alternative row)) =
      true := by decide +kernel
  obtain ⟨s, hs, hcheck⟩ := (Option.any_eq_true ..).1 hcheck
  obtain ⟨row, hrow, hcheck⟩ := (Option.any_eq_true ..).1 hcheck
  simp only [Bool.and_eq_true, decide_eq_true_eq] at hcheck
  obtain ⟨⟨⟨⟨⟨⟨⟨⟨⟨hplain, hcfg⟩, hpolicy⟩, hfetched⟩, hbehind⟩, hknown⟩, hok⟩, hchanged⟩, hitem⟩,
    hseen⟩ := hcheck
  obtain ⟨item, hitem, hsynced⟩ := (Option.any_eq_true ..).1 hitem
  obtain ⟨seen, hsynced, hold⟩ := (Option.any_eq_true ..).1 hsynced
  obtain ⟨hd, hcommit⟩ := of_decide_eq_true hold
  exact ⟨_, s, row, hreach, hs, hplain.orderly, hcfg, hpolicy, hfetched, hbehind, hknown, hok, hrow,
    hchanged, ⟨item, seen, hitem, hd, hsynced, hcommit⟩,
    fun i item seen hi _ => Session.localRow?_ne_synced hseen hi⟩

/-- A session that fetches no referenced tables uses an alternative in a scenario, commits both and
fetches what it used.  It then gives the alternative the name of one that another session has stored
before, and fetches the alternatives: its alternative moves to the row with that name. -/
def movedReference : List Event :=
  [.connect "b" {}, .ask "b" (.add .alternative (.ofList [("name", .text "low")])),
    .ask "b" (.commit "low"), .connect "a" { fetchReferenced := false },
    .ask "a" (.add .alternative (.ofList [("name", .text "base")])),
    .ask "a" (.add .scenario (.ofList [("name", .text "plan")])),
    .ask "a" (.add .scenarioAlternative (.ofList
      [("alternative_id", .ref .first), ("rank", .integer 1), ("scenario_id", .ref ⟨2⟩)])),
    .ask "a" (.commit "add"), .ask "a" (.fetch .scenarioAlternative none),
    .ask "a" (.update ⟨.alternative, .first⟩ (.ofList [("name", .text "low")])),
    .ask "a" (.fetch .alternative none),
    .ask "a" (.update ⟨.scenarioAlternative, ⟨3⟩⟩ (.ofList [("rank", .integer 2)]))]

set_option maxRecDepth 4000 in
/-- References are left aside for a reason.  The commit of that session overwrites a row of a table that
it has fetched, although the row no longer reads as the one that its item agreed with: its alternative
is another item by now.  Nobody else has written the row. -/
theorem overwrites_row_read_differently : ∃ (w : Workspace Database) (s : Session) (row : Record),
    w.Reachable Orderly ∧ w.session? "a" = some s ∧ w.Orderly (.ask "a" (.commit "mine")) ∧
      s.config.refreshBeforeCommit = true ∧ .scenarioAlternative ∈ s.fetched ∧
      (w.perform "a" s (.commit "mine")).1 = .ok (.commit ⟨3⟩) ∧
      w.store.row? .scenarioAlternative ⟨1⟩ = some row ∧
      (w.act (.ask "a" (.commit "mine"))).store.row? .scenarioAlternative ⟨1⟩ ≠ some row ∧
      ∀ i item seen, (s.atCommit w.store).item? ⟨.scenarioAlternative, i⟩ = some item →
        item.dbId = some ⟨1⟩ → item.synced = some seen →
        (s.atCommit w.store).localRow? .scenarioAlternative row ≠ some seen := by
  have hrun : Run Plain (new .empty) movedReference := by decide +kernel
  have hreach := hrun.reachable
  have hcheck : (((new .empty).after movedReference).session? "a").any (fun s =>
      (((new .empty).after movedReference).store.row? .scenarioAlternative ⟨1⟩).any fun row =>
        decide (Plain ((new .empty).after movedReference) (.ask "a" (.commit "mine"))) &&
        s.config.refreshBeforeCommit && decide (.scenarioAlternative ∈ s.fetched) &&
        decide ((((new .empty).after movedReference).perform "a" s (.commit "mine")).1 =
          .ok (.commit ⟨3⟩)) &&
        decide ((((new .empty).after movedReference).act (.ask "a" (.commit "mine"))).store.row?
          .scenarioAlternative ⟨1⟩ ≠ some row) &&
        ((s.atCommit ((new .empty).after movedReference).store).all .scenarioAlternative).all
          fun item => decide (item.synced ≠ (s.atCommit
            ((new .empty).after movedReference).store).localRow? .scenarioAlternative row)) =
      true := by decide +kernel
  obtain ⟨s, hs, hcheck⟩ := (Option.any_eq_true ..).1 hcheck
  obtain ⟨row, hrow, hcheck⟩ := (Option.any_eq_true ..).1 hcheck
  simp only [Bool.and_eq_true, decide_eq_true_eq] at hcheck
  obtain ⟨⟨⟨⟨⟨hplain, hcfg⟩, hfetched⟩, hok⟩, hchanged⟩, hseen⟩ := hcheck
  exact ⟨_, s, row, hreach, hs, hplain.orderly, hcfg, hfetched, hok, hrow, hchanged,
    fun i item seen hi _ => Session.localRow?_ne_synced hseen hi⟩

end Workspace

end StagedEdits
