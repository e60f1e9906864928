import StagedEdits.Proofs.Publish
import StagedEdits.Proofs.Quiet
import StagedEdits.Proofs.Sincere

/-!
# A session that works alone

A session that alone writes to a database, and starts with it empty, stays in step with it: its items
with a row are the rows, fetches find nothing, and a commit fails only for want of something to
write, or for a unique key that two of its items share.
-/

namespace StagedEdits

namespace Session

variable {s s' : Session} {db db' : Database} {kind : Kind}

/-! ### Aligned sessions -/

/-- Session `s'` is `s`, but for the tables that count as fetched. -/
structure SameTables (s s' : Session) : Prop where
  table : ∀ kind, s'.table kind = s.table kind
  config : s'.config = s.config
  nextId : s'.nextId = s.nextId
  knownCommits : s'.knownCommits = s.knownCommits

theorem SameTables.refl (s : Session) : s.SameTables s := ⟨fun _ => rfl, rfl, rfl, rfl⟩

theorem SameTables.trans {s'' : Session} (h : s.SameTables s') (h' : s'.SameTables s'') :
    s.SameTables s'' where
  table kind := (h'.table kind).trans (h.table kind)
  config := h'.config.trans h.config
  nextId := h'.nextId.trans h.nextId
  knownCommits := h'.knownCommits.trans h.knownCommits

theorem SameTables.item? (h : s.SameTables s') (r : ItemRef) : s'.item? r = s.item? r := by
  rw [item?_eq, h.table, item?_eq]

theorem sameTables_markFetched (s : Session) (kind : Kind) : s.SameTables (s.markFetched kind) :=
  ⟨table_markFetched s kind, rfl, rfl, rfl⟩

/-- Edits that change no rows keep a session aligned. -/
theorem Aligned.of_sameRows (h : s.Aligned db) (hs : s'.WellFormed) (hf : s'.Faithful)
    (hsame : s.SameRows s') : s'.Aligned db := by
  refine ⟨hs, ?_, hf, fun kind => (h.mirrors kind).of_sameRows hsame h.toWellFormed hs⟩
  intro r b d hb hd
  obtain ⟨a, ha, hda, -⟩ := (hsame r d b.synced).1 ⟨b, hb, hd, rfl⟩
  exact h.bounded ha hda

theorem Aligned.sameTables (h : s.Aligned db) (hsame : s.SameTables s') : s'.Aligned db := by
  have hitem := hsame.item?
  have hnext : s.nextId.val ≤ s'.nextId.val := Nat.le_of_eq (congrArg ItemId.val hsame.nextId.symm)
  refine h.of_sameRows (h.congr hsame.table hnext) ?_ fun r d row => by rw [hitem]
  intro r b hb
  rw [hitem] at hb
  exact (h.faithful hb).succeeds ⟨hnext, fun r b hb _ => ⟨b, (hitem r).symm.trans hb⟩⟩

theorem Aligned.reserved (h : s.Aligned db) (hres : db.Reserved db') : s.Aligned db' where
  toWellFormed := h.toWellFormed
  bounded := fun r _ _ ha hd => Int.le_trans (h.bounded ha hd) (hres.lastId_le r.kind)
  faithful := h.faithful
  mirrors := fun kind => (h.mirrors kind).of_rows (hres.row?_eq kind)

/-- If all items are committed, they refer to items that are there. -/
theorem Aligned.referencesLive_of_clean (h : s.Aligned db) (hc : s.Clean) : s.ReferencesLive := by
  rintro r item hi - ⟨target, y⟩ hmem
  obtain ⟨field, he, hy⟩ := Item.mem_references_iff.1 hmem
  have hk := h.item_kind hi
  obtain ⟨-, r', hsync, hcontent⟩ := (h.faithful hi).truthful.2 (hc hi)
  obtain ⟨d, hd, -⟩ := h.faithful.dbId_of_synced h.toCoherent hi hsync
  obtain ⟨row, r'', hrow, hsync', hr⟩ := (h.mirrors r.kind).row_of_item hi hd
  obtain rfl := Option.some.inj (hsync.symm.trans hsync')
  rw [hcontent, hk] at hy
  obtain ⟨n, -, hrowy⟩ := (get?_contentOf_eq_ref_iff hr (e := (field, target)) (hk ▸ he)).1 hy
  obtain ⟨x, hx, -⟩ := h.itemOfRow?_eq_some_iff.1 hrowy
  exact isLive_iff.2 ⟨x, hx, by rw [Item.removed, hc hx]; rfl⟩

/-- Dropping nothing that has a row, a roll back keeps a session aligned. -/
theorem Aligned.rollBack (h : s.Aligned db) (hback : s.rollBack = .ok s')
    (hdrop : ∀ r item, s.item? r = some item → item.rolledBack? = none → item.synced = none) :
    s'.Aligned db :=
  h.of_sameRows (rollBack_spec h.toWellFormed hback).2.2.1
    (h.faithful.rollBack h.toWellFormed hback) (sameRows_rollBack h.toWellFormed hback hdrop)

theorem aligned_new (config : Config) (count : Nat) : (new config count).Aligned .empty := by
  have hnone : ∀ r, (new config count).item? r = none := fun _ => rfl
  refine ⟨wellFormed_new config count, ?_, ?_, fun kind => ⟨?_, ?_⟩⟩
  · intro r a d ha; rw [hnone] at ha; cases ha
  · intro r a ha; rw [hnone] at ha; cases ha
  · intro d row hrow; cases hrow
  · intro id item d hi; rw [hnone] at hi; cases hi

end Session

/-! ### Fetching -/

theorem FetchReport.total_eq {reports : List FetchReport} (h : ∀ r ∈ reports, r = {}) :
    total reports = {} := by
  unfold total
  induction reports with
  | nil => rfl
  | cons r reports ih =>
    rw [List.foldl_cons, h r (List.mem_cons_self ..)]
    exact ih fun r hr => h r (List.mem_cons_of_mem _ hr)

namespace Connection

open ConnectionM

variable {s : Session} {db : Database}

/-- Fetching tables that are mirrored finds nothing. -/
theorem mapM_fetchTable_of_aligned (hs : s.Aligned db) (hdb : db.Sound) (resolver : Resolver)
    (passes : List (List Conflict)) (kinds : List Kind) :
    ∃ reports s', kinds.mapM (fetchTable resolver) ⟨s, db, passes⟩ =
      (.ok reports, ⟨s', db, passes⟩) ∧ (∀ r ∈ reports, r = {}) ∧ s.SameTables s' := by
  induction kinds generalizing s with
  | nil => exact ⟨[], s, rfl, fun _ hr => absurd hr List.not_mem_nil, .refl s⟩
  | cons kind kinds ih =>
    have hmark := Session.sameTables_markFetched s kind
    have hfirst := fetchTable_of_mirrors hs.toWellFormed hs.faithful hdb (hs.mirrors kind)
      resolver passes
    obtain ⟨reports, s', hrest, hreports, hsame⟩ := ih (hs.sameTables hmark)
    refine ⟨{} :: reports, s', ?_, ?_, hmark.trans hsame⟩
    · rw [List.mapM_cons, run_bind, hfirst]
      dsimp only
      rw [run_bind, hrest]
      rfl
    · intro r hr
      rcases List.mem_cons.1 hr with rfl | hr
      · rfl
      · exact hreports r hr

theorem fetch_of_aligned (hs : s.Aligned db) (hdb : db.Sound) (resolver : Resolver)
    (passes : List (List Conflict)) (kind : Kind) :
    ∃ s', fetch resolver kind ⟨s, db, passes⟩ = (.ok {}, ⟨s', db, passes⟩) ∧ s.SameTables s' := by
  obtain ⟨reports, s', hrun, hreports, hsame⟩ :=
    mapM_fetchTable_of_aligned hs hdb resolver passes (s.fetchOrder kind)
  refine ⟨s', ?_, hsame⟩
  rw [fetch_eq, hrun]
  dsimp only
  rw [FetchReport.total_eq hreports]

theorem refresh_of_aligned (hs : s.Aligned db) (hdb : db.Sound) (resolver : Resolver)
    (passes : List (List Conflict)) :
    ∃ s', refresh resolver ⟨s, db, passes⟩ = (.ok {}, ⟨s'.upToDate db, db, passes⟩) ∧
      s.SameTables s' := by
  obtain ⟨reports, s', hrun, hreports, hsame⟩ :=
    mapM_fetchTable_of_aligned hs hdb resolver passes s.refreshOrder
  refine ⟨s', ?_, hsame⟩
  rw [refresh_eq, hrun]
  dsimp only
  rw [FetchReport.total_eq hreports]

end Connection

namespace Command

/-- Fetching and refreshing an aligned session that knows all commits. -/
theorem run_of_isPull {s : Session} {db : Database} (hs : s.Aligned db) (hdb : db.Sound)
    (hknown : s.knownCommits = db.commits.length) {command : Command}
    (hp : command.isPull = true) : ∃ s', command.run ⟨s, db, []⟩ =
      (.ok (.report {}), ⟨s', db, []⟩) ∧ s.SameTables s' := by
  cases command with
  | fetch kind resolver =>
    obtain ⟨s', hfetch, hsame⟩ := Connection.fetch_of_aligned hs hdb
      ((fetch kind resolver).resolver s) [] kind
    refine ⟨s', ?_, hsame⟩
    rw [run_fetch, hfetch]
    rfl
  | refresh resolver =>
    obtain ⟨s', hrefresh, hsame⟩ := Connection.refresh_of_aligned hs hdb
      ((refresh resolver).resolver s) []
    refine ⟨s'.upToDate db, ?_, hsame.table, hsame.config, hsame.nextId, ?_⟩
    · rw [run_refresh, hrefresh]
      rfl
    · show max s'.knownCommits db.commits.length = s.knownCommits
      rw [hsame.knownCommits, hknown, Nat.max_self]
  | _ => cases hp

end Command

/-- An item that rolling back drops has no row, if its restoration would be as its row calls for. -/
theorem Item.synced_of_rolledBack? {item : Item} (ht : item.restored.Truthful)
    (h : item.rolledBack? = none) : item.synced = none := by
  have hnew : item.restored.status.isNew = true := by
    unfold rolledBack? at h
    split at h
    next hst => rw [hst]; rfl
    next hst => rw [hst]; rfl
    next => cases h
    next => cases h
  rw [← item.synced_restored]
  exact ht.1.1 hnew

namespace Session

variable {s s' : Session} {db db' : Database}

/-- A session with a database that it alone has written. -/
structure Alone (s : Session) (db : Database) : Prop extends s.Aligned db where
  stored : db.Sound
  live : s.ReferencesLive
  restorable : ∀ ⦃r item⦄, s.item? r = some item → item.restored.Truthful
  known : s.knownCommits = db.commits.length
  keys : db.KeysDistinct

theorem Alone.sincere (h : s.Alone db) : s.Sincere := ⟨h.faithful, h.restorable⟩

/-- A session that knows all commits is not refreshed before its own. -/
theorem Alone.atCommit_eq (h : s.Alone db) : s.atCommit db = s := by
  rcases atCommit_cases h.toWellFormed h.stored with ⟨heq, -⟩ | ⟨hlt, -⟩
  · exact heq
  · rw [h.known] at hlt
    exact absurd hlt (Nat.lt_irrefl _)

/-- What an edit of items has to keep. -/
theorem Alone.of_edit (h : s.Alone db) (ha : s'.Aligned db) (hsin : s'.Sincere)
    (hlive : s'.ReferencesLive) (hknown : s'.knownCommits = s.knownCommits) : s'.Alone db :=
  ⟨ha, h.stored, hlive, hsin.restorable, hknown.trans h.known, h.keys⟩

theorem Alone.sameTables (h : s.Alone db) (hsame : s.SameTables s') : s'.Alone db := by
  have hitem := hsame.item?
  have ha := h.toAligned.sameTables hsame
  refine h.of_edit ha ⟨ha.faithful, fun r b hb => h.restorable ((hitem r).symm.trans hb)⟩ ?_
    hsame.knownCommits
  intro r item hi hl target htarget
  rw [hitem] at hi
  unfold isLive
  rw [hitem]
  exact h.live hi hl target htarget

theorem Alone.commits {reserved : List (ItemId × DbId)} {id : CommitId} {db₁ : Database}
    (h : s.Alone db) (hres : s.Reserves db reserved db₁) (hc : s.Commits db reserved id s' db') :
    s'.Alone db' := by
  have haligned := hc.aligned h.toAligned h.live hres
  have hclean := hc.clean h.toWellFormed hres
  refine ⟨haligned, hc.sound, haligned.referencesLive_of_clean hclean,
    (sincere_of_clean haligned.faithful hclean).restorable, ?_, ?_⟩
  · rw [hc.knownCommits, if_pos (by rw [hc.commit_eq, h.known]), hc.commits_length, h.known]
  · exact hc.keysDistinct h.toAligned h.live hres h.keys

theorem Step.alone {command : Command} (h : s.Step db command s' db') (hs : s.Alone db)
    (hpull : command.isPull = false) (hreset : command.isReset = false) : s'.Alone db' := by
  have hwf := hs.toWellFormed
  have hlive := referencesLive_iff.1 hs.live
  cases h with
  | idle => exact hs
  | add h =>
    obtain ⟨-, heq, -⟩ := add_eq_ok h
    have hsin := hs.sincere.add hwf h
    refine hs.of_edit ?_ hsin (referencesLive_iff.2 (hlive.add hwf h)) (by rw [heq]; rfl)
    exact hs.toAligned.of_sameRows (wellFormed_add hwf h) hsin.faithful
      (sameRows_add hs.toCoherent h)
  | update h =>
    have he := edits_update hwf h
    have hsin := hs.sincere.update hwf h
    exact hs.of_edit (hs.toAligned.of_sameRows he.wellFormed hsin.faithful he.sameRows) hsin
      (referencesLive_iff.2 (hlive.update hwf (fun _ _ hi => (hs.faithful hi).complete) h))
      he.frame.knownCommits
  | remove h =>
    have he := edits_remove hwf h
    have hsin := hs.sincere.remove hwf h
    exact hs.of_edit (hs.toAligned.of_sameRows he.wellFormed hsin.faithful he.sameRows) hsin
      (referencesLive_iff.2 (hlive.remove hwf h)) he.frame.knownCommits
  | restore h =>
    have he := edits_restore hwf h
    have hsin := hs.sincere.restore hwf h
    exact hs.of_edit (hs.toAligned.of_sameRows he.wellFormed hsin.faithful he.sameRows) hsin
      (referencesLive_iff.2 (hlive.restore hwf h)) he.frame.knownCommits
  | fetch => cases hpull
  | refresh => cases hpull
  | refused h =>
    rw [hs.atCommit_eq]
    refine ⟨hs.toAligned.reserved h, h.sound, hs.live, hs.restorable, ?_, ?_⟩
    · rw [h.commits]; exact hs.known
    · intro kind d d' row row' key hrow hrow'
      rw [h.row?_eq] at hrow hrow'
      exact hs.keys hrow hrow'
  | commit hres h =>
    rw [hs.atCommit_eq] at hres h
    exact hs.commits hres h
  | rollBack h =>
    obtain ⟨hframe, -, -, -⟩ := rollBack_spec hwf h
    have ha := hs.toAligned.rollBack h fun r item hi => Item.synced_of_rolledBack? (hs.restorable hi)
    exact hs.of_edit ha (hs.sincere.rollBack hwf h)
      (ha.referencesLive_of_clean (clean_rollBack hwf h)) hframe.knownCommits
  | reset => cases hreset

/-! ### What is seen of it -/

/-- The rows of the database and the items with a row are in one-to-one correspondence, and each of
these items last agreed with its row as the session reads it. -/
structure Reflects (s : Session) (db : Database) : Prop where
  item_of_row : ∀ ⦃kind d row⦄, db.row? kind d = some row →
    ∃! id, ∃ item, s.item? ⟨kind, id⟩ = some item ∧ item.dbId = some d
  row_of_item : ∀ ⦃kind id item d⦄, s.item? ⟨kind, id⟩ = some item → item.dbId = some d →
    ∃ row r, db.row? kind d = some row ∧ item.synced = some r ∧ s.localRow? kind row = some r

/-- Every item is committed, and its content is that of its row. -/
def Settled (s : Session) (db : Database) : Prop :=
  ∀ ⦃r item⦄, s.item? r = some item → item.status = .committed ∧ ∃ d row read,
    item.dbId = some d ∧ db.row? r.kind d = some row ∧ s.localRow? r.kind row = some read ∧
    item.content = r.kind.contentOf read

theorem Aligned.reflects (h : s.Aligned db) : s.Reflects db := by
  constructor
  case item_of_row =>
    intro kind d row hrow
    obtain ⟨id, item, hi, hd⟩ := (h.mirrors kind).item_of_row hrow
    refine ⟨id, ⟨item, hi, hd⟩, ?_⟩
    rintro id' ⟨item', hi', hd'⟩
    exact h.dbId_injective hi' hi hd' hd
  case row_of_item => exact fun kind _ _ _ hi hd => (h.mirrors kind).row_of_item hi hd

theorem Aligned.settled (h : s.Aligned db) (hc : s.Clean) : s.Settled db := by
  intro r item hi
  obtain ⟨-, read, hsync, hcontent⟩ := (h.faithful hi).truthful.2 (hc hi)
  obtain ⟨d, hd, -⟩ := h.faithful.dbId_of_synced h.toCoherent hi hsync
  obtain ⟨row, read', hrow, hsync', hread⟩ := (h.mirrors r.kind).row_of_item hi hd
  obtain rfl := Option.some.inj (hsync.symm.trans hsync')
  rw [h.item_kind hi] at hcontent
  exact ⟨hc hi, d, row, read, hd, hrow, hread, hcontent⟩

end Session

namespace Workspace

variable {w : Workspace Database} {name : String} {s : Session}

/-- A session is in step with the store: what it has of the store is right, and so is what commands
tell it. -/
structure InStep (w : Workspace Database) (name : String) (s : Session) : Prop where
  reflects : s.Reflects w.store
  keysDistinct : w.store.KeysDistinct
  referencesHold : w.store.ReferencesHold
  /-- Fetches and refreshes find nothing and change no item. -/
  pull : ∀ ⦃command⦄, command.isPull = true →
    (w.perform name s command).1 = .ok (.report {}) ∧ (w.perform name s command).2.1 = [] ∧
      (w.act (.ask name command)).store = w.store ∧
      ∃ s', (w.act (.ask name command)).session? name = some s' ∧ ∀ r, s'.item? r = s.item? r
  /-- There are three reasons for which a commit may fail. -/
  refusal : ∀ ⦃comment e⦄, w.WithinRange (.ask name (.commit comment)) →
    (w.perform name s (.commit comment)).1 = .error e →
    e = .blankComment ∨ e = .nothingToCommit ∨ ∃ kind key, e = .keyTaken kind key
  commit : ∀ ⦃comment reply⦄, w.WithinRange (.ask name (.commit comment)) →
    (w.perform name s (.commit comment)).1 = .ok reply →
    ∃ s', (w.act (.ask name (.commit comment))).session? name = some s' ∧
      s'.Reflects (w.act (.ask name (.commit comment))).store ∧
      s'.Settled (w.act (.ask name (.commit comment))).store
  rollBack : ∀ ⦃reply⦄, (w.perform name s .rollBack).1 = .ok reply →
    ∃ s', (w.act (.ask name .rollBack)).session? name = some s' ∧
      s'.Reflects (w.act (.ask name .rollBack)).store ∧
      s'.Settled (w.act (.ask name .rollBack)).store

theorem alone_new (config : Config) : (Session.new config 0).Alone .empty := by
  refine ⟨Session.aligned_new config 0, Database.sound_empty, ?_, ?_, rfl, ?_⟩
  · intro r item hi; cases hi
  · intro r item hi; cases hi
  · intro kind d d' row row' key hrow; cases hrow

theorem alone_act (hs : w.session? name = some s) (h : s.Alone w.store) {command : Command}
    (hreset : command.isReset = false) (hr : w.WithinRange (.ask name command)) :
    ∃ s', (w.act (.ask name command)).session? name = some s' ∧
      s'.Alone (w.act (.ask name command)).store := by
  obtain ⟨hstore, hsession⟩ := act_ask hs command
  refine ⟨_, (hsession name).trans (if_pos rfl), ?_⟩
  rw [hstore]
  cases hpull : command.isPull with
  | true =>
    obtain ⟨s', hrun, hsame⟩ := Command.run_of_isPull h.toAligned h.stored h.known hpull
    unfold Session.outcome
    rw [hrun]
    exact h.sameTables hsame
  | false =>
    have hhonest : command.Honest := by
      cases command with
      | fetch => cases hpull
      | refresh => cases hpull
      | _ => trivial
    exact (Session.step_run h.toWellFormed h.bounded h.stored hhonest (hr s hs)).alone h hpull hreset

/-- A session stays in step through a run of commands that are given to it alone. -/
theorem alone_after {commands : List Command} (hs : w.session? name = some s)
    (h : s.Alone w.store) (hreset : ∀ command ∈ commands, command.isReset = false)
    (hrange : Run WithinRange w (commands.map (.ask name))) :
    ∃ s', (w.after (commands.map (.ask name))).session? name = some s' ∧
      s'.Alone (w.after (commands.map (.ask name))).store := by
  induction commands generalizing w s with
  | nil => exact ⟨s, hs, h⟩
  | cons command commands ih =>
    obtain ⟨s', hs', h'⟩ := alone_act hs h (hreset command (List.mem_cons_self ..)) hrange.1
    exact ih hs' h' (fun c hc => hreset c (List.mem_cons_of_mem _ hc)) hrange.2

theorem inStep_of_alone (hs : w.session? name = some s) (h : s.Alone w.store) :
    w.InStep name s := by
  constructor
  case reflects => exact h.reflects
  case keysDistinct => exact h.keys
  case referencesHold => exact h.referencesHold
  case pull =>
    intro command hpull
    obtain ⟨s', hrun, hsame⟩ := Command.run_of_isPull h.toAligned h.stored h.known hpull
    obtain ⟨hreply, hpasses, hstore, hsession⟩ := act_of_run hs hrun
    exact ⟨hreply, hpasses, hstore, s', hsession, hsame.item?⟩
  case refusal =>
    intro comment e hr he
    rw [reply_commit] at he
    rcases Connection.commit_cases h.toWellFormed h.bounded h.stored ((hr s hs) rfl) comment with
      ⟨-, hc⟩ | ⟨e', db', passes, hc, -, hreason⟩ | ⟨id, s', db', passes, -, -, hc, -⟩
    · rw [hc] at he
      cases he
      exact .inl rfl
    · rw [hc] at he
      cases he
      rw [h.atCommit_eq] at hreason
      rcases hreason with rfl | hshared | ⟨reserved, hres, hrefused⟩
      · exact .inr (.inl rfl)
      · obtain ⟨p, -, hp⟩ := List.exists_of_findSome?_eq_some hshared
        obtain ⟨key, -, rfl⟩ := Option.map_eq_some_iff.1 hp
        exact .inr (.inr ⟨p.kind, key, rfl⟩)
      · exact absurd hrefused (h.not_batchRefused h.live h.stored hres _)
    · rw [hc] at he
      cases he
  case commit =>
    intro comment reply hr hok
    obtain ⟨id, s', db₁, reserved, batch, -, hs', hres, hcom, -⟩ :=
      commits_of_ok hs h.toWellFormed h.bounded h.stored ((hr s hs) rfl) hok
    rw [h.atCommit_eq] at hres hcom
    have ha := hcom.aligned h.toAligned h.live hres
    exact ⟨s', hs', ha.reflects, ha.settled (hcom.clean h.toWellFormed hres)⟩
  case rollBack =>
    intro reply hok
    obtain ⟨hstore, hsession⟩ := act_ask hs .rollBack
    refine ⟨_, (hsession name).trans (if_pos rfl), ?_⟩
    rw [reply_rollBack] at hok
    cases hback : s.rollBack with
    | error e => rw [hback] at hok; cases hok
    | ok s' =>
      have ha := h.toAligned.rollBack hback
        fun r item hi => Item.synced_of_rolledBack? (h.restorable hi)
      rw [hstore, outcome_rollBack hback]
      exact ⟨ha.reflects, ha.settled (Session.clean_rollBack h.toWellFormed hback)⟩

/-- A session that alone writes to a database, and starts with it empty, is in step with it after any
commands, be they refused or not. -/
theorem inStep_of_single_writer {config : Config} {commands : List Command}
    (hreset : ∀ command ∈ commands, command.isReset = false)
    (hrange : Run WithinRange (new .empty) (.connect name config :: commands.map (.ask name))) :
    ∃ s, ((new .empty).after (.connect name config :: commands.map (.ask name))).session? name =
        some s ∧
      ((new .empty).after (.connect name config :: commands.map (.ask name))).InStep name s := by
  have hconnect : ((new Database.empty).act (.connect name config)).session? name =
      some (.new config 0) := (session?_connect ..).trans (if_pos rfl)
  obtain ⟨s, hs, h⟩ := alone_after hconnect (alone_new config) hreset hrange.2
  exact ⟨s, hs, inStep_of_alone hs h⟩

/-- A class and an entity of it are added and committed; the class is renamed, and then removed and
restored with its entity; an alternative is added, and all that is rolled back. -/
def soloEdits : List Command :=
  [.add .entityClass (.ofList [("name", .text "fish")]),
    .add .entity (.ofList [("class_id", .ref ⟨1⟩), ("name", .text "nemo")]), .commit "add",
    .update ⟨.entityClass, ⟨1⟩⟩ (.ofList [("name", .text "shark")]), .remove ⟨.entityClass, ⟨1⟩⟩,
    .restore ⟨.entityClass, ⟨1⟩⟩, .fetch .entity none,
    .add .alternative (.ofList [("name", .text "base")]), .rollBack]

set_option maxRecDepth 4000 in
theorem inStep_of_soloEdits : ∃ s,
    ((new .empty).after (.connect "a" {} :: soloEdits.map (.ask "a"))).session? "a" = some s ∧
      ((new .empty).after (.connect "a" {} :: soloEdits.map (.ask "a"))).InStep "a" s :=
  inStep_of_single_writer (by decide) (by decide +kernel)

end Workspace

end StagedEdits
