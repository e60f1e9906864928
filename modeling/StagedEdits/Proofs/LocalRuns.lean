import StagedEdits.Proofs.DistinctKeys
import StagedEdits.Proofs.SingleWriter

/-!
# Sessions that only edit and commit

A session that takes no rows in and whose database nobody else writes to has items that its own edits
and commits have brought about.  Their rows share no keys, since live items shared none when they were
written; so rolling back is safe, and live items share no keys at any time (`Session.Sheltered`).  There
is one exception.  A restoration checks an item when the one that it was removed for is restored, and so
two items that were removed for the same one can both pass, although they share a key.

* `Workspace.keysApart_of_local_run`: without such items, live items never share a key.
* `Workspace.keys_shared_by_restoration`: two parts of a scenario of the same rank, both restored.
-/

namespace StagedEdits

namespace Session

variable {s s' : Session} {db db' : Database} {r : ItemRef}

/-! ### Statuses and rows -/

/-- Session `s'` has items of `s` only, some of them changed, but with the rows that they had. -/
structure Reworks (s s' : Session) : Prop where
  nextId_le : s.nextId.val ≤ s'.nextId.val
  item : ∀ ⦃q b⦄, s'.item? q = some b → ∃ a, s.item? q = some a ∧ b.synced = a.synced ∧
    b.Faithful s ∧ b.restored.Truthful

theorem Reworks.sincere (h : s.Reworks s') : s'.Sincere := by
  have hsucc : s.Succeeds s' := ⟨h.nextId_le, fun q b hb _ =>
    let ⟨a, ha, _⟩ := h.item hb
    ⟨a, ha⟩⟩
  refine ⟨fun q b hb => ?_, fun q b hb => ?_⟩
  · obtain ⟨-, -, -, hf, -⟩ := h.item hb
    exact hf.succeeds hsucc
  · obtain ⟨-, -, -, -, ht⟩ := h.item hb
    exact ht

theorem Reworks.rowsApart (h : s.Reworks s') (hrows : s.RowsApart) : s'.RowsApart := by
  intro kind i j a b row row' ha hb hrow hrow'
  obtain ⟨x, hx, hsync, -⟩ := h.item ha
  obtain ⟨y, hy, hsync', -⟩ := h.item hb
  exact hrows hx hy (hsync ▸ hrow) (hsync' ▸ hrow')

theorem Sincere.reworks_update (h : s.Sincere) (hs : s.Lawful Item.Tidy) {changes : Record}
    (hup : s.update r changes = .ok s') : s.Reworks s' := by
  refine ⟨(hs.housed.follows_update hup).nextId_le, fun q b hb => ?_⟩
  obtain ⟨item, hitem, hlive, hknown, hfault, rfl⟩ := update_eq_ok hup
  rw [hs.housed.item?_modify hitem (·.ref_edit changes)] at hb
  split at hb
  next hq =>
    obtain rfl := Option.some.inj hb
    have hk := hs.housed.item_kind hitem
    have hc : item.kind.Complete (item.content.insertAll changes) :=
      (h.faithful hitem).complete.insertAll (by rw [hk]; exact hknown)
    have hf := Item.faithful_edit (h.faithful hitem) hlive hc
      (refers_of_contentFault? hs.tidy hc (by rw [hk]; exact hfault))
    refine ⟨item, hq ▸ hitem, (Item.edited_edit (hs.item hitem).consistent changes).synced_eq, hf, ?_⟩
    rw [Item.restored_of_live ((item.removed_edit changes).trans hlive)]
    exact hf.truthful
  next => exact ⟨b, hb, rfl, h.faithful hb, h.restorable hb⟩

theorem Sincere.reworks_remove (h : s.Sincere) (hs : s.Lawful Item.Tidy) {refs : List ItemRef}
    (hrem : s.remove r = .ok (refs, s')) : s.Reworks s' := by
  refine ⟨(hs.housed.follows_remove hrem).nextId_le, fun q b hb => ?_⟩
  obtain ⟨-, -, heq⟩ := remove_eq_ok hrem
  obtain ⟨-, htaken, hrest⟩ := removeAll_spec hs.named [(r, none)]
  rw [heq] at htaken hrest
  by_cases hq : q ∈ refs
  · obtain ⟨a, source, ha⟩ := htaken q hq
    obtain rfl := Option.some.inj (ha.after.symm.trans hb)
    exact ⟨a, ha.before, (Item.edited_markRemoved (hs.item ha.before).consistent source).synced_eq,
      Item.faithful_markRemoved (h.faithful ha.before) source,
      Item.truthful_restored_markRemoved (h.faithful ha.before).truthful ha.live source⟩
  · have hb := (hrest q hq).symm.trans hb
    exact ⟨b, hb, rfl, h.faithful hb, h.restorable hb⟩

theorem Sincere.reworks_restore (h : s.Sincere) (hs : s.Lawful Item.Tidy) {refs : List ItemRef}
    (hres : s.restore r = .ok (refs, s')) : s.Reworks s' := by
  refine ⟨(hs.housed.follows_restore hres).nextId_le, fun q b hb => ?_⟩
  obtain ⟨-, -, ⟨-, -, rfl⟩ | ⟨-, -, heq⟩⟩ := restore_eq_ok hres
  · exact ⟨b, hb, rfl, h.faithful hb, h.restorable hb⟩
  · obtain ⟨hback, hrest⟩ := restoreAll_spec hs.named [r]
    rw [heq] at hback hrest
    by_cases hq : q ∈ refs
    · obtain ⟨a, ha, -, hafter⟩ := hback q hq
      obtain rfl := Option.some.inj (hafter.symm.trans hb)
      refine ⟨a, ha, a.synced_restored, Item.faithful_restored (h.faithful ha) (h.restorable ha), ?_⟩
      rw [Item.restored_of_live a.removed_restored]
      exact h.restorable ha
    · have hb := (hrest q hq).symm.trans hb
      exact ⟨b, hb, rfl, h.faithful hb, h.restorable hb⟩

theorem Sincere.reworks_rollBack (h : s.Sincere) (hs : s.Lawful Item.Tidy)
    (hback : s.rollBack = .ok s') : s.Reworks s' := by
  refine ⟨(hs.housed.follows_rollBack hback).nextId_le, fun q b hb => ?_⟩
  rw [item?_rollBack hs.tidy hback] at hb
  obtain ⟨a, ha, hb⟩ := Option.bind_eq_some_iff.1 hb
  have hcons := (hs.item ha).consistent
  obtain ⟨he, hst⟩ := Item.edited_rolledBack hcons hb
  have hf := Item.faithful_rolledBack (h.faithful ha) hcons hb
  refine ⟨a, ha, he.synced_eq, hf, ?_⟩
  rw [Item.restored_of_live (by rw [Item.removed, hst]; rfl)]
  exact hf.truthful

/-- What a commit leaves is live items, written or committed before; those with a row have the content
of their row. -/
theorem Sincere.committedItem? (h : s.Sincere) (hs : s.Lawful Item.Tidy)
    {reserved : List (ItemId × DbId)} {commit : CommitId} {b : Item}
    (hb : s.committedItem? reserved commit r = some b) :
    ∃ a, s.item? r = some a ∧ b.removed = false ∧ b.Faithful s ∧
      ∀ row, b.synced = some row → b.content = r.kind.contentOf row := by
  unfold Session.committedItem? at hb
  obtain ⟨a, ha, hb⟩ := Option.bind_eq_some_iff.1 hb
  have hf := h.faithful ha
  have hcommitted : ∀ {b : Item}, b.Faithful s → b.status = .committed → b.kind = a.kind →
      ∀ row, b.synced = some row → b.content = r.kind.contentOf row := by
    intro b hf hst hkind row hrow
    obtain ⟨-, row', hrow', hcontent⟩ := hf.truthful.2 hst
    obtain rfl := Option.some.inj (hrow.symm.trans hrow')
    rw [hcontent, hkind, hs.housed.item_kind ha]
  split at hb
  next => cases hb
  next hlive =>
    have hlive : a.removed = false := Bool.eq_false_iff.2 hlive
    split at hb
    next hst =>
      obtain rfl := Option.some.inj hb
      exact ⟨a, ha, hlive, hf, hcommitted hf hst rfl⟩
    next hst =>
      obtain rfl := Option.some.inj hb
      unfold writeItem
      split
      next d _ =>
        have hwritten := Item.faithful_written hf d commit
        exact ⟨a, ha, rfl, hwritten, hcommitted hwritten rfl rfl⟩
      next hnone =>
        -- an item that is not written has no row: it is still to be added
        refine ⟨a, ha, hlive, hf, fun row hrow => ?_⟩
        obtain ⟨d, hd⟩ := (hf.synced row hrow).dbId?
        have hdb : a.dbId = some d := by rw [(hs.item ha).consistent.dbId_eq, hrow]; exact hd
        rw [hdb] at hnone
        exact nomatch (Option.or_eq_none_iff.1 hnone).2

/-- After a commit no two rows share a key, since the live items share none. -/
theorem Sincere.committed (h : s.Sincere) (hs : s.Lawful Item.Tidy) (hk : s.KeysExact)
    (reserved : List (ItemId × DbId)) (commit : CommitId) :
    (s.committed s.pending reserved commit).Sincere ∧
      (s.committed s.pending reserved commit).RowsApart := by
  obtain ⟨hk', hitem⟩ := hk.committed hs reserved commit
  have hs' := hs.committed Item.law_tidy s.pending reserved commit
  have hsucc : s.Succeeds (s.committed s.pending reserved commit) := by
    refine ⟨(hs.housed.follows_written s.pending reserved commit).nextId_le, fun q b hb _ => ?_⟩
    rw [hitem] at hb
    obtain ⟨a, ha, -⟩ := h.committedItem? hs hb
    exact ⟨a, ha⟩
  refine ⟨⟨fun q b hb => ?_, fun q b hb => ?_⟩, ?_⟩
  · rw [hitem] at hb
    obtain ⟨-, -, -, hf, -⟩ := h.committedItem? hs hb
    exact hf.succeeds hsucc
  · rw [hitem] at hb
    obtain ⟨-, -, hlive, hf, -⟩ := h.committedItem? hs hb
    rw [Item.restored_of_live hlive]
    exact hf.truthful
  · intro kind i j a b row row' ha hb hrow hrow' key hkey hkey'
    have ha' := ha
    have hb' := hb
    rw [hitem] at ha' hb'
    obtain ⟨-, -, hla, -, hca⟩ := h.committedItem? hs ha'
    obtain ⟨-, -, hlb, -, hcb⟩ := h.committedItem? hs hb'
    refine hk'.apart hs' ha hb hla hlb key ?_ ?_
    · rw [hca row hrow, keysOf_contentOf]
      exact hkey
    · rw [hcb row' hrow', keysOf_contentOf]
      exact hkey'

/-! ### Commands -/

/-- A session that has only edited items and committed them to a database that nobody else writes to. -/
structure Sheltered (s : Session) (db : Database) : Prop where
  lawful : s.Lawful Item.Tidy
  sincere : s.Sincere
  keys : s.KeysExact
  rows : s.RowsApart
  known : s.knownCommits = db.commits.length

theorem sheltered_new (config : Config) : (new config 0).Sheltered .empty where
  lawful := lawful_new config 0
  sincere := ⟨fun _ _ h => (nomatch h), fun _ _ h => (nomatch h)⟩
  keys _ := Table.keysExact_empty _
  rows _ _ _ _ _ _ _ h := nomatch h
  known := rfl

/-- Edits of items keep a session sheltered. -/
theorem Sheltered.of_reworks (h : s.Sheltered db) (hs : s'.Lawful Item.Tidy) (hk : s'.KeysExact)
    (hreworks : s.Reworks s') (hknown : s'.knownCommits = s.knownCommits) : s'.Sheltered db :=
  ⟨hs, hreworks.sincere, hk, hreworks.rowsApart h.rows, hknown.trans h.known⟩

theorem Sheltered.add (h : s.Sheltered db) {kind : Kind} {given : Record} {id : ItemId}
    (hadd : s.add kind given = .ok (id, s')) : s'.Sheltered db := by
  have hold : ∀ {q : ItemRef} {b : Item} {row : Record}, s'.item? q = some b → b.synced = some row →
      s.item? q = some b := by
    intro q b row hb hrow
    rw [item?_add hadd] at hb
    split at hb
    next =>
      obtain rfl := Option.some.inj hb
      cases hrow
    next => exact hb
  refine ⟨h.lawful.add Item.law_tidy hadd, ?_, h.keys.add h.lawful hadd, ?_, ?_⟩
  · exact h.sincere.of_keepsRemovals (h.sincere.faithful.add h.lawful.tidy hadd) (keepsRemovals_add hadd)
  · exact fun kind i j a b row row' ha hb hrow hrow' =>
      h.rows (hold ha hrow) (hold hb hrow') hrow hrow'
  · exact (h.lawful.housed.follows_add hadd).knownCommits.trans h.known

theorem Sheltered.update (h : s.Sheltered db) {changes : Record}
    (hup : s.update r changes = .ok s') : s'.Sheltered db :=
  h.of_reworks (h.lawful.update Item.law_tidy hup) (h.keys.update h.lawful hup)
    (h.sincere.reworks_update h.lawful hup) (h.lawful.housed.follows_update hup).knownCommits

theorem Sheltered.remove (h : s.Sheltered db) {refs : List ItemRef}
    (hrem : s.remove r = .ok (refs, s')) : s'.Sheltered db :=
  h.of_reworks (h.lawful.remove Item.law_tidy hrem) (h.keys.remove h.lawful hrem)
    (h.sincere.reworks_remove h.lawful hrem) (h.lawful.housed.follows_remove hrem).knownCommits

theorem Sheltered.restore (h : s.Sheltered db) (hsrc : s.SourcesApart) {refs : List ItemRef}
    (hres : s.restore r = .ok (refs, s')) : s'.Sheltered db :=
  h.of_reworks (h.lawful.restore Item.law_tidy hres) (h.keys.restore h.lawful hsrc hres)
    (h.sincere.reworks_restore h.lawful hres) (h.lawful.housed.follows_restore hres).knownCommits

theorem Sheltered.rollBack (h : s.Sheltered db) (hback : s.rollBack = .ok s') : s'.Sheltered db :=
  h.of_reworks (h.lawful.rollBack Item.law_tidy hback)
    (h.rows.keysExact_rollBack h.lawful h.sincere.faithful hback)
    (h.sincere.reworks_rollBack h.lawful hback) (h.lawful.housed.follows_rollBack hback).knownCommits

end Session

section Commands

open ConnectionM

variable {α : Type}

/-- The session goes on being sheltered. -/
def Connection.KeepsSheltered (c c' : Connection Database) : Prop :=
  c.session.Sheltered c.store → c'.session.Sheltered c'.store

/-- Neither the session nor the commits have changed. -/
def Connection.SameCommits (c c' : Connection Database) : Prop :=
  c'.session = c.session ∧ c'.store.commits = c.store.commits

theorem Connection.chains_sameCommits : Chains Connection.SameCommits :=
  ⟨fun _ => ⟨rfl, rfl⟩, fun h h' => ⟨h'.1.trans h.1, h'.2.trans h.2⟩⟩

theorem keepsSheltered_edit {f : Session → Except Error (α × Session)} {c : Connection Database}
    (h : ∀ {s' a}, c.session.Sheltered c.store → f c.session = .ok (a, s') → s'.Sheltered c.store) :
    Connection.KeepsSheltered c (edit f c).2 := by
  intro hc
  unfold edit
  cases hf : f c.session with
  | error e => exact hc
  | ok p => exact h hc hf

theorem keepsSheltered_map {β : Type} (f : α → β) {x : ConnectionM Database α}
    {c : Connection Database} (h : Connection.KeepsSheltered c (x c).2) :
    Connection.KeepsSheltered c ((f <$> x) c).2 := by
  rw [run_map]
  exact h

/-- A session that knows all commits is not refreshed before its own, and its items share no keys when
they are written. -/
theorem Connection.keepsSheltered_commit (comment : String) (c : Connection Database) :
    Connection.KeepsSheltered c (Connection.commit comment c).2 := by
  intro hc
  have hstale : refreshIfStale c = (.ok (), c) := by
    rw [refreshIfStale_eq, if_neg]
    rintro ⟨-, hlt⟩
    rw [hc.known] at hlt
    exact Nat.lt_irrefl _ hlt
  rw [commit_eq hstale]
  split
  next => exact hc
  rcases writePending_split chains_sameCommits (fun _ _ _ => ⟨rfl, rfl⟩) comment c with
    ⟨-, -, hsession, hcommits⟩ |
    ⟨info, batch, reserved, mid, ⟨hsession, hcommits⟩, ⟨e, happly, hrun⟩ | ⟨id, happly, hrun⟩⟩
  · rw [hsession]
    exact ⟨hc.lawful, hc.sincere, hc.keys, hc.rows, by rw [hcommits]; exact hc.known⟩
  · have hstore : (mid.store.apply info batch).2 = mid.store :=
      congrArg Prod.snd (Database.apply_of_error happly)
    rw [hrun]
    dsimp only
    rw [hsession]
    refine ⟨hc.lawful, hc.sincere, hc.keys, hc.rows, ?_⟩
    exact hc.known.trans (congrArg List.length (hcommits.symm.trans (congrArg _ hstore.symm)))
  · have happly : mid.store.apply info batch = (.ok id, (mid.store.apply info batch).2) :=
      Prod.ext happly rfl
    have hlen := Database.commits_length_apply happly
    obtain ⟨-, hid, -⟩ := Database.apply_eq_ok happly
    rw [hrun]
    obtain ⟨hsincere, hrows⟩ := hc.sincere.committed hc.lawful hc.keys reserved id
    refine ⟨hc.lawful.committed Item.law_tidy _ _ _, hsincere,
      (hc.keys.committed hc.lawful reserved _).1, hrows, ?_⟩
    have hknown : (id.val : Int) = c.session.knownCommits + 1 := by
      rw [hid, hcommits, hc.known]
    have hcount : (c.session.committed c.session.pending reserved id).knownCommits =
        c.session.knownCommits + 1 := if_pos hknown
    exact hcount.trans (hlen.trans (by rw [hcommits, hc.known])).symm

/-- A command that takes no rows in and forgets none. -/
def Command.isLocal : Command → Bool
  | fetch .. => false
  | refresh _ => false
  | reset _ => false
  | _ => true

/-- A command restores items only while no two removed items that share a key were removed for the same
item. -/
def Command.Unmixed (s : Session) : Command → Prop
  | restore _ => s.SourcesApart
  | _ => True

instance (s : Session) : ∀ command : Command, Decidable (command.Unmixed s)
  | .restore _ => inferInstanceAs (Decidable s.SourcesApart)
  | .add .. | .update .. | .remove _ | .fetch .. | .refresh _ | .commit _ | .rollBack | .reset _
  | .hasExternalCommits => isTrue trivial

/-- Commands that take no rows in keep a session sheltered. -/
theorem Command.keepsSheltered_run {command : Command} (hlocal : command.isLocal = true)
    {c : Connection Database} (hunmixed : command.Unmixed c.session) :
    Connection.KeepsSheltered c (command.run c).2 := by
  cases command with
  | add kind fields =>
    refine keepsSheltered_map Reply.item (x := edit fun s => s.add kind fields) ?_
    exact keepsSheltered_edit fun hc hadd => hc.add hadd
  | update r changes =>
    exact keepsSheltered_edit fun hc hup => hc.update (Session.eq_ok_of_done hup)
  | remove r =>
    refine keepsSheltered_map Reply.items (x := edit fun s => s.remove r) ?_
    exact keepsSheltered_edit fun hc hrem => hc.remove hrem
  | restore r =>
    refine keepsSheltered_map Reply.items (x := edit fun s => s.restore r) ?_
    exact keepsSheltered_edit fun hc hres => hc.restore hunmixed hres
  | commit comment =>
    rw [run_commit]
    exact Connection.keepsSheltered_commit comment c
  | rollBack => exact keepsSheltered_edit fun hc hback => hc.rollBack (Session.eq_ok_of_done hback)
  | hasExternalCommits => exact fun hc => hc
  | fetch => cases hlocal
  | refresh => cases hlocal
  | reset => cases hlocal

end Commands

namespace Workspace

variable {w : Workspace Database} {name : String} {s : Session}

theorem sheltered_after {commands : List Command} (hs : w.session? name = some s)
    (h : s.Sheltered w.store) (hlocal : ∀ command ∈ commands, command.isLocal = true)
    (hrun : Run (fun w e => w.Heeds name (fun s _ command => command.Unmixed s) e) w
      (commands.map (.ask name))) :
    ∃ s', (w.after (commands.map (.ask name))).session? name = some s' ∧
      s'.Sheltered (w.after (commands.map (.ask name))).store := by
  induction commands generalizing w s with
  | nil => exact ⟨s, hs, h⟩
  | cons command commands ih =>
    obtain ⟨hstore, hsession⟩ := act_ask hs command
    have hkeeps := Command.keepsSheltered_run (hlocal command (List.mem_cons_self ..))
      (c := ⟨s, w.store, []⟩) (hrun.1 rfl s hs) h
    exact ih ((hsession name).trans (if_pos rfl)) (by rw [hstore]; exact hkeeps)
      (fun c hc => hlocal c (List.mem_cons_of_mem _ hc)) hrun.2

/-- In a session that takes no rows in, over a database that starts empty and that nobody else writes to,
no two live items of a kind ever share a unique key, whatever commands are given to it and be they
refused or not, as long as it restores items only while no two removed items that share a key were
removed for the same item. -/
theorem keysApart_of_local_run {config : Config} {commands : List Command}
    (hlocal : ∀ command ∈ commands, command.isLocal = true)
    (hrun : Run (fun w e => w.Heeds name (fun s _ command => command.Unmixed s) e) (new .empty)
      (.connect name config :: commands.map (.ask name))) :
    ∃ s, ((new .empty).after (.connect name config :: commands.map (.ask name))).session? name =
        some s ∧ s.KeysApart := by
  have hconnect : ((new Database.empty).act (.connect name config)).session? name =
      some (.new config 0) := (session?_connect ..).trans (if_pos rfl)
  obtain ⟨s, hs, h⟩ := sheltered_after hconnect (Session.sheltered_new config) hlocal hrun.2
  exact ⟨s, hs, h.keys.apart h.lawful⟩

/-- An alternative of a scenario is renamed and removed, its name and its rank are given to others, and it
is restored, which leaves its part of the scenario removed; all that is rolled back.  Then it is removed
once more and restored with its part. -/
def reshuffledScenario : List Command :=
  [.add .scenario (.ofList [("name", .text "plan")]),
    .add .alternative (.ofList [("name", .text "base")]),
    .add .alternative (.ofList [("name", .text "low")]),
    .add .scenarioAlternative
      (.ofList [("scenario_id", .ref ⟨1⟩), ("alternative_id", .ref ⟨2⟩), ("rank", .integer 1)]),
    .commit "plan", .add .alternative (.ofList [("name", .text "base")]),
    .update ⟨.alternative, ⟨2⟩⟩ (.ofList [("name", .text "high")]),
    .add .alternative (.ofList [("name", .text "base")]), .remove ⟨.alternative, ⟨2⟩⟩,
    .add .scenarioAlternative
      (.ofList [("scenario_id", .ref ⟨1⟩), ("alternative_id", .ref ⟨3⟩), ("rank", .integer 1)]),
    .restore ⟨.alternative, ⟨2⟩⟩, .commit " ", .rollBack, .remove ⟨.alternative, ⟨2⟩⟩,
    .restore ⟨.alternative, ⟨2⟩⟩]

set_option maxRecDepth 4000 in
theorem keysApart_of_reshuffledScenario : ∃ s,
    ((new .empty).after (.connect "a" {} :: reshuffledScenario.map (.ask "a"))).session? "a" = some s ∧
      s.KeysApart :=
  keysApart_of_local_run (by decide) (by decide +kernel)

/-- An alternative is removed with its part of a scenario, whose rank another part has when the
alternative is restored; that one is removed, and a new part takes its place and goes with the
alternative once more. -/
def refilledScenario : List Command :=
  [.add .scenario (.ofList [("name", .text "plan")]),
    .add .alternative (.ofList [("name", .text "base")]),
    .add .alternative (.ofList [("name", .text "low")]),
    .add .scenarioAlternative
      (.ofList [("scenario_id", .ref ⟨1⟩), ("alternative_id", .ref ⟨2⟩), ("rank", .integer 1)]),
    .remove ⟨.alternative, ⟨2⟩⟩,
    .add .scenarioAlternative
      (.ofList [("scenario_id", .ref ⟨1⟩), ("alternative_id", .ref ⟨3⟩), ("rank", .integer 1)]),
    .restore ⟨.alternative, ⟨2⟩⟩, .remove ⟨.scenarioAlternative, ⟨5⟩⟩,
    .add .scenarioAlternative
      (.ofList [("scenario_id", .ref ⟨1⟩), ("alternative_id", .ref ⟨2⟩), ("rank", .integer 1)]),
    .remove ⟨.alternative, ⟨2⟩⟩, .restore ⟨.alternative, ⟨2⟩⟩]

set_option maxRecDepth 4000 in
/-- Both parts come back with the alternative, and a commit is refused. -/
theorem keys_shared_by_restoration : ∃ (w : Workspace Database) (s : Session) (key : UniqueKey),
    (∀ command ∈ refilledScenario, command.isLocal = true) ∧
      w = (new .empty).after (.connect "a" {} :: refilledScenario.map (.ask "a")) ∧
      w.session? "a" = some s ∧ ¬ s.KeysApart ∧
      (w.perform "a" s (.commit "plan")).1 = .error (.keyTaken .scenarioAlternative key) := by
  have hcheck : (((new .empty).after
      (.connect "a" {} :: refilledScenario.map (.ask "a"))).session? "a").any (fun s =>
        decide (¬ s.KeysApart) &&
        decide ((((new .empty).after (.connect "a" {} :: refilledScenario.map (.ask "a"))).perform "a" s
          (.commit "plan")).1 =
          .error (.keyTaken .scenarioAlternative ⟨0, [.ref ⟨1⟩, .ref ⟨2⟩]⟩))) = true := by
    decide +kernel
  obtain ⟨s, hs, hcheck⟩ := (Option.any_eq_true ..).1 hcheck
  obtain ⟨hshared, hrefused⟩ := Bool.and_eq_true_iff.1 hcheck
  exact ⟨_, s, _, by decide, rfl, hs, of_decide_eq_true hshared, of_decide_eq_true hrefused⟩

end Workspace

end StagedEdits
