import Mathlib.Data.List.Induction
import StagedEdits.Proofs.Binding

/-!
# The grounds of a conflict

Rows are stamped with the commit that wrote them.  The row of an item therefore tells where it comes
from: it is stamped with the commit that the item knows, or with a later one, and that one was made by
another session (`Session.Accounted`).  So a conflict about the row that an item had before has one of
two grounds.  Another session has written the row since, or the row is still the one that the item has
agreed with, and a reference of it leads to another item by now (`Workspace.grounds_of_conflict`).

The second is no conflict with anybody.  It comes up where an item has moved to a row that holds its
key, since the rows that refer to its former row then read differently
(`Workspace.conflict_over_untouched_row`).
-/

namespace StagedEdits

/-- A row was seen as it was written by a commit, and is by now as a later one wrote it, which meets a
condition. -/
def Record.Supersedes (stored seen : Record) (P : CommitId → Prop) : Prop :=
  ∃ n m, seen.commitId? = some n ∧ stored.commitId? = some m ∧ n.val < m.val ∧ P m

/-- How an item, and a row that it had before, have come apart: `stored` is the row as it is stored, and
`seen` the one that the item last agreed with. -/
structure Conflict.Grounded (c : Conflict) (P : CommitId → Prop) (row stored seen : Record) : Prop where
  synced : c.item.synced = some seen
  /-- The row that comes into conflict is the stored one, but for its references. -/
  read : stored.SameButReferences c.item.kind row
  /-- The row was written since, or it is as it was seen and one of its references leads to another
  item. -/
  ground : stored.Supersedes seen P ∨
    stored.commitId? = seen.commitId? ∧ stored.SameButReferences c.item.kind seen ∧
      ∃ e ∈ c.item.kind.references, row.get? e.1 ≠ seen.get? e.1

namespace Session

variable {s s' : Session} {db db₁ db' : Database} {P : CommitId → Prop}

/-- A row that is not stamped as its item knows it was written by a commit that meets a condition. -/
def Accounted (s : Session) (db : Database) (P : CommitId → Prop) : Prop :=
  ∀ ⦃r item d seen stored⦄, s.item? r = some item → item.dbId = some d →
    item.synced = some seen → db.row? r.kind d = some stored →
      stored.commitId? = seen.commitId? ∨ stored.Supersedes seen P

theorem Accounted.mono {Q : CommitId → Prop} (h : s.Accounted db P) (hPQ : ∀ m, P m → Q m) :
    s.Accounted db Q := by
  intro r item d seen stored hi hd hsync hrow
  refine (h hi hd hsync hrow).imp_right ?_
  rintro ⟨n, m, hn, hm, hlt, hP⟩
  exact ⟨n, m, hn, hm, hlt, hPQ m hP⟩

/-- What is known of a row depends only on which row that is and on how it was seen. -/
theorem Accounted.of_items (h : s.Accounted db P)
    (hitem : ∀ ⦃r b d⦄, s'.item? r = some b → b.dbId = some d →
      ∃ a, s.item? r = some a ∧ b.dbId = a.dbId ∧ b.synced = a.synced) : s'.Accounted db P := by
  intro r b d seen stored hb hd hsync hrow
  obtain ⟨a, ha, hid, hseen⟩ := hitem hb hd
  exact h ha (hid ▸ hd) (hseen ▸ hsync) hrow

theorem Accounted.of_edited (h : s.Accounted db P)
    (hitem : ∀ ⦃r b⦄, s'.item? r = some b → ∃ a, s.item? r = some a ∧ a.Edited b) :
    s'.Accounted db P := by
  refine h.of_items fun r b d hb _ => ?_
  obtain ⟨a, ha, he⟩ := hitem hb
  exact ⟨a, ha, he.dbId_eq, he.synced_eq⟩

theorem Accounted.of_rows (h : s.Accounted db P)
    (hrows : ∀ kind d, db'.row? kind d = db.row? kind d) : s.Accounted db' P :=
  fun _ _ _ _ _ hi hd hsync hrow => h hi hd hsync ((hrows _ _).symm.trans hrow)

theorem Fetches.accounted {kind : Kind} (hf : s.Fetches kind (db.rows kind) s')
    (h : s.Accounted db P) (hs : s.Coherent) (hdb : db.Sound) : s'.Accounted db P := by
  rintro ⟨k, id⟩ item d seen stored hi hd hsync hrow
  by_cases hk : k = kind
  · subst hk
    rcases hf.row_cases hs hdb hi hd with ⟨row, r, hrow', hsync', hlocal⟩ | ⟨-, hold⟩
    · obtain rfl := Option.some.inj (hrow.symm.trans hrow')
      obtain rfl := Option.some.inj (hsync.symm.trans hsync')
      exact .inl (same_of_localRow? hlocal).commitId?
    · exact h hold hd hsync hrow
  · exact h (hf.item? (r := ⟨k, id⟩) hk hi) hd hsync hrow

theorem Pulls.accounted {kinds : List Kind} (hp : Pulls db kinds s s') (h : s.Accounted db P)
    (hs : s.WellFormed) (hdb : db.Sound) : s'.Accounted db P := by
  induction hp with
  | nil => exact h
  | cons hf _ ih => exact ih (hf.accounted h hs.toCoherent hdb) hf.wellFormed

theorem Accounted.atCommit (h : s.Accounted db P) (hs : s.WellFormed) (hdb : db.Sound) :
    (s.atCommit db).Accounted db P := by
  rcases atCommit_cases hs hdb with ⟨heq, -⟩ | ⟨-, s₁, heq, hp⟩
  · rw [heq]; exact h
  · rw [heq]; exact hp.accounted h hs hdb

/-- A commit of the session itself: what it writes, its items know. -/
theorem Commits.accounted {reserved : List (ItemId × DbId)} {id : CommitId}
    (hc : s.Commits db reserved id s' db') (hs : s.Informed db) (hres : s.Reserves db reserved db₁)
    (h : s.Accounted db P) : s'.Accounted db' P := by
  intro r b d seen stored hb hd hsync hrow
  obtain ⟨a, ha, -, ⟨hst, rfl⟩ | ⟨d', row, -, -, hstored, hrow', rfl⟩⟩ :=
    hc.item_cases hs.toWellFormed hres hb
  · have hkept := hc.row?_of_committed hs.toWellFormed hs.bounded hres ha hst hd
    exact h ha hd hsync (hkept.symm.trans hrow)
  · obtain rfl : d' = d := Option.some.inj hd
    obtain rfl := Option.some.inj (hrow'.symm.trans hrow)
    exact .inl (same_of_storedRow id hstored hsync).commitId?

/-- What a session does itself keeps its rows accounted for. -/
theorem Step.accounted {command : Command} (hstep : s.Step db command s' db') (hs : s.Informed db)
    (hdb : db.Sound) (h : s.Accounted db P) : s'.Accounted db' P := by
  cases hstep with
  | idle => exact h
  | add hadd =>
    refine h.of_items fun r b d hb hd => ?_
    rw [item?_add hadd] at hb
    split at hb
    next =>
      obtain rfl := Option.some.inj hb
      cases hd
    next => exact ⟨b, hb, rfl, rfl⟩
  | update he => exact h.of_edited fun _ _ => (edits_update hs.toWellFormed he).some_of
  | remove he => exact h.of_edited fun _ _ => (edits_remove hs.toWellFormed he).some_of
  | restore he => exact h.of_edited fun _ _ => (edits_restore hs.toWellFormed he).some_of
  | fetch hp => exact hp.accounted h hs.toWellFormed hdb
  | refresh hp => exact hp.accounted h hs.toWellFormed hdb
  | refused hres => exact (h.atCommit hs.toWellFormed hdb).of_rows hres.row?_eq
  | commit hres hc => exact hc.accounted (hs.atCommit hdb) hres (h.atCommit hs.toWellFormed hdb)
  | rollBack he => exact h.of_edited fun _ _ => edited_rollBack hs.toWellFormed he
  | reset => exact h.of_items fun r b d hb _ => ⟨b, item?_reset hb, rfl, rfl⟩

/-- Rows that others write are accounted for if their commits are. -/
theorem Accounted.written (h : s.Accounted db P) (hs : s.Informed db)
    (hrows : ∀ kind d, db'.row? kind d = db.row? kind d ∨ ∃ id : CommitId,
      db.commits.length < id.val ∧ P id ∧
        ∀ row, db'.row? kind d = some row → row.commitId? = some id) : s.Accounted db' P := by
  intro r item d seen stored hi hd hsync hrow
  rcases hrows r.kind d with heq | ⟨id, hlt, hP, hstamp⟩
  · exact h hi hd hsync (heq.symm.trans hrow)
  · obtain ⟨-, ⟨n, hn, hle⟩, -⟩ := hs.recalls hi d seen hd hsync
    exact .inr ⟨n, id, hn, hstamp stored hrow, Int.lt_of_le_of_lt hle hlt, hP⟩

/-! ### Conflicts -/

/-- A row that is as it was seen, and whose references lead where they did, reads as it was seen. -/
theorem localRow?_eq_seen {kind : Kind} {stored row seen : Record}
    (hlocal : s.localRow? kind stored = some row) (hsame : stored.SameButReferences kind seen)
    (hrefs : ∀ e ∈ kind.references, row.get? e.1 = seen.get? e.1) : row = seen := by
  have hread := (localRow?_eq_some_iff.1 hlocal).translated
  have hseen : s.localRow? kind stored = some seen := by
    refine localRow?_eq_some_iff.2 ⟨fun field hf => (hsame field hf).symm, fun e he => ?_⟩
    rw [← hrefs e he]
    exact hread e he
  exact Option.some.inj (hlocal.symm.trans hseen)

theorem Meets.grounded {kind : Kind} {c : Conflict} {row : Record} {d : DbId}
    (h : s.Meets kind (s.readable kind (db.rows kind)) c) (hs : s.Informed db)
    (hacc : s.Accounted db P) (hdb : db.Sound) (hrow : c.row = some row)
    (hd : c.item.dbId = some d) (hrd : row.dbId? = some d) :
    ∃ stored seen, db.row? c.item.kind d = some stored ∧ c.Grounded P row stored seen := by
  have hkind : c.item.kind = kind := hs.item_kind h.item
  obtain ⟨stored, hstored, hlocal⟩ := row?_of_readable hdb (h.row_mem row hrow) hrd
  obtain ⟨seen, hseen, -⟩ : ∃ seen, c.item.synced = some seen ∧ seen.dbId? = some d := by
    rw [(hs.consistent h.item).dbId_eq] at hd
    exact Option.bind_eq_some_iff.1 hd
  refine ⟨stored, seen, hkind ▸ hstored, hseen, hkind ▸ same_of_localRow? hlocal, ?_⟩
  refine (hacc h.item hd hseen hstored).symm.imp_right fun hstamp => ?_
  have hsame : stored.SameButReferences kind seen :=
    (hs.recalls h.item d seen hd hseen).2.2 stored hstored hstamp
  refine ⟨hstamp, hkind ▸ hsame, ?_⟩
  by_contra hnone
  obtain ⟨div, hdiv⟩ := h.divergence
  refine Item.synced_ne_of_divergence? (hrow ▸ hdiv) (hseen.trans (congrArg some ?_))
  refine (localRow?_eq_seen hlocal hsame fun e he => ?_).symm
  by_contra hne
  exact hnone ⟨e, hkind ▸ he, hne⟩

/-- Of tables that are fetched one after the other, every conflict over an item's own row is
grounded. -/
theorem Raises.grounded {kinds : List Kind} {c : Conflict} {row : Record} {d : DbId}
    (h : Raises db c kinds s s') (hs : s.Informed db) (hacc : s.Accounted db P) (hdb : db.Sound)
    (hrow : c.row = some row) (hd : c.item.dbId = some d) (hrd : row.dbId? = some d) :
    ∃ stored seen, db.row? c.item.kind d = some stored ∧ c.Grounded P row stored seen := by
  induction h with
  | here hmeets _ _ => exact hmeets.grounded hs hacc hdb hrow hd hrd
  | later hf _ ih => exact ih (hs.fetches hdb hf) (hf.accounted hacc hs.toCoherent hdb)

end Session

namespace Command

/-- The conflicts of a command come up while it fetches tables. -/
theorem raises_of_mem {s : Session} {db : Database} (hs : s.WellFormed) (hb : s.Bounded db)
    (hdb : db.Sound) {command : Command} (hh : command.Honest) (hr : command.InRange s db)
    {c : Conflict} (hc : c ∈ (command.run ⟨s, db, []⟩).2.passes.flatten) :
    ∃ kinds s', Session.Raises db c kinds s s' := by
  have hpull : command.isPull = true → ∃ kinds s', Session.Raises db c kinds s s' := by
    intro hpull
    obtain ⟨report, s', passes, hrun, s₁, -, -, hraises⟩ := run_pull hs hdb hpull hh
    rw [hrun] at hc
    exact ⟨_, s₁, hraises c hc⟩
  have hnone : (command.run ⟨s, db, []⟩).2.passes = [] →
      ∃ kinds s', Session.Raises db c kinds s s' := by
    intro hnil
    rw [hnil] at hc
    exact absurd hc List.not_mem_nil
  cases command with
  | fetch => exact hpull rfl
  | refresh => exact hpull rfl
  | commit comment =>
    unfold run at hc
    dsimp only at hc
    rw [ConnectionM.run_map, Connection.passes_commit hs hb hdb (hr rfl)] at hc
    split at hc
    next => exact absurd hc List.not_mem_nil
    next =>
      obtain ⟨passes, hrun, -, hraises⟩ := Session.refreshIfStale_atCommit hs hdb
      rw [hrun] at hc
      obtain ⟨s₁, h⟩ := hraises c hc
      exact ⟨_, s₁, h⟩
  | update | rollBack | reset => exact hnone (ConnectionM.passes_edit ..)
  | add | remove | restore =>
    refine hnone ?_
    unfold run
    dsimp only
    rw [ConnectionM.run_map]
    exact ConnectionM.passes_edit ..
  | hasExternalCommits => exact hnone rfl

end Command

namespace Workspace

variable {w : Workspace Database} {events : List Event} {name : String} {s : Session} {id : CommitId}

/-- In a run, a session of another name has made commit `id` since the session that is open as `name`
was opened. -/
def MadeElsewhere (events : List Event) (name : String) (id : CommitId) : Prop :=
  ∃ before other comment s after, events = before ++ .ask other (.commit comment) :: after ∧
    other ≠ name ∧ (∀ config, .connect name config ∉ after) ∧
    ((new .empty).after before).session? other = some s ∧
    (((new .empty).after before).perform other s (.commit comment)).1 = .ok (.commit id)

theorem MadeElsewhere.append (h : MadeElsewhere events name id) {e : Event}
    (he : ∀ config, e ≠ .connect name config) : MadeElsewhere (events ++ [e]) name id := by
  obtain ⟨before, other, comment, s, after, rfl, hne, hnot, hs, hok⟩ := h
  refine ⟨before, other, comment, s, after ++ [e], ?_, hne, fun config hmem => ?_, hs, hok⟩
  · rw [List.append_assoc, List.cons_append]
  · rcases List.mem_append.1 hmem with hmem | hmem
    · exact hnot config hmem
    · exact he config (List.mem_singleton.1 hmem).symm

/-- A command leaves a row as it is, or it is a commit that stamps the row. -/
theorem row?_of_ask (hw : w.All Database.Sound Session.Informed) (hs : w.session? name = some s)
    {command : Command} (he : w.Orderly (.ask name command)) (kind : Kind) (d : DbId) :
    (w.act (.ask name command)).store.row? kind d = w.store.row? kind d ∨
      ∃ comment id, command = .commit comment ∧
        (w.perform name s command).1 = .ok (.commit id) ∧ w.store.commits.length < id.val ∧
        ∀ row, (w.act (.ask name command)).store.row? kind d = some row → row.commitId? = some id := by
  obtain ⟨hh, hr⟩ := he s hs
  have hinf := hw.session hs
  rw [(act_ask hs command).1]
  cases hcommit : command.isCommit with
  | false =>
    have hstep := Session.step_run hinf.toWellFormed hinf.bounded hw.store hh hr
    rw [hstep.store_eq hcommit]
    exact .inl rfl
  | true =>
    obtain ⟨comment, rfl⟩ : ∃ comment, command = .commit comment := by
      cases command with
      | commit comment => exact ⟨comment, rfl⟩
      | _ => cases hcommit
    rw [outcome_commit, reply_commit]
    rcases Connection.commit_cases hinf.toWellFormed hinf.bounded hw.store (hr rfl) comment with
      ⟨-, hc⟩ | ⟨e, db', passes, hc, hres, -⟩ | ⟨id, s', db', passes, db₁, reserved, hc, -, hcommits⟩
    · rw [hc]
      exact .inl rfl
    · rw [hc]
      exact .inl (hres.row?_eq kind d)
    · rw [hc]
      exact (hcommits.stamped kind d).imp_right fun hstamp =>
        ⟨comment, id, rfl, rfl, hcommits.lt_id, hstamp⟩

/-- One more event of a run keeps the rows of all sessions accounted for. -/
theorem accounted_act (hrun : Run Orderly (new .empty) events)
    (hacc : ∀ ⦃n t⦄, ((new .empty).after events).session? n = some t →
      t.Accounted ((new .empty).after events).store (MadeElsewhere events n))
    {e : Event} (he : ((new .empty).after events).Orderly e)
    (hs : (((new .empty).after events).act e).session? name = some s) :
    s.Accounted (((new .empty).after events).act e).store (MadeElsewhere (events ++ [e]) name) := by
  have hall := informed_of_reachable ⟨events, hrun, rfl⟩
  cases e with
  | connect n config =>
    rw [session?_connect] at hs
    split at hs
    next =>
      obtain rfl := Option.some.inj hs
      exact fun _ _ _ _ _ hi => nomatch hi
    next hne =>
      refine (hacc hs).mono fun m hm => hm.append fun config' heq => ?_
      cases heq
      exact hne rfl
  | ask n command =>
    cases ht : ((new .empty).after events).session? n with
    | none =>
      rw [act_ask_none ht] at hs ⊢
      exact (hacc hs).mono fun m hm => hm.append nofun
    | some t =>
      obtain ⟨hstore, hsession⟩ := act_ask ht command
      rw [hsession] at hs
      split at hs
      next heq =>
        -- the session's own command
        subst heq
        obtain rfl := Option.some.inj hs
        obtain ⟨hh, hr⟩ := he t ht
        have hinf := hall.session ht
        have hstep := Session.step_run hinf.toWellFormed hinf.bounded hall.store hh hr
        rw [hstore]
        exact (hstep.accounted hinf hall.store (hacc ht)).mono fun m hm => hm.append nofun
      next hne =>
        -- a command of another session
        have hkept := (hacc hs).mono fun m hm =>
          MadeElsewhere.append (e := .ask n command) hm nofun
        refine hkept.written (hall.session hs) fun kind d => ?_
        refine (row?_of_ask hall ht he kind d).imp_right ?_
        rintro ⟨comment, id, rfl, hok, hlt, hstamp⟩
        exact ⟨id, hlt, ⟨events, n, comment, t, [], rfl, Ne.symm hne,
          fun _ => List.not_mem_nil, ht, hok⟩, hstamp⟩

/-- After any orderly run the rows of every session are accounted for: those that it has not written
itself, and does not know, were written by other sessions while it was open. -/
theorem accounted_of_run (hrun : Run Orderly (new .empty) events) :
    ∀ ⦃name s⦄, ((new .empty).after events).session? name = some s →
      s.Accounted ((new .empty).after events).store (MadeElsewhere events name) := by
  induction events using List.reverseRecOn with
  | nil => exact fun _ _ hs => nomatch hs
  | append_singleton events e ih =>
    obtain ⟨hbefore, he, -⟩ := run_append.1 hrun
    have hafter : (new .empty).after (events ++ [e]) = ((new .empty).after events).act e :=
      List.foldl_append ..
    intro name s hs
    rw [hafter] at hs ⊢
    exact accounted_act hbefore (ih hbefore) he hs

/-- After any orderly run, a conflict that a command brings up over a row that the item had before is
grounded: another session has written the row since, or the row is as the item has last seen it and a
reference of it leads to another item by now. -/
theorem grounds_of_conflict (hrun : Run Orderly (new .empty) events)
    (hs : ((new .empty).after events).session? name = some s) {command : Command}
    (he : ((new .empty).after events).Orderly (.ask name command)) {c : Conflict}
    (hc : c ∈ (((new .empty).after events).perform name s command).2.1.flatten) {row : Record}
    {d : DbId} (hrow : c.row = some row) (hd : c.item.dbId = some d) (hrd : row.dbId? = some d) :
    ∃ stored seen, ((new .empty).after events).store.row? c.item.kind d = some stored ∧
      c.Grounded (MadeElsewhere events name) row stored seen := by
  obtain ⟨hh, hr⟩ := he s hs
  have hall := informed_of_reachable ⟨events, hrun, rfl⟩
  have hinf := hall.session hs
  obtain ⟨kinds, s', hraises⟩ := Command.raises_of_mem hinf.toWellFormed hinf.bounded hall.store hh hr
    hc
  exact hraises.grounded hinf (accounted_of_run hrun hs) hall.store hrow hd hrd

set_option maxRecDepth 4000 in
theorem grounds_of_conflict_of_crossedEdits : ∃ (s : Session) (c : Conflict) (row : Record),
    Run Orderly (new .empty) crossedEdits ∧ ((new .empty).after crossedEdits).session? "a" = some s ∧
      ((new .empty).after crossedEdits).Orderly (.ask "a" (.fetch .alternative none)) ∧
      c ∈ (((new .empty).after crossedEdits).perform "a" s (.fetch .alternative none)).2.1.flatten ∧
      c.row = some row ∧ c.item.dbId = some ⟨1⟩ ∧ row.dbId? = some ⟨1⟩ ∧
      ∃ stored seen,
        ((new .empty).after crossedEdits).store.row? c.item.kind ⟨1⟩ = some stored ∧
        c.Grounded (MadeElsewhere crossedEdits "a") row stored seen := by
  have hrun : Run Plain (new .empty) crossedEdits := by decide +kernel
  have hcheck : (((new .empty).after crossedEdits).session? "a").any (fun s =>
      (((new .empty).after crossedEdits).perform "a" s (.fetch .alternative none)).2.1.flatten.any
        fun c => c.row.any fun row =>
          decide (c.item.dbId = some ⟨1⟩) && decide (row.dbId? = some ⟨1⟩)) = true := by
    decide +kernel
  obtain ⟨s, hs, hcheck⟩ := (Option.any_eq_true ..).1 hcheck
  obtain ⟨c, hc, hcheck⟩ := List.any_eq_true.1 hcheck
  obtain ⟨row, hrow, hcheck⟩ := (Option.any_eq_true ..).1 hcheck
  simp only [Bool.and_eq_true, decide_eq_true_eq] at hcheck
  obtain ⟨hd, hrd⟩ := hcheck
  have horderly : Run Orderly (new .empty) crossedEdits := hrun.mono fun _ _ h => h.orderly
  have he : ((new .empty).after crossedEdits).Orderly (.ask "a" (.fetch .alternative none)) :=
    fun _ _ => ⟨.of_isPlain rfl, nofun⟩
  exact ⟨s, c, row, horderly, hs, he, hc, hrow, hd, hrd,
    grounds_of_conflict horderly hs he hc hrow hd hrd⟩

/-- A session uses an alternative in a scenario, commits both and changes the rank of the use.  It then
gives the alternative the name of one that another session has stored before. -/
def renamedUnderUse : List Event :=
  [.connect "b" {}, .ask "b" (.add .alternative (.ofList [("name", .text "low")])),
    .ask "b" (.commit "low"), .connect "a" {},
    .ask "a" (.add .alternative (.ofList [("name", .text "base")])),
    .ask "a" (.add .scenario (.ofList [("name", .text "plan")])),
    .ask "a" (.add .scenarioAlternative (.ofList
      [("alternative_id", .ref .first), ("rank", .integer 1), ("scenario_id", .ref ⟨2⟩)])),
    .ask "a" (.commit "add"),
    .ask "a" (.update ⟨.scenarioAlternative, ⟨3⟩⟩ (.ofList [("rank", .integer 2)])),
    .ask "a" (.update ⟨.alternative, .first⟩ (.ofList [("name", .text "low")]))]

set_option maxRecDepth 4000 in
/-- When the session fetches what it has used, its alternative moves to the row with the new name.  The
use then comes into conflict with its row, although nobody has written that row since the session
itself did. -/
theorem conflict_over_untouched_row : ∃ (w : Workspace Database) (s : Session) (c : Conflict)
    (row stored seen : Record) (d : DbId), w.Reachable Orderly ∧ w.session? "a" = some s ∧
      w.Orderly (.ask "a" (.fetch .scenarioAlternative none)) ∧
      c ∈ (w.perform "a" s (.fetch .scenarioAlternative none)).2.1.flatten ∧ c.row = some row ∧
      c.item.dbId = some d ∧ row.dbId? = some d ∧ w.store.row? c.item.kind d = some stored ∧
      c.item.synced = some seen ∧ stored.commitId? = seen.commitId? := by
  have hrun : Run Plain (new .empty) renamedUnderUse := by decide +kernel
  have hreach := hrun.reachable
  have hcheck : (((new .empty).after renamedUnderUse).session? "a").any (fun s =>
      (((new .empty).after renamedUnderUse).perform "a" s
        (.fetch .scenarioAlternative none)).2.1.flatten.any fun c =>
      c.row.any fun row => c.item.synced.any fun seen =>
      (((new .empty).after renamedUnderUse).store.row? c.item.kind ⟨1⟩).any fun stored =>
        decide (c.item.dbId = some ⟨1⟩) && decide (row.dbId? = some ⟨1⟩) &&
        decide (stored.commitId? = seen.commitId?)) = true := by decide +kernel
  obtain ⟨s, hs, hcheck⟩ := (Option.any_eq_true ..).1 hcheck
  obtain ⟨c, hc, hcheck⟩ := List.any_eq_true.1 hcheck
  obtain ⟨row, hrow, hcheck⟩ := (Option.any_eq_true ..).1 hcheck
  obtain ⟨seen, hseen, hcheck⟩ := (Option.any_eq_true ..).1 hcheck
  obtain ⟨stored, hstored, hcheck⟩ := (Option.any_eq_true ..).1 hcheck
  simp only [Bool.and_eq_true, decide_eq_true_eq] at hcheck
  obtain ⟨⟨hd, hrd⟩, hstamp⟩ := hcheck
  exact ⟨_, s, c, row, stored, seen, ⟨1⟩, hreach, hs, fun _ _ => ⟨.of_isPlain rfl, nofun⟩, hc, hrow,
    hd, hrd, hstored, hseen, hstamp⟩

end Workspace

end StagedEdits
