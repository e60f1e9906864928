import StagedEdits.Proofs.Binding
import StagedEdits.Proofs.StoredSide

/-!
# Taking the side of the database

A session that has fetched all tables and gives every conflict to the side of the database can
always go back to it: after a refresh and a roll back it shows what the database holds, whatever it
and others did before (`Workspace.shows_after_rollBack`).  What there is to be shown depends on the
database alone: the rows from which no reference leads to a row that is missing
(`Database.Grounded`).  So all sessions that get there agree (`Session.Shows.agree`).
-/

namespace StagedEdits

/-- A row that is there, with all rows that it refers to, directly or through others. -/
inductive Database.Grounded (db : Database) : Kind → DbId → Prop
  | intro {kind : Kind} {d : DbId} {row : Record} (hrow : db.row? kind d = some row)
      (hrefs : ∀ e ∈ kind.references, ∀ n, row.get? e.1 = some (.integer n) →
        db.Grounded e.2 ⟨n⟩) : db.Grounded kind d

namespace Session

variable {s s' : Session} {db : Database} {kind : Kind}

/-- The items of a table are the grounded rows, as they are stored. -/
structure Shows (s : Session) (db : Database) (kind : Kind) : Prop where
  item_of_row : ∀ ⦃d⦄, db.Grounded kind d →
    ∃! id, ∃ item, s.item? ⟨kind, id⟩ = some item ∧ item.dbId = some d
  row_of_item : ∀ ⦃id item⦄, s.item? ⟨kind, id⟩ = some item → item.status = .committed ∧
    ∃ d row r, db.Grounded kind d ∧ item.dbId = some d ∧ db.row? kind d = some row ∧
      s.localRow? kind row = some r ∧ item.synced = some r ∧ item.content = kind.contentOf r

/-! ### Rows that can be read -/

/-- An item with a row has one that can be read, unless it is new. -/
theorem Binds.row_of_item (h : s.Binds db kind) (hs : s.WellFormed) (hf : s.Faithful) {id : ItemId}
    {item : Item} {d : DbId} (hi : s.item? ⟨kind, id⟩ = some item) (hd : item.dbId = some d) :
    ∃ row r, db.row? kind d = some row ∧ s.localRow? kind row = some r ∧ item.synced = some r := by
  by_contra hnone
  have hnew := h.new_of_unbound hi fun d' row r hrow hr hd' => by
    obtain rfl := Option.some.inj (hd.symm.trans hd')
    obtain ⟨id', item', hi', -, hsync, honly⟩ := h.item_of_row hrow hr
    obtain rfl := honly id item hi hd
    obtain rfl := Option.some.inj (hi.symm.trans hi')
    exact hnone ⟨row, r, hrow, hr, hsync⟩
  have hnot := hf.not_new hs.toCoherent hi hd
  rcases hnew with hst | hst <;> rw [hst] at hnot <;> cases hnot

/-- If all tables correspond to their rows, the rows that can be read are those that are grounded:
a reference can be read exactly if an item stands for what it refers to. -/
theorem grounded_iff (hs : s.WellFormed) (hf : s.Faithful) (hb : ∀ kind, s.Binds db kind)
    (hsh : db.Shaped) {d : DbId} {row : Record} (hrow : db.row? kind d = some row) :
    db.Grounded kind d ↔ ∃ r, s.localRow? kind row = some r := by
  constructor
  · intro h
    induction h generalizing row with
    | @intro kind d stored hstored hrefs ih =>
      obtain rfl := Option.some.inj (hrow.symm.trans hstored)
      refine exists_localRow? fun e he => ?_
      obtain ⟨n, hn⟩ := hsh.refs hrow e he
      obtain ⟨target, htarget⟩ : ∃ target, db.row? e.2 ⟨n⟩ = some target := by
        cases hrefs e he n hn with
        | intro htarget => exact ⟨_, htarget⟩
      obtain ⟨r, hr⟩ := ih e he n hn htarget
      obtain ⟨id, item, hi, hd, -⟩ := (hb e.2).item_of_row htarget hr
      exact ⟨n, id, hn, hs.itemOfRow?_eq_some_iff.2 ⟨item, hi, hd⟩⟩
  · rintro ⟨r, hr⟩
    -- a row refers to rows of kinds of lower rank
    induction hrank : kind.rank using Nat.strongRecOn generalizing kind d row r with
    | ind rank ih =>
      refine .intro hrow fun e he n hn => ?_
      rcases (localRow?_eq_some_iff.1 hr).translated e he with ⟨hnull, -⟩ | ⟨m, id, hm, hid, -⟩
      · rw [hn] at hnull
        cases hnull
      · obtain rfl : n = m := by
          rw [hn] at hm
          exact Value.integer.inj (Option.some.inj hm)
        obtain ⟨item, hi, hd⟩ := hs.itemOfRow?_eq_some_iff.1 hid
        obtain ⟨target, r', htarget, hr', -⟩ := (hb e.2).row_of_item hs hf hi hd
        have hlt : e.2.rank < kind.rank := Kind.rank_lt_of_mem_references he
        exact ih e.2.rank (hrank ▸ hlt) htarget r' hr' rfl

/-! ### Rolling back -/

/-- There is nothing to roll back only if all items are committed. -/
theorem rollBack_cases (s : Session) : (∃ s', s.rollBack = .ok s') ∨
    (s.rollBack = .error .nothingToRollBack ∧ s.Clean) := by
  unfold rollBack
  split
  next => exact .inl ⟨_, rfl⟩
  next hclean =>
    refine .inr ⟨rfl, fun r item hi => ?_⟩
    by_contra hst
    obtain ⟨t, ht, hget⟩ := Option.bind_eq_some_iff.1 hi
    refine hclean (List.any_eq_true.2 ⟨t, SortedMap.mem_values_iff.2 ⟨r.kind, ht⟩, ?_⟩)
    refine List.any_eq_true.2 ⟨item, Table.mem_all_iff.2 ?_, decide_eq_true hst⟩
    rwa [t.id_eq hget]

/-- If all tables correspond to their rows, and nothing is pending any more, the rows are shown. -/
theorem shows_of_sameRows (hs : s.WellFormed) (hf : s.Faithful) (hb : ∀ kind, s.Binds db kind)
    (hsh : db.Shaped) (hsame : s.SameRows s') (hs' : s'.WellFormed) (hf' : s'.Faithful)
    (hst : s'.Clean) (kind : Kind) :
    s'.Shows db kind := by
  have hread : ∀ row, s'.localRow? kind row = s.localRow? kind row :=
    localRow?_congr fun target _ d => hsame.itemOfRow? hs hs' target d
  constructor
  case item_of_row =>
    intro d hground
    obtain ⟨row, hrow⟩ : ∃ row, db.row? kind d = some row := by
      cases hground with
      | intro hrow => exact ⟨_, hrow⟩
    obtain ⟨r, hr⟩ := (grounded_iff hs hf hb hsh hrow).1 hground
    obtain ⟨id, a, ha, hd, -⟩ := (hb kind).item_of_row hrow hr
    obtain ⟨b, hb', hdb, -⟩ := (hsame ⟨kind, id⟩ d a.synced).2 ⟨a, ha, hd, rfl⟩
    refine ⟨id, ⟨b, hb', hdb⟩, ?_⟩
    rintro id' ⟨item', hi', hd'⟩
    exact hs'.dbId_injective hi' hb' hd' hdb
  case row_of_item =>
    intro id b hb'
    have hcommitted := hst hb'
    obtain ⟨-, r, hsync, hcontent⟩ := (hf' hb').truthful.2 hcommitted
    obtain ⟨d, hd, -⟩ := hf'.dbId_of_synced hs'.toCoherent hb' hsync
    obtain ⟨a, ha, hda, hsynca⟩ := (hsame ⟨kind, id⟩ d b.synced).1 ⟨b, hb', hd, rfl⟩
    obtain ⟨row, r', hrow, hr, hsync'⟩ := (hb kind).row_of_item hs hf ha hda
    obtain rfl := Option.some.inj (hsync'.symm.trans (hsynca.trans hsync))
    rw [hs'.item_kind hb'] at hcontent
    exact ⟨hcommitted, d, row, r', (grounded_iff hs hf hb hsh hrow).2 ⟨r', hr⟩, hd, hrow,
      (hread row).trans hr, hsync, hcontent⟩

/-! ### Agreement -/

/-- Two sessions that show the same database have items for the same rows, with the same values, but
for references, which lead to items for the same rows. -/
theorem Shows.agree (h : ∀ kind, s.Shows db kind) (h' : ∀ kind, s'.Shows db kind)
    (hs : s.WellFormed) (hs' : s'.WellFormed) {id : ItemId} {item : Item}
    (hi : s.item? ⟨kind, id⟩ = some item) :
    ∃ id' item', s'.item? ⟨kind, id'⟩ = some item' ∧ item'.dbId = item.dbId ∧
      item.content.SameButReferences kind item'.content ∧
      ∀ field target i, (field, target) ∈ kind.references →
        item.content.get? field = some (.ref i) →
        ∃ j a b, item'.content.get? field = some (.ref j) ∧ s.item? ⟨target, i⟩ = some a ∧
          s'.item? ⟨target, j⟩ = some b ∧ b.dbId = a.dbId := by
  obtain ⟨-, d, row, r, hground, hd, hrow, hr, -, hc⟩ := (h kind).row_of_item hi
  obtain ⟨id', ⟨item', hi', hd'⟩, -⟩ := (h' kind).item_of_row hground
  obtain ⟨-, d', row', r', -, hd'', hrow', hr', -, hc'⟩ := (h' kind).row_of_item hi'
  obtain rfl := Option.some.inj (hd'.symm.trans hd'')
  obtain rfl := Option.some.inj (hrow.symm.trans hrow')
  refine ⟨id', item', hi', hd'.trans hd.symm, ?_, fun field target i he hv => ?_⟩
  · rw [hc, hc']
    exact contentOf_localRow? hr hr'
  · rw [hc, get?_contentOf_eq_ref_iff hr he] at hv
    obtain ⟨n, hn, hid⟩ := hv
    obtain ⟨j, hjd⟩ := exists_itemOfRow?_of_localRow? hr' he hn
    obtain ⟨a, ha, hda⟩ := hs.itemOfRow?_eq_some_iff.1 hid
    obtain ⟨b, hb, hdb⟩ := hs'.itemOfRow?_eq_some_iff.1 hjd
    refine ⟨j, a, b, ?_, ha, hb, hdb.trans hda.symm⟩
    rw [hc']
    exact (get?_contentOf_eq_ref_iff hr' he).2 ⟨n, hn, hjd⟩

end Session

namespace Workspace

variable {w : Workspace Database} {name : String} {s : Session}

/-- What a roll back leaves of a sincere session whose tables all correspond to their rows. -/
theorem exists_shows_of_rollBack (hs : w.session? name = some s) (hwf : s.WellFormed)
    (hsin : s.Sincere) (hb : ∀ kind, s.Binds w.store kind) (hsh : w.store.Shaped) :
    ((w.perform name s .rollBack).1 = .ok .done ∨
      (w.perform name s .rollBack).1 = .error .nothingToRollBack) ∧
    ∃ s', (w.act (.ask name .rollBack)).session? name = some s' ∧
      (w.act (.ask name .rollBack)).store = w.store ∧ ∀ kind, s'.Shows w.store kind := by
  obtain ⟨hstore, hsession⟩ := act_ask hs .rollBack
  have hsession := (hsession name).trans (if_pos rfl)
  rw [reply_rollBack, hstore, hsession]
  rcases s.rollBack_cases with ⟨s', hback⟩ | ⟨hback, hst⟩
  · have hdrop : ∀ r item, s.item? r = some item → item.rolledBack? = none → item.synced = none :=
      fun r item hi => Item.synced_of_rolledBack? (hsin.restorable hi)
    rw [outcome_rollBack hback, hback]
    refine ⟨.inl rfl, s', rfl, rfl, ?_⟩
    exact Session.shows_of_sameRows hwf hsin.faithful hb hsh
      (Session.sameRows_rollBack hwf hback hdrop) (Session.rollBack_spec hwf hback).2.2.1
      (hsin.faithful.rollBack hwf hback) (Session.clean_rollBack hwf hback)
  · rw [outcome_rollBack_eq, hback]
    exact ⟨.inr rfl, s, rfl, rfl, Session.shows_of_sameRows hwf hsin.faithful hb hsh
      (fun _ _ _ => Iff.rfl) hwf hsin.faithful hst⟩

/-- A session that has fetched all tables, and has given every conflict to the side of the database,
is refreshed in the same way and rolled back.  Both succeed, unless there is nothing to roll back,
and the session then shows the database.  The rows that the refresh could read are the grounded
ones. -/
theorem shows_after_rollBack (hw : w.Reachable (YieldingRun name)) (hs : w.session? name = some s)
    (hall : ∀ kind, kind ∈ s.fetched) {resolver : Option Resolver}
    (hh : (Command.refresh resolver).Honest) (hy : (Command.refresh resolver).Yields s w.store) :
    ∃ report w₁ s₁, (w.perform name s (.refresh resolver)).1 = .ok (.report report) ∧
      w.act (.ask name (.refresh resolver)) = w₁ ∧ w₁.session? name = some s₁ ∧
      (∀ kind d row, w.store.row? kind d = some row →
        (w.store.Grounded kind d ↔ ∃ r, s₁.localRow? kind row = some r)) ∧
      ((w₁.perform name s₁ .rollBack).1 = .ok .done ∨
        (w₁.perform name s₁ .rollBack).1 = .error .nothingToRollBack) ∧
      ∃ s₂, (w₁.act (.ask name .rollBack)).session? name = some s₂ ∧
        (w₁.act (.ask name .rollBack)).store = w.store ∧ ∀ kind, s₂.Shows w.store kind := by
  obtain ⟨hdb, hrooted⟩ := rooted_of_reachable (hw.mono fun _ _ he => he.1)
  obtain ⟨hreg, hroot⟩ := hrooted hs
  obtain ⟨hstore, hsession⟩ := act_ask hs (.refresh resolver)
  have hsession := (hsession name).trans (if_pos rfl)
  have hpull : (Command.refresh resolver).isPull = true := rfl
  obtain ⟨report, s', passes, hrun, -⟩ :=
    Command.run_pull hreg.toWellFormed hdb.toSound hpull hh
  have hw₁ : (w.act (.ask name (.refresh resolver))).Reachable (YieldingRun name) := by
    refine hw.act ⟨fun s' hs' => ⟨hh, nofun⟩, fun _ s' hs' => ?_⟩
    obtain rfl := Option.some.inj (hs.symm.trans hs')
    exact hy
  obtain ⟨hreg₁, hsin⟩ := sincere_of_reachable hw₁ hsession
  have hb : ∀ kind, (s.outcome w.store (.refresh resolver)).1.Binds w.store kind := fun kind =>
    Session.binds_outcome hreg.toWellFormed hroot hdb.toSound rfl hh
      (List.mem_filter.2 ⟨kind.mem_all, decide_eq_true (hall kind)⟩)
  have hsame : (w.act (.ask name (.refresh resolver))).store = w.store := by
    rw [hstore]
    unfold Session.outcome
    rw [hrun]
  have hwf := (hreg₁.session hsession).toWellFormed
  obtain ⟨hreply, s₂, hs₂, hstore₂, hshows⟩ := exists_shows_of_rollBack hsession hwf hsin
    (hsame ▸ hb) hreg₁.store.shaped
  rw [hsame] at hstore₂ hshows
  refine ⟨report, _, _, ?_, rfl, hsession, fun kind d row hrow => ?_, hreply, s₂, hs₂, hstore₂,
    hshows⟩
  · unfold perform
    rw [hrun]
  · exact Session.grounded_iff hwf hsin.faithful hb hdb.shaped hrow

/-- A session takes the side of the database.  It changes one alternative, removes a second one and
adds a third one; another session has changed both and committed. -/
def conceded : List Event :=
  [.connect "a" { policy := .takeStored }, .ask "a" (.fetch .parameterValue none),
    .ask "a" (.fetch .scenarioAlternative none),
    .ask "a" (.add .alternative (.ofList [("name", .text "base")])),
    .ask "a" (.add .alternative (.ofList [("name", .text "high")])), .ask "a" (.commit "add"),
    .connect "b" {}, .ask "b" (.fetch .alternative none),
    .ask "a" (.update ⟨.alternative, .first⟩ (.ofList [("description", .text "mine")])),
    .ask "a" (.remove ⟨.alternative, ⟨2⟩⟩),
    .ask "a" (.add .alternative (.ofList [("name", .text "low")])),
    .ask "b" (.update ⟨.alternative, .first⟩ (.ofList [("description", .text "theirs")])),
    .ask "b" (.update ⟨.alternative, ⟨2⟩⟩ (.ofList [("description", .text "theirs")])),
    .ask "b" (.commit "change")]

set_option maxRecDepth 4000 in
theorem shows_after_rollBack_of_conceded : ∃ (w : Workspace Database) (s : Session),
    w.Reachable (YieldingRun "a") ∧ w.session? "a" = some s ∧ (∀ kind, kind ∈ s.fetched) ∧
      (Command.refresh none).Honest ∧ (Command.refresh none).Yields s w.store ∧
      ∃ report w₁ s₁, (w.perform "a" s (.refresh none)).1 = .ok (.report report) ∧
        w.act (.ask "a" (.refresh none)) = w₁ ∧ w₁.session? "a" = some s₁ ∧
        (∀ kind d row, w.store.row? kind d = some row →
          (w.store.Grounded kind d ↔ ∃ r, s₁.localRow? kind row = some r)) ∧
        ((w₁.perform "a" s₁ .rollBack).1 = .ok .done ∨
          (w₁.perform "a" s₁ .rollBack).1 = .error .nothingToRollBack) ∧
        ∃ s₂, (w₁.act (.ask "a" .rollBack)).session? "a" = some s₂ ∧
          (w₁.act (.ask "a" .rollBack)).store = w.store ∧ ∀ kind, s₂.Shows w.store kind := by
  have hrun : Run
      (fun w e => w.Plain e ∧ w.Heeds "a" (fun s db command => command.Yields s db) e)
      (new .empty) conceded := by decide +kernel
  have hreach : ((new .empty).after conceded).Reachable (YieldingRun "a") :=
    ⟨conceded, hrun.mono fun _ _ h => ⟨h.1.orderly, h.2⟩, rfl⟩
  have hcheck : (((new .empty).after conceded).session? "a").any (fun s =>
      Kind.all.all (fun kind => decide (kind ∈ s.fetched)) &&
        decide ((Command.refresh none).Yields s ((new .empty).after conceded).store)) = true := by
    decide +kernel
  obtain ⟨s, hs, hcheck⟩ := (Option.any_eq_true ..).1 hcheck
  obtain ⟨hfetched, hy⟩ := Bool.and_eq_true_iff.1 hcheck
  have hall : ∀ kind, kind ∈ s.fetched := fun kind =>
    of_decide_eq_true (List.all_eq_true.1 hfetched kind kind.mem_all)
  have hy := of_decide_eq_true hy
  have hh : (Command.refresh none).Honest := nofun
  exact ⟨_, s, hreach, hs, hall, hh, hy, shows_after_rollBack hreach hs hall hh hy⟩

end Workspace

end StagedEdits
