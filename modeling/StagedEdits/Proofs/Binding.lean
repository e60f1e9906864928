import StagedEdits.Proofs.Shape

/-!
# Rows and items after a fetch

An item without a row is always a new one (`Session.Rooted`).  Hence fetching a table puts its rows,
as far as the session can read them, and its items, but for new ones, in one-to-one correspondence
(`Session.Binds`).  Tables that are fetched later do not disturb this, since they come after those
that they depend on (`Session.Pulls.binds`).
-/

namespace StagedEdits

/-- An item to update that is kept though its row is gone becomes one to add. -/
theorem Item.status_keptAgainst_none {item : Item} (h : item.status = .toUpdate) :
    (item.keptAgainst none).status = .toAdd := by
  unfold keptAgainst
  simp [h, removed, unbound, withStatus, Status.isRemoved]

namespace Session

variable {s s' : Session} {db db₁ db' : Database} {kind : Kind}

/-! ### Items without a row -/

/-- Every item that is not new has a row. -/
def Rooted (s : Session) : Prop :=
  ∀ ⦃r item⦄, s.item? r = some item → item.status.isNew = false → ∃ d, item.dbId = some d

/-- Local edits make no new item look as if it had been written. -/
theorem Rooted.of_edited (h : s.Rooted)
    (hitem : ∀ ⦃r b⦄, s'.item? r = some b → ∃ a, s.item? r = some a ∧ a.Edited b) : s'.Rooted := by
  intro r b hb hnew
  obtain ⟨a, ha, he⟩ := hitem hb
  rw [he.dbId_eq]
  refine h ha (Bool.eq_false_iff.2 fun hold => ?_)
  rw [he.isNew hold] at hnew
  cases hnew

/-- An item that is kept though its row is gone is one to add. -/
theorem isNew_outcome? {r : Resolved} {d : Divergence} (hd : r.item.divergence? r.row = some d)
    (hrow : r.row = none) {b : Item} (hb : r.outcome? = some b) : b.status.isNew = true := by
  -- without a row only an item to update comes into conflict
  have hst : r.item.status = .toUpdate := by
    unfold Item.divergence? at hd
    rw [hrow] at hd
    revert hd
    cases r.item.status <;> simp
  have hlive : r.item.removed = false := by rw [Item.removed, hst]; rfl
  rcases Resolved.outcome?_eq_some hb with
    ⟨-, row, hr, -⟩ | ⟨-, kept, rfl, ⟨hrem, -⟩ | ⟨-, hkept⟩⟩
  · rw [hrow] at hr
    cases hr
  · rw [hlive] at hrem
    cases hrem
  · have hkst : kept.status = .toUpdate := by
      rcases hkept with rfl | rfl
      · exact hst
      · rfl
    rw [hrow, Item.status_keptAgainst_none hkst]
    rfl

theorem Fetches.rooted (hs : s.WellFormed) (hroot : s.Rooted) (hdb : db.Sound)
    (h : s.Fetches kind (db.rows kind) s') : s'.Rooted := by
  have hbound : ∀ {row : Record}, row ∈ s.readable kind (db.rows kind) →
      ∃ d, row.dbId? = some d := by
    intro row hrow
    obtain ⟨d, -, hd, -⟩ := exists_dbId_of_readable hdb.filed hrow
    exact ⟨d, hd⟩
  rintro ⟨k, id⟩ item hi hnew
  by_cases hk : k = kind
  · subst hk
    cases h.origin hi with
    | kept hitem => exact hroot hitem hnew
    | loaded _ hrow => exact hbound hrow
    | changed _ _ hrow => exact hbound hrow
    | @twin item row hitem _ hrow =>
      rw [(Item.takes_claim item row).dbId_eq]
      exact hbound hrow
    | @settled r item d hitem hd hrow hb =>
      rw [(Resolved.takes_outcome? (hs.consistent hitem) hb).dbId_eq]
      cases hr : r.row with
      | some row => exact hbound (hrow row hr)
      | none =>
        rw [isNew_outcome? hd hr hb] at hnew
        cases hnew
  · exact hroot (h.item? (r := ⟨k, id⟩) hk hi) hnew

theorem Pulls.rooted {kinds : List Kind} (hp : Pulls db kinds s s') (hs : s.WellFormed)
    (h : s.Rooted) (hdb : db.Sound) : s'.Rooted := by
  induction hp with
  | nil => exact h
  | cons hf _ ih => exact ih hf.wellFormed (hf.rooted hs h hdb)

theorem Rooted.atCommit (h : s.Rooted) (hs : s.WellFormed) (hdb : db.Sound) :
    (s.atCommit db).Rooted := by
  rcases atCommit_cases hs hdb with ⟨heq, -⟩ | ⟨-, s₁, heq, hp⟩
  · rw [heq]; exact h
  · rw [heq]; exact hp.rooted hs h hdb

theorem Commits.rooted {reserved : List (ItemId × DbId)} {id : CommitId}
    (h : s.Commits db reserved id s' db') (hs : s.WellFormed) (hres : s.Reserves db reserved db₁)
    (hroot : s.Rooted) : s'.Rooted := by
  intro r b hb hnew
  obtain ⟨a, ha, -, ⟨-, rfl⟩ | ⟨d, row, -, -, -, -, rfl⟩⟩ := h.item_cases hs hres hb
  · exact hroot ha hnew
  · exact ⟨d, rfl⟩

/-- No command leaves an item without a row that is not new. -/
theorem Step.rooted {command : Command} (h : s.Step db command s' db') (hs : s.WellFormed)
    (hroot : s.Rooted) (hdb : db.Sound) : s'.Rooted := by
  cases h with
  | idle => exact hroot
  | add h =>
    intro r item hi hnew
    rw [item?_add h] at hi
    split at hi
    next =>
      obtain rfl := Option.some.inj hi
      cases hnew
    next => exact hroot hi hnew
  | update h => exact hroot.of_edited fun _ _ => (edits_update hs h).some_of
  | remove h => exact hroot.of_edited fun _ _ => (edits_remove hs h).some_of
  | restore h => exact hroot.of_edited fun _ _ => (edits_restore hs h).some_of
  | fetch h => exact h.rooted hs hroot hdb
  | refresh h => exact h.rooted hs hroot hdb
  | refused h => exact hroot.atCommit hs hdb
  | commit hres h => exact h.rooted (wellFormed_atCommit hs hdb) hres (hroot.atCommit hs hdb)
  | rollBack h => exact hroot.of_edited fun _ _ => edited_rollBack hs h
  | reset => exact fun r b hb hnew => hroot (item?_reset hb) hnew

/-! ### Fetched tables -/

/-- The rows of a table that the session can read, and the items of the table that are not new, are
in one-to-one correspondence. -/
structure Binds (s : Session) (db : Database) (kind : Kind) : Prop where
  /-- A row that can be read has exactly one item, which has last agreed with the row. -/
  item_of_row : ∀ ⦃d row r⦄, db.row? kind d = some row → s.localRow? kind row = some r →
    ∃ id item, s.item? ⟨kind, id⟩ = some item ∧ item.dbId = some d ∧ item.synced = some r ∧
      ∀ id' item', s.item? ⟨kind, id'⟩ = some item' → item'.dbId = some d → id' = id
  /-- No two items have the same row. -/
  dbId_injective : ∀ ⦃i j a b d⦄, s.item? ⟨kind, i⟩ = some a → s.item? ⟨kind, j⟩ = some b →
    a.dbId = some d → b.dbId = some d → i = j
  /-- An item that has none of these rows was never written, as far as the session knows. -/
  new_of_unbound : ∀ ⦃id item⦄, s.item? ⟨kind, id⟩ = some item →
    (∀ d row r, db.row? kind d = some row → s.localRow? kind row = some r → item.dbId ≠ some d) →
    item.status = .toAdd ∨ item.status = .addedAndRemoved

theorem Fetches.binds (hs : s.WellFormed) (hroot : s.Rooted) (hdb : db.Sound)
    (h : s.Fetches kind (db.rows kind) s') : s'.Binds db kind := by
  have hread : ∀ row, s'.localRow? kind row = s.localRow? kind row :=
    h.localRow? (Kind.not_mem_dependencies_self kind)
  constructor
  case item_of_row =>
    intro d row r hrow hr
    obtain ⟨id, item, hi, hsync, hd⟩ := h.exists_item hdb hrow ((hread row).symm.trans hr)
    refine ⟨id, item, hi, hd, hsync, fun id' item' hi' hd' => ?_⟩
    exact h.wellFormed.dbId_injective hi' hi hd' hd
  case dbId_injective => exact fun i j a b d ha hb => h.wellFormed.dbId_injective ha hb
  case new_of_unbound =>
    intro id item hi hnone
    cases hd : item.dbId with
    | some d =>
      rcases h.row_cases hs.toCoherent hdb hi hd with ⟨row, r, hrow, -, hr⟩ | ⟨hst, -⟩
      · exact absurd hd (hnone d row r hrow ((hread row).trans hr))
      · exact .inl hst
    | none =>
      have hnew : item.status.isNew = true := by
        by_contra hnew
        obtain ⟨d, hd'⟩ := h.rooted hs hroot hdb hi (Bool.eq_false_iff.2 hnew)
        rw [hd] at hd'
        cases hd'
      revert hnew
      cases item.status <;> simp [Status.isNew]

/-- The correspondence depends only on the items of the table and on how its rows are read. -/
theorem Binds.congr (h : s.Binds db kind)
    (hitem : ∀ id, s'.item? ⟨kind, id⟩ = s.item? ⟨kind, id⟩)
    (hread : ∀ row, s'.localRow? kind row = s.localRow? kind row) : s'.Binds db kind := by
  constructor
  case item_of_row =>
    simp only [hitem, hread]
    exact h.item_of_row
  case dbId_injective =>
    simp only [hitem]
    exact h.dbId_injective
  case new_of_unbound =>
    simp only [hitem, hread]
    exact h.new_of_unbound

theorem item?_of_tables_eq (h : s'.tables = s.tables) (r : ItemRef) : s'.item? r = s.item? r := by
  unfold Session.item? table?
  rw [h]

theorem localRow?_of_tables_eq (h : s'.tables = s.tables) (row : Record) :
    s'.localRow? kind row = s.localRow? kind row := by
  refine localRow?_congr (fun target _ d => ?_) row
  unfold itemOfRow? table?
  rw [h]

/-- Fetches do not disturb the tables that come before those fetched. -/
theorem Pulls.undisturbed {kinds : List Kind} (hp : Pulls db kinds s s') {k : Kind}
    (hlt : ∀ kind ∈ kinds, k.rank < kind.rank) :
    s'.table k = s.table k ∧ ∀ row, s'.localRow? k row = s.localRow? k row := by
  induction hp with
  | nil => exact ⟨rfl, fun _ => rfl⟩
  | @cons kind kinds _ _ _ hf _ ih =>
    obtain ⟨htable, hread⟩ := undisturbed_of_rank_lt hf.table_eq (hlt kind (List.mem_cons_self ..))
    obtain ⟨htable', hread'⟩ := ih fun k' hk' => hlt k' (List.mem_cons_of_mem _ hk')
    exact ⟨htable'.trans htable, fun row => (hread' row).trans (hread row)⟩

/-- Of tables that are fetched in order, each is in the end as its own fetch left it. -/
theorem Pulls.exists_fetches {kinds : List Kind} (hp : Pulls db kinds s s')
    (hsorted : kinds.Pairwise fun a b => a.rank < b.rank) {k : Kind} (hk : k ∈ kinds) :
    ∃ before s₁ s₂, Pulls db before s s₁ ∧ s₁.Fetches k (db.rows k) s₂ ∧
      s'.table k = s₂.table k ∧ ∀ row, s'.localRow? k row = s₂.localRow? k row := by
  induction hp with
  | nil => exact absurd hk List.not_mem_nil
  | @cons kind kinds s s₁ s' hf hrest ih =>
    obtain ⟨hfirst, hsorted⟩ := List.pairwise_cons.1 hsorted
    rcases List.mem_cons.1 hk with rfl | hk
    · exact ⟨[], s, s₁, .nil, hf, hrest.undisturbed hfirst⟩
    · obtain ⟨before, s₂, s₃, hp, hf', hsame⟩ := ih hsorted hk
      exact ⟨kind :: before, s₂, s₃, .cons hf hp, hf', hsame⟩

/-- Tables fetched one after the other, each after those it depends on, are all in correspondence
with their items in the end. -/
theorem Pulls.binds {kinds : List Kind} (hp : Pulls db kinds s s')
    (hsorted : kinds.Pairwise fun a b => a.rank < b.rank) (hs : s.WellFormed) (hroot : s.Rooted)
    (hdb : db.Sound) {k : Kind} (hk : k ∈ kinds) : s'.Binds db k := by
  obtain ⟨before, s₁, s₂, hbefore, hf, htable, hread⟩ := hp.exists_fetches hsorted hk
  refine (hf.binds (hbefore.wellFormed hs) (hbefore.rooted hs hroot hdb) hdb).congr ?_ hread
  intro id
  rw [item?_eq, htable, item?_eq]

/-! ### The order of the tables -/

theorem pairwise_rank_dependencies (kind : Kind) :
    kind.dependencies.Pairwise fun a b => a.rank < b.rank := by
  unfold Kind.dependencies
  exact Kind.pairwise_rank_all.filter _

theorem pairwise_rank_refreshOrder (s : Session) :
    s.refreshOrder.Pairwise fun a b => a.rank < b.rank :=
  Kind.pairwise_rank_all.filter _

/-- A table is fetched alone if what it depends on was fetched before, or is not to be fetched. -/
theorem fetchOrder_eq_singleton
    (h : s.config.fetchReferenced = true → ∀ k ∈ kind.dependencies, k ∈ s.fetched) :
    s.fetchOrder kind = [kind] := by
  unfold fetchOrder
  split
  next hconfig =>
    rw [List.filter_eq_nil_iff.2 fun k hk => by simpa using h hconfig k hk]
    rfl
  next => rfl

theorem pairwise_rank_fetchOrder (s : Session) (kind : Kind) :
    (s.fetchOrder kind).Pairwise fun a b => a.rank < b.rank := by
  unfold fetchOrder
  split
  · refine List.pairwise_append.2 ⟨?_, List.pairwise_singleton .., fun a ha b hb => ?_⟩
    · exact (pairwise_rank_dependencies kind).filter _
    · obtain rfl := List.mem_singleton.1 hb
      exact Kind.rank_lt_of_mem_dependencies (List.mem_filter.1 ha).1
  · exact List.pairwise_singleton ..

/-- The tables that a command takes in, in order. -/
def pulled (s : Session) : Command → List Kind
  | .fetch kind _ => s.fetchOrder kind
  | .refresh _ => s.refreshOrder
  | _ => []

theorem pairwise_rank_pulled (s : Session) (command : Command) :
    (s.pulled command).Pairwise fun a b => a.rank < b.rank := by
  cases command with
  | fetch kind => exact pairwise_rank_fetchOrder s kind
  | refresh => exact pairwise_rank_refreshOrder s
  | _ => exact List.Pairwise.nil

end Session

namespace Command

/-- Fetching and refreshing with an honest resolver succeed, and take in the tables in order. -/
theorem run_pull {s : Session} {db : Database} (hs : s.WellFormed) (hdb : db.Sound)
    {command : Command} (hpull : command.isPull = true) (hh : command.Honest) :
    ∃ report s' passes, command.run ⟨s, db, []⟩ = (.ok (.report report), ⟨s', db, passes⟩) ∧
      ∃ s₁, Session.Pulls db (s.pulled command) s s₁ ∧ s'.tables = s₁.tables ∧
        ∀ c ∈ passes.flatten, Session.Raises db c (s.pulled command) s s₁ := by
  cases command with
  | fetch kind resolver =>
    obtain ⟨report, s', passes, hfetch, hp, new, rfl, hraises⟩ := Connection.fetch_spec hs hdb
      (hh.resolver s) [] kind
    refine ⟨report, s', passes, ?_, s', hp, rfl, hraises⟩
    rw [run_fetch, hfetch]
    rfl
  | refresh resolver =>
    obtain ⟨report, s', passes, hrefresh, hp, new, rfl, hraises⟩ := Connection.refresh_spec hs hdb
      (hh.resolver s) []
    refine ⟨report, s'.upToDate db, passes, ?_, s', hp, rfl, hraises⟩
    rw [run_refresh, hrefresh]
    rfl
  | _ => cases hpull

end Command

namespace Session

variable {s : Session} {db : Database}

/-- Fetching and refreshing put the tables that they take in in correspondence with their rows. -/
theorem binds_outcome (hs : s.WellFormed) (hroot : s.Rooted) (hdb : db.Sound) {command : Command}
    (hpull : command.isPull = true) (hh : command.Honest) {kind : Kind}
    (hk : kind ∈ s.pulled command) : (s.outcome db command).1.Binds db kind := by
  obtain ⟨report, s', passes, hrun, s₁, hp, htables, -⟩ := Command.run_pull hs hdb hpull hh
  have hb := hp.binds (s.pairwise_rank_pulled command) hs hroot hdb hk
  unfold outcome
  rw [hrun]
  exact hb.congr (fun id => item?_of_tables_eq htables ⟨kind, id⟩) (localRow?_of_tables_eq htables)

end Session

namespace Workspace

variable {w : Workspace Database} {name : String} {s : Session}

/-- After any orderly run the items of every session that are not new have rows. -/
theorem rooted_of_reachable (hw : w.Reachable Orderly) :
    w.All Database.Regular fun s db => s.Regular db ∧ s.Rooted :=
  kept_of_reachable hw (fun _ _ _ _ h => nomatch h) fun hstep hreg hdb hroot =>
    hstep.rooted hreg.toWellFormed hroot hdb.toSound

/-- After any orderly run, a fetch or a refresh succeeds, leaves the store alone, and puts the rows
of each table that it takes in, as far as they can be read, and the items of the table that are not
new in one-to-one correspondence. -/
theorem binds_of_pull {command : Command} (hw : w.Reachable Orderly) (hs : w.session? name = some s)
    (hpull : command.isPull = true) (hh : command.Honest) :
    ∃ report s', (w.perform name s command).1 = .ok (.report report) ∧
      (w.act (.ask name command)).session? name = some s' ∧
      (w.act (.ask name command)).store = w.store ∧
      ∀ kind ∈ s.pulled command, s'.Binds w.store kind := by
  obtain ⟨hdb, hall⟩ := rooted_of_reachable hw
  obtain ⟨hreg, hroot⟩ := hall hs
  obtain ⟨hstore, hsession⟩ := act_ask hs command
  have hbinds := fun kind (hk : kind ∈ s.pulled command) =>
    Session.binds_outcome hreg.toWellFormed hroot hdb.toSound hpull hh hk
  obtain ⟨report, s', passes, hrun, -⟩ := Command.run_pull hreg.toWellFormed hdb.toSound hpull hh
  unfold Session.outcome at hstore hsession hbinds
  unfold perform
  rw [hrun] at hstore hsession hbinds ⊢
  exact ⟨report, s', rfl, (hsession name).trans (if_pos rfl), hstore, hbinds⟩

/-- Two sessions know two alternatives.  The first changes one and removes the other, while the
second changes the first alternative as well, adds a third one and commits. -/
def crossedEdits : List Event :=
  [.connect "a" {}, .ask "a" (.add .alternative (.ofList [("name", .text "base")])),
    .ask "a" (.add .alternative (.ofList [("name", .text "high")])), .ask "a" (.commit "add"),
    .connect "b" {}, .ask "b" (.fetch .alternative none),
    .ask "a" (.update ⟨.alternative, .first⟩ (.ofList [("description", .text "mine")])),
    .ask "a" (.remove ⟨.alternative, ⟨2⟩⟩),
    .ask "b" (.update ⟨.alternative, .first⟩ (.ofList [("description", .text "theirs")])),
    .ask "b" (.add .alternative (.ofList [("name", .text "low")])), .ask "b" (.commit "change")]

set_option maxRecDepth 4000 in
theorem binds_of_pull_of_crossedEdits : ∃ (w : Workspace Database) (s : Session),
    w.Reachable Orderly ∧ w.session? "a" = some s ∧
      (Command.fetch .alternative none).isPull = true ∧ (Command.fetch .alternative none).Honest ∧
      ∃ report s', (w.perform "a" s (.fetch .alternative none)).1 = .ok (.report report) ∧
        (w.act (.ask "a" (.fetch .alternative none))).session? "a" = some s' ∧
        (w.act (.ask "a" (.fetch .alternative none))).store = w.store ∧
        ∀ kind ∈ s.pulled (.fetch .alternative none), s'.Binds w.store kind := by
  have hrun : Run Plain (new .empty) crossedEdits := by decide +kernel
  have hreach := hrun.reachable
  have hcheck : (((new .empty).after crossedEdits).session? "a").isSome = true := by decide +kernel
  obtain ⟨s, hs⟩ := Option.isSome_iff_exists.1 hcheck
  have hh : (Command.fetch .alternative none).Honest := nofun
  exact ⟨_, s, hreach, hs, rfl, hh, binds_of_pull hreach hs rfl hh⟩

end Workspace

end StagedEdits
