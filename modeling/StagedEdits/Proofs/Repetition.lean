import StagedEdits.Proofs.Binding
import StagedEdits.Proofs.Foreign
import StagedEdits.Proofs.Quiet

/-!
# Repeated fetches

However a conflict is decided, the item that comes of it agrees with its row or has none.  A fetch
therefore leaves its table at rest (`Session.Fetches.atRest`), and the tables fetched after it do not
disturb it (`Session.Pulls.atRest`).  A second refresh, or a second fetch of the same table, then finds
nothing (`Workspace.nothing_left`).
-/

namespace StagedEdits

/-! ### Items that have taken in a row -/

namespace Item

theorem status_claim (item : Item) (row : Record) : (item.claim row).status ≠ .toAdd := by
  unfold claim
  dsimp only
  split <;> simp [backedUpBy]

theorem status_resurrectedBy (item : Item) (row : Record) :
    (item.resurrectedBy row).status ≠ .toAdd := by
  unfold resurrectedBy
  dsimp only
  split <;> simp [withStatus]

/-- Keeping a pending item against a row does not change what the next commit has to do about it. -/
theorem status_keptAgainst_some {item : Item} (h : item.status ≠ .committed) (row : Record) :
    (item.keptAgainst (some row)).status = item.status := by
  unfold keptAgainst
  dsimp only
  rw [if_neg fun hc : _ ∧ item.status = .committed => h hc.2]
  split <;> rfl

end Item

/-- An item that has come out of a conflict with a row is not to be added. -/
theorem Resolved.status_outcome? {r : Resolved} {d : Divergence} {row : Record} {item : Item}
    (hd : r.item.divergence? r.row = some d) (hrow : r.row = some row)
    (h : r.outcome? = some item) : item.status ≠ .toAdd := by
  obtain ⟨hpending, hadd⟩ := Item.status_of_divergence? hd
  have hkept : ∀ kept : Item, kept.status ≠ .committed → kept.status ≠ .toAdd →
      (kept.keptAgainst r.row).status ≠ .toAdd := by
    intro kept hc ha
    rw [hrow, Item.status_keptAgainst_some hc]
    exact ha
  rcases Resolved.outcome?_eq_some h with
    ⟨-, row', -, ⟨-, rfl⟩ | ⟨-, rfl⟩⟩ | ⟨-, kept, rfl, ⟨-, rfl⟩ | ⟨-, rfl | rfl⟩⟩
  · exact Item.status_resurrectedBy _ _
  · simp [Item.overwrittenBy, Item.withStatus]
  · exact hkept _ (by simp [Item.withStatus]) (by simp [Item.withStatus])
  · exact hkept _ hpending hadd
  · exact hkept _ (by simp [Item.withStatus]) (by simp [Item.withStatus])

/-- No item whose row was fetched is one to add. -/
theorem Origin.status_ne_toAdd {s : Session} {kind : Kind} {rows : List Record} {item : Item}
    (h : Origin s kind rows item) (hs : s.Coherent) {d : DbId} (hd : item.dbId = some d)
    (hmem : d ∈ rows.filterMap Record.dbId?) : item.status ≠ .toAdd := by
  cases h with
  | kept _ hrow =>
    rcases hrow d hd with ⟨-, -, -, hst⟩ | ⟨-, hnot⟩
    · exact hst
    · exact absurd hmem hnot
  | loaded => simp [Item.loaded, Item.bindTo, Item.withStatus]
  | @changed item row _ hst =>
    have hsame : (item.adopt row).status = item.status := rfl
    rw [hsame, hst]
    simp
  | twin => exact Item.status_claim _ _
  | settled hitem hdiv _ hb =>
    rw [(Resolved.takes_outcome? (hs.consistent hitem) hb).dbId_eq] at hd
    obtain ⟨row, hrow, -⟩ := Option.bind_eq_some_iff.1 hd
    exact Resolved.status_outcome? hdiv hrow hb

/-! ### Tables at rest -/

namespace Session

variable {s s' : Session} {db : Database} {kind : Kind}

theorem unread_congr (h : ∀ row, s'.localRow? kind row = s.localRow? kind row) :
    s'.unread db kind = s.unread db kind := by
  unfold unread readable
  rw [funext h]

theorem AtRest.congr (h : s.AtRest db kind) (htable : s'.table kind = s.table kind)
    (hread : ∀ row, s'.localRow? kind row = s.localRow? kind row) : s'.AtRest db kind := by
  have hitem : ∀ id, s'.item? ⟨kind, id⟩ = s.item? ⟨kind, id⟩ := fun id => by
    rw [item?_eq, htable, item?_eq]
  constructor
  case item_of_row =>
    simp only [hitem, hread]
    exact h.item_of_row
  case row_of_item =>
    simp only [hitem, hread]
    exact h.row_of_item

theorem Fetches.atRest (hs : s.WellFormed) (hdb : db.Sound)
    (h : s.Fetches kind (db.rows kind) s') : s'.AtRest db kind := by
  have hread : ∀ row, s'.localRow? kind row = s.localRow? kind row :=
    h.localRow? (Kind.not_mem_dependencies_self kind)
  constructor
  case item_of_row =>
    intro d row r hrow hr
    have hr := (hread row).symm.trans hr
    obtain ⟨id, item, hi, hsync, hd⟩ := h.exists_item hdb hrow hr
    exact ⟨id, item, hi, hsync,
      (h.origin hi).status_ne_toAdd hs.toCoherent hd (dbId_mem_readable hdb.filed hrow hr)⟩
  case row_of_item =>
    intro id item d hi hd
    rcases h.row_cases hs.toCoherent hdb hi hd with ⟨row, r, hrow, -, hr⟩ | ⟨hst, -⟩
    · exact .inl ⟨row, r, hrow, (hread row).trans hr⟩
    · exact .inr hst

theorem Pulls.atRest {kinds : List Kind} (hp : Pulls db kinds s s')
    (hsorted : kinds.Pairwise fun a b => a.rank < b.rank) (hs : s.WellFormed) (hdb : db.Sound)
    {k : Kind} (hk : k ∈ kinds) : s'.AtRest db k := by
  obtain ⟨before, s₁, s₂, hbefore, hf, htable, hread⟩ := hp.exists_fetches hsorted hk
  exact (hf.atRest (hbefore.wellFormed hs) hdb).congr htable hread

/-! ### Rows that are left out -/

/-- A fetch leaves out the rows that cannot be read. -/
theorem skipped_reconcile {answer : List Conflict → List Resolved} {report : FetchReport}
    {conflicts : List Conflict}
    (h : s.reconcile kind (db.rows kind) answer = (.ok report, s', conflicts)) :
    report.skipped = s.unread db kind := by
  have hstep : ∀ (a : Absorption) (f : Finding),
      (a.step kind f).report.skipped = a.report.skipped := by
    intro a f
    cases f with
    | unknown | same | gone => rfl
    | changed | twin | conflict =>
      unfold Absorption.step
      dsimp only
      split <;> rfl
  have hfold : ∀ (fs : List Finding) (a : Absorption),
      (fs.foldl (Absorption.step kind) a).report.skipped = a.report.skipped := by
    intro fs
    induction fs with
    | nil => exact fun _ => rfl
    | cons f fs ih => exact fun a => (ih _).trans (hstep a f)
  have habsorb : (s.absorb kind (db.rows kind)).report.skipped = s.unread db kind := hfold _ _
  rcases s.reconcile_cases kind (db.rows kind) answer with
    ⟨-, hrec⟩ | ⟨-, _, -, hrec⟩ | ⟨-, -, _, -, hrec⟩
  · cases hrec.symm.trans h
    exact habsorb
  · cases hrec.symm.trans h
  · cases hrec.symm.trans h
    exact habsorb

end Session

/-- A report that only counts the rows that were left out. -/
def FetchReport.onlySkipped (report : FetchReport) : FetchReport := { skipped := report.skipped }

theorem FetchReport.total_onlySkipped (reports : List FetchReport) :
    total (reports.map onlySkipped) = (total reports).onlySkipped := by
  have hfold : ∀ (reports : List FetchReport) (a : FetchReport),
      (reports.map onlySkipped).foldl (· + ·) a.onlySkipped =
        (reports.foldl (· + ·) a).onlySkipped := by
    intro reports
    induction reports with
    | nil => exact fun _ => rfl
    | cons r reports ih => exact fun a => ih (a + r)
  exact hfold reports {}

/-- The report on the rows of some tables that the session cannot read. -/
def Session.leftOut (s : Session) (db : Database) (kinds : List Kind) : FetchReport :=
  .total (kinds.map fun kind => { skipped := s.unread db kind })

theorem Session.leftOut_singleton (s : Session) (db : Database) (kind : Kind) :
    s.leftOut db [kind] = { skipped := s.unread db kind } :=
  congrArg (fun n => ({ skipped := n } : FetchReport)) (Nat.zero_add _)

/-! ### Fetching for the first time and again -/

namespace Connection

open ConnectionM

variable {s s' : Session} {db : Database} {resolver : Resolver}

theorem skipped_fetchTable {kind : Kind} {passes : List (List Conflict)} {report : FetchReport}
    {c : Connection Database} (h : fetchTable resolver kind ⟨s, db, passes⟩ = (.ok report, c)) :
    report.skipped = s.unread db kind := by
  rw [fetchTable_eq] at h
  rcases hrec : s.reconcile kind (db.rows kind) (resolver passes) with ⟨result, s', conflicts⟩
  rw [hrec] at h
  cases h
  exact Session.skipped_reconcile hrec

/-- Fetching tables in order leaves out the rows that cannot be read in the end. -/
theorem skipped_mapM (hs : s.WellFormed) (hdb : db.Sound) (hr : resolver.Honest) {kinds : List Kind}
    (hsorted : kinds.Pairwise fun a b => a.rank < b.rank) {passes passes' : List (List Conflict)}
    {reports : List FetchReport}
    (h : kinds.mapM (fetchTable resolver) ⟨s, db, passes⟩ = (.ok reports, ⟨s', db, passes'⟩)) :
    reports.map FetchReport.onlySkipped =
      kinds.map fun kind => { skipped := s'.unread db kind } := by
  induction kinds generalizing s passes reports with
  | nil =>
    cases h
    rfl
  | cons kind kinds ih =>
    obtain ⟨hfirst, hsorted⟩ := List.pairwise_cons.1 hsorted
    obtain ⟨report, s₁, passes₁, hrun, hf, -⟩ := fetchTable_spec hs hdb hr passes kind
    obtain ⟨reports', s₂, passes₂, hrest, hp, -⟩ :=
      mapM_fetchTable hf.wellFormed hdb hr passes₁ kinds
    rw [List.mapM_cons, run_bind, hrun] at h
    dsimp only at h
    rw [run_bind, hrest] at h
    cases h
    -- neither this fetch nor those after it change how the rows of the table are read
    have hread : ∀ row, s'.localRow? kind row = s.localRow? kind row := fun row =>
      ((hp.undisturbed hfirst).2 row).trans (hf.localRow? kind.not_mem_dependencies_self row)
    rw [List.map_cons, List.map_cons, ih hf.wellFormed hsorted hrest, FetchReport.onlySkipped,
      skipped_fetchTable hrun, Session.unread_congr hread]

/-- Fetching tables in order, with what is left out of them. -/
theorem mapM_fetchTable_leftOut (hs : s.WellFormed) (hdb : db.Sound) (hr : resolver.Honest)
    (passes : List (List Conflict)) {kinds : List Kind}
    (hsorted : kinds.Pairwise fun a b => a.rank < b.rank) :
    ∃ reports s' passes', kinds.mapM (fetchTable resolver) ⟨s, db, passes⟩ =
        (.ok reports, ⟨s', db, passes'⟩) ∧ Session.Pulls db kinds s s' ∧
      s'.leftOut db kinds = { skipped := (FetchReport.total reports).skipped } := by
  obtain ⟨reports, s', passes', hrun, hp, -⟩ := mapM_fetchTable hs hdb hr passes kinds
  refine ⟨reports, s', passes', hrun, hp, ?_⟩
  rw [Session.leftOut, ← skipped_mapM hs hdb hr hsorted hrun, FetchReport.total_onlySkipped]
  rfl

/-- Fetching a table, with what is left out of it and of those fetched before it. -/
theorem fetch_leftOut (hs : s.WellFormed) (hdb : db.Sound) (hr : resolver.Honest)
    (passes : List (List Conflict)) (kind : Kind) :
    ∃ report s' passes', fetch resolver kind ⟨s, db, passes⟩ = (.ok report, ⟨s', db, passes'⟩) ∧
      Session.Pulls db (s.fetchOrder kind) s s' ∧
      s'.leftOut db (s.fetchOrder kind) = { skipped := report.skipped } := by
  obtain ⟨reports, s', passes', hrun, hp, hleft⟩ :=
    mapM_fetchTable_leftOut hs hdb hr passes (s.pairwise_rank_fetchOrder kind)
  refine ⟨.total reports, s', passes', ?_, hp, hleft⟩
  rw [fetch_eq, hrun]

/-- Refreshing, with what is left out. -/
theorem refresh_leftOut (hs : s.WellFormed) (hdb : db.Sound) (hr : resolver.Honest)
    (passes : List (List Conflict)) :
    ∃ report s' passes', refresh resolver ⟨s, db, passes⟩ =
        (.ok report, ⟨s'.upToDate db, db, passes'⟩) ∧ Session.Pulls db s.refreshOrder s s' ∧
      s'.leftOut db s.refreshOrder = { skipped := report.skipped } := by
  obtain ⟨reports, s', passes', hrun, hp, hleft⟩ :=
    mapM_fetchTable_leftOut hs hdb hr passes s.pairwise_rank_refreshOrder
  refine ⟨.total reports, s', passes', ?_, hp, hleft⟩
  rw [refresh_eq, hrun]

/-- Fetching tables that are at rest. -/
theorem mapM_fetchTable_of_atRest (hs : s.WellFormed) (hdb : db.Sound) {kinds : List Kind}
    (h : ∀ kind ∈ kinds, s.AtRest db kind) (resolver : Resolver) (passes : List (List Conflict)) :
    ∃ s', kinds.mapM (fetchTable resolver) ⟨s, db, passes⟩ =
        (.ok (kinds.map fun kind => { skipped := s.unread db kind }), ⟨s', db, passes⟩) ∧
      ∀ k, s'.table k = s.table k := by
  induction kinds generalizing s with
  | nil => exact ⟨s, rfl, fun _ => rfl⟩
  | cons kind kinds ih =>
    have htable := Session.table_markFetched s kind
    have hread := fun k => Session.localRow?_markFetched s kind k
    have hfirst := fetchTable_of_atRest hs hdb (h kind (List.mem_cons_self ..)) resolver passes
    obtain ⟨s', hrest, hsame⟩ := ih (hs.congr htable (Nat.le_refl _)) fun k hk =>
      (h k (List.mem_cons_of_mem _ hk)).congr (htable k) (hread k)
    refine ⟨s', ?_, fun k => (hsame k).trans (htable k)⟩
    have hunread : ∀ k, (s.markFetched kind).unread db k = s.unread db k := fun k =>
      Session.unread_congr (hread k)
    rw [List.mapM_cons, run_bind, hfirst]
    dsimp only
    rw [run_bind, hrest]
    simp only [hunread]
    rfl

end Connection

namespace Command

variable {s : Session} {db : Database} {command : Command}

/-- What a fetch or a refresh leaves behind. -/
structure Leaves (s : Session) (db : Database) (command : Command) (report : FetchReport)
    (s' : Session) : Prop where
  wellFormed : s'.WellFormed
  config : s'.config = s.config
  fetched : ∀ k, k ∈ s'.fetched ↔ k ∈ s.pulled command ∨ k ∈ s.fetched
  atRest : ∀ k ∈ s.pulled command, s'.AtRest db k
  skipped : s'.leftOut db (s.pulled command) = { skipped := report.skipped }

/-- A fetch or a refresh with an honest resolver succeeds and leaves its tables at rest. -/
theorem leaves_run (hs : s.WellFormed) (hdb : db.Sound) (hpull : command.isPull = true)
    (hh : command.Honest) : ∃ report s' passes,
      command.run ⟨s, db, []⟩ = (.ok (.report report), ⟨s', db, passes⟩) ∧
        Leaves s db command report s' := by
  have hleaves : ∀ {s' report}, Session.Pulls db (s.pulled command) s s' →
      s'.leftOut db (s.pulled command) = { skipped := report.skipped } →
        Leaves s db command report s' := fun hp hleft =>
    { wellFormed := hp.wellFormed hs
      config := hp.config
      fetched := fun _ => hp.mem_fetched_iff
      atRest := fun _ hk => hp.atRest (s.pairwise_rank_pulled command) hs hdb hk
      skipped := hleft }
  cases command with
  | fetch kind resolver =>
    obtain ⟨report, s', passes, hrun, hp, hleft⟩ :=
      Connection.fetch_leftOut hs hdb (hh.resolver s) [] kind
    refine ⟨report, s', passes, ?_, hleaves hp hleft⟩
    rw [run_fetch, hrun]
    rfl
  | refresh resolver =>
    obtain ⟨report, s', passes, hrun, hp, hleft⟩ :=
      Connection.refresh_leftOut hs hdb (hh.resolver s) []
    have h := hleaves hp hleft
    refine ⟨report, s'.upToDate db, passes, ?_, ?_⟩
    · rw [run_refresh, hrun]
      rfl
    · exact { h with
        wellFormed := Session.wellFormed_upToDate h.wellFormed
        atRest := fun k hk => (h.atRest k hk).congr rfl fun _ => rfl }
  | _ => cases hpull

/-- A fetch or a refresh of tables that are at rest finds nothing, and asks no resolver. -/
theorem run_of_atRest (hs : s.WellFormed) (hdb : db.Sound) (hpull : command.isPull = true)
    (h : ∀ k ∈ s.pulled command, s.AtRest db k) : ∃ s',
      command.run ⟨s, db, []⟩ = (.ok (.report (s.leftOut db (s.pulled command))), ⟨s', db, []⟩) ∧
      ∀ k, s'.table k = s.table k := by
  obtain ⟨s', hrun, htable⟩ :=
    Connection.mapM_fetchTable_of_atRest hs hdb h (command.resolver s) []
  cases command with
  | fetch kind resolver =>
    refine ⟨s', ?_, htable⟩
    have hpulled : s.pulled (.fetch kind resolver) = s.fetchOrder kind := rfl
    rw [hpulled] at hrun
    rw [run_fetch, Connection.fetch_eq, hrun]
    rfl
  | refresh resolver =>
    refine ⟨s'.upToDate db, ?_, htable⟩
    have hpulled : s.pulled (.refresh resolver) = s.refreshOrder := rfl
    rw [hpulled] at hrun
    rw [run_refresh, Connection.refresh_eq, hrun]
    rfl
  | _ => cases hpull

/-- A second refresh takes in the same tables as the first. -/
theorem Leaves.refreshOrder {resolver : Option Resolver} {report : FetchReport} {s' : Session}
    (h : Leaves s db (.refresh resolver) report s') : s'.refreshOrder = s.refreshOrder := by
  refine List.filter_congr fun k _ => decide_eq_decide.2 ?_
  rw [h.fetched]
  exact ⟨fun hk => hk.elim Session.mem_refreshOrder_iff.1 id, .inr⟩

/-- A second fetch of a table takes in that table only. -/
theorem Leaves.fetchOrder {kind : Kind} {resolver : Option Resolver} {report : FetchReport}
    {s' : Session} (h : Leaves s db (.fetch kind resolver) report s') :
    s'.fetchOrder kind = [kind] := by
  refine Session.fetchOrder_eq_singleton fun hconfig k hk => ?_
  rw [h.config] at hconfig
  rw [h.fetched]
  by_cases hmem : k ∈ s.fetched
  · exact .inr hmem
  · refine .inl (List.mem_append_left _ ?_)
    rw [if_pos hconfig]
    exact List.mem_filter.2 ⟨hk, decide_eq_true hmem⟩

end Command

/-! ### Calls by others -/

/-- A call by others does not use up the identities of a table. -/
def ForeignCall.InRange (db : Database) : ForeignCall → Prop
  | reserve kind count => db.HasRoom kind count
  | write _ _ => True

namespace Database

variable {db : Database}

/-- What a batch writes is stamped with its commit. -/
theorem row?_foldl_change (commit : CommitId) (batch : List Mutation) (db : Database) (kind : Kind)
    (d : DbId) :
    (batch.foldl (change commit) db).row? kind d = db.row? kind d ∨
      ∀ row, (batch.foldl (change commit) db).row? kind d = some row →
        row.commitId? = some commit := by
  rw [row?_foldl]
  cases hlast : Mutation.lastAbout? batch kind d with
  | none => exact .inl rfl
  | some m =>
    exact .inr fun row hrow => (fields_of_result (Mutation.lastAbout?_eq_some hlast).2 hrow).2

theorem advances_apply (h : db.Sound) (info : CommitInfo) (batch : List Mutation) :
    db.Advances (db.apply info batch).2 := by
  rcases db.apply_cases info batch with ⟨e, -, heq⟩ | ⟨-, heq⟩
  · rw [heq]
    exact (Reserved.refl h).advances
  · have happlies := applies_apply h heq
    have hlt : db.commits.length < (db.apply info batch).2.commits.length := by
      rw [heq, happlies.commits_length]
      exact Nat.lt_succ_self _
    rw [heq] at hlt ⊢
    refine ⟨happlies.sound, happlies.lastId_le, Nat.le_of_lt hlt, fun kind d => ?_⟩
    refine (row?_foldl_change _ batch _ kind d).imp_right fun hnew => ⟨hlt, fun row hrow => ?_⟩
    exact ⟨_, hnew row hrow, Int.lt_succ _⟩

theorem advances_afterCall (h : db.Sound) {x : ForeignCall} (hx : x.InRange db) :
    db.Advances (db.afterCall x) := by
  cases x with
  | reserve kind count => exact (reserved_reserve h hx).advances
  | write info batch => exact advances_apply h info batch

end Database

namespace Workspace

variable {w : Workspace Database} {name : String} {s : Session}

/-- What orderly events, and calls by others between them, can make of an empty database. -/
inductive Reached : Workspace Database → Prop
  | new : Reached (new .empty)
  | act {w : Workspace Database} (h : w.Reached) {e : Event} (he : w.Orderly e) : Reached (w.act e)
  | call {w : Workspace Database} (h : w.Reached) {x : ForeignCall} (hx : x.InRange w.store) :
      Reached { w with store := w.store.afterCall x }

/-- Calls by others take nothing away from what the sessions know. -/
theorem Reached.informed (hw : w.Reached) : w.All Database.Sound Session.Informed := by
  induction hw with
  | new => exact informed_new
  | act _ he ih => exact informed_act ih he
  | call _ hx ih =>
    have hadv := Database.advances_afterCall ih.store hx
    exact ⟨hadv.sound, fun _ _ hs => (ih.session hs).advances hadv⟩

theorem Reached.after {events : List Event} (hw : w.Reached) (h : Run Orderly w events) :
    (w.after events).Reached := by
  induction events generalizing w with
  | nil => exact hw
  | cons e events ih => exact ih (hw.act h.1) h.2

/-- A fetch or a refresh finds nothing: it reports on nothing but rows that it left out, asks no
resolver and changes no table. -/
structure FindsNothing (w : Workspace Database) (name : String) (s : Session) (command : Command)
    (skipped : Nat) : Prop where
  reply : (w.perform name s command).1 = .ok (.report { skipped := skipped })
  passes : (w.perform name s command).2.1 = []
  tables : ∃ s', (w.perform name s command).2.2.session? name = some s' ∧
    ∀ kind, s'.table kind = s.table kind

theorem findsNothing_of_atRest (name : String) {command : Command} (hs : s.WellFormed) (hdb : w.store.Sound)
    (hpull : command.isPull = true) (h : ∀ k ∈ s.pulled command, s.AtRest w.store k) {skipped : Nat}
    (hskipped : s.leftOut w.store (s.pulled command) = { skipped := skipped }) :
    w.FindsNothing name s command skipped := by
  obtain ⟨s', hrun, htable⟩ := Command.run_of_atRest hs hdb hpull h
  have hperform : w.perform name s command = (.ok (.report { skipped := skipped }), [],
      { store := w.store, sessions := w.sessions.insert name s' }) := by
    unfold perform
    rw [hrun, hskipped]
  constructor
  case reply => rw [hperform]
  case passes => rw [hperform]
  case tables =>
    rw [hperform]
    exact ⟨s', (SortedMap.get?_insert ..).trans (if_pos rfl), htable⟩

theorem leaves_perform (hw : w.Reached) (hs : w.session? name = some s) (command : Command)
    (hpull : command.isPull = true) (hh : command.Honest) :
    ∃ report s', (w.perform name s command).1 = .ok (.report report) ∧
      (w.act (.ask name command)).session? name = some s' ∧
      (w.act (.ask name command)).store = w.store ∧
      Command.Leaves s w.store command report s' := by
  obtain ⟨hdb, hall⟩ := hw.informed
  obtain ⟨report, s', passes, hrun, hleaves⟩ :=
    Command.leaves_run (hall hs).toWellFormed hdb hpull hh
  obtain ⟨hreply, -, hstore, hsession⟩ := act_of_run hs hrun
  exact ⟨report, s', hreply, hsession, hstore, hleaves⟩

/-- Refreshing settles everything.  Whatever sessions and others have done before, a refresh with an
honest resolver succeeds, and a second one finds nothing but leaves out as many rows, whatever its
resolver, as long as neither the store nor the session has changed in between.  A second fetch of the
same table finds nothing either. -/
theorem nothing_left (hw : w.Reached) (hs : w.session? name = some s) {first : Option Resolver}
    (hfirst : ∀ resolver, first = some resolver → resolver.Honest) :
    (∃ report s', (w.perform name s (.refresh first)).1 = .ok (.report report) ∧
      (w.act (.ask name (.refresh first))).session? name = some s' ∧
      ∀ (w' : Workspace Database) (second : Option Resolver),
        w'.store = (w.act (.ask name (.refresh first))).store → w'.session? name = some s' →
          w'.FindsNothing name s' (.refresh second) report.skipped) ∧
    ∀ kind, ∃ report s', (w.perform name s (.fetch kind first)).1 = .ok (.report report) ∧
      (w.act (.ask name (.fetch kind first))).session? name = some s' ∧
      ∃ skipped, ∀ (w' : Workspace Database) (second : Option Resolver),
        w'.store = (w.act (.ask name (.fetch kind first))).store → w'.session? name = some s' →
          w'.FindsNothing name s' (.fetch kind second) skipped := by
  have hdb := hw.informed.store
  refine ⟨?_, fun kind => ?_⟩
  · obtain ⟨report, s', hreply, hsession, hstore, hleaves⟩ :=
      leaves_perform hw hs (.refresh first) rfl hfirst
    refine ⟨report, s', hreply, hsession, fun w' second hw' _ => ?_⟩
    rw [hstore] at hw'
    have hpulled : s'.pulled (.refresh second) = s.pulled (.refresh first) := hleaves.refreshOrder
    have hrest : ∀ k ∈ s'.pulled (.refresh second), s'.AtRest w'.store k := by
      rw [hpulled, hw']
      exact hleaves.atRest
    refine findsNothing_of_atRest name hleaves.wellFormed (hw'.symm ▸ hdb) rfl hrest ?_
    rw [hpulled, hw']
    exact hleaves.skipped
  · obtain ⟨report, s', hreply, hsession, hstore, hleaves⟩ :=
      leaves_perform hw hs (.fetch kind first) rfl hfirst
    refine ⟨report, s', hreply, hsession, s'.unread w.store kind, fun w' second hw' _ => ?_⟩
    rw [hstore] at hw'
    have hpulled : s'.pulled (.fetch kind second) = [kind] := hleaves.fetchOrder
    have hrest : ∀ k ∈ s'.pulled (.fetch kind second), s'.AtRest w'.store k := by
      intro k hk
      rw [hpulled, List.mem_singleton] at hk
      rw [hk, hw']
      exact hleaves.atRest kind (List.mem_append_right _ (List.mem_singleton.2 rfl))
    refine findsNothing_of_atRest name hleaves.wellFormed (hw'.symm ▸ hdb) rfl hrest ?_
    rw [hpulled, hw']
    exact s'.leftOut_singleton w.store kind

/-- A session knows an alternative and the entities, and changes the alternative. -/
def changedAlternative : List Event :=
  [.connect "a" {}, .ask "a" (.add .alternative (.ofList [("name", .text "base")])),
    .ask "a" (.commit "add"), .ask "a" (.fetch .entity none), .ask "a" (.fetch .alternative none),
    .ask "a" (.update ⟨.alternative, .first⟩ (.ofList [("description", .text "mine")]))]

/-- Someone else changes the alternative too, and writes an entity of a class that is not there. -/
def importedRows : ForeignCall :=
  .write ⟨"import", "b"⟩
    [.update .alternative (.ofList [("id", .integer 1), ("name", .text "base"),
      ("description", .text "theirs")]),
      .insert .entity (.ofList [("id", .integer 1), ("name", .text "plant"),
        ("class_id", .integer 7)])]

set_option maxRecDepth 4000 in
/-- The first refresh resolves the conflict and leaves the entity out, and the second only leaves the
entity out again. -/
theorem nothing_left_of_importedRows : ∃ (w : Workspace Database) (s s' : Session), w.Reached ∧
    w.session? "a" = some s ∧
    (w.perform "a" s (.refresh none)).1 = .ok (.report { conflicts := 1, skipped := 1 }) ∧
    (w.act (.ask "a" (.refresh none))).session? "a" = some s' ∧
    (w.act (.ask "a" (.refresh none))).FindsNothing "a" s' (.refresh none) 1 := by
  have hrun : Run Plain (new .empty) changedAlternative := by decide +kernel
  have hbefore := Reached.new.after (hrun.mono fun _ _ h => h.orderly)
  have hw : Reached ⟨((new .empty).after changedAlternative).store.afterCall importedRows,
      ((new .empty).after changedAlternative).sessions⟩ := hbefore.call trivial
  have hcheck : ((((new .empty).after changedAlternative).session? "a").any fun s =>
      decide ((perform ⟨((new .empty).after changedAlternative).store.afterCall importedRows,
          ((new .empty).after changedAlternative).sessions⟩ "a" s (.refresh none)).1 =
        .ok (.report { conflicts := 1, skipped := 1 }))) = true := by decide +kernel
  obtain ⟨s, hs, hcheck⟩ := (Option.any_eq_true ..).1 hcheck
  have hhonest : ∀ resolver : Resolver, none = some resolver → resolver.Honest := nofun
  obtain ⟨⟨report, s', hreply, hsession, hagain⟩, -⟩ := nothing_left hw hs hhonest
  have hreport := hreply.symm.trans (of_decide_eq_true hcheck)
  cases hreport
  exact ⟨_, s, s', hw, hs, hreply, hsession, hagain _ none rfl hsession⟩

end Workspace

end StagedEdits
