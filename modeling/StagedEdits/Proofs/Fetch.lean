import StagedEdits.Connection
import StagedEdits.Proofs.Database
import StagedEdits.Proofs.Reconcile

/-!
# Fetching from a database

Fetching, refreshing and the refresh before a commit leave the database alone and take its tables
into the session one after the other (`Session.Pulls`).  With an honest resolver they succeed.
-/

namespace StagedEdits

namespace Session

/-- Session `s'` is `s` after the tables of the given kinds were fetched, in this order. -/
inductive Pulls (db : Database) : List Kind → Session → Session → Prop
  | nil {s : Session} : Pulls db [] s s
  | cons {kind : Kind} {kinds : List Kind} {s s' s'' : Session}
      (hfetch : s.Fetches kind (db.rows kind) s') (hrest : Pulls db kinds s' s'') :
      Pulls db (kind :: kinds) s s''

/-- Conflict `c` comes up while the tables of the given kinds are fetched, in the session as the tables
before have left it. -/
inductive Raises (db : Database) (c : Conflict) : List Kind → Session → Session → Prop
  | here {kind : Kind} {kinds : List Kind} {s s' s'' : Session}
      (hmeets : s.Meets kind (s.readable kind (db.rows kind)) c)
      (hfetch : s.Fetches kind (db.rows kind) s') (hrest : Pulls db kinds s' s'') :
      Raises db c (kind :: kinds) s s''
  | later {kind : Kind} {kinds : List Kind} {s s' s'' : Session}
      (hfetch : s.Fetches kind (db.rows kind) s') (hrest : Raises db c kinds s' s'') :
      Raises db c (kind :: kinds) s s''

/-- Notes that all commits of a database are known. -/
def upToDate (s : Session) (db : Database) : Session :=
  { s with knownCommits := max s.knownCommits db.commits.length }

/-- The tables that a fetch of one kind takes in. -/
def fetchOrder (s : Session) (kind : Kind) : List Kind :=
  (if s.config.fetchReferenced then kind.dependencies.filter (· ∉ s.fetched) else []) ++ [kind]

/-- The tables that a refresh takes in. -/
def refreshOrder (s : Session) : List Kind := Kind.all.filter (· ∈ s.fetched)

variable {s s' : Session} {db : Database}

theorem Pulls.wellFormed {kinds : List Kind} (h : Pulls db kinds s s') (hs : s.WellFormed) :
    s'.WellFormed := by
  induction h with
  | nil => exact hs
  | cons hfetch _ ih => exact ih hfetch.wellFormed

theorem Pulls.config {kinds : List Kind} (h : Pulls db kinds s s') : s'.config = s.config := by
  induction h with
  | nil => rfl
  | cons hfetch _ ih => exact ih.trans hfetch.config

theorem Pulls.knownCommits {kinds : List Kind} (h : Pulls db kinds s s') :
    s'.knownCommits = s.knownCommits := by
  induction h with
  | nil => rfl
  | cons hfetch _ ih => exact ih.trans hfetch.knownCommits

theorem mem_fetched_iff {kind : Kind} {rows : List Record} (h : s.Fetches kind rows s') {k : Kind} :
    k ∈ s'.fetched ↔ k = kind ∨ k ∈ s.fetched := by
  rw [h.fetched, List.mem_insert_iff]

theorem Pulls.mem_fetched_iff {kinds : List Kind} (h : Pulls db kinds s s') {k : Kind} :
    k ∈ s'.fetched ↔ k ∈ kinds ∨ k ∈ s.fetched := by
  induction h with
  | nil => simp
  | cons hfetch _ ih =>
    rw [ih, Session.mem_fetched_iff hfetch, List.mem_cons]
    exact or_left_comm.trans (or_assoc).symm

theorem wellFormed_upToDate (h : s.WellFormed) : (s.upToDate db).WellFormed :=
  h.congr (fun _ => rfl) (Nat.le_refl _)

/-! ### Fetched rows are those of the database -/

/-- A row that was read is one of the database, but for its references. -/
theorem exists_dbId_of_readable (hdb : db.Filed) {kind : Kind} {r : Record}
    (h : r ∈ s.readable kind (db.rows kind)) : ∃ d row, r.dbId? = some d ∧
      db.row? kind d = some row ∧ s.localRow? kind row = some r := by
  obtain ⟨row, hrow, hlocal⟩ := mem_readable_iff.1 h
  obtain ⟨d, hd⟩ := Database.mem_rows_iff.1 hrow
  exact ⟨d, row, (same_of_localRow? hlocal).dbId?.symm.trans (hdb hd), hd, hlocal⟩

theorem row?_of_readable (hdb : db.Sound) {kind : Kind} {r : Record}
    (h : r ∈ s.readable kind (db.rows kind)) {d : DbId} (hd : r.dbId? = some d) :
    ∃ row, db.row? kind d = some row ∧ s.localRow? kind row = some r := by
  obtain ⟨d', row, hd', hrow, hlocal⟩ := exists_dbId_of_readable hdb.filed h
  obtain rfl := Option.some.inj (hd.symm.trans hd')
  exact ⟨row, hrow, hlocal⟩

/-- A row of the database that can be read is among those that are read. -/
theorem mem_readable_of_row? {kind : Kind} {d : DbId} {row r : Record}
    (hrow : db.row? kind d = some row) (hr : s.localRow? kind row = some r) :
    r ∈ s.readable kind (db.rows kind) :=
  mem_readable_iff.2 ⟨row, Database.mem_rows_iff.2 ⟨d, hrow⟩, hr⟩

theorem dbId_mem_readable (hdb : db.Filed) {kind : Kind} {d : DbId} {row r : Record}
    (hrow : db.row? kind d = some row) (hr : s.localRow? kind row = some r) :
    d ∈ (s.readable kind (db.rows kind)).filterMap Record.dbId? :=
  List.mem_filterMap.2 ⟨r, mem_readable_of_row? hrow hr,
    (same_of_localRow? hr).dbId?.symm.trans (hdb hrow)⟩

/-- An item that has a row after a fetch has one of the database, or it had one as an item to
add. -/
theorem Fetches.row_cases {kind : Kind} (hs : s.Coherent) (hdb : db.Sound)
    (h : s.Fetches kind (db.rows kind) s') {id : ItemId} {item : Item} {d : DbId}
    (hitem : s'.item? ⟨kind, id⟩ = some item) (hd : item.dbId = some d) :
    (∃ row r, db.row? kind d = some row ∧ item.synced = some r ∧ s.localRow? kind row = some r) ∨
      (item.status = .toAdd ∧ s.item? ⟨kind, id⟩ = some item) := by
  refine ((h.origin hitem).row_mem hs hd).imp ?_ ?_
  · rintro ⟨r, hr, hsync⟩
    have hdr : r.dbId? = some d := by
      rw [(h.wellFormed.consistent hitem).dbId_eq, hsync] at hd
      exact hd
    obtain ⟨row, hrow, hlocal⟩ := row?_of_readable hdb hr hdr
    exact ⟨row, r, hrow, hsync, hlocal⟩
  · rintro ⟨hst, hold⟩
    refine ⟨hst, ?_⟩
    have hid : item.id = id := item_id hitem
    rwa [hid] at hold

/-- A row that can be read has an item after a fetch of its table, which agrees with the row. -/
theorem Fetches.exists_item {kind : Kind} (hdb : db.Sound) (h : s.Fetches kind (db.rows kind) s')
    {d : DbId} {row r : Record} (hrow : db.row? kind d = some row)
    (hr : s.localRow? kind row = some r) :
    ∃ id item, s'.item? ⟨kind, id⟩ = some item ∧ item.synced = some r ∧ item.dbId = some d := by
  obtain ⟨id, item, hi, hsync⟩ := h.covered r (mem_readable_of_row? hrow hr)
  refine ⟨id, item, hi, hsync, ?_⟩
  rw [(h.wellFormed.consistent hi).dbId_eq, hsync]
  exact (same_of_localRow? hr).dbId?.symm.trans (hdb.dbId_eq hrow)

end Session

/-- Where several steps succeed, the first one does, and the others do after it. -/
theorem ConnectionM.mapM_cons_eq_ok {σ α β : Type} {f : α → ConnectionM σ β} {a : α} {l : List α}
    {c c' : Connection σ} {bs : List β} (h : (a :: l).mapM f c = (.ok bs, c')) :
    ∃ b rest c₁, f a c = (.ok b, c₁) ∧ l.mapM f c₁ = (.ok rest, c') ∧ bs = b :: rest := by
  rw [List.mapM_cons, run_bind] at h
  rcases hf : f a c with ⟨e | b, c₁⟩ <;> rw [hf] at h
  · cases h
  dsimp only at h
  rw [run_bind] at h
  rcases hl : l.mapM f c₁ with ⟨e | rest, c₂⟩ <;> rw [hl] at h
  · cases h
  · cases h
    exact ⟨b, rest, c₁, rfl, hl, rfl⟩

namespace Connection

open ConnectionM

variable {s : Session} {db : Database} {resolver : Resolver}

section

variable {σ : Type} [Store σ] {kind : Kind} {c c' : Connection σ} {rows : List Record} {store : σ}

/-- Fetching a table takes the rows that the store shows into the session. -/
theorem fetchTable_of_fetch
    (hfetch : (Store.fetch kind : StoreM σ (List Record)) c.store = (.ok rows, store))
    {result : Except Error FetchReport} {s' : Session} {conflicts : List Conflict}
    (hrec : c.session.reconcile kind rows (resolver c.passes) = (result, s', conflicts)) :
    fetchTable resolver kind c =
      (result, ⟨s', store, if conflicts = [] then c.passes else c.passes ++ [conflicts]⟩) := by
  have hcall : call (Store.fetch kind) c = (.ok rows, { c with store := store }) := by
    unfold call
    rw [hfetch]
  unfold fetchTable
  rw [run_bind, hcall]
  dsimp only
  unfold absorb
  dsimp only
  rw [hrec]

/-- Fetching a table fails as the store does. -/
theorem fetchTable_of_error {e : Error}
    (hfetch : (Store.fetch kind : StoreM σ (List Record)) c.store = (.error e, store)) :
    fetchTable resolver kind c = (.error e, { c with store := store }) := by
  have hcall : call (Store.fetch kind) c = (.error e, { c with store := store }) := by
    unfold call
    rw [hfetch]
  unfold fetchTable
  rw [run_bind, hcall]

theorem fetchTable_eq_ok {report : FetchReport} (h : fetchTable resolver kind c = (.ok report, c')) :
    ∃ rows store s' conflicts,
      c.session.reconcile kind rows (resolver c.passes) = (.ok report, s', conflicts) ∧
      c' = ⟨s', store, if conflicts = [] then c.passes else c.passes ++ [conflicts]⟩ := by
  rcases hfetch : (Store.fetch kind : StoreM σ (List Record)) c.store with ⟨e | rows, store⟩
  · rw [fetchTable_of_error hfetch] at h
    cases h
  · rcases hrec : c.session.reconcile kind rows (resolver c.passes) with ⟨result, s', conflicts⟩
    cases (fetchTable_of_fetch hfetch hrec).symm.trans h
    exact ⟨rows, store, s', conflicts, hrec, rfl⟩

end

/-- Fetching a table of a database takes its rows into the session. -/
theorem fetchTable_eq (resolver : Resolver) (kind : Kind) (s : Session) (db : Database)
    (passes : List (List Conflict)) :
    fetchTable resolver kind ⟨s, db, passes⟩ =
      let (result, s', conflicts) := s.reconcile kind (db.rows kind) (resolver passes)
      (result, ⟨s', db, if conflicts = [] then passes else passes ++ [conflicts]⟩) :=
  rfl

/-- Fetching one table. -/
theorem fetchTable_spec (hs : s.WellFormed) (hdb : db.Sound) (hr : resolver.Honest)
    (passes : List (List Conflict)) (kind : Kind) :
    ∃ report s' passes', fetchTable resolver kind ⟨s, db, passes⟩ =
      (.ok report, ⟨s', db, passes'⟩) ∧ s.Fetches kind (db.rows kind) s' ∧
      ∃ new, passes' = passes ++ new ∧
        ∀ c ∈ new.flatten, s.Meets kind (s.readable kind (db.rows kind)) c := by
  obtain ⟨report, s', cs, hrec, hfetch, hmeets⟩ :=
    Session.fetches_reconcile kind hs (hdb.nodup_rows kind) (hr passes)
  have hnew : ∃ new, (if cs = [] then passes else passes ++ [cs]) = passes ++ new ∧
      ∀ c ∈ new.flatten, s.Meets kind (s.readable kind (db.rows kind)) c := by
    split
    next => exact ⟨[], (List.append_nil _).symm, fun _ hc => absurd hc List.not_mem_nil⟩
    next => exact ⟨[cs], rfl, fun c hc => hmeets c (by rwa [List.flatten_singleton] at hc)⟩
  refine ⟨report, s', _, ?_, hfetch, hnew⟩
  rw [fetchTable_eq, hrec]

/-- Fetching tables one after the other. -/
theorem mapM_fetchTable (hs : s.WellFormed) (hdb : db.Sound) (hr : resolver.Honest)
    (passes : List (List Conflict)) (kinds : List Kind) :
    ∃ reports s' passes', kinds.mapM (fetchTable resolver) ⟨s, db, passes⟩ =
      (.ok reports, ⟨s', db, passes'⟩) ∧ Session.Pulls db kinds s s' ∧
      ∃ new, passes' = passes ++ new ∧ ∀ c ∈ new.flatten, Session.Raises db c kinds s s' := by
  induction kinds generalizing s passes with
  | nil =>
    exact ⟨[], s, passes, rfl, .nil, [], (List.append_nil _).symm,
      fun _ hc => absurd hc List.not_mem_nil⟩
  | cons kind kinds ih =>
    obtain ⟨report, s', passes', hfirst, hfetch, new, rfl, hmeets⟩ :=
      fetchTable_spec hs hdb hr passes kind
    obtain ⟨reports, s'', passes'', hrest, hpulls, new', rfl, hraises⟩ :=
      ih hfetch.wellFormed (passes ++ new)
    refine ⟨report :: reports, s'', _, ?_, .cons hfetch hpulls, new ++ new', List.append_assoc ..,
      fun c hc => ?_⟩
    · rw [List.mapM_cons, run_bind, hfirst]
      dsimp only
      rw [run_bind, hrest]
      rfl
    · rw [List.flatten_append, List.mem_append] at hc
      rcases hc with hc | hc
      · exact .here (hmeets c hc) hfetch hpulls
      · exact .later hfetch (hraises c hc)

/-- A fetch reports on all the tables that it takes in. -/
theorem fetch_eq {σ : Type} [Store σ] (resolver : Resolver) (kind : Kind) (c : Connection σ) :
    fetch resolver kind c =
      match (c.session.fetchOrder kind).mapM (fetchTable resolver) c with
      | (.ok reports, c) => (.ok (.total reports), c)
      | (.error e, c) => (.error e, c) := by
  have hstart : fetch resolver kind c =
      (do
        let reports ← (c.session.fetchOrder kind).mapM (fetchTable resolver)
        return .total reports : ConnectionM σ FetchReport) c := rfl
  rw [hstart, run_bind]
  rcases (c.session.fetchOrder kind).mapM (fetchTable resolver) c with ⟨_ | _, _⟩ <;> rfl

section

variable {σ : Type} [Store σ] {c c' : Connection σ} {store : σ}

/-- After a refresh the session knows of the commits that were counted before. -/
theorem refresh_of_count {count : Nat}
    (hcount : (Store.commitCount : StoreM σ Nat) c.store = (.ok count, store)) :
    refresh resolver c =
      match c.session.refreshOrder.mapM (fetchTable resolver) { c with store := store } with
      | (.ok reports, c') => (.ok (.total reports), { c' with session := { c'.session with
          knownCommits := max c'.session.knownCommits count } })
      | (.error e, c') => (.error e, c') := by
  have hcall : call Store.commitCount c = (.ok count, { c with store := store }) := by
    unfold call
    rw [hcount]
  unfold refresh
  rw [run_bind, hcall]
  have htables : (do
      let s ← getSession
      let reports ← (Kind.all.filter (· ∈ s.fetched)).mapM (fetchTable resolver)
      let s ← getSession
      putSession { s with knownCommits := max s.knownCommits count }
      return .total reports : ConnectionM σ FetchReport) { c with store := store } =
      (do
        let reports ← c.session.refreshOrder.mapM (fetchTable resolver)
        let s ← getSession
        putSession { s with knownCommits := max s.knownCommits count }
        return .total reports : ConnectionM σ FetchReport) { c with store := store } := rfl
  dsimp only
  rw [htables, run_bind]
  rcases c.session.refreshOrder.mapM (fetchTable resolver) { c with store := store } with
    ⟨_ | _, _⟩ <;> rfl

/-- A refresh fails if the commits cannot be counted. -/
theorem refresh_of_error {e : Error}
    (hcount : (Store.commitCount : StoreM σ Nat) c.store = (.error e, store)) :
    refresh resolver c = (.error e, { c with store := store }) := by
  have hcall : call Store.commitCount c = (.error e, { c with store := store }) := by
    unfold call
    rw [hcount]
  unfold refresh
  rw [run_bind, hcall]

theorem refresh_eq_ok {report : FetchReport} (h : refresh resolver c = (.ok report, c')) :
    ∃ count store reports c₁, (Store.commitCount : StoreM σ Nat) c.store = (.ok count, store) ∧
      c.session.refreshOrder.mapM (fetchTable resolver) { c with store := store } =
        (.ok reports, c₁) ∧
      report = .total reports ∧ c' = { c₁ with session := { c₁.session with
        knownCommits := max c₁.session.knownCommits count } } := by
  rcases hcount : (Store.commitCount : StoreM σ Nat) c.store with ⟨e | count, store⟩
  · rw [refresh_of_error hcount] at h
    cases h
  · rw [refresh_of_count hcount] at h
    split at h
    next reports c₁ hrun =>
      cases h
      exact ⟨count, store, reports, c₁, rfl, hrun, rfl, rfl⟩
    next => cases h

end

/-- After a refresh from a database the session knows of the commits there are. -/
theorem refresh_eq (resolver : Resolver) (c : Connection Database) :
    refresh resolver c =
      match c.session.refreshOrder.mapM (fetchTable resolver) c with
      | (.ok reports, c') =>
        (.ok (.total reports), { c' with session := c'.session.upToDate c.store })
      | (.error e, c') => (.error e, c') := by
  obtain ⟨s, db, passes⟩ := c
  have hcount : (Store.commitCount : StoreM Database Nat) db = (.ok db.commits.length, db) := rfl
  rw [refresh_of_count hcount]
  dsimp only
  rcases s.refreshOrder.mapM (fetchTable resolver) ⟨s, db, passes⟩ with ⟨_ | _, _⟩ <;> rfl

/-- Before a commit the session is refreshed if it is configured so and does not know all commits. -/
theorem refreshIfStale_eq (c : Connection Database) :
    refreshIfStale c =
      if c.session.config.refreshBeforeCommit = true ∧
          c.session.knownCommits < c.store.commits.length then
        match refresh c.session.config.policy.resolver c with
        | (.ok _, c) => (.ok (), c)
        | (.error e, c) => (.error e, c)
      else (.ok (), c) := by
  have hget : (getSession : ConnectionM Database Session) c = (.ok c.session, c) := rfl
  have hstale : (hasExternalCommits : ConnectionM Database Bool) c =
      (.ok (decide (c.session.knownCommits < c.store.commits.length)), c) := rfl
  unfold refreshIfStale
  rw [run_bind, hget]
  dsimp only
  cases c.session.config.refreshBeforeCommit with
  | false => rfl
  | true =>
    rw [if_pos rfl, run_bind, hstale]
    dsimp only
    by_cases hlt : c.session.knownCommits < c.store.commits.length
    · have hdiscard : (discard <| refresh c.session.config.policy.resolver :
          ConnectionM Database Unit) =
          refresh c.session.config.policy.resolver >>= fun _ => pure () := rfl
      rw [if_pos (decide_eq_true hlt), if_pos ⟨rfl, hlt⟩, hdiscard, run_bind]
      rcases refresh c.session.config.policy.resolver c with ⟨_ | _, _⟩ <;> rfl
    · rw [if_neg (by simpa using hlt), if_neg fun h => hlt h.2]
      rfl

theorem fetch_spec (hs : s.WellFormed) (hdb : db.Sound) (hr : resolver.Honest)
    (passes : List (List Conflict)) (kind : Kind) :
    ∃ report s' passes', fetch resolver kind ⟨s, db, passes⟩ = (.ok report, ⟨s', db, passes'⟩) ∧
      Session.Pulls db (s.fetchOrder kind) s s' ∧ ∃ new, passes' = passes ++ new ∧
        ∀ c ∈ new.flatten, Session.Raises db c (s.fetchOrder kind) s s' := by
  obtain ⟨reports, s', passes', hrun, hpulls, hnew⟩ :=
    mapM_fetchTable hs hdb hr passes (s.fetchOrder kind)
  refine ⟨.total reports, s', passes', ?_, hpulls, hnew⟩
  rw [fetch_eq, hrun]

theorem refresh_spec (hs : s.WellFormed) (hdb : db.Sound) (hr : resolver.Honest)
    (passes : List (List Conflict)) :
    ∃ report s' passes', refresh resolver ⟨s, db, passes⟩ =
      (.ok report, ⟨s'.upToDate db, db, passes'⟩) ∧ Session.Pulls db s.refreshOrder s s' ∧
      ∃ new, passes' = passes ++ new ∧
        ∀ c ∈ new.flatten, Session.Raises db c s.refreshOrder s s' := by
  obtain ⟨reports, s', passes', hrun, hpulls, hnew⟩ :=
    mapM_fetchTable hs hdb hr passes s.refreshOrder
  refine ⟨.total reports, s', passes', ?_, hpulls, hnew⟩
  rw [refresh_eq, hrun]

/-- Before a commit nothing happens, or the session is refreshed, since it does not know all commits.
If nothing happens although the session is to be refreshed, it knows all of them. -/
theorem refreshIfStale_spec (hs : s.WellFormed) (hdb : db.Sound) (passes : List (List Conflict)) :
    ∃ s' passes', refreshIfStale ⟨s, db, passes⟩ = (.ok (), ⟨s', db, passes'⟩) ∧
      ((s' = s ∧ (s.config.refreshBeforeCommit = true → db.commits.length ≤ s.knownCommits)) ∨
        (s.knownCommits < db.commits.length ∧
          ∃ s₁, s' = s₁.upToDate db ∧ Session.Pulls db s.refreshOrder s s₁)) ∧
      ∃ new, passes' = passes ++ new ∧
        ∀ c ∈ new.flatten, ∃ s₁, Session.Raises db c s.refreshOrder s s₁ := by
  rw [refreshIfStale_eq]
  dsimp only
  split
  next h =>
    obtain ⟨report, s', passes', hrun, hpulls, new, heq, hraises⟩ :=
      refresh_spec hs hdb (Choice.honest_resolver s.config.policy) passes
    refine ⟨s'.upToDate db, passes', ?_, .inr ⟨h.2, s', rfl, hpulls⟩, new, heq,
      fun c hc => ⟨s', hraises c hc⟩⟩
    rw [hrun]
  next h =>
    exact ⟨s, passes, rfl, .inl ⟨rfl, fun hcfg => Nat.le_of_not_lt fun hlt => h ⟨hcfg, hlt⟩⟩,
      [], (List.append_nil _).symm, fun _ hc => absurd hc List.not_mem_nil⟩

/-- A commit writes the pending items after the refresh, unless its comment is blank. -/
theorem commit_eq {σ : Type} [Store σ] {c c' : Connection σ} (h : refreshIfStale c = (.ok (), c'))
    (comment : String) :
    commit comment c =
      if Text.isBlank comment then (.error .blankComment, c) else writePending comment c' := by
  unfold commit
  split
  next => rfl
  next =>
    have hrest : (do
          refreshIfStale
          writePending comment : ConnectionM σ CommitId) c = writePending comment c' := by
      rw [run_bind, h]
    exact hrest

end Connection

end StagedEdits
