import StagedEdits.Proofs.SingleWriter
import StagedEdits.Proofs.Shape

/-!
# Sessions that yield

A session that gives every conflict to the side of the database never keeps a removed item against
a row: its removed items were all removed by itself (`Session.keepsRemovals_of_pull`).  So the
status that a removed item had stays the one to go back to, and every removal can be undone
truthfully (`Session.Sincere`, `Workspace.sincere_of_reachable`).
-/

namespace StagedEdits

/-- A resolver gives all conflicts of the passes that follow those before to one side. -/
def Resolver.GivesAll (resolver : Resolver) (choice : Choice) :
    List (List Conflict) → List (List Conflict) → Prop
  | _, [] => True
  | before, conflicts :: rest =>
    (∀ r ∈ resolver before conflicts, r.choice = choice) ∧
      resolver.GivesAll choice (before ++ [conflicts]) rest

instance Resolver.decidableGivesAll (resolver : Resolver) (choice : Choice) :
    ∀ before passes, Decidable (resolver.GivesAll choice before passes)
  | _, [] => isTrue trivial
  | before, conflicts :: rest =>
    have := decidableGivesAll resolver choice (before ++ [conflicts]) rest
    inferInstanceAs (Decidable (_ ∧ _))

theorem Resolver.givesAll_append {resolver : Resolver} {choice : Choice}
    {before first second : List (List Conflict)} :
    resolver.GivesAll choice before (first ++ second) ↔
      resolver.GivesAll choice before first ∧ resolver.GivesAll choice (before ++ first) second := by
  induction first generalizing before with
  | nil =>
    rw [List.append_nil]
    exact ⟨fun h => ⟨trivial, h⟩, fun h => h.2⟩
  | cons conflicts first ih =>
    show _ ∧ resolver.GivesAll choice (before ++ [conflicts]) (first ++ second) ↔ _
    rw [ih, List.append_assoc, List.singleton_append]
    exact and_assoc.symm

/-- What takes the row over is live. -/
theorem Resolved.live_outcome? {r : Resolved} (hchoice : r.choice = .takeStored) {item : Item}
    (h : r.outcome? = some item) : item.removed = false := by
  rcases outcome?_eq_some h with ⟨-, row, -, ⟨-, rfl⟩ | ⟨-, rfl⟩⟩ | ⟨hkeep, -⟩
  · unfold Item.resurrectedBy
    dsimp only
    split <;> rfl
  · rfl
  · rw [hkeep] at hchoice
    cases hchoice

namespace Session

variable {s s' s'' : Session} {db : Database} {kind : Kind} {rows : List Record}

theorem keepsRemovals_put {item : Item} (hlive : item.removed = false) :
    s.KeepsRemovals (s.put item) := by
  intro r b hb hrem
  rw [item?_put] at hb
  split at hb
  next =>
    obtain rfl := Option.some.inj hb
    rw [hlive] at hrem
    cases hrem
  next => exact hb

/-! ### Fetching a table -/

/-- Taking in a finding brings up no removed item: it puts in live items only. -/
theorem Absorbing.keepsRemovals_step {s₀ : Session} {f : Finding} {todo : List Finding}
    {a : Absorption} (h : Absorbing s₀ kind rows (f :: todo) a) :
    a.session.KeepsRemovals (a.step kind f).session := by
  have hfits := h.fits f (List.mem_cons_self ..)
  cases f with
  | unknown row => exact keepsRemovals_put (s := { a.session with nextId := a.session.nextId.next }) rfl
  | changed id row =>
    obtain ⟨x, hx, hst⟩ := hfits
    have hax : a.session.item? ⟨kind, id⟩ = some x :=
      (h.same id (List.mem_cons_self ..)).trans (by rw [item?_eq]; exact hx)
    have hlive : (x.adopt row).removed = false := by
      show x.status.isRemoved = false
      rw [hst]
      rfl
    simp only [Absorption.step, hax]
    exact keepsRemovals_put hlive
  | same id => exact .refl _
  | twin id row =>
    obtain ⟨x, hx, -⟩ := hfits
    have hax : a.session.item? ⟨kind, id⟩ = some x :=
      (h.same id (List.mem_cons_self ..)).trans (by rw [item?_eq]; exact hx)
    simp only [Absorption.step, hax]
    exact keepsRemovals_put (x.removed_claim row)
  | conflict id row d =>
    unfold Absorption.step
    dsimp only
    split
    next => exact .refl _
    next => exact .of_subset fun _ _ => item?_of_drop
  | gone id =>
    exact .of_subset fun _ _ => item?_of_evict (r := ⟨kind, id⟩)

theorem keepsRemovals_absorb (kind : Kind) (hs : s.WellFormed)
    (hrows : (rows.filterMap Record.dbId?).Nodup) :
    s.KeepsRemovals (s.absorb kind rows).session := by
  refine (absorb_induction kind hs.toCoherent (hs.exact kind) hrows
    (K := fun a => s.KeepsRemovals a.session) (fun _ => ?_)
    fun _ _ _ _ habs h => h.trans habs.keepsRemovals_step).2
  exact .of_subset fun r item hi => (item?_markFetched s kind r).symm.trans hi

theorem keepsRemovals_settle {conflicts : List Conflict} {answers : List Resolved}
    (hfault : contractFault? conflicts answers = none)
    (hchoice : ∀ r ∈ answers, r.choice = .takeStored) :
    s.KeepsRemovals (s.settle conflicts answers).2 := by
  obtain ⟨ordered, hperm, heq⟩ := exists_settle_eq s hfault
  have hfold : ∀ (left : List Resolved) (s : Session), (∀ r ∈ left, r.choice = .takeStored) →
      s.KeepsRemovals (left.foldl answered s) := by
    intro left
    induction left with
    | nil => exact fun s _ => .refl s
    | cons r left ih =>
      intro s h
      rw [List.foldl_cons]
      refine KeepsRemovals.trans ?_ (ih _ fun r hr => h r (List.mem_cons_of_mem _ hr))
      rw [answered_eq]
      split
      next item hitem =>
        exact keepsRemovals_put (Resolved.live_outcome? (h r (List.mem_cons_self ..)) hitem)
      next => exact .refl s
  rw [heq]
  have hanswered : s.KeepsRemovals (ordered.foldl answered s) :=
    hfold ordered s fun r hr => hchoice r (hperm.mem_iff.1 hr)
  exact hanswered.trans (.of_subset fun _ _ => item?_of_evictReferrers)

/-- A fetch in which all conflicts are given to the side of the database brings up no removed
item. -/
theorem keepsRemovals_reconcile (hs : s.WellFormed) (hrows : (rows.filterMap Record.dbId?).Nodup)
    {answer : List Conflict → List Resolved} (ha : ∀ cs, Answers cs (answer cs))
    {report : Except Error FetchReport} {conflicts : List Conflict}
    (h : s.reconcile kind rows answer = (report, s', conflicts))
    (hchoice : conflicts ≠ [] → ∀ r ∈ answer conflicts, r.choice = .takeStored) :
    s.KeepsRemovals s' := by
  have habsorb := keepsRemovals_absorb kind hs hrows
  have hnodup := (absorbing_absorb kind hs.toCoherent (hs.exact kind) hrows).conflicts_nodup
  rcases s.reconcile_cases kind rows answer with
    ⟨-, hrec⟩ | ⟨-, fault, hfault, -⟩ | ⟨hne, hnone, _, -, hrec⟩
  · cases hrec.symm.trans h
    exact habsorb
  · rw [contractFault?_eq_none (ha _) hnodup] at hfault
    cases hfault
  · cases hrec.symm.trans h
    exact habsorb.trans (keepsRemovals_settle hnone (hchoice hne))

end Session

namespace Connection

open ConnectionM

variable {s : Session} {db : Database} {resolver : Resolver}

/-- Steps from one connection to another bring up no removed item if the resolver gives all conflicts
to the side of the database. -/
def Yields (resolver : Resolver) (c c' : Connection Database) : Prop :=
  ∃ passes, c'.passes = c.passes ++ passes ∧
    (resolver.GivesAll .takeStored c.passes passes → c.session.KeepsRemovals c'.session)

theorem Yields.refl (resolver : Resolver) (c : Connection Database) : Yields resolver c c :=
  ⟨[], (List.append_nil _).symm, fun _ => .refl _⟩

theorem Yields.trans {c c' c'' : Connection Database} (h : Yields resolver c c')
    (h' : Yields resolver c' c'') : Yields resolver c c'' := by
  obtain ⟨passes, hpasses, hkeep⟩ := h
  obtain ⟨passes', hpasses', hkeep'⟩ := h'
  refine ⟨passes ++ passes', ?_, fun hall => ?_⟩
  · rw [hpasses', hpasses, List.append_assoc]
  · obtain ⟨hfirst, hrest⟩ := Resolver.givesAll_append.1 hall
    rw [← hpasses] at hrest
    exact (hkeep hfirst).trans (hkeep' hrest)

theorem Yields.of_session_eq {c c' : Connection Database} (h : Yields resolver c c')
    {c'' : Connection Database} (hpasses : c''.passes = c'.passes)
    (hitem : ∀ r, c''.session.item? r = c'.session.item? r) : Yields resolver c c'' := by
  obtain ⟨passes, heq, hkeep⟩ := h
  exact ⟨passes, hpasses.trans heq, fun hall r item hi => hkeep hall ((hitem r).symm.trans hi)⟩

theorem yields_fetchTable (hdb : db.Sound) (hr : resolver.Honest) (hs : s.WellFormed)
    (passes : List (List Conflict)) (kind : Kind) :
    Yields resolver ⟨s, db, passes⟩ (fetchTable resolver kind ⟨s, db, passes⟩).2 := by
  rw [fetchTable_eq]
  generalize hrec : s.reconcile kind (db.rows kind) (resolver passes) = result
  obtain ⟨report, s', conflicts⟩ := result
  have hkeep := Session.keepsRemovals_reconcile hs (hdb.nodup_rows kind) (hr passes) hrec
  dsimp only
  split
  next hnil => exact ⟨[], (List.append_nil _).symm, fun _ => hkeep fun hne => absurd hnil hne⟩
  next => exact ⟨[conflicts], rfl, fun hall => hkeep fun _ => hall.1⟩

theorem yields_mapM (hdb : db.Sound) (hr : resolver.Honest) (kinds : List Kind)
    (hs : s.WellFormed) (passes : List (List Conflict)) :
    Yields resolver ⟨s, db, passes⟩ (kinds.mapM (fetchTable resolver) ⟨s, db, passes⟩).2 := by
  induction kinds generalizing s passes with
  | nil => exact .refl _ _
  | cons kind kinds ih =>
    have hfirst := yields_fetchTable hdb hr hs passes kind
    obtain ⟨report, s', passes', hrun, hfetch, -⟩ :=
      fetchTable_spec hs hdb hr passes kind
    obtain ⟨reports, s'', passes'', hrest, -⟩ :=
      mapM_fetchTable hfetch.wellFormed hdb hr passes' kinds
    have hsecond := ih hfetch.wellFormed passes'
    rw [hrun] at hfirst
    rw [hrest] at hsecond
    rw [List.mapM_cons, run_bind, hrun]
    dsimp only
    rw [run_bind, hrest]
    exact hfirst.trans hsecond

theorem yields_fetch (hdb : db.Sound) (hr : resolver.Honest) (hs : s.WellFormed)
    (passes : List (List Conflict)) (kind : Kind) :
    Yields resolver ⟨s, db, passes⟩ (fetch resolver kind ⟨s, db, passes⟩).2 := by
  have h := yields_mapM hdb hr (s.fetchOrder kind) hs passes
  obtain ⟨reports, s', passes', hrun, -⟩ :=
    mapM_fetchTable hs hdb hr passes (s.fetchOrder kind)
  rw [hrun] at h
  rw [fetch_eq, hrun]
  exact h

theorem yields_refresh (hdb : db.Sound) (hr : resolver.Honest) (hs : s.WellFormed)
    (passes : List (List Conflict)) :
    Yields resolver ⟨s, db, passes⟩ (refresh resolver ⟨s, db, passes⟩).2 := by
  have h := yields_mapM hdb hr s.refreshOrder hs passes
  obtain ⟨reports, s', passes', hrun, -⟩ :=
    mapM_fetchTable hs hdb hr passes s.refreshOrder
  rw [hrun] at h
  rw [refresh_eq, hrun]
  exact h.of_session_eq rfl fun _ => rfl

theorem yields_refreshIfStale (hdb : db.Sound) (hs : s.WellFormed) (passes : List (List Conflict)) :
    Yields s.config.policy.resolver ⟨s, db, passes⟩ (refreshIfStale ⟨s, db, passes⟩).2 := by
  have hr := Choice.honest_resolver s.config.policy
  have h := yields_refresh hdb hr hs passes
  rw [refreshIfStale_eq]
  dsimp only
  split
  next =>
    obtain ⟨report, s', passes', hrun, -⟩ := refresh_spec hs hdb hr passes
    rw [hrun] at h ⊢
    exact h
  next => exact .refl _ _

end Connection

/-- All conflicts that come up in a command are given to the side of the database. -/
def Command.Yields (s : Session) (db : Database) (command : Command) : Prop :=
  (command.resolver s).GivesAll .takeStored [] (command.run ⟨s, db, []⟩).2.passes

instance (s : Session) (db : Database) (command : Command) : Decidable (command.Yields s db) :=
  inferInstanceAs (Decidable (Resolver.GivesAll ..))

namespace Session

variable {s s' : Session} {db db' : Database}

/-- A fetch or refresh that yields in all conflicts brings up no removed item. -/
theorem keepsRemovals_of_pull (hs : s.WellFormed) (hdb : db.Sound) {command : Command}
    (hpull : command.isPull = true) (hh : command.Honest) (hy : command.Yields s db) :
    s.KeepsRemovals (s.outcome db command).1 := by
  have hyields : Connection.Yields (command.resolver s) ⟨s, db, []⟩ (command.run ⟨s, db, []⟩).2 := by
    cases command with
    | fetch kind resolver =>
      rw [Command.run_fetch]
      exact Connection.yields_fetch hdb (hh.resolver s) hs [] kind
    | refresh resolver =>
      rw [Command.run_refresh]
      exact Connection.yields_refresh hdb (hh.resolver s) hs []
    | _ => cases hpull
  obtain ⟨passes, hpasses, hkeep⟩ := hyields
  unfold Command.Yields at hy
  rw [hpasses] at hy
  exact hkeep hy

/-- Before a commit that yields in all conflicts, no removed item is brought up. -/
theorem keepsRemovals_atCommit (hs : s.WellFormed) (hb : s.Bounded db) (hdb : db.Sound)
    {comment : String} (hroom : (s.atCommit db).HasRoom db) (hblank : Text.isBlank comment = false)
    (hy : (Command.commit comment).Yields s db) : s.KeepsRemovals (s.atCommit db) := by
  obtain ⟨passes, heq, hkeep⟩ := Connection.yields_refreshIfStale hdb hs []
  have hpasses : ((Command.commit comment).run ⟨s, db, []⟩).2.passes = passes := by
    unfold Command.run
    dsimp only
    rw [ConnectionM.run_map, Connection.passes_commit hs hb hdb hroom, hblank,
      if_neg Bool.false_ne_true]
    exact heq
  unfold Command.Yields at hy
  rw [hpasses] at hy
  exact hkeep hy

theorem Faithful.atCommit (hf : s.Faithful) (hs : s.WellFormed) (hdb : db.Sound)
    (hsh : db.Shaped) : (s.atCommit db).Faithful := by
  rcases atCommit_cases hs hdb with ⟨heq, -⟩ | ⟨-, s₁, heq, hp⟩
  · rw [heq]; exact hf
  · rw [heq]; exact (hp.faithful hs hf hdb hsh).upToDate

/-- What a command does to a sincere session, if it brings up no removed item before it edits. -/
theorem Step.sincere {command : Command} (h : s.Step db command s' db') (hs : s.WellFormed)
    (hsin : s.Sincere) (hdb : db.Sound) (hsh : db.Shaped)
    (hpull : command.isPull = true → s.KeepsRemovals s')
    (hcommit : command.isCommit = true → s' = s ∨ s.KeepsRemovals (s.atCommit db)) :
    s'.Sincere := by
  cases h with
  | idle => exact hsin
  | add h => exact hsin.add hs h
  | update h => exact hsin.update hs h
  | remove h => exact hsin.remove hs h
  | restore h => exact hsin.restore hs h
  | fetch h =>
    exact hsin.of_keepsRemovals (h.faithful hs hsin.faithful hdb hsh) (hpull rfl)
  | refresh h =>
    exact hsin.of_keepsRemovals (h.faithful hs hsin.faithful hdb hsh).upToDate (hpull rfl)
  | refused h =>
    rcases hcommit rfl with heq | hkeep
    · rw [heq]; exact hsin
    · exact hsin.of_keepsRemovals (hsin.faithful.atCommit hs hdb hsh) hkeep
  | commit hres h =>
    have hwf := wellFormed_atCommit hs hdb
    exact sincere_of_clean (h.faithful hwf (hsin.faithful.atCommit hs hdb hsh) hres)
      (h.clean hwf hres)
  | rollBack h => exact hsin.rollBack hs h
  | reset =>
    exact hsin.of_keepsRemovals (hsin.faithful.reset _) (.of_subset fun _ _ => item?_reset)

/-- A command that yields in all conflicts leaves a session sincere. -/
theorem Sincere.outcome (h : s.Sincere) (hs : s.Regular db) (hdb : db.Regular) {command : Command}
    (hh : command.Honest) (hr : command.InRange s db) (hy : command.Yields s db) :
    (s.outcome db command).1.Sincere := by
  refine (hs.step hdb hh hr).sincere hs.toWellFormed h hdb.toSound hdb.shaped ?_ fun hcommit => ?_
  · exact fun hpull => keepsRemovals_of_pull hs.toWellFormed hdb.toSound hpull hh hy
  · cases command with
    | commit comment =>
      cases hblank : Text.isBlank comment with
      | true =>
        refine .inl ?_
        rw [Workspace.outcome_commit]
        unfold Connection.commit
        rw [hblank]
        rfl
      | false =>
        exact .inr (keepsRemovals_atCommit hs.toWellFormed hs.bounded hdb.toSound (hr rfl) hblank hy)
    | _ => cases hcommit

end Session

namespace Workspace

variable {w : Workspace Database} {name : String} {s : Session}

/-- The run of a session that gives all its conflicts to the side of the database; other sessions may
do as they like. -/
def YieldingRun (name : String) (w : Workspace Database) (e : Event) : Prop :=
  w.Orderly e ∧ w.Heeds name (fun s db command => command.Yields s db) e

theorem sincere_of_reachable (hw : w.Reachable (YieldingRun name)) (hs : w.session? name = some s) :
    w.All Database.Regular Session.Regular ∧ s.Sincere := by
  have hnew : ∀ config count, (Session.new config count).Sincere := fun config count =>
    ⟨fun _ _ h => (nomatch h), fun _ _ h => (nomatch h)⟩
  obtain ⟨hreg, hsincere⟩ := heeding_of_reachable hw hnew
    fun {s db command} hreg hdb hh hr hy h => h.outcome hreg hdb hh hr hy
  exact ⟨hreg, hsincere s hs⟩

end Workspace

end StagedEdits
