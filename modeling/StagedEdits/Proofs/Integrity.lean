import StagedEdits.Proofs.Attentive

/-!
# Unique keys and references in the database

A store enforces nothing.  That no two rows of a table share a unique key, and that no row refers to
a row that is missing, is up to the sessions.  Attentive sessions keep both up, with one exception
that they cannot know of: a session that has removed an item commits after another one has stored a
row that refers to it (`Workspace.reference_without_row`).  The sessions can no longer read that row,
and so its keys can be given out once more (`Workspace.key_of_two_rows`).  As long as no commit is
written in such a state, references hold and keys are distinct
(`Workspace.referencesHold_of_reachable`, `Workspace.keysDistinct_of_reachable`).
-/

namespace StagedEdits

def Command.isEdit : Command → Bool
  | add .. => true
  | update .. => true
  | remove _ => true
  | restore _ => true
  | _ => false

/-- A command edits items only if all tables were fetched, and forgets none. -/
def Command.LooksFirst (s : Session) (command : Command) : Prop :=
  command.isReset = false ∧ (command.isEdit = true → ∀ k ∈ Kind.all, k ∈ s.fetched)

instance (s : Session) (command : Command) : Decidable (command.LooksFirst s) :=
  inferInstanceAs (Decidable (_ ∧ _))

namespace Session

variable {s s' : Session} {db db' : Database}

/-- What holds of all items can be checked kind by kind. -/
theorem forall_item_iff {p : Item → Prop} :
    (∀ ⦃r item⦄, s.item? r = some item → p item) ↔ ∀ kind ∈ Kind.all, ∀ item ∈ s.all kind, p item := by
  constructor
  · exact fun h kind _ item hitem => h (mem_all_iff.1 hitem)
  · intro h r item hi
    refine h r.kind r.kind.mem_all item (mem_all_iff.2 ?_)
    rw [item_id hi]
    exact hi

instance : Decidable s.ReferencesLive :=
  decidable_of_iff (∀ kind ∈ Kind.all, ∀ item ∈ s.all kind, item.removed = false →
    ∀ target ∈ item.references, s.isLive target = true) forall_item_iff.symm

/-- Rolling back would drop no item that has a row. -/
def KeepsBound (s : Session) : Prop :=
  ∀ ⦃r item⦄, s.item? r = some item → item.rolledBack? = none → item.dbId = none

instance : Decidable s.KeepsBound :=
  decidable_of_iff (∀ kind ∈ Kind.all, ∀ item ∈ s.all kind, item.rolledBack? = none →
    item.dbId = none) forall_item_iff.symm

end Session

/-- A command writes nothing while live items refer to removed ones, restores undisturbed items only,
and drops no item that has a row. -/
def Command.Careful (s : Session) (db : Database) : Command → Prop
  | restore r => (restore r).isCandid s = true
  | rollBack => s.KeepsBound
  | commit comment =>
    db.commits.length < (s.outcome db (commit comment)).2.commits.length →
      (s.atCommit db).ReferencesLive
  | _ => True

instance (s : Session) (db : Database) : ∀ command : Command, Decidable (command.Careful s db)
  | .restore r => inferInstanceAs (Decidable ((Command.restore r).isCandid s = true))
  | .rollBack => inferInstanceAs (Decidable s.KeepsBound)
  | .commit comment =>
    inferInstanceAs (Decidable (db.commits.length <
      (s.outcome db (.commit comment)).2.commits.length → (s.atCommit db).ReferencesLive))
  | .add .. | .update .. | .remove _ | .fetch .. | .refresh _ | .reset _ | .hasExternalCommits =>
    isTrue trivial

namespace Session

variable {s s' : Session} {db db' : Database}

/-- Only restorations can be other than candid. -/
theorem isCandid_of_careful {command : Command} (h : command.Careful s db) :
    command.isCandid s = true := by
  cases command with
  | restore r => exact h
  | _ => rfl

/-- What a command does to an attentive session and its database. -/
theorem Step.attentive {command : Command} (h : s.Step db command s' db') (hs : s.Attentive db)
    (hdb : db.Intact) (hlooks : command.LooksFirst s) (hundisturbed : command.isCandid s = true)
    (hquiet : ∀ kind resolver, command = .fetch kind resolver → kind ∈ s.fetched →
      s.knownCommits = db.commits.length → ∀ r, s'.item? r = s.item? r)
    (hback : command = .rollBack → s.KeepsBound)
    (hwrite : ∀ comment, command = .commit comment → db.commits.length < db'.commits.length →
      (s.atCommit db).ReferencesLive) :
    s'.Attentive db' ∧ db'.Intact := by
  have hwf := hs.toWellFormed
  obtain ⟨hreg, hregdb, -⟩ := h.regular hs.toRegular hdb.toRegular
  have hcandid := h.candid hwf hs.candid hdb.toSound hdb.shaped hundisturbed
  have hall : command.isEdit = true → ∀ k, k ∈ s.fetched := fun he k => hlooks.2 he k k.mem_all
  cases h with
  | idle => exact ⟨hs, hdb⟩
  | add h =>
    obtain ⟨-, heq, -⟩ := add_eq_ok h
    exact ⟨hs.of_edit hreg hcandid (by rw [heq]; exact ⟨rfl, rfl, rfl⟩)
      (sameRows_add hs.toCoherent h) (.inl (hall rfl)), hdb⟩
  | update h =>
    have he := edits_update hwf h
    exact ⟨hs.of_edit hreg hcandid he.frame he.sameRows (.inl (hall rfl)), hdb⟩
  | remove h =>
    have he := edits_remove hwf h
    exact ⟨hs.of_edit hreg hcandid he.frame he.sameRows (.inl (hall rfl)), hdb⟩
  | restore h =>
    have he := edits_restore hwf h
    exact ⟨hs.of_edit hreg hcandid he.frame he.sameRows (.inl (hall rfl)), hdb⟩
  | @fetch kind resolver _ hp => exact ⟨hs.fetches hdb hreg hp (hquiet kind resolver rfl), hdb⟩
  | refresh hp => exact ⟨hs.refreshed hdb hp hreg, hdb⟩
  | refused hres =>
    refine ⟨(hs.atCommit hdb).advances hres.advances, hregdb, ?_, ?_⟩
    · intro kind d row hrow e he
      rw [hres.row?_eq] at hrow
      obtain ⟨n, target, hn, htarget⟩ := hdb.references hrow e he
      exact ⟨n, target, hn, (hres.row?_eq ..).trans htarget⟩
    · intro kind d d' row row' key hrow hrow'
      rw [hres.row?_eq] at hrow hrow'
      exact hdb.keys hrow hrow'
  | @commit comment _ _ _ _ _ hres hc =>
    have hlive := hwrite comment rfl (by rw [hc.commits_length]; exact Nat.lt_succ_self _)
    exact (hs.atCommit hdb).commits hdb (hs.known_atCommit hdb) hlive hres hc hreg hregdb
  | rollBack h =>
    obtain ⟨hframe, -, -, -⟩ := rollBack_spec hwf h
    have hdrop : ∀ r item, s.item? r = some item → item.rolledBack? = none → item.synced = none := by
      intro r item hi hnone
      cases hsync : item.synced with
      | none => rfl
      | some row =>
        obtain ⟨d, hd, -⟩ := hs.candid.faithful.dbId_of_synced hs.toCoherent hi hsync
        rw [hback rfl hi hnone] at hd
        cases hd
    exact ⟨hs.of_edit hreg hcandid hframe (sameRows_rollBack hwf h hdrop)
      (.inr (clean_rollBack hwf h)), hdb⟩
  | reset => exact nomatch hlooks.1

/-- A session that knows all commits finds nothing new in a table that it has fetched. -/
theorem Attentive.fetch_again (h : s.Attentive db) (hdb : db.Intact) {kind : Kind}
    (hk : kind ∈ s.fetched) (hknown : s.knownCommits = db.commits.length)
    (resolver : Option Resolver) (r : ItemRef) :
    (s.outcome db (.fetch kind resolver)).1.item? r = s.item? r := by
  have horder : s.fetchOrder kind = [kind] := fetchOrder_eq_singleton fun _ => h.closed hk
  have hfetch := Connection.fetch_of_mirrors h.toWellFormed h.candid.faithful hdb.toSound
    (h.mirrors hknown kind hk) horder ((Command.fetch kind resolver).resolver s) []
  unfold outcome
  rw [Command.run_fetch, hfetch]
  exact item?_markFetched s kind r

/-- A careful command leaves a session attentive and the database intact. -/
theorem Attentive.outcome (h : s.Attentive db) (hdb : db.Intact) {command : Command}
    (hh : command.Honest) (hr : command.InRange s db) (hlooks : command.LooksFirst s)
    (hc : command.Careful s db) :
    (s.outcome db command).1.Attentive (s.outcome db command).2 ∧
      (s.outcome db command).2.Intact := by
  refine (h.toRegular.step hdb.toRegular hh hr).attentive h hdb hlooks (isCandid_of_careful hc)
    ?_ ?_ ?_
  · rintro kind resolver rfl hk hknown r
    exact h.fetch_again hdb hk hknown resolver r
  · rintro rfl
    exact hc
  · rintro comment rfl hlt
    exact hc hlt

end Session

namespace Workspace

variable {w : Workspace Database}

/-- Sessions are opened with the default settings, and look at all tables before they edit. -/
def LooksFirst (w : Workspace Database) : Event → Prop
  | .connect _ config => config = {}
  | .ask name command => ∀ s, w.session? name = some s → command.LooksFirst s

instance (w : Workspace Database) : ∀ e, Decidable (w.LooksFirst e)
  | .connect _ config => inferInstanceAs (Decidable (config = {}))
  | .ask name command =>
    inferInstanceAs (Decidable (∀ s ∈ w.session? name, command.LooksFirst s))

/-- All sessions are attentive. -/
def AttentiveRun (w : Workspace Database) (e : Event) : Prop := w.Orderly e ∧ w.LooksFirst e

/-- All sessions are attentive, and all their commands are careful. -/
def CarefulRun (w : Workspace Database) (e : Event) : Prop :=
  w.AttentiveRun e ∧ w.Asks (fun s db command => command.Careful s db) e

theorem intact_of_reachable (hw : w.Reachable CarefulRun) :
    w.All Database.Intact Session.Attentive := by
  have hnew : (new Database.empty).All Database.Intact Session.Attentive := by
    refine ⟨⟨regular_new.store, ?_, ?_⟩, fun _ _ h => nomatch h⟩
    · intro kind d row hrow; cases hrow
    · intro kind d d' row row' key hrow; cases hrow
  refine hw.invariant hnew fun w e hw he => hw.act ?_ ?_
  · rintro name config rfl
    obtain ⟨⟨-, hconfig⟩, -⟩ := he
    obtain rfl : config = {} := hconfig
    exact Session.attentive_new w.store
  · rintro name command s rfl hs
    obtain ⟨⟨hord, hlooks⟩, hcareful⟩ := he
    obtain ⟨hh, hr⟩ := hord s hs
    have ha := hw.session hs
    obtain ⟨-, -, hadv⟩ := (ha.toRegular.step hw.store.toRegular hh hr).regular ha.toRegular
      hw.store.toRegular
    obtain ⟨hs', hdb'⟩ := ha.outcome hw.store hh hr (hlooks s hs) (hcareful s hs)
    exact ⟨hdb', hs', fun t ht => ht.advances hadv⟩

/-- Opens a session, which looks at all tables. -/
def openAndLook (name : String) : List Event :=
  .connect name {} :: Kind.all.map fun kind => .ask name (.fetch kind none)

/-- A session adds a class and another one an entity of it, while the first one changes the class. -/
def sharedWork : List Event :=
  openAndLook "a" ++ [.ask "a" (.add .entityClass (.ofList [("name", .text "fish")])),
    .ask "a" (.commit "fish")] ++ openAndLook "b" ++
  [.ask "a" (.update ⟨.entityClass, .first⟩ (.ofList [("description", .text "wet")])),
    .ask "b" (.add .entity (.ofList [("class_id", .ref .first), ("name", .text "nemo")])),
    .ask "b" (.commit "nemo"), .ask "a" (.commit "wet")]

set_option maxRecDepth 4000 in
theorem reachable_sharedWork : ((new .empty).after sharedWork).Reachable CarefulRun := by
  have hrun : Run (fun w e => (w.Plain e ∧ w.LooksFirst e) ∧
      w.Asks (fun s db command => command.Careful s db) e) (new .empty) sharedWork := by
    decide +kernel
  exact ⟨sharedWork, hrun.mono fun _ _ h => ⟨⟨h.1.1.orderly, h.1.2⟩, h.2⟩, rfl⟩

/-! ### References -/

/-- After any run of attentive sessions and careful commands, every reference field of every row
holds the identity of a row of the table that it refers to. -/
theorem referencesHold_of_reachable (hw : w.Reachable CarefulRun) : w.store.ReferencesHold :=
  (intact_of_reachable hw).store.references

theorem referencesHold_of_sharedWork : ((new .empty).after sharedWork).Reachable CarefulRun ∧
    ((new .empty).after sharedWork).store.ReferencesHold :=
  ⟨reachable_sharedWork, referencesHold_of_reachable reachable_sharedWork⟩

/-- A session removes a class.  Another one stores an entity of it before the removal is
committed. -/
def removedMeanwhile : List Event :=
  openAndLook "a" ++ [.ask "a" (.add .entityClass (.ofList [("name", .text "fish")])),
    .ask "a" (.commit "fish")] ++ openAndLook "b" ++
  [.ask "a" (.remove ⟨.entityClass, .first⟩),
    .ask "b" (.add .entity (.ofList [("class_id", .ref .first), ("name", .text "nemo")])),
    .ask "b" (.commit "nemo"), .ask "a" (.commit "no fish")]

set_option maxRecDepth 4000 in
/-- The entity is stored without its class. -/
theorem reference_without_row : ∃ w : Workspace Database,
    w.Reachable AttentiveRun ∧ ¬ w.store.ReferencesHold := by
  have hrun : Run (fun w e => w.Plain e ∧ w.LooksFirst e) (new .empty) removedMeanwhile := by
    decide +kernel
  refine ⟨_, ⟨removedMeanwhile, hrun.mono fun _ _ h => ⟨h.1.orderly, h.2⟩, rfl⟩, fun hhold => ?_⟩
  have hcheck : (((new .empty).after removedMeanwhile).store.row? .entity ⟨1⟩).any (fun row =>
      decide (row.get? "class_id" = some (.integer 1)) &&
        (((new .empty).after removedMeanwhile).store.row? .entityClass ⟨1⟩).isNone) = true := by
    decide +kernel
  obtain ⟨row, hrow, hcheck⟩ := (Option.any_eq_true ..).1 hcheck
  simp only [Bool.and_eq_true, decide_eq_true_eq, Option.isNone_iff_eq_none] at hcheck
  obtain ⟨hclass, hnone⟩ := hcheck
  obtain ⟨n, target, hn, htarget⟩ := hhold hrow ("class_id", .entityClass) (by decide)
  dsimp only at hn htarget
  rw [hclass, Option.some.injEq, Value.integer.injEq] at hn
  rw [← hn, hnone] at htarget
  cases htarget

/-! ### Unique keys -/

/-- After any run of attentive sessions and careful commands, no two rows of a table share a unique
key. -/
theorem keysDistinct_of_reachable (hw : w.Reachable CarefulRun) : w.store.KeysDistinct :=
  (intact_of_reachable hw).store.keys

theorem keysDistinct_of_sharedWork : ((new .empty).after sharedWork).Reachable CarefulRun ∧
    ((new .empty).after sharedWork).store.KeysDistinct :=
  ⟨reachable_sharedWork, keysDistinct_of_reachable reachable_sharedWork⟩

/-- A session removes an alternative.  Another one stores it as the first alternative of a scenario
before the removal is committed.  A third session cannot read that row, and stores another first
alternative of the scenario. -/
def firstTwice : List Event :=
  openAndLook "a" ++ [.ask "a" (.add .alternative (.ofList [("name", .text "x")])),
    .ask "a" (.add .alternative (.ofList [("name", .text "y")])),
    .ask "a" (.add .scenario (.ofList [("name", .text "s")])), .ask "a" (.commit "add")] ++
  openAndLook "b" ++ [.ask "a" (.remove ⟨.alternative, .first⟩),
    .ask "b" (.add .scenarioAlternative (.ofList
      [("scenario_id", .ref ⟨3⟩), ("alternative_id", .ref .first), ("rank", .integer 1)])),
    .ask "b" (.commit "x first"), .ask "a" (.commit "no x")] ++
  openAndLook "c" ++ [.ask "c" (.add .scenarioAlternative (.ofList
      [("scenario_id", .ref ⟨2⟩), ("alternative_id", .ref .first), ("rank", .integer 1)])),
    .ask "c" (.commit "y first")]

set_option maxRecDepth 4000 in
/-- Two rows have the same scenario and the same rank. -/
theorem key_of_two_rows : ∃ w : Workspace Database,
    w.Reachable AttentiveRun ∧ ¬ w.store.KeysDistinct := by
  have hrun : Run (fun w e => w.Plain e ∧ w.LooksFirst e) (new .empty) firstTwice := by
    decide +kernel
  refine ⟨_, ⟨firstTwice, hrun.mono fun _ _ h => ⟨h.1.orderly, h.2⟩, rfl⟩, fun hdistinct => ?_⟩
  have hcheck : (((new .empty).after firstTwice).store.row? .scenarioAlternative ⟨1⟩).any (fun row =>
      (((new .empty).after firstTwice).store.row? .scenarioAlternative ⟨2⟩).any fun row' =>
        decide (⟨1, [.integer 1, .integer 1]⟩ ∈ Kind.scenarioAlternative.keysOf row) &&
          decide (⟨1, [.integer 1, .integer 1]⟩ ∈ Kind.scenarioAlternative.keysOf row')) = true := by
    decide +kernel
  obtain ⟨row, hrow, hcheck⟩ := (Option.any_eq_true ..).1 hcheck
  obtain ⟨row', hrow', hcheck⟩ := (Option.any_eq_true ..).1 hcheck
  simp only [Bool.and_eq_true, decide_eq_true_eq] at hcheck
  have heq := hdistinct hrow hrow' hcheck.1 hcheck.2
  exact absurd heq (by decide)

end Workspace

end StagedEdits
