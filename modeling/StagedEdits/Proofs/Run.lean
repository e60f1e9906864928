import StagedEdits.Proofs.Commit
import StagedEdits.Proofs.Fetch
import StagedEdits.Workspace

/-!
# Runs of a workspace

A run is a list of events: sessions are opened, and commands are carried out in them, in any order.
`Session.Step` lists what a command can do to a session and its database (`Session.step_run`).  What
every event keeps holds after a run (`Workspace.Run.invariant`).
-/

namespace StagedEdits

/-- What can happen to a workspace. -/
inductive Event where
  /-- A session is opened. -/
  | connect (name : String) (config : Config)
  /-- A command is given to a session; nothing happens if it is not open. -/
  | ask (name : String) (command : Command)

namespace Session

/-- The session as it is when a commit begins to write. -/
def atCommit (s : Session) (db : Database) : Session :=
  (Connection.refreshIfStale ⟨s, db, []⟩).2.session

end Session

/-- The resolver that comes with a command, if any, keeps the contract. -/
def Command.Honest : Command → Prop
  | fetch _ resolver => ∀ r, resolver = some r → r.Honest
  | refresh resolver => ∀ r, resolver = some r → r.Honest
  | _ => True

/-- Whether a command comes without a resolver. -/
def Command.isPlain : Command → Bool
  | fetch _ resolver => resolver.isNone
  | refresh resolver => resolver.isNone
  | _ => true

theorem Command.Honest.of_isPlain {command : Command} (h : command.isPlain = true) :
    command.Honest := by
  cases command with
  | fetch _ resolver =>
    intro r hr
    rw [isPlain, hr] at h
    cases h
  | refresh resolver =>
    intro r hr
    rw [isPlain, hr] at h
    cases h
  | _ => trivial

/-- The resolver that decides the conflicts of a command. -/
def Command.resolver (s : Session) : Command → Resolver
  | fetch _ resolver => resolver.getD s.config.policy.resolver
  | refresh resolver => resolver.getD s.config.policy.resolver
  | _ => s.config.policy.resolver

theorem Command.Honest.resolver {command : Command} (h : command.Honest) (s : Session) :
    (command.resolver s).Honest := by
  have hgetD : ∀ resolver : Option Resolver, (∀ r, resolver = some r → r.Honest) →
      (resolver.getD s.config.policy.resolver).Honest := by
    intro resolver hr
    cases resolver with
    | none => exact s.config.policy.honest_resolver
    | some r => exact hr r rfl
  cases command with
  | fetch _ resolver => exact hgetD resolver h
  | refresh resolver => exact hgetD resolver h
  | _ => exact s.config.policy.honest_resolver

def Command.isCommit : Command → Bool
  | commit _ => true
  | _ => false

/-- Whether a command takes rows in. -/
def Command.isPull : Command → Bool
  | fetch .. => true
  | refresh _ => true
  | _ => false

def Command.isReset : Command → Bool
  | reset _ => true
  | _ => false

/-- No table runs out of the `2 ^ 63` identities there are. -/
def Command.InRange (s : Session) (db : Database) (command : Command) : Prop :=
  command.isCommit = true → (s.atCommit db).HasRoom db

instance (s : Session) (db : Database) : Decidable (s.HasRoom db) :=
  inferInstanceAs (Decidable (∀ p ∈ s.pending, db.lastId p.kind + p.toAdd.length < 2 ^ 63))

instance (s : Session) (db : Database) (command : Command) : Decidable (command.InRange s db) :=
  inferInstanceAs (Decidable (_ → _))

instance : DecidableEq (Except Error Reply)
  | .ok a, .ok b => decidable_of_iff (a = b) ⟨congrArg Except.ok, Except.ok.inj⟩
  | .error a, .error b => decidable_of_iff (a = b) ⟨congrArg Except.error, Except.error.inj⟩
  | .ok _, .error _ => isFalse nofun
  | .error _, .ok _ => isFalse nofun

namespace Workspace

/-- What an event does. -/
def act (w : Workspace Database) : Event → Workspace Database
  | .connect name config => (w.connect name config).2
  | .ask name command =>
    match w.session? name with
    | none => w
    | some s => (w.perform name s command).2.2

/-- The workspace after a run. -/
def after (w : Workspace Database) (events : List Event) : Workspace Database :=
  events.foldl act w

/-- Every event of a run meets a condition in the state in which it happens. -/
def Run (P : Workspace Database → Event → Prop) : Workspace Database → List Event → Prop
  | _, [] => True
  | w, e :: events => P w e ∧ Run P (w.act e) events

/-- A run whose events all meet a condition leads from an empty database to the workspace. -/
def Reachable (P : Workspace Database → Event → Prop) (w : Workspace Database) : Prop :=
  ∃ events, Run P (new .empty) events ∧ (new .empty).after events = w

/-- An event meets a condition on the command that is given to an open session. -/
def Asks (P : Session → Database → Command → Prop) (w : Workspace Database) : Event → Prop
  | .connect _ _ => True
  | .ask name command => ∀ s, w.session? name = some s → P s w.store command

/-- No table runs out of identities. -/
def WithinRange (w : Workspace Database) (e : Event) : Prop :=
  w.Asks (fun s db command => command.InRange s db) e

/-- All resolvers keep the contract, and no table runs out of identities. -/
def Orderly (w : Workspace Database) (e : Event) : Prop :=
  w.Asks (fun s db command => command.Honest ∧ command.InRange s db) e

/-- An event meets a condition on the command, if it is given to the session `name`. -/
def Heeds (name : String) (P : Session → Database → Command → Prop) (w : Workspace Database) :
    Event → Prop
  | .connect _ _ => True
  | .ask n command => n = name → ∀ s, w.session? n = some s → P s w.store command

instance (P : Session → Database → Command → Prop) [∀ s db command, Decidable (P s db command)]
    (w : Workspace Database) : ∀ e, Decidable (w.Asks P e)
  | .connect _ _ => isTrue trivial
  | .ask name command =>
    inferInstanceAs (Decidable (∀ s ∈ w.session? name, P s w.store command))

instance (name : String) (P : Session → Database → Command → Prop)
    [∀ s db command, Decidable (P s db command)] (w : Workspace Database) :
    ∀ e, Decidable (w.Heeds name P e)
  | .connect _ _ => isTrue trivial
  | .ask n command =>
    inferInstanceAs (Decidable (n = name → ∀ s ∈ w.session? n, P s w.store command))

instance decidableRun (P : Workspace Database → Event → Prop) [∀ w e, Decidable (P w e)] :
    ∀ w events, Decidable (Run P w events)
  | _, [] => isTrue trivial
  | w, e :: events =>
    have := decidableRun P (w.act e) events
    inferInstanceAs (Decidable (P w e ∧ Run P (w.act e) events))

/-- Commands come without resolvers, and no table runs out of identities. -/
def Plain (w : Workspace Database) (e : Event) : Prop :=
  w.Asks (fun s db command => command.isPlain = true ∧ command.InRange s db) e

instance : ∀ w e, Decidable (WithinRange w e) := fun w e =>
  inferInstanceAs (Decidable (w.Asks _ e))

instance : ∀ w e, Decidable (Plain w e) := fun w e =>
  inferInstanceAs (Decidable (w.Asks _ e))

variable {P : Workspace Database → Event → Prop} {w : Workspace Database} {events : List Event}

theorem Plain.orderly {e : Event} (h : Plain w e) : Orderly w e := by
  cases e with
  | connect name config => trivial
  | ask name command =>
    intro s hs
    obtain ⟨hplain, hr⟩ := h s hs
    exact ⟨.of_isPlain hplain, hr⟩

/-- What every event keeps holds after a run. -/
theorem Run.invariant {I : Workspace Database → Prop} (h : Run P w events) (hw : I w)
    (hstep : ∀ w e, I w → P w e → I (w.act e)) : I (w.after events) := by
  induction events generalizing w with
  | nil => exact hw
  | cons e events ih => exact ih h.2 (hstep w e hw h.1)

theorem Reachable.invariant {I : Workspace Database → Prop} (h : w.Reachable P)
    (hnew : I (new .empty)) (hstep : ∀ w e, I w → P w e → I (w.act e)) : I w := by
  obtain ⟨events, hrun, rfl⟩ := h
  exact hrun.invariant hnew hstep

theorem Run.mono {Q : Workspace Database → Event → Prop} (h : Run P w events)
    (hPQ : ∀ w e, P w e → Q w e) : Run Q w events := by
  induction events generalizing w with
  | nil => trivial
  | cons e events ih => exact ⟨hPQ w e h.1, ih h.2⟩

theorem run_append {first second : List Event} :
    Run P w (first ++ second) ↔ Run P w first ∧ Run P (w.after first) second := by
  induction first generalizing w with
  | nil => exact ⟨fun h => ⟨trivial, h⟩, fun h => h.2⟩
  | cons e first ih =>
    show P w e ∧ Run P (w.act e) (first ++ second) ↔ _
    rw [ih]
    exact and_assoc.symm

theorem Reachable.act (h : w.Reachable P) {e : Event} (he : P w e) : (w.act e).Reachable P := by
  obtain ⟨events, hrun, rfl⟩ := h
  exact ⟨events ++ [e], run_append.2 ⟨hrun, he, trivial⟩, List.foldl_append ..⟩

theorem Reachable.mono {Q : Workspace Database → Event → Prop} (h : w.Reachable P)
    (hPQ : ∀ w e, P w e → Q w e) : w.Reachable Q := by
  obtain ⟨events, hrun, heq⟩ := h
  exact ⟨events, hrun.mono hPQ, heq⟩

/-- A run that asks for nothing but plain commands is orderly. -/
theorem Run.reachable (h : Run Plain (new .empty) events) :
    ((new .empty).after events).Reachable Orderly :=
  ⟨events, h.mono fun _ _ h => h.orderly, rfl⟩

end Workspace

namespace Session

variable {s s' : Session} {db db' : Database}

/-- What a command can do to a session and its database. -/
inductive Step (s : Session) (db : Database) : Command → Session → Database → Prop
  | idle {command : Command} : Step s db command s db
  | add {kind : Kind} {fields : Record} {id : ItemId} {s' : Session}
      (h : s.add kind fields = .ok (id, s')) : Step s db (.add kind fields) s' db
  | update {r : ItemRef} {changes : Record} {s' : Session} (h : s.update r changes = .ok s') :
      Step s db (.update r changes) s' db
  | remove {r : ItemRef} {refs : List ItemRef} {s' : Session} (h : s.remove r = .ok (refs, s')) :
      Step s db (.remove r) s' db
  | restore {r : ItemRef} {refs : List ItemRef} {s' : Session} (h : s.restore r = .ok (refs, s')) :
      Step s db (.restore r) s' db
  | fetch {kind : Kind} {resolver : Option Resolver} {s' : Session}
      (h : Pulls db (s.fetchOrder kind) s s') : Step s db (.fetch kind resolver) s' db
  | refresh {resolver : Option Resolver} {s' : Session} (h : Pulls db s.refreshOrder s s') :
      Step s db (.refresh resolver) (s'.upToDate db) db
  /-- A commit that fails after the refresh uses identities up at most. -/
  | refused {comment : String} {db' : Database} (h : db.Reserved db') :
      Step s db (.commit comment) (s.atCommit db) db'
  | commit {comment : String} {reserved : List (ItemId × DbId)} {id : CommitId} {s' : Session}
      {db₁ db' : Database} (hres : (s.atCommit db).Reserves db reserved db₁)
      (h : (s.atCommit db).Commits db reserved id s' db') : Step s db (.commit comment) s' db'
  | rollBack {s' : Session} (h : s.rollBack = .ok s') : Step s db .rollBack s' db
  | reset {kinds : List Kind} : Step s db (.reset kinds) (s.reset kinds) db

/-- Only commits change the database. -/
theorem Step.store_eq {command : Command} (h : s.Step db command s' db')
    (hcommit : command.isCommit = false) : db' = db := by
  cases h with
  | refused => cases hcommit
  | commit => cases hcommit
  | _ => rfl

/-! ### Before a commit -/

theorem Fetches.bounded {kind : Kind} (hs : s.Coherent) (hb : s.Bounded db) (hdb : db.Sound)
    (h : s.Fetches kind (db.rows kind) s') : s'.Bounded db := by
  intro r item d hitem hd
  by_cases hk : r.kind = kind
  · obtain ⟨k, id⟩ := r
    cases hk
    rcases h.row_cases hs hdb hitem hd with ⟨row, -, hrow, -⟩ | ⟨-, hold⟩
    · exact hdb.id_le hrow
    · exact hb hold hd
  · exact hb (h.item? hk hitem) hd

theorem Pulls.bounded {kinds : List Kind} (hs : s.WellFormed) (hb : s.Bounded db) (hdb : db.Sound)
    (h : Pulls db kinds s s') : s'.Bounded db := by
  induction h with
  | nil => exact hb
  | cons hfetch _ ih => exact ih hfetch.wellFormed (hfetch.bounded hs.toCoherent hb hdb)

/-- The refresh before a commit leads to the session that begins to write. -/
theorem refreshIfStale_atCommit (hs : s.WellFormed) (hdb : db.Sound) :
    ∃ passes, Connection.refreshIfStale ⟨s, db, []⟩ = (.ok (), ⟨s.atCommit db, db, passes⟩) ∧
      ((s.atCommit db = s ∧
          (s.config.refreshBeforeCommit = true → db.commits.length ≤ s.knownCommits)) ∨
        (s.knownCommits < db.commits.length ∧
          ∃ s₁, s.atCommit db = s₁.upToDate db ∧ Pulls db s.refreshOrder s s₁)) ∧
      ∀ c ∈ passes.flatten, ∃ s₁, Raises db c s.refreshOrder s s₁ := by
  obtain ⟨s', passes, hrun, hcases, new, rfl, hraises⟩ := Connection.refreshIfStale_spec hs hdb []
  have heq : s.atCommit db = s' := by
    unfold atCommit
    rw [hrun]
  rw [heq]
  exact ⟨passes, hrun, hcases, hraises⟩

theorem atCommit_cases (hs : s.WellFormed) (hdb : db.Sound) :
    (s.atCommit db = s ∧
        (s.config.refreshBeforeCommit = true → db.commits.length ≤ s.knownCommits)) ∨
      (s.knownCommits < db.commits.length ∧
        ∃ s₁, s.atCommit db = s₁.upToDate db ∧ Pulls db s.refreshOrder s s₁) := by
  obtain ⟨-, -, hcases, -⟩ := refreshIfStale_atCommit hs hdb
  exact hcases

theorem config_atCommit (hs : s.WellFormed) (hdb : db.Sound) :
    (s.atCommit db).config = s.config := by
  rcases atCommit_cases hs hdb with ⟨heq, -⟩ | ⟨-, s₁, heq, hpulls⟩
  · rw [heq]
  · rw [heq]; exact hpulls.config

/-- The session whose commit begins to write is as well formed as the one it was before. -/
theorem wellFormed_atCommit (hs : s.WellFormed) (hdb : db.Sound) : (s.atCommit db).WellFormed := by
  rcases atCommit_cases hs hdb with ⟨heq, -⟩ | ⟨-, s₁, heq, hpulls⟩
  · rw [heq]; exact hs
  · rw [heq]; exact wellFormed_upToDate (hpulls.wellFormed hs)

theorem bounded_atCommit (hs : s.WellFormed) (hb : s.Bounded db) (hdb : db.Sound) :
    (s.atCommit db).Bounded db := by
  rcases atCommit_cases hs hdb with ⟨heq, -⟩ | ⟨-, s₁, heq, hpulls⟩
  · rw [heq]; exact hb
  · rw [heq]; exact fun _ _ _ hi hd => hpulls.bounded hs hb hdb hi hd

end Session

namespace ConnectionM

/-- Naming the result of a step differently changes nothing else. -/
theorem run_map {σ α β : Type} (f : α → β) (x : ConnectionM σ α) (c : Connection σ) :
    (f <$> x) c = ((x c).1.map f, (x c).2) := by
  rw [map_eq_pure_bind, run_bind]
  rcases x c with ⟨_ | _, _⟩ <;> rfl

theorem map_eq_ok {σ α β : Type} {f : α → β} {x : ConnectionM σ α} {c c' : Connection σ} {b : β}
    (h : (f <$> x) c = (.ok b, c')) : ∃ a, x c = (.ok a, c') ∧ b = f a := by
  rw [run_map] at h
  rcases hx : x c with ⟨e | a, c₁⟩ <;> rw [hx] at h <;> cases h
  exact ⟨a, rfl, rfl⟩

/-- Edits bring no conflicts up. -/
theorem passes_edit {σ α : Type} (f : Session → Except Error (α × Session)) (c : Connection σ) :
    (edit f c).2.passes = c.passes := by
  unfold edit
  cases f c.session <;> rfl

end ConnectionM

namespace Command

open ConnectionM

variable {σ : Type} [Store σ]

theorem run_fetch (kind : Kind) (resolver : Option Resolver) (c : Connection σ) :
    (fetch kind resolver).run c =
      ((Connection.fetch ((fetch kind resolver).resolver c.session) kind c).1.map .report,
        (Connection.fetch ((fetch kind resolver).resolver c.session) kind c).2) :=
  run_map ..

theorem run_refresh (resolver : Option Resolver) (c : Connection σ) :
    (refresh resolver).run c =
      ((Connection.refresh ((refresh resolver).resolver c.session) c).1.map .report,
        (Connection.refresh ((refresh resolver).resolver c.session) c).2) :=
  run_map ..

theorem run_commit (comment : String) (c : Connection σ) :
    (commit comment).run c =
      ((Connection.commit comment c).1.map .commit, (Connection.commit comment c).2) :=
  run_map ..

variable {resolver : Option Resolver} {c c' : Connection σ} {reply : Reply}

theorem run_fetch_eq_ok {kind : Kind} (h : (fetch kind resolver).run c = (.ok reply, c')) :
    ∃ report, Connection.fetch ((fetch kind resolver).resolver c.session) kind c =
      (.ok report, c') ∧ reply = .report report := by
  rw [run_fetch, ← run_map] at h
  exact map_eq_ok h

theorem run_refresh_eq_ok (h : (refresh resolver).run c = (.ok reply, c')) :
    ∃ report, Connection.refresh ((refresh resolver).resolver c.session) c =
      (.ok report, c') ∧ reply = .report report := by
  rw [run_refresh, ← run_map] at h
  exact map_eq_ok h

end Command

namespace Connection

variable {s : Session} {db : Database}

/-- The outcomes of a commit. -/
theorem commit_cases (hs : s.WellFormed) (hb : s.Bounded db) (hdb : db.Sound)
    (hroom : (s.atCommit db).HasRoom db) (comment : String) :
    (Text.isBlank comment = true ∧ commit comment ⟨s, db, []⟩ = (.error .blankComment, ⟨s, db, []⟩)) ∨
    (∃ e db' passes, commit comment ⟨s, db, []⟩ = (.error e, ⟨s.atCommit db, db', passes⟩) ∧
      db.Reserved db' ∧ (e = .nothingToCommit ∨
        (s.atCommit db).sharedKeyFault? (s.atCommit db).pending = some e ∨
        ∃ reserved, (s.atCommit db).Reserves db reserved db' ∧
          (s.atCommit db).BatchRefused reserved db' e)) ∨
    ∃ id s' db' passes db₁ reserved, commit comment ⟨s, db, []⟩ = (.ok id, ⟨s', db', passes⟩) ∧
      (s.atCommit db).Reserves db reserved db₁ ∧ (s.atCommit db).Commits db reserved id s' db' := by
  obtain ⟨passes, hrun, -⟩ := Session.refreshIfStale_atCommit hs hdb
  have hcommit := commit_eq hrun comment
  cases hblank : Text.isBlank comment with
  | true =>
    rw [hblank, if_pos rfl] at hcommit
    exact .inl ⟨rfl, hcommit⟩
  | false =>
    rw [hblank, if_neg Bool.false_ne_true] at hcommit
    rw [hcommit]
    right
    refine (writePending_cases (c := ⟨s.atCommit db, db, passes⟩)
      (Session.wellFormed_atCommit hs hdb) (Session.bounded_atCommit hs hb hdb) hdb hroom
      comment).imp ?_ ?_
    · rintro ⟨e, db', hw, hres, hreason⟩
      exact ⟨e, db', passes, hw, hres, hreason⟩
    · rintro ⟨id, s', db', db₁, reserved, hw, hres, hc, -⟩
      exact ⟨id, s', db', passes, db₁, reserved, hw, hres, hc⟩

/-- A commit that succeeds is one that `Session.Commits` describes, and what its batch did to the
database. -/
theorem commit_eq_ok (hs : s.WellFormed) (hb : s.Bounded db) (hdb : db.Sound)
    (hroom : (s.atCommit db).HasRoom db) {comment : String} {id : CommitId}
    (h : (commit comment ⟨s, db, []⟩).1 = .ok id) :
    ∃ s' db' passes db₁ reserved batch,
      commit comment ⟨s, db, []⟩ = (.ok id, ⟨s', db', passes⟩) ∧
      (s.atCommit db).Reserves db reserved db₁ ∧ (s.atCommit db).Commits db reserved id s' db' ∧
      (s.atCommit db).batch (s.atCommit db).pending reserved = .ok batch ∧
      db₁.apply ⟨comment, s.config.user⟩ batch = (.ok id, db') := by
  obtain ⟨passes, hrun, -⟩ := Session.refreshIfStale_atCommit hs hdb
  rw [commit_eq hrun comment] at h ⊢
  split at h
  next => cases h
  next hblank =>
    rw [if_neg hblank]
    rcases writePending_cases (c := ⟨s.atCommit db, db, passes⟩)
        (Session.wellFormed_atCommit hs hdb) (Session.bounded_atCommit hs hb hdb) hdb hroom comment
      with ⟨e, db', hw, -⟩ | ⟨id', s', db', db₁, reserved, hw, hres, hc, batch, hbatch, happly⟩
    · rw [hw] at h
      cases h
    · rw [hw] at h
      cases h
      have hconfig := Session.config_atCommit hs hdb
      rw [← hconfig]
      exact ⟨s', db', passes, db₁, reserved, batch, hw, hres, hc, hbatch, happly⟩

/-- The conflicts of a commit are those of the refresh before it. -/
theorem passes_commit (hs : s.WellFormed) (hb : s.Bounded db) (hdb : db.Sound)
    (hroom : (s.atCommit db).HasRoom db) (comment : String) :
    (commit comment ⟨s, db, []⟩).2.passes =
      if Text.isBlank comment then [] else (refreshIfStale ⟨s, db, []⟩).2.passes := by
  obtain ⟨passes, hrun, -⟩ := Session.refreshIfStale_atCommit hs hdb
  rw [commit_eq hrun comment, hrun]
  split
  next => rfl
  next =>
    rcases writePending_cases (c := ⟨s.atCommit db, db, passes⟩)
        (Session.wellFormed_atCommit hs hdb) (Session.bounded_atCommit hs hb hdb) hdb hroom comment
      with ⟨e, db', hw, -⟩ | ⟨id, s', db', db₁, reserved, hw, -⟩
    · rw [hw]
    · rw [hw]

end Connection

namespace Session

open ConnectionM

variable {s : Session} {db : Database}

/-- The session and the database after a command. -/
def outcome (s : Session) (db : Database) (command : Command) : Session × Database :=
  let c := (command.run ⟨s, db, []⟩).2
  (c.session, c.store)

/-- An edit that is accepted is a step if its result is; one that is refused changes nothing. -/
theorem Step.of_edit {α : Type} {f : Session → Except Error (α × Session)} {command : Command}
    (h : ∀ {a s'}, f s = .ok (a, s') → Step s db command s' db) :
    Step s db command (ConnectionM.edit f ⟨s, db, []⟩).2.session
      (ConnectionM.edit f ⟨s, db, []⟩).2.store := by
  unfold ConnectionM.edit
  dsimp only
  cases hf : f s with
  | error e => exact .idle
  | ok p => exact h hf

theorem eq_ok_of_done {x : Except Error Session} {reply : Reply} {s' : Session}
    (h : x.map (Reply.done, ·) = .ok (reply, s')) : x = .ok s' := by
  cases x with
  | error e => cases h
  | ok s'' =>
    cases h
    rfl

/-- A command does one of the things that are listed. -/
theorem step_run (hs : s.WellFormed) (hb : s.Bounded db) (hdb : db.Sound) {command : Command}
    (hh : command.Honest) (hr : command.InRange s db) :
    Step s db command (s.outcome db command).1 (s.outcome db command).2 := by
  unfold outcome
  cases command with
  | add kind fields =>
    unfold Command.run
    dsimp only
    rw [run_map]
    exact .of_edit .add
  | update r changes => exact .of_edit fun h => .update (eq_ok_of_done h)
  | remove r =>
    unfold Command.run
    dsimp only
    rw [run_map]
    exact .of_edit .remove
  | restore r =>
    unfold Command.run
    dsimp only
    rw [run_map]
    exact .of_edit .restore
  | fetch kind resolver =>
    obtain ⟨report, s', passes', hfetch, hpulls, -⟩ :=
      Connection.fetch_spec hs hdb (hh.resolver s) [] kind
    rw [Command.run_fetch, hfetch]
    exact .fetch hpulls
  | refresh resolver =>
    obtain ⟨report, s', passes', hrefresh, hpulls, -⟩ :=
      Connection.refresh_spec hs hdb (hh.resolver s) []
    rw [Command.run_refresh, hrefresh]
    exact .refresh hpulls
  | commit comment =>
    unfold Command.run
    dsimp only
    rw [run_map]
    rcases Connection.commit_cases hs hb hdb (hr rfl) comment with
      ⟨-, hc⟩ | ⟨e, db', passes, hc, hres, -⟩ | ⟨id, s', db', passes, db₁, reserved, hc, hres, h⟩
    · rw [hc]; exact .idle
    · rw [hc]; exact .refused hres
    · rw [hc]; exact .commit hres h
  | rollBack => exact .of_edit fun h => .rollBack (eq_ok_of_done h)
  | reset kinds =>
    unfold Command.run
    exact .reset
  | hasExternalCommits =>
    unfold Command.run
    dsimp only
    rw [run_map]
    exact .idle

end Session

namespace Workspace

variable {w : Workspace Database} {name : String}

theorem store_connect (w : Workspace Database) (name : String) (config : Config) :
    (w.act (.connect name config)).store = w.store := rfl

theorem session?_connect (w : Workspace Database) (name : String) (config : Config) (n : String) :
    (w.act (.connect name config)).session? n =
      if n = name then some (.new config w.store.commits.length) else w.session? n :=
  SortedMap.get?_insert ..

theorem session?_perform {σ : Type} [Store σ] (w : Workspace σ) (name : String) (s : Session)
    (command : Command) (n : String) :
    (w.perform name s command).2.2.session? n =
      if n = name then some (command.run ⟨s, w.store, []⟩).2.session else w.session? n :=
  SortedMap.get?_insert ..

theorem act_ask_some {s : Session} (h : w.session? name = some s) (command : Command) :
    w.act (.ask name command) = (w.perform name s command).2.2 := by
  unfold act
  dsimp only
  rw [h]

theorem act_ask {s : Session} (h : w.session? name = some s) (command : Command) :
    (w.act (.ask name command)).store = (s.outcome w.store command).2 ∧
      ∀ n, (w.act (.ask name command)).session? n =
        if n = name then some (s.outcome w.store command).1 else w.session? n := by
  rw [act_ask_some h]
  exact ⟨rfl, w.session?_perform name s command⟩

/-- What a command does to the workspace is what it does to the connection. -/
theorem act_of_run {s s' : Session} {db : Database} {command : Command} {result : Except Error Reply}
    {passes : List (List Conflict)} (h : w.session? name = some s)
    (hrun : command.run ⟨s, w.store, []⟩ = (result, ⟨s', db, passes⟩)) :
    (w.perform name s command).1 = result ∧ (w.perform name s command).2.1 = passes ∧
      (w.act (.ask name command)).store = db ∧
      (w.act (.ask name command)).session? name = some s' := by
  obtain ⟨hstore, hsession⟩ := act_ask h command
  have hsession := (hsession name).trans (if_pos rfl)
  unfold Session.outcome at hstore hsession
  rw [hrun] at hstore hsession
  unfold perform
  rw [hrun]
  exact ⟨rfl, rfl, hstore, hsession⟩

theorem act_ask_none (h : w.session? name = none) (command : Command) :
    w.act (.ask name command) = w := by
  unfold act
  dsimp only
  rw [h]

/-- What a session is told about its commit. -/
theorem reply_commit {s : Session} {comment : String} :
    (w.perform name s (.commit comment)).1 =
      (Connection.commit comment ⟨s, w.store, []⟩).1.map Reply.commit := by
  have hrun : (w.perform name s (.commit comment)).1 =
      ((Command.run (.commit comment) : ConnectionM Database Reply) ⟨s, w.store, []⟩).1 := rfl
  rw [hrun]
  unfold Command.run
  dsimp only
  rw [ConnectionM.run_map]

theorem outcome_commit {s : Session} {db : Database} {comment : String} :
    s.outcome db (.commit comment) = ((Connection.commit comment ⟨s, db, []⟩).2.session,
      (Connection.commit comment ⟨s, db, []⟩).2.store) := by
  unfold Session.outcome Command.run
  dsimp only
  rw [ConnectionM.run_map]

/-- A commit that the workspace lets succeed, and what it leaves behind. -/
theorem commits_of_ok {s : Session} {comment : String} {reply : Reply}
    (hs : w.session? name = some s) (hwf : s.WellFormed) (hb : s.Bounded w.store)
    (hdb : w.store.Sound) (hroom : (s.atCommit w.store).HasRoom w.store)
    (hok : (w.perform name s (.commit comment)).1 = .ok reply) :
    ∃ id s' db₁ reserved batch, reply = .commit id ∧
      (w.act (.ask name (.commit comment))).session? name = some s' ∧
      (s.atCommit w.store).Reserves w.store reserved db₁ ∧
      (s.atCommit w.store).Commits w.store reserved id s'
        (w.act (.ask name (.commit comment))).store ∧
      (s.atCommit w.store).batch (s.atCommit w.store).pending reserved = .ok batch ∧
      db₁.apply ⟨comment, s.config.user⟩ batch =
        (.ok id, (w.act (.ask name (.commit comment))).store) := by
  obtain ⟨id, hdone, rfl⟩ : ∃ id, (Connection.commit comment ⟨s, w.store, []⟩).1 = .ok id ∧
      reply = .commit id := by
    rw [reply_commit] at hok
    cases hcommit : (Connection.commit comment ⟨s, w.store, []⟩).1 with
    | error e => rw [hcommit] at hok; cases hok
    | ok id => rw [hcommit] at hok; exact ⟨id, rfl, (Except.ok.inj hok).symm⟩
  obtain ⟨s', db', passes, db₁, reserved, batch, hrun, hres, hc, hbatch, happly⟩ :=
    Connection.commit_eq_ok hwf hb hdb hroom hdone
  obtain ⟨hstore, hsession⟩ := act_ask hs (.commit comment)
  rw [outcome_commit, hrun] at hstore hsession
  rw [hstore]
  exact ⟨id, s', db₁, reserved, batch, rfl, (hsession name).trans (if_pos rfl), hres, hc, hbatch,
    happly⟩

theorem reply_rollBack {s : Session} :
    (w.perform name s .rollBack).1 = s.rollBack.map fun _ => Reply.done := by
  have h : (w.perform name s .rollBack).1 =
      (ConnectionM.edit (fun s => s.rollBack.map (Reply.done, ·)) ⟨s, w.store, []⟩).1 := rfl
  rw [h]
  unfold ConnectionM.edit
  dsimp only
  cases s.rollBack <;> rfl

theorem outcome_rollBack_eq (s : Session) (db : Database) :
    s.outcome db .rollBack = (match s.rollBack with | .ok s' => s' | .error _ => s, db) := by
  have hrun : s.outcome db .rollBack =
      ((ConnectionM.edit (fun s => s.rollBack.map (Reply.done, ·)) ⟨s, db, []⟩).2.session,
        (ConnectionM.edit (fun s => s.rollBack.map (Reply.done, ·)) ⟨s, db, []⟩).2.store) := rfl
  rw [hrun]
  unfold ConnectionM.edit
  dsimp only
  cases s.rollBack <;> rfl

theorem outcome_rollBack {s s' : Session} {db : Database} (h : s.rollBack = .ok s') :
    s.outcome db .rollBack = (s', db) := by
  rw [outcome_rollBack_eq, h]

/-- The database meets a condition, and every session meets one together with the database. -/
structure All (D : Database → Prop) (J : Session → Database → Prop) (w : Workspace Database) :
    Prop where
  store : D w.store
  session : ∀ ⦃n s⦄, w.session? n = some s → J s w.store

/-- What an event keeps, session by session. -/
theorem All.act {D : Database → Prop} {J : Session → Database → Prop} (h : w.All D J) {e : Event}
    (hconnect : ∀ name config, e = .connect name config → J (.new config w.store.commits.length) w.store)
    (hask : ∀ name command s, e = .ask name command → w.session? name = some s →
      D (s.outcome w.store command).2 ∧
        J (s.outcome w.store command).1 (s.outcome w.store command).2 ∧
        ∀ t, J t w.store → J t (s.outcome w.store command).2) :
    (w.act e).All D J := by
  cases e with
  | connect name config =>
    refine ⟨h.store, fun n s hn => ?_⟩
    rw [session?_connect] at hn
    split at hn
    next => exact Option.some.inj hn ▸ hconnect name config rfl
    next => exact h.session hn
  | ask name command =>
    cases hs : w.session? name with
    | none => rw [act_ask_none hs command]; exact h
    | some s =>
      obtain ⟨hstore, hsession⟩ := act_ask hs command
      obtain ⟨hD, hJ, hothers⟩ := hask name command s rfl hs
      refine ⟨by rw [hstore]; exact hD, fun n t hn => ?_⟩
      rw [hstore]
      rw [hsession] at hn
      split at hn
      next => exact Option.some.inj hn ▸ hJ
      next => exact hothers t (h.session hn)

end Workspace

end StagedEdits
