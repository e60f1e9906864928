import StagedEdits.Proofs.Steps
import StagedEdits.Store.Database
import StagedEdits.Store.Faulty

/-!
# Commits that fail

A commit can fail at any call that it makes on the store, and at its own checks in between.  Wherever
it fails, the store has the rows and commits that it had, and the session is as its refresh has left
it, or as it was before if no refresh was run.

* `Connection.commit_of_error`: a commit that fails, over any store.
* `Workspace.unchanged_of_commit_error`: a commit that fails over a database, any call of which can
  fail.
-/

namespace StagedEdits

/-! ### Over any store -/

section AnyStore

variable {σ : Type} [Store σ] {R : σ → σ → Prop}

open ConnectionM

omit [Store σ] in
/-- Steps that keep the session can be put together. -/
theorem chains_session : Chains fun c c' : Connection σ => c'.session = c.session :=
  ⟨fun _ => rfl, fun h h' => h'.trans h⟩

namespace Connection

variable {comment : String} {c : Connection σ} {e : Error}

/-- Writing that fails leaves the session alone. -/
theorem writePending_of_error (hR : Store.Guards R) (h : (writePending comment c).1 = .error e) :
    R c.store (writePending comment c).2.store ∧
      (writePending comment c).2.session = c.session := by
  have hP : Chains fun c c' : Connection σ => R c.store c'.store ∧ c'.session = c.session :=
    ⟨fun c => ⟨hR.refl _, rfl⟩, fun h h' => ⟨hR.trans h.1 h'.1, h'.2.trans h.2⟩⟩
  rcases writePending_split hP (fun kind count c => ⟨hR.reserve kind count c.store, rfl⟩) comment c with
    ⟨-, -, hc⟩ | ⟨info, batch, reserved, mid, hmid, ⟨e', happly, hrun⟩ | ⟨id, -, hrun⟩⟩
  · exact hc
  · rw [hrun]
    exact ⟨hR.trans hmid.1 (hR.refused happly), hmid.2⟩
  · rw [hrun] at h
    cases h

/-- A commit that fails takes nothing to the store, and the session is as it was when it began to
write; a commit with a blank comment does not even refresh it. -/
theorem commit_of_error (hR : Store.Guards R) (h : (commit comment c).1 = .error e) :
    R c.store (commit comment c).2.store ∧ (commit comment c).2.session =
      if Text.isBlank comment then c.session else (refreshIfStale c).2.session := by
  have hstale := guarded_refreshIfStale hR c
  rcases hrun : refreshIfStale c with ⟨e' | _, c'⟩ <;> rw [hrun] at hstale
  · rw [commit_eq_of_error hrun]
    cases Text.isBlank comment
    · exact ⟨hstale, rfl⟩
    · exact ⟨hR.refl _, rfl⟩
  · rw [commit_eq hrun] at h ⊢
    cases hblank : Text.isBlank comment
    · rw [hblank, if_neg Bool.false_ne_true] at h
      have hwrite := writePending_of_error hR h
      exact ⟨hR.trans hstale hwrite.1, hwrite.2⟩
    · exact ⟨hR.refl _, rfl⟩

/-- A commit that runs no refresh goes on to write with the session as it is. -/
theorem session_refreshIfStale (h : refreshPoint? c = none) :
    (refreshIfStale c).2.session = c.session := by
  rcases refreshIfStale_split chains_session (fun _ => rfl) c with ⟨-, hsame⟩ | ⟨c', hpoint, -⟩
  · exact hsame
  · rw [h] at hpoint
    cases hpoint

end Connection

end AnyStore

/-! ### Over a database whose calls can fail -/

/-- The same rows and the same commits. -/
def Database.SameContents (db db' : Database) : Prop :=
  db'.tables = db.tables ∧ db'.commits = db.commits

/-- Only a batch that it takes changes the rows and the commits of a database. -/
theorem Database.guards : Store.Guards Database.SameContents where
  refl _ := ⟨rfl, rfl⟩
  trans h h' := ⟨h'.1.trans h.1, h'.2.trans h.2⟩
  fetch _ _ := ⟨rfl, rfl⟩
  reserve _ _ _ := ⟨rfl, rfl⟩
  commitCount _ := ⟨rfl, rfl⟩
  refused {info batch db e} h := by
    change SameContents db (db.apply info batch).2
    rw [Database.apply_of_error h]
    exact ⟨rfl, rfl⟩

theorem StoreM.run_bind {σ α β : Type} (x : StoreM σ α) (f : α → StoreM σ β) (a : σ) :
    (x >>= f) a = match x a with
      | (.ok b, a) => f b a
      | (.error e, a) => (.error e, a) := by
  have h : (x >>= f) a = ExceptT.bindCont f (x a).1 (x a).2 := rfl
  rw [h]
  rcases x a with ⟨_ | _, _⟩ <;> rfl

namespace Faulty

variable {σ : Type}

theorem inner_guard (call : StoreCall) (f : Faulty σ) : (guard call f).2.inner = f.inner := by
  unfold guard
  split
  · rfl
  · split
    · split <;> rfl
    · rfl

theorem inner_shorten (ids : List DbId) (f : Faulty σ) : (shorten ids f).2.inner = f.inner := by
  unfold shorten
  split <;> rfl

variable [Store σ] {R : σ → σ → Prop}

/-- Behind the check whether it is refused, a call does what it does to the wrapped store. -/
theorem guarded_guard {α : Type} (hR : Store.Guards R) {call : StoreCall}
    {x : Unit → StoreM (Faulty σ) α} (hx : ∀ f, R f.inner (x () f).2.inner) (f : Faulty σ) :
    R f.inner ((guard call >>= x) f).2.inner := by
  have hguard := inner_guard call f
  rw [StoreM.run_bind]
  rcases hrun : guard call f with ⟨e | _, f'⟩ <;> rw [hrun] at hguard
  · rw [show f'.inner = f.inner from hguard]
    exact hR.refl _
  · rw [← show f'.inner = f.inner from hguard]
    exact hx f'

/-- Faults add nothing to what a call does to the wrapped store. -/
theorem guards (hR : Store.Guards R) : Store.Guards fun f f' : Faulty σ => R f.inner f'.inner where
  refl _ := hR.refl _
  trans := hR.trans
  fetch kind := guarded_guard hR fun f => by
    rw [StoreM.run_bind, show (get : StoreM (Faulty σ) (Faulty σ)) f = (.ok f, f) from rfl]
    dsimp only
    cases f.overrides.get? kind with
    | some rows => exact hR.refl _
    | none => exact hR.fetch kind f.inner
  reserve kind count := guarded_guard hR fun f => by
    have hcall : R f.inner (forward (Store.reserve kind count) f).2.inner :=
      hR.reserve kind count f.inner
    rw [StoreM.run_bind]
    rcases hrun : forward (Store.reserve kind count) f with ⟨e | ids, f'⟩ <;> rw [hrun] at hcall
    · exact hcall
    · have hids := inner_shorten ids f'
      exact hids ▸ hcall
  commitCount := guarded_guard hR fun f => hR.commitCount f.inner
  refused {info batch f e} h := by
    have hguard := inner_guard .apply f
    have hrun : (Store.apply info batch : StoreM (Faulty σ) CommitId) f =
        (guard .apply >>= fun _ => forward (Store.apply info batch)) f := rfl
    rw [hrun, StoreM.run_bind] at h ⊢
    rcases hrun : guard .apply f with ⟨e' | _, f'⟩ <;> rw [hrun] at h hguard
    · rw [show f'.inner = f.inner from hguard]
      exact hR.refl _
    · rw [← show f'.inner = f.inner from hguard]
      exact hR.refused h

end Faulty

namespace Workspace

open Connection

theorem perform_commit {σ : Type} [Store σ] (w : Workspace σ) (name : String) (s : Session)
    (comment : String) :
    w.perform name s (.commit comment) =
      match commit comment ⟨s, w.store, []⟩ with
      | (result, c) => (result.map .commit, c.passes, ⟨c.store, w.sessions.insert name c.session⟩) := by
  unfold perform
  rw [Command.run_commit]
  rfl

/-- A commit that fails, wherever it does so, changes neither rows nor commits, and no session but the
one that commits.  That one is as its refresh has left it, even one that broke off; if none was run,
it is as it was. -/
theorem unchanged_of_commit_error {w w' : Workspace (Faulty Database)} {name : String} {s : Session}
    {comment : String} {e : Error} {passes : List (List Conflict)}
    (h : w.perform name s (.commit comment) = (.error e, passes, w')) :
    w'.store.inner.tables = w.store.inner.tables ∧ w'.store.inner.commits = w.store.inner.commits ∧
      (∀ n, n ≠ name → w'.session? n = w.session? n) ∧
      ∃ s', w'.session? name = some s' ∧
        s' = (if Text.isBlank comment then s else (refreshIfStale ⟨s, w.store, []⟩).2.session) ∧
        (refreshPoint? ⟨s, w.store, []⟩ = none → s' = s) := by
  rw [perform_commit] at h
  rcases hrun : commit comment ⟨s, w.store, []⟩ with ⟨e' | id, c'⟩ <;> rw [hrun] at h <;> cases h
  obtain ⟨⟨htables, hcommits⟩, hsession⟩ :=
    commit_of_error (Faulty.guards Database.guards) (congrArg Prod.fst hrun)
  rw [hrun] at htables hcommits hsession
  refine ⟨htables, hcommits, fun n hn => ?_, c'.session, ?_, hsession, fun hnone => ?_⟩
  · exact (SortedMap.get?_insert ..).trans (if_neg hn)
  · exact (SortedMap.get?_insert ..).trans (if_pos rfl)
  · rw [hsession, session_refreshIfStale hnone]
    exact ite_self _

/-- The database of a workspace is about to refuse a call. -/
def armed (w : Workspace Database) (call : StoreCall) : Workspace (Faulty Database) :=
  ⟨{ inner := w.store, armed := some (call, 0) }, w.sessions⟩

/-- Both sessions add an alternative, and the second one commits. -/
def twoWriters : List Event :=
  [.connect "a" {}, .ask "a" (.fetch .alternative none),
    .ask "a" (.add .alternative (.ofList [("name", .text "low")])), .connect "b" {},
    .ask "b" (.add .alternative (.ofList [("name", .text "base")])), .ask "b" (.commit "base")]

set_option maxRecDepth 4000 in
/-- The first session refreshes and is then refused the batch: the row of the other one has become an
item, and its own addition is still pending. -/
theorem unchanged_of_commit_error_of_twoWriters :
    ∃ (w w' : Workspace (Faulty Database)) (s s' : Session) (passes : List (List Conflict)),
      w = ((new .empty).after twoWriters).armed .apply ∧ w.session? "a" = some s ∧
      w.perform "a" s (.commit "low") = (.error (.storeFailed (.injected .apply)), passes, w') ∧
      w'.store.inner.tables = w.store.inner.tables ∧
      w'.store.inner.commits = w.store.inner.commits ∧ w'.session? "a" = some s' ∧
      s' = (refreshIfStale ⟨s, w.store, []⟩).2.session ∧
      (s.live .alternative).map (·.status) = [.toAdd] ∧
      (s'.live .alternative).map (·.status) = [.toAdd, .committed] := by
  have hcheck : ((((new .empty).after twoWriters).armed .apply).session? "a").any (fun s =>
      let w := ((new .empty).after twoWriters).armed .apply
      decide ((w.perform "a" s (.commit "low")).1 = .error (.storeFailed (.injected .apply))) &&
        decide ((s.live .alternative).map (·.status) = [.toAdd]) &&
        decide ((((refreshIfStale ⟨s, w.store, []⟩).2.session).live .alternative).map (·.status) =
          [.toAdd, .committed])) = true := by
    decide +kernel
  obtain ⟨s, hs, hcheck⟩ := (Option.any_eq_true ..).1 hcheck
  simp only [Bool.and_eq_true, decide_eq_true_eq] at hcheck
  obtain ⟨⟨hreply, hbefore⟩, hafter⟩ := hcheck
  rcases hrun : (((new .empty).after twoWriters).armed .apply).perform "a" s (.commit "low") with
    ⟨reply, passes, w'⟩
  rw [hrun] at hreply
  obtain rfl : reply = _ := hreply
  obtain ⟨htables, hcommits, -, s', hs', hsame, -⟩ := unchanged_of_commit_error hrun
  have hblank : Text.isBlank "low" = false := by decide
  rw [hblank, if_neg Bool.false_ne_true] at hsame
  exact ⟨_, w', s, s', passes, rfl, hs, hrun, htables, hcommits, hs', hsame, hbefore, hsame ▸ hafter⟩

end Workspace

end StagedEdits
