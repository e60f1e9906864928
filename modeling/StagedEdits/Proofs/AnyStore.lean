import StagedEdits.Proofs.Steps
import StagedEdits.Proofs.Upkeep

/-!
# Connections to any store

What a command does to a session and its store, when nothing is known about the store but a relation
that no call on it breaks (`Store.Respects`).

* `Connection.refresh_cases`, `Connection.refreshIfStale_cases`, `Connection.writePending_ends`:
  the ways in which a refresh and a commit can end.
* `Command.housed_run`: whatever the store shows and the resolver answers, the items of the session
  stay where they belong.
-/

namespace StagedEdits

variable {σ α β : Type} {R : σ → σ → Prop}

/-- `c'` can come after `c` in a command, as long as the session learns of no commit. -/
structure Connection.Follows (R : σ → σ → Prop) (c c' : Connection σ) : Prop where
  session : c.session.Follows c'.session
  store : R c.store c'.store

namespace ConnectionM

/-- A step that learns of no commit. -/
def Proceeds (R : σ → σ → Prop) (x : ConnectionM σ α) : Prop :=
  ∀ c : Connection σ, c.session.Housed → c.Follows R (x c).2

variable [Store σ]

/-- Steps that learn of no commit can be put together. -/
theorem chains_follows (hR : Store.Respects R) :
    Chains fun c c' : Connection σ => c.session.Housed → c.Follows R c' where
  refl _ hc := ⟨.refl hc, hR.refl _⟩
  trans h h' hc :=
    have hfirst := h hc
    have hrest := h' hfirst.session.housed
    ⟨hfirst.session.trans hrest.session, hR.trans hfirst.store hrest.store⟩

omit [Store σ] in
theorem proceeds_call {x : StoreM σ α} (h : ∀ a, R a (x a).2) : Proceeds R (call x) :=
  fun c hc => ⟨.refl hc, h c.store⟩

omit [Store σ] in
theorem Proceeds.map {x : ConnectionM σ α} (h : Proceeds R x) (f : α → β) : Proceeds R (f <$> x) :=
  Leads.map (P := fun c c' => c.session.Housed → c.Follows R c') h f

/-- An edit proceeds if it does so where it is accepted. -/
theorem proceeds_edit (hR : Store.Respects R) {f : Session → Except Error (α × Session)}
    (h : ∀ {s a s'}, s.Housed → f s = .ok (a, s') → s.Follows s') :
    Proceeds R (edit f : ConnectionM σ α) := by
  intro c hc
  unfold edit
  cases hf : f c.session with
  | error e => exact ⟨.refl hc, hR.refl _⟩
  | ok p => exact ⟨h hc hf, hR.refl _⟩

end ConnectionM

namespace Connection

open ConnectionM

variable [Store σ]

theorem proceeds_fetchTable (hR : Store.Respects R) (resolver : Resolver) (kind : Kind) :
    Proceeds R (fetchTable resolver kind : ConnectionM σ FetchReport) :=
  Leads.bind (chains_follows hR) (proceeds_call (hR.fetch kind)) fun rows c hc =>
    ⟨hc.follows_reconcile kind rows (resolver c.passes), hR.refl _⟩

/-- A refresh fails, or the session knows afterwards of the commits that there were when it began. -/
theorem refresh_cases (hR : Store.Respects R) (resolver : Resolver) {c : Connection σ}
    (hc : c.session.Housed) :
    (∃ e, (refresh resolver c).1 = .error e ∧ c.Follows R (refresh resolver c).2) ∨
    ∃ report count mid, ((Store.commitCount : StoreM σ Nat) c.store).1 = .ok count ∧
      c.Follows R mid ∧ refresh resolver c = (.ok report, { mid with
        session := { mid.session with
          knownCommits := max mid.session.knownCommits count } }) := by
  have hfirst := hR.commitCount c.store
  rcases hcount : (Store.commitCount : StoreM σ Nat) c.store with ⟨e | count, store⟩ <;>
    rw [hcount] at hfirst
  · rw [refresh_of_error hcount]
    exact .inl ⟨e, rfl, .refl hc, hfirst⟩
  have htables := Leads.mapM (chains_follows hR) (l := c.session.refreshOrder)
    (proceeds_fetchTable hR resolver) { c with store := store } hc
  have hmid : c.Follows R (c.session.refreshOrder.mapM (fetchTable resolver)
      { c with store := store }).2 := ⟨htables.session, hR.trans hfirst htables.store⟩
  rw [refresh_of_count hcount]
  rcases hrun : c.session.refreshOrder.mapM (fetchTable resolver) { c with store := store } with
    ⟨e | reports, c₁⟩ <;> rw [hrun] at hmid
  · exact .inl ⟨e, rfl, hmid⟩
  · exact .inr ⟨.total reports, count, c₁, rfl, hmid, rfl⟩

/-- Before it writes, a commit does nothing to the session, or it refreshes it. -/
theorem refreshIfStale_cases (hR : Store.Respects R) {c : Connection σ} (hc : c.session.Housed) :
    (refreshPoint? c = none ∧ c.Follows R (refreshIfStale c).2) ∨
    ∃ c', refreshPoint? c = some c' ∧ c.Follows R c' ∧
      refreshIfStale c = ((refresh c.session.config.policy.resolver c').1.map fun _ => (),
        (refresh c.session.config.policy.resolver c').2) := by
  rcases refreshIfStale_split (chains_follows hR) (proceeds_call hR.commitCount) c with
    ⟨hpoint, h⟩ | ⟨c', hpoint, h, hrun⟩
  · exact .inl ⟨hpoint, h hc⟩
  · exact .inr ⟨c', hpoint, h hc, hrun⟩

/-- Writing fails, or the store takes the batch and the session notes that. -/
theorem writePending_ends (hR : Store.Respects R) (comment : String) {c : Connection σ}
    (hc : c.session.Housed) :
    (∃ e, (writePending comment c).1 = .error e ∧ c.Follows R (writePending comment c).2) ∨
    ∃ id info batch pending reserved mid, c.Follows R mid ∧
      ((Store.apply info batch : StoreM σ CommitId) mid.store).1 = .ok id ∧
      (writePending comment c).1 = .ok id ∧
      (writePending comment c).2.session = c.session.committed pending reserved id ∧
      (writePending comment c).2.store =
        ((Store.apply info batch : StoreM σ CommitId) mid.store).2 := by
  rcases writePending_split (chains_follows hR)
      (fun kind count => proceeds_call (hR.reserve kind count)) comment c with
    ⟨e, he, h⟩ | ⟨info, batch, reserved, mid, h, ⟨e, -, hrun⟩ | ⟨id, hid, hrun⟩⟩
  · exact .inl ⟨e, he, h hc⟩
  · rw [hrun]
    exact .inl ⟨e, rfl, (h hc).session, hR.trans (h hc).store (hR.apply info batch mid.store)⟩
  · rw [hrun]
    exact .inr ⟨id, info, batch, _, reserved, mid, h hc, hid, rfl, rfl, rfl⟩

end Connection

namespace Command

open ConnectionM

variable [Store σ]

/-- The replies that a command can give. -/
def Replies : Command → Reply → Prop
  | add .., .item _ | remove _, .items _ | restore _, .items _ => True
  | update .., .done | rollBack, .done | reset _, .done => True
  | fetch .., .report _ | refresh _, .report _ => True
  | commit _, .commit _ => True
  | hasExternalCommits, .flag _ => True
  | _, _ => False

/-- A command that succeeds gives a reply of its own. -/
theorem replies_of_run {command : Command} {c c' : Connection σ} {reply : Reply}
    (h : command.run c = (.ok reply, c')) : command.Replies reply := by
  have hdone : ∀ {f : Session → Except Error Session},
      (edit fun s => (f s).map (Reply.done, ·) : ConnectionM σ Reply) c = (.ok reply, c') →
        reply = .done := by
    intro f h
    unfold edit at h
    dsimp only at h
    cases hf : f c.session with
    | error e => rw [hf] at h; cases h
    | ok s => rw [hf] at h; cases h; rfl
  cases command with
  | add kind fields => obtain ⟨id, -, rfl⟩ := map_eq_ok h; trivial
  | update r changes => obtain rfl := hdone (f := fun s => s.update r changes) h; trivial
  | remove r => obtain ⟨refs, -, rfl⟩ := map_eq_ok h; trivial
  | restore r => obtain ⟨refs, -, rfl⟩ := map_eq_ok h; trivial
  | fetch kind resolver => obtain ⟨report, -, rfl⟩ := run_fetch_eq_ok h; trivial
  | refresh resolver => obtain ⟨report, -, rfl⟩ := run_refresh_eq_ok h; trivial
  | commit comment => obtain ⟨id, -, rfl⟩ := map_eq_ok h; trivial
  | rollBack => obtain rfl := hdone h; trivial
  | reset kinds => cases h; trivial
  | hasExternalCommits => obtain ⟨b, -, rfl⟩ := map_eq_ok h; trivial

/-- A command other than a refresh or a commit learns of no commit. -/
theorem proceeds_run (hR : Store.Respects R) (command : Command) (hcommit : command.isCommit = false)
    (hrefresh : ∀ resolver, command ≠ .refresh resolver) :
    Proceeds R (command.run : ConnectionM σ Reply) := by
  have hP := chains_follows (σ := σ) hR
  cases command with
  | add kind fields => exact (proceeds_edit hR fun hs h => hs.follows_add h).map _
  | update r changes =>
    exact proceeds_edit hR fun hs h => hs.follows_update (Session.eq_ok_of_done h)
  | remove r => exact (proceeds_edit hR fun hs h => hs.follows_remove h).map _
  | restore r => exact (proceeds_edit hR fun hs h => hs.follows_restore h).map _
  | fetch kind resolver =>
    exact (leads_of_eq hP fun _ => rfl).bind hP fun s =>
      (Connection.leads_fetch hP (Connection.proceeds_fetchTable hR _) kind).map _
  | refresh resolver => exact absurd rfl (hrefresh resolver)
  | commit comment => cases hcommit
  | rollBack => exact proceeds_edit hR fun hs h => hs.follows_rollBack (Session.eq_ok_of_done h)
  | reset kinds =>
    refine proceeds_edit hR fun hs h => ?_
    cases h
    exact hs.follows_reset kinds
  | hasExternalCommits =>
    exact (Connection.leads_hasExternalCommits hP (proceeds_call hR.commitCount)).map _

end Command

namespace Connection

open ConnectionM

variable [Store σ]

theorem housed_refresh (resolver : Resolver) {c : Connection σ} (hc : c.session.Housed) :
    (refresh resolver c).2.session.Housed := by
  rcases refresh_cases Store.respects_true resolver hc with
    ⟨-, -, h⟩ | ⟨report, count, mid, -, h, hrun⟩
  · exact h.session.housed
  · rw [hrun]
    exact h.session.housed.of_subset (Nat.le_refl _) fun _ b hb => ⟨b, hb, rfl⟩

theorem housed_commit (comment : String) {c : Connection σ} (hc : c.session.Housed) :
    (commit comment c).2.session.Housed := by
  have hstale : (refreshIfStale c).2.session.Housed := by
    rcases refreshIfStale_cases Store.respects_true hc with ⟨-, h⟩ | ⟨c', -, h, hrun⟩
    · exact h.session.housed
    · rw [hrun]
      exact housed_refresh _ h.session.housed
  rcases hrun : refreshIfStale c with ⟨e | _, c'⟩ <;> rw [hrun] at hstale
  · rw [commit_eq_of_error hrun]
    split
    · exact hc
    · exact hstale
  · rw [commit_eq hrun]
    split
    · exact hc
    · rcases writePending_ends Store.respects_true comment hstale with
        ⟨-, -, h⟩ | ⟨id, -, -, pending, reserved, -, -, -, -, hsession, -⟩
      · exact h.session.housed
      · rw [hsession]
        exact hstale.committed pending reserved id

end Connection

/-- Whatever the store shows and the resolver answers, items stay where they belong. -/
theorem Command.housed_run [Store σ] (command : Command) {c : Connection σ}
    (hc : c.session.Housed) : (command.run c).2.session.Housed := by
  have hproceeds := fun hcommit hrefresh =>
    (proceeds_run (σ := σ) Store.respects_true command hcommit hrefresh c hc).session.housed
  cases command with
  | refresh resolver =>
    rw [run_refresh]
    exact Connection.housed_refresh _ hc
  | commit comment =>
    rw [run_commit]
    exact Connection.housed_commit comment hc
  | _ => exact hproceeds rfl (fun _ => nofun)

end StagedEdits
