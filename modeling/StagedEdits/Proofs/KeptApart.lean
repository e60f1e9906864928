import StagedEdits.Proofs.Coverage

/-!
# Sessions whose live items never share a key

A fetch, a restoration or the end of an edit can make two live items share a key.  If after no command of
a run they do, then all key indices of the session are exact (`Workspace.KeptApart.keysExact`), whatever
the fetches of the run have gone through, as long as the rows of a table have distinct identities
(`Store.Keyed`).

* `Command.covers_run`: after a command on exact indices no key is without a holder.
-/

namespace StagedEdits

/-- In the good states of a store, fetched rows have distinct identities; no call leads out of them. -/
structure Store.Keyed {σ : Type} [Store σ] (Good : σ → Prop) : Prop where
  respects : Store.Respects fun a b : σ => Good a → Good b
  nodup : ∀ {kind a rows}, Good a → ((Store.fetch kind : StoreM σ (List Record)) a).1 = .ok rows →
    (rows.filterMap Record.dbId?).Nodup

/-- The rows of a database have distinct identities, as long as each is filed under its own. -/
theorem Database.keyed : Store.Keyed Database.Filed where
  respects := respects_filed
  nodup {kind _ _} hdb hrows := Except.ok.inj hrows ▸ hdb.nodup_rows kind

section Commands

open ConnectionM

variable {σ : Type} [Store σ] {Good : σ → Prop} {c : Connection σ} {kind : Kind} {kinds : List Kind}

/-- The session is lawful and the store is in a good state. -/
structure Connection.Fit (Good : σ → Prop) (c : Connection σ) : Prop where
  lawful : c.session.Lawful Item.Tidy
  good : Good c.store

namespace Connection

variable (hstore : Store.Keyed Good)

include hstore

theorem Fit.fetchTable (hc : c.Fit Good) (resolver : Resolver) (kind : Kind) :
    (fetchTable resolver kind c).2.Fit Good :=
  ⟨leads_pull Item.law_tidy resolver kind c hc.lawful,
    (proceeds_fetchTable hstore.respects resolver kind c hc.lawful.housed).store hc.good⟩

theorem covers_fetchTable (hc : c.Fit Good) (h : c.session.CoversFrom kind.rank) (resolver : Resolver) :
    (fetchTable resolver kind c).2.session.CoversFrom (kind.rank + 1) := by
  unfold Connection.fetchTable
  rcases run_bind_cases (call (Store.fetch kind)) (absorb resolver kind) c with
    ⟨e, -, hrun⟩ | ⟨rows, hrows, hrun⟩
  · rw [hrun]
    exact fun k => (h k).mono fun _ => Nat.le_of_succ_le
  · rw [hrun]
    exact h.reconcile hc.lawful (hstore.nodup hc.good hrows) (resolver c.passes)

/-- Tables are fetched in the order of their kinds, so the index of each is exact when its turn comes. -/
theorem covers_mapM (hc : c.Fit Good) (hsorted : kinds.Pairwise fun a b => a.rank < b.rank) {n : Nat}
    (hn : ∀ k ∈ kinds, n ≤ k.rank) (h : c.session.CoversFrom n) (resolver : Resolver) :
    (kinds.mapM (Connection.fetchTable resolver) c).2.session.Covers := by
  induction kinds generalizing c n with
  | nil => exact h.covers
  | cons kind kinds ih =>
    obtain ⟨hfirst, hsorted⟩ := List.pairwise_cons.1 hsorted
    have hfrom : c.session.CoversFrom kind.rank := fun k =>
      (h k).mono fun _ => Nat.le_trans (hn kind (List.mem_cons_self ..))
    have hkind := covers_fetchTable hstore hc hfrom resolver
    rw [List.mapM_cons]
    rcases run_bind_cases (Connection.fetchTable resolver kind) _ c with ⟨e, -, hrun⟩ | ⟨report, -, hrun⟩
    · rw [hrun]
      exact hkind.covers
    · rw [hrun]
      have hrest := ih (hc.fetchTable hstore resolver kind) hsorted hfirst hkind
      rcases run_bind_cases (kinds.mapM (Connection.fetchTable resolver)) (fun reports =>
        pure (report :: reports)) (Connection.fetchTable resolver kind c).2 with
        ⟨e, -, hrun'⟩ | ⟨reports, -, hrun'⟩ <;> rw [hrun'] <;> exact hrest

theorem covers_fetch (hc : c.Fit Good) (h : c.session.KeysExact) (resolver : Resolver) (kind : Kind) :
    (fetch resolver kind c).2.session.Covers := by
  have hall := covers_mapM hstore hc (c.session.pairwise_rank_fetchOrder kind) (fun _ _ => Nat.zero_le _)
    (h.coversFrom 0) resolver
  rw [fetch_eq]
  rcases hrun : (c.session.fetchOrder kind).mapM (Connection.fetchTable resolver) c with ⟨_ | _, c'⟩ <;>
    rw [hrun] at hall <;> exact hall

/-- Calls leave the session alone, and the store in good states. -/
def Waits (Good : σ → Prop) (c c' : Connection σ) : Prop :=
  c'.session = c.session ∧ (Good c.store → Good c'.store)

omit [Store σ] hstore in
theorem chains_waits : Chains (Waits Good) :=
  ⟨fun _ => ⟨rfl, id⟩, fun h h' => ⟨h'.1.trans h.1, h'.2 ∘ h.2⟩⟩

omit [Store σ] hstore in
theorem Waits.fit {c' : Connection σ} (h : Waits Good c c') (hc : c.Fit Good) : c'.Fit Good :=
  ⟨h.1 ▸ hc.lawful, h.2 hc.good⟩

theorem leads_count : Leads (Waits Good) (call Store.commitCount : ConnectionM σ Nat) :=
  fun c => ⟨rfl, hstore.respects.commitCount c.store⟩

theorem covers_refresh (hc : c.Fit Good) (h : c.session.KeysExact) (resolver : Resolver) :
    (refresh resolver c).2.session.Covers := by
  rcases refresh_split (leads_count hstore) resolver c with
    hwait | ⟨c', m, n, hwait, rfl, heq⟩
  · rw [hwait.1]
    exact h.covers
  · rw [heq]
    exact covers_mapM hstore (hwait.fit hc) c'.session.pairwise_rank_refreshOrder
      (fun _ _ => Nat.zero_le _) ((hwait.1 ▸ h : c'.session.KeysExact).coversFrom 0) resolver

theorem covers_refreshIfStale (hc : c.Fit Good) (h : c.session.KeysExact) :
    (refreshIfStale c).2.session.Covers := by
  rcases refreshIfStale_split chains_waits (leads_count hstore) c with
    ⟨-, hwait⟩ | ⟨c', -, hwait, heq⟩
  · rw [hwait.1]
    exact h.covers
  · rw [heq]
    exact covers_refresh hstore (hwait.fit hc) (hwait.1 ▸ h) _

theorem covers_writePending (hc : c.Fit Good) (h : c.session.Covers) (comment : String) :
    (writePending comment c).2.session.Covers := by
  rcases writePending_split chains_waits
      (fun kind count c => ⟨rfl, hstore.respects.reserve kind count c.store⟩) comment c with
    ⟨-, -, hwait⟩ | ⟨info, batch, reserved, mid, hwait, ⟨e, -, hrun⟩ | ⟨id, -, hrun⟩⟩
  · rwa [hwait.1]
  · rw [hrun]
    exact hwait.1 ▸ h
  · rw [hrun]
    exact h.committed hc.lawful.housed c.session.pending reserved id

theorem Fit.refreshIfStale (hc : c.Fit Good) : (refreshIfStale c).2.Fit Good := by
  exact ⟨leads_refreshIfStale chains_keepsLaw (leads_call _) (leads_renewal Item.law_tidy) c hc.lawful,
    guarded_refreshIfStale hstore.respects.guards c hc.good⟩

theorem covers_commit (hc : c.Fit Good) (h : c.session.KeysExact) (comment : String) :
    (commit comment c).2.session.Covers := by
  have hstale := covers_refreshIfStale hstore hc h
  have hfit := hc.refreshIfStale hstore
  rcases hrun : Connection.refreshIfStale c with ⟨e | _, c'⟩ <;> rw [hrun] at hstale hfit
  · rw [commit_eq_of_error hrun]
    split
    · exact h.covers
    · exact hstale
  · rw [commit_eq hrun]
    split
    · exact h.covers
    · exact covers_writePending hstore hfit hstale comment

end Connection

/-- A command on exact indices leaves no key without a holder. -/
theorem Command.covers_run (hstore : Store.Keyed Good) (command : Command) (hc : c.Fit Good)
    (h : c.session.KeysExact) : (command.run c).2.session.Covers := by
  have hedit : ∀ {α : Type} {f : Session → Except Error (α × Session)},
      (∀ {a s'}, f c.session = .ok (a, s') → s'.Covers) → (edit f c).2.session.Covers := by
    intro α f hf
    unfold edit
    cases hok : f c.session with
    | error e => exact h.covers
    | ok x => exact hf hok
  have hmap : ∀ {α : Type} (f : α → Reply) {x : ConnectionM σ α}, (x c).2.session.Covers →
      ((f <$> x) c).2.session.Covers := by
    intro α f x hx
    rwa [run_map]
  have hs := hc.lawful
  cases command with
  | add kind fields => exact hmap _ (hedit fun hok => (h.add hs hok).covers)
  | update r changes => exact hedit fun hok => (h.update hs (Session.eq_ok_of_done hok)).covers
  | remove r => exact hmap _ (hedit fun hok => (h.remove hs hok).covers)
  | restore r => exact hmap _ (hedit fun hok => h.covers.restore hs.housed hok)
  | fetch kind resolver =>
    exact hmap .report (Connection.covers_fetch hstore hc h
      (resolver.getD c.session.config.policy.resolver) kind)
  | refresh resolver =>
    exact hmap .report (Connection.covers_refresh hstore hc h
      (resolver.getD c.session.config.policy.resolver))
  | commit comment => exact hmap .commit (Connection.covers_commit hstore hc h comment)
  | rollBack => exact hedit fun hok => h.covers_rollBack (Session.eq_ok_of_done hok)
  | reset kinds =>
    refine hedit fun hok => ?_
    cases hok
    exact (h.reset kinds).covers
  | hasExternalCommits =>
    have hwait := Connection.leads_hasExternalCommits Connection.chains_waits
      (Connection.leads_count hstore) c
    exact hmap .flag (hwait.1 ▸ h : (Connection.hasExternalCommits c).2.session.KeysExact).covers

end Commands

namespace Workspace

variable {σ : Type} [Store σ] {Good : σ → Prop} {name : String} {w : Workspace σ} {s : Session}

/-- A run on a good store, of any number of sessions.  After each of its commands no two live items of
session `name` share a key. -/
inductive KeptApart (Good : σ → Prop) (name : String) : Workspace σ → Prop
  | new {store : σ} (hgood : Good store) : KeptApart Good name (new store)
  | connect {w : Workspace σ} (h : KeptApart Good name w) (name' : String) (config : Config) :
      KeptApart Good name (w.connect name' config).2
  | perform {w : Workspace σ} (h : KeptApart Good name w) {name' : String} {s : Session}
      (hs : w.session? name' = some s) (command : Command)
      (hapart : ∀ s', (w.perform name' s command).2.2.session? name = some s' → s'.KeysApart) :
      KeptApart Good name (w.perform name' s command).2.2
  | meanwhile {w : Workspace σ} (h : KeptApart Good name w) {store : σ} (hgood : Good store) :
      KeptApart Good name { w with store := store }

theorem KeptApart.attained (h : w.KeptApart Good name) : w.Attained := by
  induction h with
  | new => exact .new _
  | connect _ name' config ih => exact ih.connect name' config
  | perform _ hs command _ ih => exact ih.perform hs command
  | meanwhile _ _ ih => exact ih.meanwhile _

theorem KeptApart.good (hstore : Store.Keyed Good) (h : w.KeptApart Good name) : Good w.store := by
  induction h with
  | new hgood => exact hgood
  | @connect w _ name' config ih =>
    have hcount := hstore.respects.commitCount w.store ih
    unfold Workspace.connect
    split
    next heq => rwa [heq] at hcount
    next heq => rwa [heq] at hcount
  | perform _ _ command _ ih => exact Command.respects_run hstore.respects command _ ih
  | meanwhile _ hgood => exact hgood

/-- If live items never shared a key, the key indices are exact. -/
theorem KeptApart.keysExact (hstore : Store.Keyed Good) (h : w.KeptApart Good name)
    (hs : w.session? name = some s) : s.KeysExact := by
  induction h generalizing s with
  | new => cases hs
  | @connect w h name' config ih =>
    rcases session_of_connect hs with hs | ⟨count, rfl⟩
    · exact ih hs
    · exact fun kind => Table.keysExact_empty kind
  | @perform w h name' s' hs' command hapart ih =>
    have hlawful := (h.perform hs' command hapart).attained.lawful Item.law_tidy hs
    have hkeys := hapart s hs
    rw [session?_perform] at hs
    split at hs
    next hname =>
      have hfit : (⟨s', w.store, []⟩ : Connection σ).Fit Good :=
        ⟨h.attained.lawful Item.law_tidy hs', h.good hstore⟩
      have hcovers := command.covers_run hstore hfit (ih (hname ▸ hs'))
      rw [Option.some.inj hs] at hcovers
      exact hcovers.exact hlawful hkeys
    next => exact ih hs
  | meanwhile _ _ ih => exact ih hs

/-- Whether a run keeps live items apart can be checked event by event. -/
theorem KeptApart.after {Good : Database → Prop} {w : Workspace Database} {events : List Event}
    (h : w.KeptApart Good name)
    (hrun : Run (fun w e => ∀ s ∈ (w.act e).session? name, s.KeysApart) w events) :
    (w.after events).KeptApart Good name := by
  induction events generalizing w with
  | nil => exact h
  | cons e events ih =>
    refine ih (w := w.act e) ?_ hrun.2
    cases e with
    | connect name' config => exact h.connect name' config
    | ask name' command =>
      cases hs : w.session? name' with
      | none => rwa [act_ask_none hs]
      | some s =>
        have hact := act_ask_some hs command
        have hapart : ∀ s ∈ (w.act (.ask name' command)).session? name, s.KeysApart := hrun.1
        rw [hact] at hapart ⊢
        exact h.perform hs command hapart

end Workspace

end StagedEdits
