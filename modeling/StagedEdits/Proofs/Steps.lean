import StagedEdits.Proofs.Run

/-!
# Steps of a connection

What every part of a step does to a connection, the step does, as long as it can be put together from
its parts (`ConnectionM.Chains`).

* `Leads.bind`, `Leads.mapM`: steps one after the other.
* `Connection.leads_fetch`, `leads_refresh`, `leads_refreshIfStale`, `leads_reserveAll`: the steps that
  a session takes with its store.
* `Connection.refreshIfStale_split`, `Connection.writePending_split`: what a commit does before it
  writes, and how its writing can end.
* `Store.Respects`, `Store.Guards`: a relation between the states of a store that no call can break, or
  only a batch that the store takes.
* `Command.respects_run`: what no call on a store breaks, no command breaks.
-/

namespace StagedEdits

variable {σ α β : Type} {P : Connection σ → Connection σ → Prop}

namespace ConnectionM

/-- A relation between connections that parts of a step can be put together along. -/
structure Chains (P : Connection σ → Connection σ → Prop) : Prop where
  refl : ∀ c, P c c
  trans : ∀ {a b c}, P a b → P b c → P a c

/-- Whether it succeeds or not, a step leaves the connection related to what it was. -/
def Leads (P : Connection σ → Connection σ → Prop) (x : ConnectionM σ α) : Prop := ∀ c, P c (x c).2

/-- A step whose first part succeeds goes on with the second one. -/
theorem run_bind_cases (x : ConnectionM σ α) (f : α → ConnectionM σ β) (c : Connection σ) :
    (∃ e, (x c).1 = .error e ∧ (x >>= f) c = (.error e, (x c).2)) ∨
      ∃ a, (x c).1 = .ok a ∧ (x >>= f) c = f a (x c).2 := by
  rw [run_bind]
  rcases x c with ⟨e | a, c'⟩
  · exact .inl ⟨e, rfl, rfl⟩
  · exact .inr ⟨a, rfl, rfl⟩

theorem leads_of_eq (hP : Chains P) {x : ConnectionM σ α} (h : ∀ c, (x c).2 = c) : Leads P x :=
  fun c => by
    rw [h]
    exact hP.refl c

theorem Leads.bind (hP : Chains P) {x : ConnectionM σ α} {f : α → ConnectionM σ β} (hx : Leads P x)
    (hf : ∀ a, Leads P (f a)) : Leads P (x >>= f) := by
  intro c
  rcases run_bind_cases x f c with ⟨e, -, hrun⟩ | ⟨a, -, hrun⟩
  · rw [hrun]; exact hx c
  · rw [hrun]; exact hP.trans (hx c) (hf a (x c).2)

theorem Leads.mapM (hP : Chains P) {l : List α} {f : α → ConnectionM σ β}
    (h : ∀ a, Leads P (f a)) : Leads P (l.mapM f) := by
  induction l with
  | nil => exact leads_of_eq hP fun _ => rfl
  | cons a l ih =>
    rw [List.mapM_cons]
    exact (h a).bind hP fun _ => ih.bind hP fun _ => leads_of_eq hP fun _ => rfl

theorem Leads.map {x : ConnectionM σ α} (h : Leads P x) (f : α → β) : Leads P (f <$> x) := by
  intro c
  rw [run_map]
  exact h c

end ConnectionM

namespace Connection

open ConnectionM

variable [Store σ] {resolver : Resolver}

theorem leads_fetch (hP : Chains P)
    (htable : ∀ kind, Leads P (fetchTable resolver kind : ConnectionM σ FetchReport)) (kind : Kind) :
    Leads P (fetch resolver kind : ConnectionM σ FetchReport) :=
  (leads_of_eq hP fun _ => rfl).bind hP fun _ =>
    (Leads.mapM hP htable).bind hP fun _ => leads_of_eq hP fun _ => rfl

theorem leads_hasExternalCommits (hP : Chains P)
    (hcount : Leads P (call Store.commitCount : ConnectionM σ Nat)) :
    Leads P (hasExternalCommits : ConnectionM σ Bool) :=
  hcount.bind hP fun _ => (leads_of_eq hP fun _ => rfl).bind hP fun _ => leads_of_eq hP fun _ => rfl

/-- A refresh counts the commits, fetches tables, and has the session note that it knows of commits. -/
theorem refresh_split (hcount : Leads P (call Store.commitCount : ConnectionM σ Nat))
    (resolver : Resolver) (c : Connection σ) :
    P c (refresh resolver c).2 ∨ ∃ c' m n, P c c' ∧
      m = (c'.session.refreshOrder.mapM (fetchTable resolver) c').2 ∧
      (refresh resolver c).2 = { m with session := { m.session with knownCommits := n } } := by
  have hfirst := hcount c
  rcases hcall : (Store.commitCount : StoreM σ Nat) c.store with ⟨e | count, store⟩
  all_goals
    have hsecond : (call Store.commitCount c).2 = { c with store := store } := by
      unfold call
      rw [hcall]
    rw [hsecond] at hfirst
  · rw [refresh_of_error hcall]
    exact .inl hfirst
  · rw [refresh_of_count hcall]
    rcases hrun : c.session.refreshOrder.mapM (fetchTable resolver) { c with store := store } with
      ⟨e | reports, m⟩
    · exact .inr ⟨_, m, m.session.knownCommits, hfirst, by rw [hrun], rfl⟩
    · exact .inr ⟨_, m, _, hfirst, by rw [hrun], rfl⟩

theorem leads_refresh (hP : Chains P)
    (hcount : Leads P (call Store.commitCount : ConnectionM σ Nat))
    (htable : ∀ kind, Leads P (fetchTable resolver kind : ConnectionM σ FetchReport))
    (hknown : ∀ (c : Connection σ) n, P c { c with session := { c.session with knownCommits := n } }) :
    Leads P (refresh resolver : ConnectionM σ FetchReport) := by
  intro c
  rcases refresh_split hcount resolver c with h | ⟨c', m, n, h, rfl, heq⟩
  · exact h
  · rw [heq]
    exact hP.trans (hP.trans h (Leads.mapM hP htable c')) (hknown _ n)

/-- The connection in which a commit refreshes the session first; there is none if it does not. -/
def refreshPoint? (c : Connection σ) : Option (Connection σ) :=
  if c.session.config.refreshBeforeCommit then
    match hasExternalCommits c with
    | (.ok true, c') => some c'
    | _ => none
  else none

/-- Before it writes, a commit looks for commits of others, and then it may refresh the session. -/
theorem refreshIfStale_split (hP : Chains P)
    (hcount : Leads P (call Store.commitCount : ConnectionM σ Nat)) (c : Connection σ) :
    (refreshPoint? c = none ∧ P c (refreshIfStale c).2) ∨
    ∃ c', refreshPoint? c = some c' ∧ P c c' ∧
      refreshIfStale c = ((refresh c.session.config.policy.resolver c').1.map fun _ => (),
        (refresh c.session.config.policy.resolver c').2) := by
  have hstart : refreshIfStale c = (do
      if c.session.config.refreshBeforeCommit then
        if ← hasExternalCommits then
          discard <| refresh c.session.config.policy.resolver : ConnectionM σ Unit) c := rfl
  have hdiscard : ∀ c' : Connection σ, (discard <| refresh c.session.config.policy.resolver :
      ConnectionM σ Unit) c' = ((refresh c.session.config.policy.resolver c').1.map fun _ => (),
        (refresh c.session.config.policy.resolver c').2) := run_map _ _
  rw [hstart]
  unfold refreshPoint?
  cases c.session.config.refreshBeforeCommit with
  | false => exact .inl ⟨rfl, hP.refl c⟩
  | true =>
    have hstale := leads_hasExternalCommits hP hcount c
    rw [if_pos rfl, if_pos rfl, run_bind]
    rcases hrun : hasExternalCommits c with ⟨e | stale, c'⟩ <;> rw [hrun] at hstale
    · exact .inl ⟨rfl, hstale⟩
    · cases stale with
      | false => exact .inl ⟨rfl, hstale⟩
      | true => exact .inr ⟨c', rfl, hstale, hdiscard c'⟩

theorem leads_refreshIfStale (hP : Chains P)
    (hcount : Leads P (call Store.commitCount : ConnectionM σ Nat))
    (hrefresh : ∀ resolver, Leads P (refresh resolver : ConnectionM σ FetchReport)) :
    Leads P (refreshIfStale : ConnectionM σ Unit) := by
  intro c
  rcases refreshIfStale_split hP hcount c with ⟨-, h⟩ | ⟨c', -, h, heq⟩
  · exact h
  · rw [heq]
    exact hP.trans h (hrefresh _ c')

theorem leads_reserveAll (hP : Chains P)
    (hreserve : ∀ kind count, Leads P (call (Store.reserve kind count) : ConnectionM σ (List DbId)))
    (pending : List Pending) :
    Leads P (reserveAll pending : ConnectionM σ (List (ItemId × DbId))) :=
  (Leads.mapM hP fun _ => (hreserve _ _).bind hP fun _ => leads_of_eq hP fun _ => rfl).bind hP
    fun _ => leads_of_eq hP fun _ => rfl

/-- Up to the call that hands the batch over, writing only reserves identities.  The store refuses the
batch, or it takes the batch and the session notes that. -/
theorem writePending_split (hP : Chains P)
    (hreserve : ∀ kind count, Leads P (call (Store.reserve kind count) : ConnectionM σ (List DbId)))
    (comment : String) (c : Connection σ) :
    (∃ e, (writePending comment c).1 = .error e ∧ P c (writePending comment c).2) ∨
    ∃ info batch reserved mid, P c mid ∧
      ((∃ e, ((Store.apply info batch : StoreM σ CommitId) mid.store).1 = .error e ∧
          writePending comment c = (.error e, { mid with
            store := ((Store.apply info batch : StoreM σ CommitId) mid.store).2 })) ∨
        ∃ id, ((Store.apply info batch : StoreM σ CommitId) mid.store).1 = .ok id ∧
          writePending comment c = (.ok id, { mid with
            session := c.session.committed c.session.pending reserved id
            store := ((Store.apply info batch : StoreM σ CommitId) mid.store).2 })) := by
  rw [show writePending comment c = _ from writePending_eq c.session c.store c.passes comment]
  by_cases hp : c.session.pending = []
  · rw [if_pos hp]
    exact .inl ⟨.nothingToCommit, rfl, hP.refl c⟩
  rw [if_neg hp]
  cases c.session.sharedKeyFault? c.session.pending with
  | some e => exact .inl ⟨e, rfl, hP.refl c⟩
  | none =>
    have hres := leads_reserveAll hP hreserve c.session.pending c
    dsimp only
    rw [run_bind]
    rcases hrun : reserveAll c.session.pending c with ⟨e | reserved, mid⟩ <;> rw [hrun] at hres
    · exact .inl ⟨e, rfl, hres⟩
    dsimp only
    rw [run_bind]
    cases c.session.batch c.session.pending reserved with
    | error e => exact .inl ⟨e, rfl, hres⟩
    | ok batch =>
      refine .inr ⟨⟨comment, c.session.config.user⟩, batch, reserved, mid, hres, ?_⟩
      exact run_bind_cases (call (Store.apply ⟨comment, c.session.config.user⟩ batch)) _ mid

/-- A commit that cannot refresh the session fails, and so does one with a blank comment. -/
theorem commit_eq_of_error {c c' : Connection σ} {e : Error}
    (h : refreshIfStale c = (.error e, c')) (comment : String) :
    commit comment c =
      if Text.isBlank comment then (.error .blankComment, c) else (.error e, c') := by
  unfold commit
  split
  next => rfl
  next =>
    have hrest : (do
          refreshIfStale
          writePending comment : ConnectionM σ CommitId) c = (.error e, c') := by
      rw [run_bind, h]
    exact hrest

/-- A commit looks at its comment, refreshes the session if it has to, and writes. -/
theorem leads_commit (hP : Chains P) (hstale : Leads P (refreshIfStale : ConnectionM σ Unit))
    {comment : String} (hwrite : Leads P (writePending comment : ConnectionM σ CommitId)) :
    Leads P (commit comment : ConnectionM σ CommitId) := by
  intro c
  have hfirst := hstale c
  rcases hrun : refreshIfStale c with ⟨e | _, c'⟩ <;> rw [hrun] at hfirst
  · rw [commit_eq_of_error hrun]
    split
    · exact hP.refl c
    · exact hfirst
  · rw [commit_eq hrun]
    split
    · exact hP.refl c
    · exact hP.trans hfirst (hwrite c')

end Connection

/-! ### The store behind a connection -/

/-- A relation between the states of a store that no call breaks. -/
structure Store.Respects {σ : Type} [Store σ] (R : σ → σ → Prop) : Prop where
  refl : ∀ a, R a a
  trans : ∀ {a b c}, R a b → R b c → R a c
  fetch : ∀ kind a, R a ((Store.fetch kind : StoreM σ (List Record)) a).2
  reserve : ∀ kind count a, R a ((Store.reserve kind count : StoreM σ (List DbId)) a).2
  apply : ∀ info batch a, R a ((Store.apply info batch : StoreM σ CommitId) a).2
  commitCount : ∀ a, R a ((Store.commitCount : StoreM σ Nat) a).2

/-- Nothing at all may be known about a store. -/
theorem Store.respects_true {σ : Type} [Store σ] : Store.Respects fun _ _ : σ => True :=
  ⟨fun _ => trivial, fun _ _ => trivial, fun _ _ => trivial, fun _ _ _ => trivial,
    fun _ _ _ => trivial, fun _ => trivial⟩

/-- A relation between the states of a store that only a batch it takes can break. -/
structure Store.Guards {σ : Type} [Store σ] (R : σ → σ → Prop) : Prop where
  refl : ∀ a, R a a
  trans : ∀ {a b c}, R a b → R b c → R a c
  fetch : ∀ kind a, R a ((Store.fetch kind : StoreM σ (List Record)) a).2
  reserve : ∀ kind count a, R a ((Store.reserve kind count : StoreM σ (List DbId)) a).2
  commitCount : ∀ a, R a ((Store.commitCount : StoreM σ Nat) a).2
  refused : ∀ {info batch a e}, ((Store.apply info batch : StoreM σ CommitId) a).1 = .error e →
    R a ((Store.apply info batch : StoreM σ CommitId) a).2

theorem Store.Respects.guards {σ : Type} [Store σ] {R : σ → σ → Prop} (hR : Store.Respects R) :
    Store.Guards R :=
  { hR with refused := fun _ => hR.apply _ _ _ }

section

variable [Store σ] {R : σ → σ → Prop}

open ConnectionM

theorem Store.Guards.chains (hR : Store.Guards R) :
    Chains fun c c' : Connection σ => R c.store c'.store :=
  ⟨fun _ => hR.refl _, hR.trans⟩

namespace Connection

/-- A refresh only reads from the store. -/
theorem guarded_refresh (hR : Store.Guards R) (resolver : Resolver) :
    Leads (fun c c' : Connection σ => R c.store c'.store) (refresh resolver) :=
  leads_refresh hR.chains (fun c => hR.commitCount c.store)
    (fun kind => Leads.bind hR.chains (fun c => hR.fetch kind c.store) fun _ c => hR.refl c.store)
    (fun c _ => hR.refl c.store)

/-- The refresh before a commit only reads from the store. -/
theorem guarded_refreshIfStale (hR : Store.Guards R) :
    Leads (fun c c' : Connection σ => R c.store c'.store) refreshIfStale :=
  leads_refreshIfStale hR.chains (fun c => hR.commitCount c.store) (guarded_refresh hR)

end Connection

/-- No command breaks what no call on the store breaks. -/
theorem Command.respects_run (hR : Store.Respects R) (command : Command) (c : Connection σ) :
    R c.store (command.run c).2.store := by
  have hP := hR.guards.chains
  have hedit : ∀ {α : Type} (f : Session → Except Error (α × Session)),
      Leads (fun c c' : Connection σ => R c.store c'.store) (edit f) := by
    intro α f c
    unfold edit
    cases f c.session <;> exact hR.refl _
  have hwrite : ∀ comment, Leads (fun c c' : Connection σ => R c.store c'.store)
      (Connection.writePending comment) := by
    intro comment c
    rcases Connection.writePending_split hP (fun kind count c => hR.reserve kind count c.store)
      comment c with ⟨-, -, hc⟩ | ⟨info, batch, reserved, mid, hmid, ⟨e, -, hrun⟩ | ⟨id, -, hrun⟩⟩
    · exact hc
    · rw [hrun]
      exact hP.trans hmid (hR.apply info batch mid.store)
    · rw [hrun]
      exact hP.trans hmid (hR.apply info batch mid.store)
  have hleads : Leads (fun c c' : Connection σ => R c.store c'.store) command.run := by
    cases command with
    | add | remove | restore => exact (hedit _).map _
    | update | rollBack | reset => exact hedit _
    | fetch kind resolver =>
      exact (leads_of_eq hP fun _ => rfl).bind hP fun s => (Connection.leads_fetch hP (fun kind =>
        Leads.bind hP (fun c => hR.fetch kind c.store) fun _ c => hR.refl c.store) kind).map _
    | refresh resolver =>
      exact (leads_of_eq hP fun _ => rfl).bind hP fun s =>
        (Connection.guarded_refresh hR.guards _).map _
    | commit comment =>
      exact (Connection.leads_commit hP (Connection.guarded_refreshIfStale hR.guards)
        (hwrite comment)).map _
    | hasExternalCommits =>
      exact (Connection.leads_hasExternalCommits hP fun c => hR.commitCount c.store).map _
  exact hleads c

end

/-- A database keeps its rows filed under the identities that they carry. -/
theorem Database.respects_filed : Store.Respects fun db db' : Database => db.Filed → db'.Filed where
  refl _ h := h
  trans h h' hdb := h' (h hdb)
  fetch _ _ h := h
  reserve _ _ _ h := h
  apply info batch _ h := h.apply info batch
  commitCount _ h := h

end StagedEdits
