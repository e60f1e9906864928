import Mathlib.Data.Set.Function
import StagedEdits.Proofs.Attentive
import StagedEdits.Proofs.Repetition

/-!
# What another session sees

A session that works alone mirrors the database after a commit, and has nothing pending.  Another one
that fetches all tables, and before each of them those that it depends on, comes to mirror the database
too, whatever the order (`Workspace.copying_after`).  The items of two such sessions are in one-to-one
correspondence, and so are their references (`Session.Aligned.reproduces`).
-/

namespace StagedEdits

namespace Session

variable {s s' t : Session} {db : Database} {kind : Kind} {r : ItemRef} {a b : Item}

/-! ### Items for the same rows -/

/-- Item `b` of session `t` is what item `a` of session `s` is, if `f` leads from items of `s` to items
of `t`: they have the same row, written by the same commit, and the same content, but for references,
which lead to items that correspond. -/
structure Depicts (s t : Session) (f : ItemRef → ItemRef) (kind : Kind) (a b : Item) : Prop where
  dbId : ∃ d, a.dbId = some d ∧ b.dbId = some d
  commitId : ∃ c, a.commitId = some c ∧ b.commitId = some c
  content : a.content.SameButReferences kind b.content
  references : ∀ e ∈ kind.references, ∃ i, s.isLive ⟨e.2, i⟩ = true ∧
    a.content.get? e.1 = some (.ref i) ∧ b.content.get? e.1 = some (.ref (f ⟨e.2, i⟩).id)

/-- The live items of `s` and the items of `t` are in one-to-one correspondence, kind by kind, and look
alike. -/
structure Reproduces (s t : Session) (f : ItemRef → ItemRef) : Prop where
  bijOn : Set.BijOn f {r | s.isLive r = true} {r | (t.item? r).isSome = true}
  kind_eq : ∀ r, s.isLive r = true → (f r).kind = r.kind
  depicts : ∀ ⦃r a b⦄, s.isLive r = true → s.item? r = some a → t.item? (f r) = some b →
    s.Depicts t f r.kind a b

/-- The item of session `t` that stands for the row of an item of session `s`. -/
def counterpart (s t : Session) (r : ItemRef) : ItemRef :=
  (((s.item? r).bind (·.dbId)).bind (t.itemOfRow? r.kind)).elim r fun id => ⟨r.kind, id⟩

theorem counterpart_eq {d : DbId} {id : ItemId} (ha : s.item? r = some a) (hd : a.dbId = some d)
    (hid : t.itemOfRow? r.kind d = some id) : s.counterpart t r = ⟨r.kind, id⟩ := by
  rw [counterpart, ha, Option.bind_some, hd, Option.bind_some, hid]
  rfl

theorem Clean.isLive_iff (hc : s.Clean) : s.isLive r = true ↔ ∃ a, s.item? r = some a := by
  rw [Session.isLive_iff]
  constructor
  · exact fun ⟨a, ha, _⟩ => ⟨a, ha⟩
  · rintro ⟨a, ha⟩
    exact ⟨a, ha, by rw [Item.removed, hc ha]; rfl⟩

/-- What a committed item has of its row. -/
theorem Aligned.row_of_item (h : s.Aligned db) (hc : s.Clean) (hdb : db.Sound)
    (ha : s.item? r = some a) : ∃ d c row read, a.dbId = some d ∧ a.commitId = some c ∧
      db.row? r.kind d = some row ∧ row.commitId? = some c ∧ s.localRow? r.kind row = some read ∧
      a.content = r.kind.contentOf read := by
  obtain ⟨-, d, row, read, hd, hrow, hread, hcontent⟩ := h.settled hc ha
  obtain ⟨row', read', hrow', hsync, hread'⟩ := (h.mirrors r.kind).row_of_item ha hd
  obtain rfl := Option.some.inj (hrow.symm.trans hrow')
  obtain ⟨c, hstamp, -⟩ := hdb.stamped hrow
  refine ⟨d, c, row, read, hd, ?_, hrow, hstamp, hread, hcontent⟩
  rw [(h.consistent ha).commitId_eq, hsync, Option.bind_some, ← (same_of_localRow? hread').commitId?]
  exact hstamp

/-- Every item has a counterpart in a session that mirrors the same database. -/
theorem Aligned.exists_counterpart (hs : s.Aligned db) (ht : t.Aligned db) (hsc : s.Clean)
    (hdb : db.Sound) (ha : s.item? r = some a) :
    ∃ id b, s.counterpart t r = ⟨r.kind, id⟩ ∧ t.item? ⟨r.kind, id⟩ = some b ∧ b.dbId = a.dbId := by
  obtain ⟨d, -, row, -, hd, -, hrow, -⟩ := hs.row_of_item hsc hdb ha
  obtain ⟨id, b, hb, hdb'⟩ := (ht.mirrors r.kind).item_of_row hrow
  refine ⟨id, b, counterpart_eq ha hd ?_, hb, hdb'.trans hd.symm⟩
  exact ht.itemOfRow?_eq_some_iff.2 ⟨b, hb, hdb'⟩

theorem Aligned.depicts (hs : s.Aligned db) (ht : t.Aligned db) (hsc : s.Clean) (htc : t.Clean)
    (hdb : db.Sound) (ha : s.item? r = some a) {id : ItemId} (hb : t.item? ⟨r.kind, id⟩ = some b)
    (hsame : b.dbId = a.dbId) : s.Depicts t (s.counterpart t) r.kind a b := by
  obtain ⟨d, c, row, read, hd, hcommit, hrow, hstamp, hread, hcontent⟩ := hs.row_of_item hsc hdb ha
  obtain ⟨d', c', row', read', hd', hcommit', hrow', hstamp', hread', hcontent'⟩ :=
    ht.row_of_item htc hdb hb
  obtain rfl := Option.some.inj (hd'.symm.trans (hsame.trans hd))
  obtain rfl := Option.some.inj (hrow.symm.trans hrow')
  obtain rfl := Option.some.inj (hstamp.symm.trans hstamp')
  constructor
  case dbId => exact ⟨d', hd, hd'⟩
  case commitId => exact ⟨c, hcommit, hcommit'⟩
  case content =>
    rw [hcontent, hcontent']
    exact contentOf_localRow? hread hread'
  case references =>
    intro e he
    obtain ⟨n, hn⟩ := hs.shaped.refs hrow e he
    obtain ⟨i, hi⟩ := exists_itemOfRow?_of_localRow? hread he hn
    obtain ⟨j, hj⟩ := exists_itemOfRow?_of_localRow? hread' he hn
    obtain ⟨x, hx, hxd⟩ := hs.itemOfRow?_eq_some_iff.1 hi
    have hcounterpart : s.counterpart t ⟨e.2, i⟩ = ⟨e.2, j⟩ := counterpart_eq hx hxd hj
    refine ⟨i, hsc.isLive_iff.2 ⟨x, hx⟩, ?_, ?_⟩
    · rw [hcontent]
      exact (get?_contentOf_eq_ref_iff hread he).2 ⟨n, hn, hi⟩
    · rw [hcontent', hcounterpart]
      exact (get?_contentOf_eq_ref_iff hread' he).2 ⟨n, hn, hj⟩

/-- Two sessions that mirror the same database and have nothing pending have the same items. -/
theorem Aligned.reproduces (hs : s.Aligned db) (ht : t.Aligned db) (hsc : s.Clean) (htc : t.Clean)
    (hdb : db.Sound) : s.Reproduces t (s.counterpart t) := by
  have hexists : ∀ {r}, s.isLive r = true → ∃ a id b, s.item? r = some a ∧
      s.counterpart t r = ⟨r.kind, id⟩ ∧ t.item? ⟨r.kind, id⟩ = some b ∧ b.dbId = a.dbId := by
    intro r hr
    obtain ⟨a, ha⟩ := hsc.isLive_iff.1 hr
    obtain ⟨id, b, hcounterpart, hb, hsame⟩ := hs.exists_counterpart ht hsc hdb ha
    exact ⟨a, id, b, ha, hcounterpart, hb, hsame⟩
  constructor
  case bijOn =>
    refine ⟨fun r hr => ?_, fun r hr r' hr' heq => ?_, fun r hr => ?_⟩
    · obtain ⟨-, id, b, -, hcounterpart, hb, -⟩ := hexists hr
      show (t.item? (s.counterpart t r)).isSome = true
      rw [hcounterpart, hb]
      rfl
    · obtain ⟨a, id, b, ha, hcounterpart, hb, hsame⟩ := hexists hr
      obtain ⟨a', id', b', ha', hcounterpart', hb', hsame'⟩ := hexists hr'
      rw [hcounterpart, hcounterpart', ItemRef.mk.injEq] at heq
      obtain ⟨k, i⟩ := r
      obtain ⟨k', i'⟩ := r'
      obtain ⟨hk, rfl⟩ := heq
      obtain rfl : k = k' := hk
      obtain rfl := Option.some.inj (hb.symm.trans hb')
      obtain ⟨d, -, -, -, hd, -⟩ := hs.row_of_item hsc hdb ha
      rw [hs.dbId_injective ha ha' hd (hsame'.symm.trans (hsame.trans hd))]
    · obtain ⟨b, hb⟩ := Option.isSome_iff_exists.1 hr
      obtain ⟨id, a, -, ha, hsame⟩ := ht.exists_counterpart hs htc hdb hb
      obtain ⟨d, -, -, -, hd, -⟩ := ht.row_of_item htc hdb hb
      refine ⟨⟨r.kind, id⟩, hsc.isLive_iff.2 ⟨a, ha⟩, counterpart_eq ha (hsame.trans hd) ?_⟩
      exact ht.itemOfRow?_eq_some_iff.2 ⟨b, hb, hd⟩
  case kind_eq =>
    intro r hr
    obtain ⟨-, id, -, -, hcounterpart, -⟩ := hexists hr
    rw [hcounterpart]
  case depicts =>
    intro r a b hr ha hb
    obtain ⟨a', id, b', ha', hcounterpart, hb', hsame⟩ := hexists hr
    rw [hcounterpart] at hb
    obtain rfl := Option.some.inj (ha'.symm.trans ha)
    obtain rfl := Option.some.inj (hb'.symm.trans hb)
    exact hs.depicts ht hsc htc hdb ha hb' hsame

/-! ### Fetching everything -/

/-- A session that has edited nothing and mirrors all that it has fetched. -/
structure Copying (s : Session) (db : Database) : Prop extends s.WellFormed where
  faithful : s.Faithful
  clean : s.Clean
  config : s.config.fetchReferenced = true
  closed : ∀ ⦃k⦄, k ∈ s.fetched → ∀ t ∈ k.dependencies, t ∈ s.fetched
  mirrors : ∀ k ∈ s.fetched, s.Mirrors db k

theorem copying_new {config : Config} (h : config.fetchReferenced = true) (count : Nat)
    (db : Database) : (new config count).Copying db where
  toWellFormed := wellFormed_new config count
  faithful := fun _ _ h => nomatch h
  clean := fun _ _ h => nomatch h
  config := h
  closed := fun _ hk => absurd hk List.not_mem_nil
  mirrors := fun _ hk => absurd hk List.not_mem_nil

/-- Looking at a table again changes nothing. -/
theorem Copying.markFetched (h : s.Copying db) (hk : kind ∈ s.fetched) :
    (s.markFetched kind).Copying db := by
  have hitem := item?_markFetched s kind
  have hwf : (s.markFetched kind).WellFormed :=
    h.toWellFormed.congr (table_markFetched s kind) (Nat.le_refl _)
  have hfetched : ∀ {k}, k ∈ (s.markFetched kind).fetched ↔ k ∈ s.fetched := by
    intro k
    refine List.mem_insert_iff.trans ⟨?_, .inr⟩
    rintro (rfl | hmem)
    · exact hk
    · exact hmem
  constructor
  case toWellFormed => exact hwf
  case faithful =>
    intro r a ha
    rw [hitem] at ha
    exact (h.faithful ha).succeeds ⟨Nat.le_refl _, fun r b hb _ => ⟨b, (hitem r).symm.trans hb⟩⟩
  case clean => exact fun r a ha => h.clean ((hitem r).symm.trans ha)
  case config => exact h.config
  case closed => exact fun k hmem t ht => hfetched.2 (h.closed (hfetched.1 hmem) t ht)
  case mirrors => exact fun k hmem => (h.mirrors k (hfetched.1 hmem)).congr hitem h.toWellFormed hwf

theorem Copying.pulls (h : s.Copying db) (hdb : db.Intact) (hk : kind ∉ s.fetched)
    (hp : Pulls db (s.fetchOrder kind) s s') : s'.Copying db where
  toWellFormed := hp.wellFormed h.toWellFormed
  faithful := hp.faithful h.toWellFormed h.faithful hdb.toSound hdb.shaped
  clean := hp.clean h.clean
  config := by rw [hp.config]; exact h.config
  closed := hp.closed h.config h.closed
  mirrors := hp.mirrors_fetched h.toWellFormed h.faithful hdb h.config h.closed h.mirrors hk

/-- A fetch leaves no row out. -/
theorem Copying.fetch (h : s.Copying db) (hdb : db.Intact) {resolver : Resolver}
    (hr : resolver.Honest) (passes : List (List Conflict)) (kind : Kind) :
    ∃ report s' passes',
      Connection.fetch resolver kind ⟨s, db, passes⟩ = (.ok report, ⟨s', db, passes'⟩) ∧
        report.skipped = 0 ∧ s'.Copying db ∧ ∀ k, k = kind ∨ k ∈ s.fetched → k ∈ s'.fetched := by
  by_cases hk : kind ∈ s.fetched
  · have horder := fetchOrder_eq_singleton fun _ => h.closed hk
    have hfetch := Connection.fetch_of_mirrors h.toWellFormed h.faithful hdb.toSound
      (h.mirrors kind hk) horder resolver passes
    exact ⟨{}, _, passes, hfetch, rfl, h.markFetched hk, fun _ => List.mem_insert_iff.2⟩
  · obtain ⟨report, s', passes', hfetch, hp, hleft⟩ :=
      Connection.fetch_leftOut h.toWellFormed hdb.toSound hr passes kind
    have h' := h.pulls hdb hk hp
    have hnothing : s'.leftOut db (s.fetchOrder kind) = {} := by
      refine FetchReport.total_eq fun r hr => ?_
      obtain ⟨k, hmem, rfl⟩ := List.mem_map.1 hr
      rw [(h'.mirrors k (hp.mem_fetched_iff.2 (.inl hmem))).unread_eq_zero]
    refine ⟨report, s', passes', hfetch, ?_, h', fun k hmem => hp.mem_fetched_iff.2 ?_⟩
    · exact congrArg FetchReport.skipped (hleft.symm.trans hnothing)
    · exact hmem.imp_left fun heq => (mem_fetchOrder_iff h.config).2 (.inr heq)

/-- When all tables have been fetched, the whole database is mirrored. -/
theorem Copying.aligned (h : s.Copying db) (hdb : db.Sound) (hall : ∀ k, k ∈ s.fetched) :
    s.Aligned db where
  toWellFormed := h.toWellFormed
  bounded := by
    intro r a d ha hd
    obtain ⟨row, -, hrow, -⟩ := (h.mirrors r.kind (hall r.kind)).row_of_item ha hd
    exact hdb.id_le hrow
  faithful := h.faithful
  mirrors := fun k => h.mirrors k (hall k)

theorem Alone.intact (h : s.Alone db) : db.Intact :=
  ⟨⟨h.stored, h.toAligned.shaped⟩, h.toAligned.referencesHold, h.keys⟩

end Session

namespace Workspace

variable {w : Workspace Database} {name : String} {s t : Session}

/-- An event is a command that succeeds with a report of no rows left out. -/
def SkipsNothing (w : Workspace Database) : Event → Prop
  | .connect _ _ => False
  | .ask name command => ∃ s report, w.session? name = some s ∧
      (w.perform name s command).1 = .ok (.report report) ∧ report.skipped = 0

/-- The events in which a session fetches some tables, one after the other. -/
def fetchEach (name : String) (kinds : List Kind) : List Event :=
  kinds.map fun kind => .ask name (.fetch kind none)

/-- A session that fetches some tables leaves no row out, and mirrors them in the end. -/
theorem copying_after (hs : w.session? name = some s) (h : s.Copying w.store)
    (hdb : w.store.Intact) (kinds : List Kind) :
    Run SkipsNothing w (fetchEach name kinds) ∧
      (w.after (fetchEach name kinds)).store = w.store ∧
      ∃ t, (w.after (fetchEach name kinds)).session? name = some t ∧ t.Copying w.store ∧
        ∀ k, k ∈ kinds ∨ k ∈ s.fetched → k ∈ t.fetched := by
  induction kinds generalizing w s with
  | nil =>
    refine ⟨trivial, rfl, s, hs, h, fun k hk => ?_⟩
    exact hk.resolve_left List.not_mem_nil
  | cons kind kinds ih =>
    have hhonest : (Command.fetch kind none).Honest := fun _ h => nomatch h
    obtain ⟨report, s', passes, hfetch, hskip, h', hfetched⟩ :=
      h.fetch hdb (hhonest.resolver s) [] kind
    have hrun : (Command.fetch kind none).run ⟨s, w.store, []⟩ =
        (.ok (.report report), ⟨s', w.store, passes⟩) := by
      rw [Command.run_fetch, hfetch]
      rfl
    obtain ⟨hreply, -, hstore, hsession⟩ := act_of_run hs hrun
    obtain ⟨hskips, hstore', t, ht, hcopying, hmem⟩ :=
      ih hsession (hstore.symm ▸ h') (hstore.symm ▸ hdb)
    rw [hstore] at hstore' hcopying
    refine ⟨⟨⟨s, report, hs, hreply, hskip⟩, hskips⟩, hstore', t, ht, hcopying, fun k hk => hmem k ?_⟩
    rcases hk with hk | hk
    · exact (List.mem_cons.1 hk).symm.imp_right fun heq => hfetched k (.inl heq)
    · exact .inr (hfetched k (.inr hk))

/-- A successful commit leaves a session that works alone with nothing pending. -/
theorem alone_commit {comment : String} {reply : Reply} (hs : w.session? name = some s)
    (h : s.Alone w.store) (hr : w.WithinRange (.ask name (.commit comment)))
    (hok : (w.perform name s (.commit comment)).1 = .ok reply) :
    ∃ s', (w.act (.ask name (.commit comment))).session? name = some s' ∧
      s'.Alone (w.act (.ask name (.commit comment))).store ∧ s'.Clean := by
  obtain ⟨s', hs', h'⟩ := alone_act hs h rfl hr
  obtain ⟨s'', hs'', -, hsettled⟩ := (inStep_of_alone hs h).commit hr hok
  obtain rfl := Option.some.inj (hs'.symm.trans hs'')
  exact ⟨s', hs', h', fun r a ha => (hsettled ha).1⟩

/-- What a session that works alone has committed, another one that fetches all tables finds, in
whatever order it fetches them: no row is left out, and its items correspond to those of the first
session, content and references included. -/
theorem reproduced_by_fetching {config : Config} {commands : List Command} {comment : String}
    {reply : Reply} (hreset : ∀ command ∈ commands, command.isReset = false)
    (hrange : Run WithinRange (new .empty) (.connect name config :: commands.map (.ask name)))
    (hw : w = (new .empty).after (.connect name config :: commands.map (.ask name)))
    (hs : w.session? name = some s) (hr : w.WithinRange (.ask name (.commit comment)))
    (hok : (w.perform name s (.commit comment)).1 = .ok reply) :
    ∃ s', (w.act (.ask name (.commit comment))).session? name = some s' ∧
      ∀ {w' : Workspace Database} {other : String} {config' : Config} {count : Nat}
        {kinds : List Kind}, w'.store = (w.act (.ask name (.commit comment))).store →
        w'.session? other = some (.new config' count) → config'.fetchReferenced = true →
        (∀ kind, kind ∈ kinds) →
        Run SkipsNothing w' (fetchEach other kinds) ∧
          ∃ t, (w'.after (fetchEach other kinds)).session? other = some t ∧
            ∃ f, s'.Reproduces t f := by
  have hconnect : ((new Database.empty).act (.connect name config)).session? name =
      some (.new config 0) := (session?_connect ..).trans (if_pos rfl)
  obtain ⟨s₀, hs₀, h₀⟩ := alone_after hconnect (alone_new config) hreset hrange.2
  rw [after, List.foldl_cons, ← after] at hw
  rw [← hw] at hs₀ h₀
  obtain rfl := Option.some.inj (hs₀.symm.trans hs)
  obtain ⟨s', hs', h', hclean⟩ := alone_commit hs h₀ hr hok
  refine ⟨s', hs', fun {w' other config' count kinds} hstore hother hconfig hall => ?_⟩
  rw [← hstore] at h'
  obtain ⟨hskips, -, t, ht, hcopying, hfetched⟩ :=
    copying_after hother (Session.copying_new hconfig count w'.store) h'.intact kinds
  have haligned := hcopying.aligned h'.stored fun k => hfetched k (.inl (hall k))
  exact ⟨hskips, t, ht, _, h'.toAligned.reproduces haligned hclean hcopying.clean h'.stored⟩

/-- An entity is committed with its class; then another one is added to the class, which is renamed,
and an alternative. -/
def grownEdits : List Command :=
  [.add .entityClass (.ofList [("name", .text "fish")]),
    .add .entity (.ofList [("class_id", .ref ⟨1⟩), ("name", .text "nemo")]), .commit "add",
    .add .entity (.ofList [("class_id", .ref ⟨1⟩), ("name", .text "dory")]),
    .update ⟨.entityClass, ⟨1⟩⟩ (.ofList [("name", .text "shark")]),
    .add .alternative (.ofList [("name", .text "base")])]

/-- One session has made these edits. -/
def grown : Workspace Database :=
  (new .empty).after (.connect "a" {} :: grownEdits.map (.ask "a"))

/-- The session commits, and another one begins. -/
def grownForTwo : Workspace Database :=
  (grown.act (.ask "a" (.commit "grow"))).act (.connect "b" {})

set_option maxRecDepth 4000 in
/-- The second session fetches the tables in the opposite order of their dependencies. -/
theorem reproduced_by_fetching_of_grownEdits : ∃ s t, ∃ f : ItemRef → ItemRef,
    (grown.act (.ask "a" (.commit "grow"))).session? "a" = some s ∧
    Run SkipsNothing grownForTwo (fetchEach "b" Kind.all.reverse) ∧
    (grownForTwo.after (fetchEach "b" Kind.all.reverse)).session? "b" = some t ∧
    s.isLive ⟨.entity, ⟨2⟩⟩ = true ∧ s.Reproduces t f := by
  have hcheck : ((grown.session? "a").any fun s => decide
      ((grown.perform "a" s (.commit "grow")).1 = .ok (.commit ⟨2⟩))) = true := by decide +kernel
  have hstore := store_connect (grown.act (.ask "a" (.commit "grow"))) "b" {}
  obtain ⟨s₀, hs₀, hcheck⟩ := (Option.any_eq_true ..).1 hcheck
  have hok : (grown.perform "a" s₀ (.commit "grow")).1 = .ok (.commit ⟨2⟩) := of_decide_eq_true hcheck
  have hreset : ∀ command ∈ grownEdits, command.isReset = false := by decide
  have hrange : Run WithinRange (new .empty) (.connect "a" {} :: grownEdits.map (.ask "a")) := by
    decide +kernel
  obtain ⟨s, hs, hfind⟩ :=
    reproduced_by_fetching hreset hrange rfl hs₀ (by decide +kernel) hok
  have hlive : ((grown.act (.ask "a" (.commit "grow"))).session? "a").any
      (·.isLive ⟨.entity, ⟨2⟩⟩) = true := by decide +kernel
  obtain ⟨s', hs', hlive⟩ := (Option.any_eq_true ..).1 hlive
  obtain rfl := Option.some.inj (hs.symm.trans hs')
  have hother := (session?_connect (grown.act (.ask "a" (.commit "grow"))) "b" {} "b").trans
    (if_pos rfl)
  have hall : ∀ kind, kind ∈ Kind.all.reverse := fun kind => List.mem_reverse.2 kind.mem_all
  obtain ⟨hskips, t, ht, f, hf⟩ := hfind hstore hother rfl hall
  exact ⟨s, t, f, hs, hskips, ht, hlive, hf⟩

end Workspace

end StagedEdits
