import StagedEdits.Proofs.Binding

/-!
# Items whose rows have vanished

A fetch looks for the row of an item among the rows that it can read.  Whatever it takes out, or hands
to the resolver without a row, therefore has a row that is gone or that cannot be read
(`Session.OutOfReach`), unless it refers to an item that was taken out (`Session.Pulls.missing`).  A row
cannot be read if it has come to refer to one that the session has not fetched, and its item is then
taken out although the row exists (`Workspace.dropped_though_stored`).
-/

namespace StagedEdits

namespace Session

variable {s s' s₁ : Session} {db : Database} {kind : Kind} {kinds : List Kind} {c : Conflict}

/-- There is no row `d` of a kind, or it cannot be read. -/
def OutOfReach (s : Session) (db : Database) (kind : Kind) (d : DbId) : Prop :=
  ∀ row, db.row? kind d = some row → s.localRow? kind row = none

/-- A row that is not among those that were read is out of reach. -/
theorem outOfReach_of_not_mem (hdb : db.Sound) {d : DbId}
    (h : d ∉ (s.readable kind (db.rows kind)).filterMap Record.dbId?) : s.OutOfReach db kind d := by
  intro row hrow
  exact Option.eq_none_iff_forall_ne_some.2 fun r hr => h (dbId_mem_readable hdb.filed hrow hr)

theorem OutOfReach.congr {d : DbId} (h : s.OutOfReach db kind d)
    (hread : ∀ row, s'.localRow? kind row = s.localRow? kind row) : s'.OutOfReach db kind d :=
  fun row hrow => (hread row).trans (h row hrow)

/-- What is out of reach when a table is fetched still is when those after it are fetched too. -/
theorem OutOfReach.pulls {d : DbId} (h : s.OutOfReach db kind d)
    (hfetch : s.Fetches kind (db.rows kind) s₁) (hrest : Pulls db kinds s₁ s')
    (hsorted : ∀ k ∈ kinds, kind.rank < k.rank) : s'.OutOfReach db kind d :=
  (h.congr (hfetch.localRow? kind.not_mem_dependencies_self)).congr (hrest.undisturbed hsorted).2

/-- A conflict without a row is about an item whose row is out of reach. -/
theorem Raises.outOfReach (h : Raises db c kinds s s') (hs : s.WellFormed) (hdb : db.Sound)
    (hsorted : kinds.Pairwise fun a b => a.rank < b.rank) (hrow : c.row = none) :
    ∃ d, c.item.dbId = some d ∧ s'.OutOfReach db c.item.kind d := by
  induction h with
  | here hmeets hfetch hrest =>
    obtain ⟨d, hd, hmem⟩ := hmeets.row_none hrow
    have hkind := hs.item_kind hmeets.item
    refine ⟨d, hd, hkind ▸ ?_⟩
    exact (outOfReach_of_not_mem hdb hmem).pulls hfetch hrest (List.pairwise_cons.1 hsorted).1
  | later hfetch _ ih => exact ih hfetch.wellFormed (List.pairwise_cons.1 hsorted).2

/-- Fetches give out new identities only. -/
theorem Pulls.succeeds (h : Pulls db kinds s s') (hs : s.WellFormed) : s.Succeeds s' := by
  induction h with
  | nil => exact ⟨Nat.le_refl _, fun r item hi _ => ⟨item, hi⟩⟩
  | cons hfetch _ ih =>
    have hfirst := hfetch.succeeds hs.toCoherent
    have hrest := ih hfetch.wellFormed
    refine ⟨Nat.le_trans hfirst.nextId_le hrest.nextId_le, fun r item hi hlt => ?_⟩
    obtain ⟨y, hy⟩ := hrest.old hi (Nat.lt_of_lt_of_le hlt hfirst.nextId_le)
    exact hfirst.old hy hlt

/-- An item that was missing before the last fetches is missing after them. -/
theorem Orphans.pulls {r : ItemRef} {x : Item} (h : s.Orphans s₁ r x) (hs : s.WellFormed)
    (hfetch : s.Fetches kind (db.rows kind) s₁) (hrest : Pulls db kinds s₁ s')
    (hnone : s'.item? r = none) : s.Orphans s' r x := by
  obtain ⟨-, target, htarget, ⟨y, hy⟩, hgone⟩ := h
  refine ⟨hnone, target, htarget, ⟨y, hy⟩, Option.eq_none_iff_forall_ne_some.2 fun z hz => ?_⟩
  have hlt : target.id.val < s₁.nextId.val := Nat.lt_of_lt_of_le (hs.given hy) hfetch.nextId_le
  obtain ⟨u, hu⟩ := (hrest.succeeds hfetch.wellFormed).old hz hlt
  rw [hgone] at hu
  cases hu

/-- What is missing after tables were fetched in order has a row that is out of reach, or refers to
something that is missing too. -/
theorem Pulls.missing (h : Pulls db kinds s s') (hs : s.WellFormed) (hdb : db.Sound)
    (hsorted : kinds.Pairwise fun a b => a.rank < b.rank) {r : ItemRef} {x : Item}
    (hx : s.item? r = some x) (hnone : s'.item? r = none) :
    (r.kind ∈ kinds ∧ ∃ d, x.dbId = some d ∧ s'.OutOfReach db r.kind d) ∨ s.Orphans s' r x := by
  induction h generalizing x with
  | nil =>
    rw [hx] at hnone
    cases hnone
  | @cons kind kinds s s₁ s' hfetch hrest ih =>
    obtain ⟨hfirst, hsorted⟩ := List.pairwise_cons.1 hsorted
    -- the tables fetched later leave this one as it is
    have hkeep : ∀ {q : ItemRef}, q.kind = kind → s'.item? q = s₁.item? q := by
      rintro q rfl
      rw [item?_eq, (hrest.undisturbed hfirst).1, ← item?_eq]
    cases hy : s₁.item? r with
    | none =>
      by_cases hk : r.kind = kind
      · obtain ⟨k, id⟩ := r
        obtain rfl : k = kind := hk
        obtain ⟨d, hd, hmem⟩ := hfetch.loses.own hx hy
        exact .inl ⟨List.mem_cons_self .., d, hd,
          (outOfReach_of_not_mem hdb hmem).pulls hfetch hrest hfirst⟩
      · rcases hfetch.loses.other hk hx with hsame | horphan
        · rw [hy] at hsame
          cases hsame
        · exact .inr (horphan.pulls hs hfetch hrest hnone)
    | some y =>
      have hk : r.kind ≠ kind := by
        intro hk
        rw [hkeep hk, hy] at hnone
        cases hnone
      obtain rfl := Option.some.inj (hx.symm.trans (hfetch.item? hk hy))
      refine (ih hfetch.wellFormed hsorted hy hnone).imp (And.imp_left (List.mem_cons_of_mem _)) ?_
      rintro ⟨-, target, htarget, ⟨z, hz⟩, hgone⟩
      have hkt : target.kind ≠ kind := by
        intro hkt
        rw [hkeep hkt, hz] at hgone
        cases hgone
      exact ⟨hnone, target, htarget, ⟨z, hfetch.item? hkt hz⟩, hgone⟩

end Session

namespace Workspace

variable {w : Workspace Database} {name : String} {s : Session}

/-- After any orderly run, whatever a fetch or a refresh hands to the resolver without a row has a row
that is gone or cannot be read, and so has whatever it takes out, unless it refers to something that was
taken out too. -/
theorem out_of_reach_of_pull (hw : w.Reachable Orderly) (hs : w.session? name = some s)
    {command : Command} (hpull : command.isPull = true) (hh : command.Honest) :
    ∃ report s', (w.perform name s command).1 = .ok (.report report) ∧
      (w.act (.ask name command)).session? name = some s' ∧
      (w.act (.ask name command)).store = w.store ∧
      (∀ c ∈ (w.perform name s command).2.1.flatten, c.row = none →
        ∃ d, c.item.dbId = some d ∧ s'.OutOfReach w.store c.item.kind d) ∧
      ∀ r x, s.item? r = some x → s'.item? r = none →
        (r.kind ∈ s.pulled command ∧ ∃ d, x.dbId = some d ∧ s'.OutOfReach w.store r.kind d) ∨
          s.Orphans s' r x := by
  obtain ⟨hdb, hall⟩ := regular_of_reachable hw
  have hwf := (hall hs).toWellFormed
  have hsorted := s.pairwise_rank_pulled command
  obtain ⟨report, s', passes, hrun, s₁, hp, htables, hraises⟩ :=
    Command.run_pull hwf hdb.toSound hpull hh
  obtain ⟨hreply, hpasses, hstore, hsession⟩ := act_of_run hs hrun
  have hitem := Session.item?_of_tables_eq htables
  have hreach : ∀ {kind d}, s₁.OutOfReach w.store kind d → s'.OutOfReach w.store kind d := fun h =>
    h.congr (Session.localRow?_of_tables_eq htables)
  refine ⟨report, s', hreply, hsession, hstore, fun c hc hrow => ?_, fun r x hx hnone => ?_⟩
  · rw [hpasses] at hc
    obtain ⟨d, hd, hout⟩ := (hraises c hc).outOfReach hwf hdb.toSound hsorted hrow
    exact ⟨d, hd, hreach hout⟩
  · rw [hitem] at hnone
    refine (hp.missing hwf hdb.toSound hsorted hx hnone).imp ?_ ?_
    · rintro ⟨hmem, d, hd, hout⟩
      exact ⟨hmem, d, hd, hreach hout⟩
    · rintro ⟨-, target, htarget, hy, hgone⟩
      exact ⟨(hitem r).trans hnone, target, htarget, hy, (hitem target).trans hgone⟩

/-- Two sessions know two alternatives.  The second removes both and commits, while the first has changed
one of them. -/
def pairRemoved : List Event :=
  [.connect "a" {}, .ask "a" (.add .alternative (.ofList [("name", .text "base")])),
    .ask "a" (.add .alternative (.ofList [("name", .text "high")])), .ask "a" (.commit "add"),
    .connect "b" {}, .ask "b" (.fetch .alternative none),
    .ask "a" (.update ⟨.alternative, .first⟩ (.ofList [("description", .text "mine")])),
    .ask "b" (.remove ⟨.alternative, .first⟩), .ask "b" (.remove ⟨.alternative, ⟨2⟩⟩),
    .ask "b" (.commit "remove")]

set_option maxRecDepth 4000 in
theorem out_of_reach_of_pull_of_pairRemoved : ∃ (w : Workspace Database) (s : Session),
    w.Reachable Orderly ∧ w.session? "a" = some s ∧
      (Command.fetch .alternative none).isPull = true ∧ (Command.fetch .alternative none).Honest ∧
      ∃ report s', (w.perform "a" s (.fetch .alternative none)).1 = .ok (.report report) ∧
        (w.act (.ask "a" (.fetch .alternative none))).session? "a" = some s' ∧
        (w.act (.ask "a" (.fetch .alternative none))).store = w.store ∧
        (∀ c ∈ (w.perform "a" s (.fetch .alternative none)).2.1.flatten, c.row = none →
          ∃ d, c.item.dbId = some d ∧ s'.OutOfReach w.store c.item.kind d) ∧
        ∀ r x, s.item? r = some x → s'.item? r = none →
          (r.kind ∈ s.pulled (.fetch .alternative none) ∧
            ∃ d, x.dbId = some d ∧ s'.OutOfReach w.store r.kind d) ∨ s.Orphans s' r x := by
  have hrun : Run Plain (new .empty) pairRemoved := by decide +kernel
  have hreach := hrun.reachable
  have hcheck : (((new .empty).after pairRemoved).session? "a").isSome = true := by
    decide +kernel
  obtain ⟨s, hs⟩ := Option.isSome_iff_exists.1 hcheck
  exact ⟨_, s, hreach, hs, rfl, .of_isPlain rfl,
    out_of_reach_of_pull hreach hs rfl (.of_isPlain rfl)⟩

/-- Two sessions know an entity.  The second moves it to a class that it has added, and commits. -/
def movedEntity : List Event :=
  [.connect "a" {}, .ask "a" (.add .entityClass (.ofList [("name", .text "unit")])),
    .ask "a" (.add .entity (.ofList [("class_id", .ref .first), ("name", .text "plant")])),
    .ask "a" (.commit "add"), .ask "a" (.fetch .entity none), .connect "b" {},
    .ask "b" (.fetch .entity none),
    .ask "b" (.add .entityClass (.ofList [("name", .text "node")])),
    .ask "b" (.update ⟨.entity, ⟨2⟩⟩ (.ofList [("class_id", .ref ⟨3⟩)])),
    .ask "b" (.commit "move")]

set_option maxRecDepth 4000 in
/-- The first session takes the entity out when it fetches the entities again, although the row of the
entity is there and so is the class that the entity referred to. -/
theorem dropped_though_stored : ∃ (w : Workspace Database) (s s' : Session) (x : Item) (row : Record),
    w.Reachable Orderly ∧ w.session? "a" = some s ∧ w.Orderly (.ask "a" (.fetch .entity none)) ∧
      (w.act (.ask "a" (.fetch .entity none))).session? "a" = some s' ∧
      s.item? ⟨.entity, ⟨2⟩⟩ = some x ∧ x.status = .committed ∧ x.dbId = some ⟨1⟩ ∧
      w.store.row? .entity ⟨1⟩ = some row ∧ s'.item? ⟨.entity, ⟨2⟩⟩ = none ∧
      ¬ s.Orphans s' ⟨.entity, ⟨2⟩⟩ x := by
  have hrun : Run Plain (new .empty) movedEntity := by decide +kernel
  have hreach := hrun.reachable
  have hcheck : (((new .empty).after movedEntity).session? "a").any (fun s =>
      ((((new .empty).after movedEntity).act
        (.ask "a" (.fetch .entity none))).session? "a").any fun s' =>
      (s.item? ⟨.entity, ⟨2⟩⟩).any fun x =>
      (((new .empty).after movedEntity).store.row? .entity ⟨1⟩).any fun row =>
        decide (Plain ((new .empty).after movedEntity) (.ask "a" (.fetch .entity none))) &&
        decide (x.status = .committed) && decide (x.dbId = some ⟨1⟩) &&
        decide (s'.item? ⟨.entity, ⟨2⟩⟩ = none) &&
        x.references.all fun target => (s'.item? target).isSome) = true := by decide +kernel
  obtain ⟨s, hs, hcheck⟩ := (Option.any_eq_true ..).1 hcheck
  obtain ⟨s', hs', hcheck⟩ := (Option.any_eq_true ..).1 hcheck
  obtain ⟨x, hx, hcheck⟩ := (Option.any_eq_true ..).1 hcheck
  obtain ⟨row, hrow, hcheck⟩ := (Option.any_eq_true ..).1 hcheck
  simp only [Bool.and_eq_true, decide_eq_true_eq, List.all_eq_true] at hcheck
  obtain ⟨⟨⟨⟨hplain, hst⟩, hd⟩, hnone⟩, htargets⟩ := hcheck
  refine ⟨_, s, s', x, row, hreach, hs, hplain.orderly, hs', hx, hst, hd, hrow, hnone, ?_⟩
  rintro ⟨-, target, htarget, -, hgone⟩
  have hthere := htargets target htarget
  rw [hgone] at hthere
  cases hthere

end Workspace

end StagedEdits
