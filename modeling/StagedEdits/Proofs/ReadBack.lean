import StagedEdits.Proofs.Changes

/-!
# Reading back what a commit has written

A commit stores an item with the rows of the items it refers to, and remembers it with these items.  The
two agree in the session after the commit, unless an item that was to be added had a row before: what
refers to it is stored with that row, while the item itself is written to the one that was reserved for
it (`Session.Commits.dbId_eq_rowOf?_iff`).  An item gets into this state if a row is paired with it while
it is removed, and it is restored.
-/

namespace StagedEdits

namespace Session

variable {s s' : Session} {db db₁ db' : Database} {reserved : List (ItemId × DbId)} {id : CommitId}
  {r : ItemRef} {a x : Item} {d : DbId} {row : Record}

/-- A live item has in the end the row that was put down for it in references, unless it was to be added
and had a row before. -/
theorem Commits.dbId_eq_rowOf?_iff (h : s.Commits db reserved id s' db') (hs : s.WellFormed)
    (hb : s.Bounded db) (hres : s.Reserves db reserved db₁) (hx : s.item? r = some x)
    (hlive : x.removed = false) :
    (∃ b, s'.item? r = some b ∧ b.dbId = s.rowOf? reserved r) ↔
      (x.status = .toAdd → x.dbId = none) := by
  have hrow : s.rowOf? reserved r = x.dbId.or (reserved.lookup r.id) := by
    unfold rowOf?
    rw [hx, Option.bind_some]
  rw [hrow]
  by_cases hadd : x.status = .toAdd
  · obtain ⟨n, hn⟩ := hres.covers hx hadd
    have hitem := h.item?_of_written hs.toCoherent hres hx (.inl hadd)
      ((goal?_of_added hx hadd).trans hn)
    rw [hitem, hn]
    constructor
    · rintro ⟨b, hbitem, hd⟩ -
      obtain rfl := Option.some.inj hbitem
      cases hxd : x.dbId with
      | none => rfl
      | some m =>
        -- the identity that was reserved is above that of every row
        rw [hxd, Option.some_or] at hd
        obtain rfl : n = m := Option.some.inj hd
        obtain ⟨kind, y, hy, -, hlt, -⟩ := hres.given hn
        obtain rfl := hs.one_kind hy hx
        exact absurd (hb hx hxd) (Int.not_le.2 hlt)
    · intro hnone
      exact ⟨_, rfl, by rw [hnone hadd]; rfl⟩
  · rw [lookup_eq_none hs.toCoherent hres hx hadd, Option.or_none]
    refine ⟨fun _ hst => absurd hst hadd, fun _ => ?_⟩
    rcases Item.status_of_live hlive with hst | hst
    · refine ⟨x, ?_, rfl⟩
      rw [h.item?, committedItem?, hx, Option.bind_some, if_neg (by rw [hlive]; decide), if_pos hst]
    · obtain ⟨n, -, hgoal, -⟩ := h.writes.written hx hst
      refine ⟨_, h.item?_of_written hs.toCoherent hres hx hst hgoal, ?_⟩
      rw [← goal?_of_not_added hx hadd, hgoal]
      rfl

/-- What is stored for a pending item is read back as the row that the item agrees with if and only if no
item to add that it refers to had a row before. -/
theorem Commits.localRow?_iff_of_pending (h : s.Commits db reserved id s' db') (hs : s.Regular db)
    (hp : s.PendingLive) (hres : s.Reserves db reserved db₁) (ha : s.item? r = some a)
    (hst : a.status = .toAdd ∨ a.status = .toUpdate) (hstored : s.storedRow reserved a d = .ok row) :
    s'.localRow? r.kind (row.insert Record.commitField (.integer id.val)) = (a.written d id).synced ↔
      ∀ target ∈ a.references, ∀ x, s.item? target = some x → x.status = .toAdd →
        x.dbId = none := by
  have hk := hs.item_kind ha
  obtain ⟨hlive, hdirty⟩ := Item.live_of_unwritten hst
  have hlinked : r.kind.Linked a.content := hk ▸ (hs.shaped ha).linked
  refine (h.localRow?_eq_synced_iff hk hlinked hstored).trans ⟨fun hrefs => ?_, fun hnew => ?_⟩
  · rintro ⟨target, y⟩ hmem x hx
    obtain ⟨field, he, hy⟩ := Item.mem_references_iff.1 hmem
    obtain ⟨z, hz, hzlive⟩ := isLive_iff.1 (hp ha hlive hdirty _ hmem)
    obtain rfl := Option.some.inj (hz.symm.trans hx)
    exact (h.dbId_eq_rowOf?_iff hs.toWellFormed hs.bounded hres hx hzlive).1
      (hrefs (field, target) (hk ▸ he) y hy)
  · intro e he y hy
    have hmem : (⟨e.2, y⟩ : ItemRef) ∈ a.references :=
      Item.mem_references_iff.2 ⟨e.1, hk ▸ he, hy⟩
    obtain ⟨x, hx, hxlive⟩ := isLive_iff.1 (hp ha hlive hdirty _ hmem)
    exact (h.dbId_eq_rowOf?_iff hs.toWellFormed hs.bounded hres hx hxlive).2 (hnew _ hmem x hx)

end Session

namespace Workspace

variable {w : Workspace Database} {name comment : String} {s : Session} {id : CommitId}

/-- After any orderly run, a commit that succeeds has stored, for each item that it wrote, a row that is
read back as the one the item remembers, unless the item refers to an item that was to be added although
it had a row. -/
theorem read_back_of_commit (hw : w.Reachable Orderly) (hs : w.session? name = some s)
    (he : w.Orderly (.ask name (.commit comment)))
    (hok : (w.perform name s (.commit comment)).1 = .ok (.commit id)) :
    ∃ s', (w.act (.ask name (.commit comment))).session? name = some s' ∧
      ∀ r a, (s.atCommit w.store).item? r = some a → a.status = .toAdd ∨ a.status = .toUpdate →
        ∃ b d row seen, s'.item? r = some b ∧ b.dbId = some d ∧ b.synced = some seen ∧
          (w.act (.ask name (.commit comment))).store.row? r.kind d = some row ∧
          (s'.localRow? r.kind row = some seen ↔
            ∀ target ∈ a.references, ∀ x, (s.atCommit w.store).item? target = some x →
              x.status = .toAdd → x.dbId = none) := by
  obtain ⟨hmid, hlive, s', db₁, reserved, batch, hs', hres, hc, -⟩ :=
    exists_commits_of_ok hw hs he hok
  refine ⟨s', hs', fun r a ha hst => ?_⟩
  obtain ⟨d, row, hgoal, hstored, hrow⟩ := hc.writes.written ha hst
  exact ⟨a.written d id, d, _, _, hc.item?_of_written hmid.toCoherent hres ha hst hgoal, rfl, rfl,
    hrow, hc.localRow?_iff_of_pending hmid hlive hres ha hst hstored⟩

set_option maxRecDepth 4000 in
theorem read_back_of_commit_of_mixedEdits : ∃ (w : Workspace Database) (s s' : Session),
    w.Reachable Orderly ∧ w.session? "a" = some s ∧ w.Orderly (.ask "a" (.commit "change")) ∧
      (w.perform "a" s (.commit "change")).1 = .ok (.commit ⟨2⟩) ∧
      (w.act (.ask "a" (.commit "change"))).session? "a" = some s' ∧
      ∀ r a, (s.atCommit w.store).item? r = some a → a.status = .toAdd ∨ a.status = .toUpdate →
        ∃ b d row seen, s'.item? r = some b ∧ b.dbId = some d ∧ b.synced = some seen ∧
          (w.act (.ask "a" (.commit "change"))).store.row? r.kind d = some row ∧
          (s'.localRow? r.kind row = some seen ↔
            ∀ target ∈ a.references, ∀ x, (s.atCommit w.store).item? target = some x →
              x.status = .toAdd → x.dbId = none) := by
  have hrun : Run Plain (new .empty) mixedEdits := by decide +kernel
  have hreach := hrun.reachable
  have hcheck : (((new .empty).after mixedEdits).session? "a").any (fun s =>
      decide (Plain ((new .empty).after mixedEdits) (.ask "a" (.commit "change"))) &&
      decide ((((new .empty).after mixedEdits).perform "a" s (.commit "change")).1 =
        .ok (.commit ⟨2⟩))) = true := by decide +kernel
  obtain ⟨s, hs, hcheck⟩ := (Option.any_eq_true ..).1 hcheck
  simp only [Bool.and_eq_true, decide_eq_true_eq] at hcheck
  obtain ⟨hplain, hok⟩ := hcheck
  obtain ⟨s', hs', hread⟩ := read_back_of_commit hreach hs hplain.orderly hok
  exact ⟨_, s, s', hreach, hs, hplain.orderly, hok, hs', hread⟩

/-- A session adds a class and removes it.  Another session adds the same class and commits it, so that a
refresh pairs the removed class with its row.  The first session then restores its class, which is
still to be added, and adds an entity of it. -/
def pairedWhileRemoved : List Event :=
  [.connect "a" {}, .ask "a" (.fetch .entityClass none),
    .ask "a" (.add .entityClass (.ofList [("name", .text "unit")])),
    .ask "a" (.remove ⟨.entityClass, .first⟩), .connect "b" {},
    .ask "b" (.add .entityClass (.ofList [("name", .text "unit")])), .ask "b" (.commit "add"),
    .ask "a" (.refresh none), .ask "a" (.restore ⟨.entityClass, .first⟩),
    .ask "a" (.add .entity (.ofList [("class_id", .ref .first), ("name", .text "plant")]))]

set_option maxRecDepth 4000 in
/-- The commit of the first session writes the class to a new row, and the entity with the old one, which
no item stands for any more.  So the row of the entity cannot be read. -/
theorem written_row_not_read_back : ∃ (w : Workspace Database) (s s' : Session) (a b : Item)
    (row : Record), w.Reachable Orderly ∧ w.session? "a" = some s ∧
      w.Orderly (.ask "a" (.commit "mine")) ∧
      (w.perform "a" s (.commit "mine")).1 = .ok (.commit ⟨2⟩) ∧
      (w.act (.ask "a" (.commit "mine"))).session? "a" = some s' ∧
      (s.atCommit w.store).item? ⟨.entity, ⟨2⟩⟩ = some a ∧ a.status = .toAdd ∧
      s'.item? ⟨.entity, ⟨2⟩⟩ = some b ∧ b.dbId = some ⟨1⟩ ∧
      (w.act (.ask "a" (.commit "mine"))).store.row? .entity ⟨1⟩ = some row ∧
      s'.localRow? .entity row = none := by
  have hrun : Run Plain (new .empty) pairedWhileRemoved := by decide +kernel
  have hreach := hrun.reachable
  have hcheck : (((new .empty).after pairedWhileRemoved).session? "a").any (fun s =>
      ((((new .empty).after pairedWhileRemoved).act
        (.ask "a" (.commit "mine"))).session? "a").any fun s' =>
      ((s.atCommit ((new .empty).after pairedWhileRemoved).store).item? ⟨.entity, ⟨2⟩⟩).any fun a =>
      (s'.item? ⟨.entity, ⟨2⟩⟩).any fun b =>
      ((((new .empty).after pairedWhileRemoved).act
        (.ask "a" (.commit "mine"))).store.row? .entity ⟨1⟩).any fun row =>
        decide (Plain ((new .empty).after pairedWhileRemoved) (.ask "a" (.commit "mine"))) &&
        decide ((((new .empty).after pairedWhileRemoved).perform "a" s (.commit "mine")).1 =
          .ok (.commit ⟨2⟩)) &&
        decide (a.status = .toAdd) && decide (b.dbId = some ⟨1⟩) &&
        decide (s'.localRow? .entity row = none)) = true := by decide +kernel
  obtain ⟨s, hs, hcheck⟩ := (Option.any_eq_true ..).1 hcheck
  obtain ⟨s', hs', hcheck⟩ := (Option.any_eq_true ..).1 hcheck
  obtain ⟨a, ha, hcheck⟩ := (Option.any_eq_true ..).1 hcheck
  obtain ⟨b, hb, hcheck⟩ := (Option.any_eq_true ..).1 hcheck
  obtain ⟨row, hrow, hcheck⟩ := (Option.any_eq_true ..).1 hcheck
  simp only [Bool.and_eq_true, decide_eq_true_eq] at hcheck
  obtain ⟨⟨⟨⟨hplain, hok⟩, hst⟩, hd⟩, hnone⟩ := hcheck
  exact ⟨_, s, s', a, b, row, hreach, hs, hplain.orderly, hok, hs', ha, hst, hb, hd, hrow, hnone⟩

end Workspace

end StagedEdits
