import StagedEdits.Proofs.Publish
import StagedEdits.Proofs.Shape

/-!
# What pending items refer to

A row that a fetch brings in may refer to an item that the session has removed, so a live item need not
refer to live items.  A pending one does, in any session of any run (`Session.PendingLive`): its
references were checked when it was edited, nothing but a removal makes the items referred to removed,
and a removal takes the pending item along.  A fetch takes it out together with what it refers to.
-/

namespace StagedEdits

variable {s s' : Session} {db db' : Database} {kind : Kind} {rows : List Record} {b : Item}

/-- A row with all its fields makes a removed item committed. -/
theorem Item.Shaped.status_resurrectedBy {item : Item} {row : Record} (h : item.Shaped)
    (hrow : item.kind.Covers row) : (item.resurrectedBy row).status = .committed := by
  have hrow : item.restored.kind.Covers row := by rwa [item.kind_restored]
  have hadopt := content_adopt h.restored.complete hrow
  have hcomplete : (item.restored.adopt row).kind.Complete (item.restored.adopt row).content := by
    rw [hadopt]
    exact Kind.complete_contentOf _ _
  unfold Item.resurrectedBy
  dsimp only
  rw [if_pos ((agreesWith_iff hcomplete).2 hadopt)]
  rfl

/-- The item of a decided conflict is committed, or it is as removed as it was and keeps its content. -/
theorem Resolved.outcome?_cases {r : Resolved} (h : r.outcome? = some b) (hshaped : r.item.Shaped)
    (hrow : ∀ row, r.row = some row → r.item.kind.Covers row) :
    b.status = .committed ∨ (b.removed = r.item.removed ∧ b.content = r.item.content) := by
  rcases Resolved.outcome?_eq_some h with ⟨-, row, hr, ⟨-, rfl⟩ | ⟨-, rfl⟩⟩ | ⟨hkeep, -⟩
  · exact .inl (hshaped.status_resurrectedBy (hrow row hr))
  · exact .inl rfl
  · exact .inr (Resolved.kept_outcome? h hkeep)

namespace Origin

/-- An item that is pending after a fetch was pending before, and its content is the same. -/
theorem of_pending (h : Origin s kind rows b) (hshaped : s.Shaped) (hs : s.Coherent)
    (hrows : ∀ row ∈ rows, kind.Covers row) (hlive : b.removed = false)
    (hst : b.status ≠ .committed) :
    ∃ a, s.item? ⟨kind, b.id⟩ = some a ∧ a.removed = false ∧ a.status ≠ .committed ∧
      b.content = a.content := by
  cases h with
  | kept hitem => exact ⟨b, hitem, hlive, hst, rfl⟩
  | loaded => exact absurd rfl hst
  | changed _ hstatus => exact absurd hstatus hst
  | @twin item row hitem hstatus =>
    have hid : (item.claim row).id = item.id := (Item.takes_claim item row).id_eq
    refine ⟨item, by rw [hid]; exact hitem, ?_, ?_, item.content_claim row⟩
    · rw [Item.removed, hstatus]
      rfl
    · rw [hstatus]
      decide
  | @settled r _ _ hitem hdivergence hrow houtcome =>
    have hid := (Resolved.takes_outcome? (hs.consistent hitem) houtcome).id_eq
    have hkind : r.item.kind = kind := hs.item_kind hitem
    rcases Resolved.outcome?_cases houtcome (hshaped hitem) fun row hr =>
      hkind ▸ hrows row (hrow row hr) with hcom | ⟨hrem, hcontent⟩
    · exact absurd hcom hst
    · exact ⟨r.item, by rw [hid]; exact hitem, hrem.symm.trans hlive,
        (Item.status_of_divergence? hdivergence).1, hcontent⟩

/-- A live item is live after a fetch if it is still there. -/
theorem live (h : Origin s kind rows b) (hshaped : s.Shaped) (hs : s.Coherent)
    (hrows : ∀ row ∈ rows, kind.Covers row) {x : Item} (hx : s.item? ⟨kind, b.id⟩ = some x)
    (hlive : x.removed = false) : b.removed = false := by
  have hcommitted : b.status = .committed → b.removed = false := fun hst => by
    rw [Item.removed, hst]
    rfl
  cases h with
  | kept hitem => exact Option.some.inj (hx.symm.trans hitem) ▸ hlive
  | loaded => rfl
  | changed _ hstatus => exact hcommitted hstatus
  | twin => exact Item.removed_claim _ _
  | @settled r _ _ hitem _ hrow houtcome =>
    have hid := (Resolved.takes_outcome? (hs.consistent hitem) houtcome).id_eq
    have hkind : r.item.kind = kind := hs.item_kind hitem
    rw [hid] at hx
    obtain rfl := Option.some.inj (hitem.symm.trans hx)
    rcases Resolved.outcome?_cases houtcome (hshaped hitem) fun row hr =>
      hkind ▸ hrows row (hrow row hr) with hcom | ⟨hrem, -⟩
    · exact hcommitted hcom
    · exact hrem.trans hlive

end Origin

namespace Session

/-- Pending items refer to live items only. -/
def PendingLive (s : Session) : Prop := s.RefersLive fun item => item.status ≠ .committed

theorem pendingLive_of_clean (h : s.Clean) : s.PendingLive := fun _ _ hi _ hst _ _ =>
  absurd (h hi) hst

/-! ### Fetching -/

/-- A live item is live after a fetch if it is still there. -/
theorem Fetches.isLive (hs : s.WellFormed) (hshaped : s.Shaped) (hdb : db.Shaped)
    (h : s.Fetches kind (db.rows kind) s') {r : ItemRef} (hlive : s.isLive r = true)
    (hthere : ∃ y, s'.item? r = some y) : s'.isLive r = true := by
  obtain ⟨x, hx, hxl⟩ := isLive_iff.1 hlive
  obtain ⟨y, hy⟩ := hthere
  refine isLive_iff.2 ⟨y, hy, ?_⟩
  by_cases hk : r.kind = kind
  · obtain ⟨k, id⟩ := r
    obtain rfl : k = kind := hk
    have hid : y.id = id := item_id hy
    exact (h.origin hy).live hshaped hs.toCoherent (fun r hr => (shaped_of_readable hdb hr).covers)
      (by rw [hid]; exact hx) hxl
  · obtain rfl := Option.some.inj (hx.symm.trans (h.item? hk hy))
    exact hxl

theorem Fetches.pendingLive (hs : s.WellFormed) (hshaped : s.Shaped) (hdb : db.Shaped)
    (h : s.Fetches kind (db.rows kind) s') (hp : s.PendingLive) : s'.PendingLive := by
  intro r b hb hlive hst target htarget
  -- the item was pending before and referred to the same items
  obtain ⟨a, ha, halive, hast, hrefs⟩ : ∃ a, s.item? r = some a ∧ a.removed = false ∧
      a.status ≠ .committed ∧ b.references = a.references := by
    by_cases hk : r.kind = kind
    · obtain ⟨k, id⟩ := r
      obtain rfl : k = kind := hk
      have hid : b.id = id := item_id hb
      obtain ⟨a, ha, halive, hast, hcontent⟩ := (h.origin hb).of_pending hshaped hs.toCoherent
        (fun r hr => (shaped_of_readable hdb hr).covers) hlive hst
      rw [hid] at ha
      refine ⟨a, ha, halive, hast, ?_⟩
      unfold Item.references
      rw [hcontent, h.wellFormed.item_kind hb, hs.item_kind ha]
    · exact ⟨b, h.item? hk hb, hlive, hst, rfl⟩
  have htl := hp ha halive hast target (hrefs ▸ htarget)
  obtain ⟨x, hx, -⟩ := isLive_iff.1 htl
  exact h.isLive hs hshaped hdb htl (h.loses.targets hb target htarget ⟨x, hx⟩)

theorem Pulls.pendingLive {kinds : List Kind} (hp : Pulls db kinds s s') (hs : s.WellFormed)
    (hshaped : s.Shaped) (hdb : db.Shaped) (h : s.PendingLive) : s'.PendingLive := by
  induction hp with
  | nil => exact h
  | cons hf _ ih =>
    exact ih hf.wellFormed (hf.shaped hs hshaped hdb) (hf.pendingLive hs hshaped hdb h)

theorem PendingLive.atCommit (h : s.PendingLive) (hs : s.Regular db) (hdb : db.Regular) :
    (s.atCommit db).PendingLive := by
  rcases atCommit_cases hs.toWellFormed hdb.toSound with ⟨heq, -⟩ | ⟨-, s₁, heq, hpulls⟩
  · rw [heq]
    exact h
  · rw [heq]
    exact hpulls.pendingLive hs.toWellFormed hs.shaped hdb.shaped h

/-! ### Any run -/

theorem PendingLive.reset (h : s.PendingLive) (hs : s.Coherent) (kinds : List Kind) :
    (s.reset kinds).PendingLive := by
  intro r item hi hlive hst target htarget
  have hold := item?_reset hi
  obtain ⟨x, hx, hxl⟩ := isLive_iff.1 (h hold hlive hst target htarget)
  refine isLive_iff.2 ⟨x, ?_, hxl⟩
  have hkind : r.kind ∉ Kind.withDependents kinds := by
    intro hmem
    rw [item?_eq, table_reset, if_pos hmem, Table.get?_empty] at hi
    cases hi
  have hreferenced := Item.kind_mem_referenced htarget
  rw [hs.item_kind hold] at hreferenced
  rw [item?_eq, table_reset, if_neg fun hmem => hkind (Kind.mem_withDependents hreferenced hmem),
    ← item?_eq]
  exact hx

/-- Whatever is done in a session, its pending items refer to live items only. -/
theorem Step.pendingLive {command : Command} (h : s.Step db command s' db') (hs : s.Regular db)
    (hdb : db.Regular) (hp : s.PendingLive) : s'.PendingLive := by
  have hwf := hs.toWellFormed
  have hat := hp.atCommit hs hdb
  cases h with
  | idle => exact hp
  | add h => exact RefersLive.add hp hwf h
  | update h => exact RefersLive.update hp hwf (fun _ _ hi => (hs.shaped hi).complete) h
  | remove h => exact RefersLive.remove hp hwf h
  | restore h => exact RefersLive.restore hp hwf h
  | fetch h => exact h.pendingLive hwf hs.shaped hdb.shaped hp
  | refresh h => exact h.pendingLive hwf hs.shaped hdb.shaped hp
  | refused => exact hat
  | commit hres h => exact pendingLive_of_clean (h.clean (wellFormed_atCommit hwf hdb.toSound) hres)
  | rollBack h => exact pendingLive_of_clean (clean_rollBack hwf h)
  | reset => exact hp.reset hwf.toCoherent _

end Session

namespace Workspace

variable {w : Workspace Database}

/-- After any orderly run the pending items of every session refer to live items only. -/
theorem pendingLive_of_reachable (hw : w.Reachable Orderly) :
    w.All Database.Regular fun s db => s.Regular db ∧ s.PendingLive :=
  kept_of_reachable hw (fun _ _ _ _ h => nomatch h) fun hstep hs hdb hp =>
    hstep.pendingLive hs hdb hp

end Workspace

end StagedEdits
