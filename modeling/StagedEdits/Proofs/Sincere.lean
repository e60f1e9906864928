import StagedEdits.Proofs.Mirror

/-!
# Sessions that can restore truthfully

In a sincere session every item is faithful, and would be so if it were restored.  Local edits and
roll backs keep a session sincere.  So does whatever brings up no removed item that was not there
before (`Session.Sincere.of_keepsRemovals`).
-/

namespace StagedEdits

namespace Session

variable {s s' : Session} {db : Database}

/-- All items are faithful, and so are all restorations. -/
structure Sincere (s : Session) : Prop where
  faithful : s.Faithful
  restorable : ∀ ⦃r item⦄, s.item? r = some item → item.restored.Truthful

/-- Live items are restored already. -/
theorem sincere_of_removed (hf : s.Faithful)
    (h : ∀ ⦃r item⦄, s.item? r = some item → item.removed = true → item.restored.Truthful) :
    s.Sincere := by
  refine ⟨hf, fun r item hi => ?_⟩
  cases hrem : item.removed with
  | true => exact h hi hrem
  | false =>
    rw [Item.restored_of_live hrem]
    exact (hf hi).truthful

/-- If all items are committed, nothing is there to be restored. -/
theorem sincere_of_clean (hf : s.Faithful) (hc : s.Clean) : s.Sincere := by
  refine sincere_of_removed hf fun r item hi hrem => ?_
  rw [Item.removed, hc hi] at hrem
  cases hrem

theorem Sincere.of_keepsRemovals (h : s.Sincere) (hf : s'.Faithful) (hkeep : s.KeepsRemovals s') :
    s'.Sincere :=
  sincere_of_removed hf fun _ _ hi hrem => h.restorable (hkeep hi hrem)

theorem Sincere.rewrites {R : Item → Item → Prop} (h : s.Sincere) (hr : Rewrites R s s')
    (hR : ∀ {a b}, a.Truthful → a.restored.Truthful → R a b → b.restored.Truthful) {r : ItemRef}
    {b : Item} (hb : s'.item? r = some b) : b.restored.Truthful := by
  obtain ⟨a, ha, hab⟩ := hr.some_of hb
  exact hR (h.faithful ha).truthful (h.restorable ha) hab

theorem Sincere.add (h : s.Sincere) (hs : s.WellFormed) {kind : Kind} {given : Record} {id : ItemId}
    (hadd : s.add kind given = .ok (id, s')) : s'.Sincere :=
  h.of_keepsRemovals (h.faithful.add hs.toCoherent hadd) (keepsRemovals_add hadd)

theorem Sincere.update (h : s.Sincere) (hs : s.WellFormed) {r : ItemRef} {changes : Record}
    (hup : s.update r changes = .ok s') : s'.Sincere :=
  h.of_keepsRemovals (h.faithful.update hs hup) (keepsRemovals_update hs hup)

theorem Sincere.remove (h : s.Sincere) (hs : s.WellFormed) {r : ItemRef} {refs : List ItemRef}
    (hrem : s.remove r = .ok (refs, s')) : s'.Sincere := by
  refine ⟨h.faithful.remove hs hrem, fun r b hb => h.rewrites (rewrites_remove hs hrem) ?_ hb⟩
  rintro a b ht hback (rfl | ⟨hlive, source, rfl⟩)
  · exact hback
  · exact Item.truthful_restored_markRemoved ht hlive source

theorem Sincere.restore (h : s.Sincere) (hs : s.WellFormed) {r : ItemRef} {refs : List ItemRef}
    (hr : s.restore r = .ok (refs, s')) : s'.Sincere := by
  have hback : ∀ ⦃r b⦄, s'.item? r = some b → b.restored.Truthful := by
    refine fun r b hb => h.rewrites (rewrites_restore hs hr) ?_ hb
    rintro a b - hback (rfl | rfl)
    · exact hback
    · rwa [Item.restored_of_live a.removed_restored]
  refine ⟨h.faithful.restore hs hr fun r b hb hlive => ?_, hback⟩
  rw [← Item.restored_of_live hlive]
  exact hback hb

theorem Sincere.rollBack (h : s.Sincere) (hs : s.WellFormed) (hr : s.rollBack = .ok s') :
    s'.Sincere :=
  sincere_of_clean (h.faithful.rollBack hs hr) (clean_rollBack hs hr)

/-! ### Whole tables -/

theorem Faithful.reset (h : s.Faithful) (kinds : List Kind) : (s.reset kinds).Faithful := by
  intro r item hi
  refine (h (item?_reset hi)).succeeds ⟨Nat.le_refl _, fun r item hi _ => ⟨item, item?_reset hi⟩⟩

theorem Pulls.faithful {kinds : List Kind} (hp : Pulls db kinds s s') (hs : s.WellFormed)
    (hf : s.Faithful) (hdb : db.Sound) (hsh : db.Shaped) : s'.Faithful := by
  induction hp with
  | nil => exact hf
  | cons hfetch _ ih => exact ih hfetch.wellFormed (hfetch.faithful hs hf hdb hsh)

theorem Faithful.upToDate (hf : s.Faithful) : (s.upToDate db).Faithful := by
  intro r item hi
  exact (hf (r := r) hi).succeeds ⟨Nat.le_refl _, fun r item hi _ => ⟨item, hi⟩⟩

end Session

end StagedEdits
