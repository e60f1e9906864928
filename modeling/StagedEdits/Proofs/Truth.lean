import StagedEdits.Proofs.Publish
import StagedEdits.Proofs.Shape
import StagedEdits.Proofs.Sincere

/-!
# Statuses that are true

The status of an item says what there is to know about its row: a committed item has the content of
its row, one to update or to remove has a row, and a new one has none (`Item.StatusHolds`).  All
commands keep this, with one exception.  A removed item that is kept in a conflict gets a row, but
remembers the status that it had before; restoring it then brings a status back that need no longer
be true (`restored_without_agreement`).  As long as a session restores undisturbed items only, its
statuses are true, whatever other sessions do (`statusHolds_of_reachable`).
-/

namespace StagedEdits

namespace Item

variable {item : Item}

/-- What the status of an item says about its row is so. -/
def StatusHolds (item : Item) : Prop :=
  match item.status with
  | .committed => ∃ d row, item.dbId = some d ∧ item.synced = some row ∧
      item.agreesWith (some row) = true
  | .toUpdate => ∃ d row, item.dbId = some d ∧ item.synced = some row
  | .toRemove => ∃ d row, item.dbId = some d ∧ item.synced = some row
  | .toAdd => item.dbId = none ∧ item.synced = none
  | .addedAndRemoved => item.dbId = none ∧ item.synced = none

/-- Whether a removed item has not been kept against a row since it was removed, as far as that
matters for the status that it had: one that was committed has nothing to go back to, and one that
was to be added has no row. -/
def isUndisturbed (item : Item) : Bool :=
  match item.restored.status with
  | .committed => item.backup.isNone
  | .toAdd => item.dbId.isNone
  | _ => true

/-- A restoration brings back a true status, if the item is undisturbed. -/
def Restorable (item : Item) : Prop := item.isUndisturbed = true → item.restored.Truthful

theorem statusHolds_of_faithful {s : Session} (h : item.Faithful s) (hcons : item.Consistent) :
    item.StatusHolds := by
  have hnew : item.status.isNew = true → item.dbId = none ∧ item.synced = none := by
    intro hnew
    have hsync := h.truthful.1.1 hnew
    refine ⟨?_, hsync⟩
    rw [hcons.dbId_eq, hsync]
    rfl
  have hold : item.status.isNew = false → ∃ d row, item.dbId = some d ∧ item.synced = some row := by
    intro hnew
    obtain ⟨row, hsync, hrow⟩ := h.exists_row hnew
    obtain ⟨d, hd⟩ := hrow.dbId?
    refine ⟨d, row, ?_, hsync⟩
    rw [hcons.dbId_eq, hsync]
    exact hd
  unfold StatusHolds
  cases hst : item.status with
  | committed =>
    obtain ⟨d, row, hd, hsync⟩ := hold (by rw [hst]; rfl)
    obtain ⟨-, row', hsync', hc⟩ := h.truthful.2 hst
    obtain rfl := Option.some.inj (hsync.symm.trans hsync')
    exact ⟨d, row, hd, hsync, (agreesWith_iff h.complete).2 hc⟩
  | toUpdate => exact hold (by rw [hst]; rfl)
  | toRemove => exact hold (by rw [hst]; rfl)
  | toAdd => exact hnew (by rw [hst]; rfl)
  | addedAndRemoved => exact hnew (by rw [hst]; rfl)

theorem restorable_of_live (ht : item.Truthful) (hlive : item.removed = false) :
    item.Restorable := fun _ => by
  rw [restored_of_live hlive]
  exact ht

theorem restorable_markRemoved (ht : item.Truthful) (hlive : item.removed = false)
    (source : Option ItemRef) : (item.markRemoved source).Restorable := fun _ =>
  truthful_restored_markRemoved ht hlive source

/-- A removed item that is kept against a row has the content of the row as its backup, and is
restorable since it is then not undisturbed, unless it was to be updated. -/
theorem restorable_keptAgainst (hrem : item.removed = true) {row : Record}
    (hrow : ∃ d, row.dbId? = some d) : (item.keptAgainst (some row)).Restorable := by
  have heq : item.keptAgainst (some row) = (item.bindTo row).backedUpBy row := by
    have hst : item.status ≠ .committed := fun h => by
      rw [removed, h] at hrem
      cases hrem
    unfold keptAgainst
    dsimp only
    rw [if_neg (show ¬ (item.isUncommittedAgainst (some row) = true ∧ item.status = .committed) from
      fun h => hst h.2), if_pos (show (item.bindTo row).removed = true ∨ _ from .inl hrem)]
  rw [heq]
  intro hun
  have hlive := removed_restored ((item.bindTo row).backedUpBy row)
  have hsync : ((item.bindTo row).backedUpBy row).restored.synced = some row :=
    synced_restored _
  unfold isUndisturbed at hun
  unfold removed at hlive
  unfold Truthful
  rw [hsync]
  cases hst : ((item.bindTo row).backedUpBy row).restored.status with
  | committed => rw [hst] at hun; cases hun
  | toAdd =>
    obtain ⟨d, hd⟩ := hrow
    have hdb : ((item.bindTo row).backedUpBy row).dbId = some d := hd
    rw [hst, hdb] at hun
    cases hun
  | toUpdate => simp [Status.isNew]
  | toRemove => rw [hst] at hlive; cases hlive
  | addedAndRemoved => rw [hst] at hlive; cases hlive

end Item

/-- A removed item is there after a fetch if it was there before, untouched, or was kept in a
conflict with a row. -/
theorem Origin.removed_cases {s : Session} {kind : Kind} {rows : List Record} {item : Item}
    (h : Origin s kind rows item) (hrem : item.removed = true) :
    s.item? ⟨kind, item.id⟩ = some item ∨ ∃ (r : Resolved) (row : Record),
      r.choice = .keepLocal ∧ r.outcome? = some item ∧ r.row = some row ∧ row ∈ rows ∧
      r.item.removed = true ∧ item = (r.item.withStatus .toRemove).keptAgainst (some row) := by
  have hcommitted : ∀ {a : Item}, a.status = .committed → a.removed = true → False := by
    intro a hst hrem
    rw [Item.removed, hst] at hrem
    cases hrem
  cases h with
  | kept hitem => exact .inl hitem
  | loaded => cases hrem
  | changed _ hst => exact (hcommitted (a := Item.adopt _ _) hst hrem).elim
  | @twin a row _ _ _ =>
    unfold Item.claim at hrem
    dsimp only at hrem
    split at hrem <;> cases hrem
  | @settled r item d _ hd hrow hb =>
    rcases Resolved.outcome?_eq_some hb with
      ⟨-, row, -, ⟨-, rfl⟩ | ⟨-, rfl⟩⟩ | ⟨hchoice, kept, rfl, ⟨hr, rfl⟩ | ⟨hr, hkept⟩⟩
    · unfold Item.resurrectedBy at hrem
      dsimp only at hrem
      split at hrem <;> cases hrem
    · cases hrem
    · -- a removed item only comes into conflict with a row that is there
      cases hrr : r.row with
      | none =>
        unfold Item.divergence? at hd
        unfold Item.removed at hr
        rw [hrr] at hd
        revert hd hr
        cases r.item.status <;> simp [Status.isRemoved]
      | some row =>
        rw [hrr] at hb
        exact .inr ⟨r, row, hchoice, hb, hrr, hrow row hrr, hr, rfl⟩
    · rw [Item.removed_keptAgainst] at hrem
      rcases hkept with rfl | rfl
      · rw [hr] at hrem
        cases hrem
      · cases hrem

namespace Session

variable {s s' : Session} {db db₁ db' : Database} {kind : Kind}

/-- The statuses of all items are true, and stay so when undisturbed items are restored. -/
structure Candid (s : Session) : Prop where
  faithful : s.Faithful
  restorable : ∀ ⦃r item⦄, s.item? r = some item → item.Restorable

theorem candid_new (config : Config) (count : Nat) : (new config count).Candid :=
  ⟨fun _ _ h => (nomatch h), fun _ _ h => (nomatch h)⟩

/-- Live items are restorable since their statuses are true. -/
theorem candid_of_removed (hf : s.Faithful)
    (h : ∀ ⦃r item⦄, s.item? r = some item → item.removed = true → item.Restorable) :
    s.Candid := by
  refine ⟨hf, fun r item hi => ?_⟩
  cases hrem : item.removed with
  | true => exact h hi hrem
  | false => exact Item.restorable_of_live (hf hi).truthful hrem

theorem Candid.of_keepsRemovals (h : s.Candid) (hf : s'.Faithful) (hkeep : s.KeepsRemovals s') :
    s'.Candid :=
  candid_of_removed hf fun _ _ hi hrem => h.restorable (hkeep hi hrem)

/-! ### Restoring -/

/-- A restoration restores the items that it lists, and no others. -/
theorem item?_restore (hs : s.Named) {r : ItemRef} {refs : List ItemRef}
    (h : s.restore r = .ok (refs, s')) (r' : ItemRef) :
    s'.item? r' = s.item? r' ∨ (r' ∈ refs ∧ s'.item? r' = (s.item? r').map Item.restored) := by
  obtain ⟨-, -, ⟨-, -, rfl⟩ | ⟨-, -, heq⟩⟩ := restore_eq_ok h
  · exact .inl rfl
  · obtain ⟨hback, hrest⟩ := restoreAll_spec hs [r]
    rw [heq] at hback hrest
    by_cases hmem : r' ∈ refs
    · obtain ⟨a, ha, -, hafter⟩ := hback r' hmem
      exact .inr ⟨hmem, by rw [ha, Option.map_some, hafter]⟩
    · exact .inl (hrest r' hmem)

/-- A restoration of undisturbed items leaves all statuses true. -/
theorem Candid.restore (h : s.Candid) (hs : s.WellFormed) {r : ItemRef} {refs : List ItemRef}
    (hr : s.restore r = .ok (refs, s'))
    (hun : ∀ r ∈ refs, ∀ item, s.item? r = some item → item.isUndisturbed = true) :
    s'.Candid := by
  have hitem := item?_restore hs.named hr
  have hcases : ∀ {r b}, s'.item? r = some b → s.item? r = some b ∨ b.Truthful := by
    intro r b hb
    rcases hitem r with heq | ⟨hmem, heq⟩
    · exact .inl (heq.symm.trans hb)
    · rw [heq] at hb
      obtain ⟨a, ha, rfl⟩ := Option.map_eq_some_iff.1 hb
      exact .inr (h.restorable ha (hun r hmem a ha))
  have hf : s'.Faithful := by
    refine h.faithful.restore hs hr fun r b hb _ => ?_
    exact (hcases hb).elim (fun ha => (h.faithful ha).truthful) id
  refine candid_of_removed hf fun r b hb hrem => ?_
  rcases hitem r with heq | ⟨-, heq⟩
  · exact h.restorable (heq.symm.trans hb)
  · rw [heq] at hb
    obtain ⟨a, -, rfl⟩ := Option.map_eq_some_iff.1 hb
    rw [a.removed_restored] at hrem
    cases hrem

/-! ### Fetching -/

theorem Candid.fetches (h : s.Candid) (hs : s.WellFormed) (hdb : db.Sound) (hsh : db.Shaped)
    (hf : s.Fetches kind (db.rows kind) s') : s'.Candid := by
  refine candid_of_removed (hf.faithful hs h.faithful hdb hsh) ?_
  rintro ⟨k, id⟩ item hi hrem
  by_cases hk : k = kind
  · subst hk
    rcases (hf.origin hi).removed_cases hrem with hitem | ⟨r, row, -, -, -, hrow, hr, rfl⟩
    · exact h.restorable hitem
    · refine Item.restorable_keptAgainst rfl ?_
      obtain ⟨d, -, hd, -⟩ := exists_dbId_of_readable hdb.filed hrow
      exact ⟨d, hd⟩
  · exact h.restorable (hf.item? (r := ⟨k, id⟩) hk hi)

theorem Pulls.candid {kinds : List Kind} (hp : Pulls db kinds s s') (hs : s.WellFormed)
    (h : s.Candid) (hdb : db.Sound) (hsh : db.Shaped) : s'.Candid := by
  induction hp with
  | nil => exact h
  | cons hf _ ih => exact ih hf.wellFormed (h.fetches hs hdb hsh hf)

theorem Candid.upToDate (h : s.Candid) : (s.upToDate db).Candid :=
  ⟨h.faithful.upToDate, h.restorable⟩

theorem Candid.atCommit (h : s.Candid) (hs : s.WellFormed) (hdb : db.Sound) (hsh : db.Shaped) :
    (s.atCommit db).Candid := by
  rcases atCommit_cases hs hdb with ⟨heq, -⟩ | ⟨-, s₁, heq, hp⟩
  · rw [heq]; exact h
  · rw [heq]; exact (hp.candid hs h hdb hsh).upToDate

/-! ### All commands -/

/-- If all items are committed, nothing is there to be restored. -/
theorem candid_of_clean (hf : s.Faithful) (hc : s.Clean) : s.Candid := by
  refine candid_of_removed hf fun r item hi hrem => ?_
  rw [Item.removed, hc hi] at hrem
  cases hrem

end Session

/-- Whether a command restores undisturbed items only. -/
def Command.isCandid (s : Session) : Command → Bool
  | restore r =>
    match s.restore r with
    | .ok (refs, _) => refs.all fun r => (s.item? r).all Item.isUndisturbed
    | .error _ => true
  | _ => true

namespace Session

variable {s s' : Session} {db db' : Database}

/-- Every command that restores undisturbed items only leaves the statuses of a session true. -/
theorem Step.candid {command : Command} (h : s.Step db command s' db') (hs : s.WellFormed)
    (hc : s.Candid) (hdb : db.Sound) (hsh : db.Shaped) (hcommand : command.isCandid s = true) :
    s'.Candid := by
  cases h with
  | idle => exact hc
  | add h =>
    exact hc.of_keepsRemovals (hc.faithful.add hs.toCoherent h) (keepsRemovals_add h)
  | update h =>
    exact hc.of_keepsRemovals (hc.faithful.update hs h) (keepsRemovals_update hs h)
  | remove h =>
    refine ⟨hc.faithful.remove hs h, fun r b hb => ?_⟩
    obtain ⟨a, ha, rfl | ⟨hlive, source, rfl⟩⟩ := (rewrites_remove hs h).some_of hb
    · exact hc.restorable ha
    · exact Item.restorable_markRemoved (hc.faithful ha).truthful hlive source
  | restore h =>
    refine hc.restore hs h fun r hr item hi => ?_
    unfold Command.isCandid at hcommand
    dsimp only at hcommand
    rw [h] at hcommand
    have hall := List.all_eq_true.1 hcommand r hr
    rwa [hi] at hall
  | fetch h => exact h.candid hs hc hdb hsh
  | refresh h => exact (h.candid hs hc hdb hsh).upToDate
  | refused h => exact hc.atCommit hs hdb hsh
  | commit hres h =>
    have hwf := wellFormed_atCommit hs hdb
    have hmid := hc.atCommit hs hdb hsh
    exact candid_of_clean (h.faithful hwf hmid.faithful hres) (h.clean hwf hres)
  | rollBack h =>
    exact candid_of_clean (hc.faithful.rollBack hs h) (clean_rollBack hs h)
  | reset =>
    exact hc.of_keepsRemovals (hc.faithful.reset _) (.of_subset fun _ _ => item?_reset)

end Session

namespace Workspace

variable {w : Workspace Database} {name : String} {s : Session}

/-- The run of a session that restores undisturbed items only; other sessions may do as they
like. -/
def CandidRun (name : String) (w : Workspace Database) (e : Event) : Prop :=
  w.Orderly e ∧ w.Heeds name (fun s _ command => command.isCandid s = true) e

theorem candid_of_reachable (hw : w.Reachable (CandidRun name)) (hs : w.session? name = some s) :
    w.All Database.Regular Session.Regular ∧ s.Candid := by
  obtain ⟨hreg, hcandid⟩ := heeding_of_reachable hw Session.candid_new
    fun {s db command} hreg hdb hh hr hcommand hc =>
      (hreg.step hdb hh hr).candid hreg.toWellFormed hc hdb.toSound hdb.shaped hcommand
  exact ⟨hreg, hcandid s hs⟩

/-- After any orderly run in which a session restores undisturbed items only, the statuses of its
items are true. -/
theorem statusHolds_of_reachable (hw : w.Reachable (CandidRun name))
    (hs : w.session? name = some s) {r : ItemRef} {item : Item} (hi : s.item? r = some item) :
    item.StatusHolds := by
  obtain ⟨hreg, hc⟩ := candid_of_reachable hw hs
  exact Item.statusHolds_of_faithful (hc.faithful hi) ((hreg.session hs).consistent hi)

/-- A session removes an alternative that another session changes at the same time, and restores it
before it hears of the change. -/
def restoredInTime : List Event :=
  [.connect "a" {}, .ask "a" (.add .alternative (.ofList [("name", .text "base")])),
    .ask "a" (.commit "add"), .connect "b" {}, .ask "b" (.fetch .alternative none),
    .ask "b" (.update ⟨.alternative, .first⟩ (.ofList [("description", .text "theirs")])),
    .ask "a" (.remove ⟨.alternative, .first⟩), .ask "b" (.commit "change"),
    .ask "a" (.restore ⟨.alternative, .first⟩), .ask "a" (.fetch .alternative none)]

set_option maxRecDepth 4000 in
theorem statusHolds_of_restoredInTime : ∃ (w : Workspace Database) (s : Session) (item : Item),
    w.Reachable (CandidRun "a") ∧ w.session? "a" = some s ∧
      s.item? ⟨.alternative, .first⟩ = some item ∧ item.StatusHolds := by
  have hrun : Run (fun w e => w.Plain e ∧ w.Heeds "a" (fun s _ command => command.isCandid s = true) e)
      (new .empty) restoredInTime := by decide +kernel
  have hreach : ((new .empty).after restoredInTime).Reachable (CandidRun "a") :=
    ⟨restoredInTime, hrun.mono fun _ _ h => ⟨h.1.orderly, h.2⟩, rfl⟩
  have hcheck : (((new .empty).after restoredInTime).session? "a").any (fun s =>
      (s.item? ⟨.alternative, .first⟩).isSome) = true := by decide +kernel
  obtain ⟨s, hs, hitem⟩ := (Option.any_eq_true ..).1 hcheck
  obtain ⟨item, hi⟩ := Option.isSome_iff_exists.1 hitem
  exact ⟨_, s, item, hreach, hs, hi, statusHolds_of_reachable hreach hs hi⟩

/-- A session removes an alternative, keeps the removal in the conflict with a change that another
session has committed, and then restores the alternative. -/
def restoredTooLate : List Event :=
  [.connect "a" {}, .ask "a" (.add .alternative (.ofList [("name", .text "base")])),
    .ask "a" (.commit "add"), .connect "b" {}, .ask "b" (.fetch .alternative none),
    .ask "b" (.update ⟨.alternative, .first⟩ (.ofList [("description", .text "theirs")])),
    .ask "a" (.remove ⟨.alternative, .first⟩), .ask "b" (.commit "change"),
    .ask "a" (.fetch .alternative none), .ask "a" (.restore ⟨.alternative, .first⟩)]

set_option maxRecDepth 4000 in
/-- The restored alternative is committed, but does not agree with its row. -/
theorem restored_without_agreement : ∃ (w : Workspace Database) (s : Session) (item : Item),
    w.Reachable Orderly ∧ w.session? "a" = some s ∧ s.item? ⟨.alternative, .first⟩ = some item ∧
      ¬ item.StatusHolds := by
  have hrun : Run Plain (new .empty) restoredTooLate := by decide +kernel
  have hcheck : (((new .empty).after restoredTooLate).session? "a").any (fun s =>
      (s.item? ⟨.alternative, .first⟩).any fun item =>
        decide (item.status = .committed) && !item.agreesWith item.synced) = true := by
    decide +kernel
  obtain ⟨s, hs, hcheck⟩ := (Option.any_eq_true ..).1 hcheck
  obtain ⟨item, hi, hcheck⟩ := (Option.any_eq_true ..).1 hcheck
  simp only [Bool.and_eq_true, decide_eq_true_eq, Bool.not_eq_true'] at hcheck
  obtain ⟨hst, hdisagree⟩ := hcheck
  refine ⟨_, s, item, hrun.reachable, hs, hi, ?_⟩
  unfold Item.StatusHolds
  rw [hst]
  rintro ⟨d, row, -, hsync, hagree⟩
  rw [hsync, hagree] at hdisagree
  cases hdisagree

end Workspace

end StagedEdits
