import StagedEdits.Proofs.Truth

/-!
# What a session goes back to

Rolling back leaves committed items with the content of their rows, and drops what was never
written.  As long as a session restores undisturbed items only, it drops an item with a row in one
case alone: if the item was added and removed, and then kept in a conflict with a row that someone
else had written (`Workspace.items_after_rollBack`, `Workspace.row_without_item`).
-/

namespace StagedEdits

namespace Item

variable {item : Item}

/-- An item is dropped exactly if it is one to add, be it after its restoration. -/
theorem rolledBack?_eq_none_iff : item.rolledBack? = none ↔ item.restored.status = .toAdd := by
  have hlive := item.removed_restored
  unfold removed at hlive
  unfold rolledBack?
  split
  next hst => exact iff_of_true rfl hst
  next hst => rw [hst] at hlive; cases hlive
  next hst => exact iff_of_false nofun (by rw [hst]; decide)
  next hadd _ _ => exact iff_of_false nofun hadd

/-- A new item is dropped. -/
theorem rolledBack?_of_isNew (h : item.Consistent) (hnew : item.status.isNew = true) :
    item.rolledBack? = none := by
  rw [rolledBack?_eq_none_iff]
  cases hst : item.status with
  | toAdd => rw [restored_of_live (by rw [removed, hst]; rfl), hst]
  | addedAndRemoved => exact status_restored_of_added h hst
  | committed | toUpdate | toRemove => rw [hst] at hnew; cases hnew

end Item

namespace Session

variable {s s' : Session}

/-- An item that is left by a roll back had a row before. -/
theorem Faithful.dbId_of_rolledBack (hf : s.Faithful) (hs : s.WellFormed) {r : ItemRef} {a b : Item}
    (ha : s.item? r = some a) (hb : a.rolledBack? = some b) : ∃ d, a.dbId = some d := by
  refine hf.exists_dbId hs.toCoherent ha (Bool.eq_false_iff.2 fun hnew => ?_)
  rw [Item.rolledBack?_of_isNew (hs.consistent ha) hnew] at hb
  cases hb

end Session

namespace Workspace

variable {w : Workspace Database} {name : String} {s : Session}

/-- After a roll back the items of a session that restores undisturbed items only are those that had
a row, but for items that were to be added when they were removed.  All of them are committed and
agree with the rows that they had before. -/
theorem items_after_rollBack (hw : w.Reachable (CandidRun name)) (hs : w.session? name = some s)
    {reply : Reply} (hok : (w.perform name s .rollBack).1 = .ok reply) :
    ∃ s', (w.act (.ask name .rollBack)).session? name = some s' ∧
      (∀ r, (∃ b, s'.item? r = some b) ↔
        ∃ a d, s.item? r = some a ∧ a.dbId = some d ∧ a.restored.status ≠ .toAdd) ∧
      ∀ r b, s'.item? r = some b → b.status = .committed ∧ ∃ a row, s.item? r = some a ∧
        b.dbId = a.dbId ∧ a.synced = some row ∧ b.synced = some row ∧
        b.agreesWith (some row) = true := by
  obtain ⟨hreg, hc⟩ := candid_of_reachable hw hs
  have hwf := (hreg.session hs).toWellFormed
  rw [reply_rollBack] at hok
  cases hback : s.rollBack with
  | error e => rw [hback] at hok; cases hok
  | ok s' =>
    obtain ⟨-, -, hwf', hitem⟩ := Session.rollBack_spec hwf hback
    have hf' := hc.faithful.rollBack hwf hback
    refine ⟨s', ?_, fun r => ?_, fun r b hb => ?_⟩
    · rw [(act_ask hs _).2, if_pos rfl, outcome_rollBack hback]
    · rw [hitem]
      constructor
      · rintro ⟨b, hb⟩
        obtain ⟨a, ha, hb⟩ := Option.bind_eq_some_iff.1 hb
        obtain ⟨d, hd⟩ := hc.faithful.dbId_of_rolledBack hwf ha hb
        refine ⟨a, d, ha, hd, fun hadd => ?_⟩
        rw [Item.rolledBack?_eq_none_iff.2 hadd] at hb
        cases hb
      · rintro ⟨a, d, ha, -, hst⟩
        rw [ha, Option.bind_some]
        exact Option.ne_none_iff_exists'.1 fun hnone => hst (Item.rolledBack?_eq_none_iff.1 hnone)
    · have hst := Session.clean_rollBack hwf hback hb
      have hfaithful := hf' hb
      obtain ⟨-, row, hsync, hcontent⟩ := hfaithful.truthful.2 hst
      rw [hitem] at hb
      obtain ⟨a, ha, hb⟩ := Option.bind_eq_some_iff.1 hb
      obtain ⟨he, -⟩ := Item.edited_rolledBack (hwf.consistent ha) hb
      exact ⟨hst, a, row, ha, he.dbId_eq, he.synced_eq.symm.trans hsync, hsync,
        (Item.agreesWith_iff hfaithful.complete).2 hcontent⟩

/-- A session removes an alternative and keeps the removal in the conflict with a change that
another session has committed; it has another alternative that is still to be written. -/
def keptRemoval : List Event :=
  [.connect "a" {}, .ask "a" (.add .alternative (.ofList [("name", .text "base")])),
    .ask "a" (.commit "add"), .connect "b" {}, .ask "b" (.fetch .alternative none),
    .ask "b" (.update ⟨.alternative, .first⟩ (.ofList [("description", .text "theirs")])),
    .ask "b" (.commit "change"), .ask "a" (.remove ⟨.alternative, .first⟩),
    .ask "a" (.add .alternative (.ofList [("name", .text "high")])),
    .ask "a" (.fetch .alternative none)]

set_option maxRecDepth 4000 in
theorem items_after_rollBack_of_keptRemoval : ∃ (w : Workspace Database) (s : Session),
    w.Reachable (CandidRun "a") ∧ w.session? "a" = some s ∧
      (w.perform "a" s .rollBack).1 = .ok .done ∧
      ∃ s', (w.act (.ask "a" .rollBack)).session? "a" = some s' ∧
        (∀ r, (∃ b, s'.item? r = some b) ↔
          ∃ a d, s.item? r = some a ∧ a.dbId = some d ∧ a.restored.status ≠ .toAdd) ∧
        ∀ r b, s'.item? r = some b → b.status = .committed ∧ ∃ a row, s.item? r = some a ∧
          b.dbId = a.dbId ∧ a.synced = some row ∧ b.synced = some row ∧
          b.agreesWith (some row) = true := by
  have hrun : Run (fun w e => w.Plain e ∧ w.Heeds "a" (fun s _ command => command.isCandid s = true) e)
      (new .empty) keptRemoval := by decide +kernel
  have hreach : ((new .empty).after keptRemoval).Reachable (CandidRun "a") :=
    ⟨keptRemoval, hrun.mono fun _ _ h => ⟨h.1.orderly, h.2⟩, rfl⟩
  have hcheck : (((new .empty).after keptRemoval).session? "a").any (fun s =>
      decide ((((new .empty).after keptRemoval).perform "a" s .rollBack).1 = .ok .done)) = true := by
    decide +kernel
  obtain ⟨s, hs, hok⟩ := (Option.any_eq_true ..).1 hcheck
  have hok := of_decide_eq_true hok
  exact ⟨_, s, hreach, hs, hok, items_after_rollBack hreach hs hok⟩

/-- A session adds an alternative and removes it again.  Another session commits one of the same
name, and the first session keeps its removal in the conflict with that. -/
def removedTwin : List Event :=
  [.connect "a" {}, .ask "a" (.add .alternative (.ofList [("name", .text "base")])),
    .ask "a" (.remove ⟨.alternative, .first⟩), .connect "b" {},
    .ask "b" (.add .alternative (.ofList [("name", .text "base")])), .ask "b" (.commit "add"),
    .ask "a" (.fetch .alternative none)]

set_option maxRecDepth 4000 in
/-- The alternative has a row, but rolling back drops it. -/
theorem row_without_item : ∃ (w : Workspace Database) (s s' : Session) (a : Item) (d : DbId),
    w.Reachable Orderly ∧ w.session? "a" = some s ∧
      (w.perform "a" s .rollBack).1 = .ok .done ∧
      (w.act (.ask "a" .rollBack)).session? "a" = some s' ∧
      s.item? ⟨.alternative, .first⟩ = some a ∧ a.dbId = some d ∧
      s'.item? ⟨.alternative, .first⟩ = none := by
  have hrun : Run Plain (new .empty) removedTwin := by decide +kernel
  have hcheck : (((new .empty).after removedTwin).session? "a").any (fun s =>
      ((((new .empty).after removedTwin).act (.ask "a" .rollBack)).session? "a").any fun s' =>
      (s.item? ⟨.alternative, .first⟩).any fun a =>
        decide ((((new .empty).after removedTwin).perform "a" s .rollBack).1 = .ok .done) &&
        decide (a.dbId = some ⟨1⟩) &&
        (s'.item? ⟨.alternative, .first⟩).isNone) = true := by decide +kernel
  obtain ⟨s, hs, hcheck⟩ := (Option.any_eq_true ..).1 hcheck
  obtain ⟨s', hs', hcheck⟩ := (Option.any_eq_true ..).1 hcheck
  obtain ⟨a, ha, hcheck⟩ := (Option.any_eq_true ..).1 hcheck
  simp only [Bool.and_eq_true, decide_eq_true_eq, Option.isNone_iff_eq_none] at hcheck
  obtain ⟨⟨hok, hd⟩, hnone⟩ := hcheck
  exact ⟨_, s, s', a, _, hrun.reachable, hs, hok, hs', ha, hd,
    hnone⟩

end Workspace

end StagedEdits
