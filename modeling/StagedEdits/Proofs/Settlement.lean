import StagedEdits.Proofs.Faithful

/-!
# An answer settles its conflict

Whatever the item, the row and the side that was chosen: what the answer makes of the item is not in
conflict with that row any more (`Item.Settles`).  Nothing is assumed about how item and row came
together, so this also covers rows that lack fields and items that no session would bring into
conflict.

* `Action.settles_result?`: one lemma for each action.
* `overwrittenBy_eq_resurrectedBy`: on a row with all fields of the kind, the two ways to take a
  row over are the same.
-/

namespace StagedEdits

namespace Item

/-- The identity fields are those of the given row, and so is what the item last agreed with. -/
structure BoundTo (item : Item) (row : Option Record) : Prop where
  dbId_eq : item.dbId = row.bind Record.dbId?
  commitId_eq : item.commitId = row.bind Record.commitId?
  synced_eq : item.synced = row

/-- Item `b` is what settling a conflict of item `a` with a row, or with the want of one, may leave:
no conflict with that row, and of the content what the chosen side says. -/
structure Settles (a : Item) (row : Option Record) (choice : Choice) (b : Item) : Prop where
  ref_eq : b.ref = a.ref
  bound : b.BoundTo row
  divergence? : b.divergence? row = none
  kept : choice = .keepLocal → b.content = a.content ∧ b.removed = a.removed
  taken : choice = .takeStored → b.removed = false ∧ ∀ field ∈ a.kind.fields, ∀ v,
    (row.bind fun row => row.get? field) = some v → b.content.get? field = some v

variable {a b item : Item} {row : Record}

/-- An item bound to a row has come apart only from other rows. -/
theorem BoundTo.divergence? (h : item.BoundTo (some row)) : item.divergence? (some row) = none := by
  unfold Item.divergence?
  cases item.status <;> simp [h.synced_eq]

/-! ### Keeping an item -/

/-- Keeping an item binds it to the row that it is kept against. -/
theorem boundTo_keptAgainst (item : Item) (row : Option Record) :
    (item.keptAgainst row).BoundTo row := by
  unfold keptAgainst
  dsimp only
  cases row with
  | none => dsimp only; split <;> split <;> exact ⟨rfl, rfl, rfl⟩
  | some row => dsimp only; split <;> split <;> exact ⟨rfl, rfl, rfl⟩

/-- A kept item without a row is one to add or stays removed. -/
theorem divergence?_keptAgainst_none (item : Item) :
    (item.keptAgainst none).divergence? none = none := by
  have hstatus : (item.keptAgainst none).status ≠ .toUpdate := by
    unfold keptAgainst
    dsimp only
    generalize (if item.isUncommittedAgainst none = true ∧ item.status = .committed then
      item.withStatus .toUpdate else item).unbound = free
    split
    next hremoved =>
      intro hstatus
      rw [removed, hstatus] at hremoved
      cases hremoved
    next =>
      intro hstatus
      cases hstatus
  unfold Item.divergence?
  cases hs : (item.keptAgainst none).status with
  | toUpdate => exact absurd hs hstatus
  | _ => rfl

theorem settles_keptAgainst (item : Item) (row : Option Record) :
    item.Settles row .keepLocal (item.keptAgainst row) where
  ref_eq := item.ref_keptAgainst row
  bound := item.boundTo_keptAgainst row
  divergence? := by
    cases row with
    | none => exact item.divergence?_keptAgainst_none
    | some row => exact (item.boundTo_keptAgainst (some row)).divergence?
  kept := fun _ => ⟨item.content_keptAgainst row, item.removed_keptAgainst row⟩
  taken := nofun

/-! ### Taking a row over -/

/-- Adopting a row after a restoration takes every field of the content that it has. -/
theorem get?_adopt_restored {field : String} {v : Value} (hf : field ∈ item.kind.fields)
    (hv : row.get? field = some v) : (item.restored.adopt row).content.get? field = some v := by
  rw [get?_adopt, kind_restored, if_pos hf, hv, Option.some_or]

theorem settles_overwrittenBy (item : Item) (row : Record) :
    item.Settles (some row) .takeStored (item.overwrittenBy row) where
  ref_eq := item.ref_restored
  bound := ⟨rfl, rfl, rfl⟩
  divergence? := rfl
  kept := nofun
  taken := fun _ => ⟨rfl, fun _ hf _ hv => get?_adopt_restored hf hv⟩

/-- An item that comes back is the row's, committed or to be updated. -/
theorem resurrectedBy_cases (item : Item) (row : Record) :
    item.resurrectedBy row = item.overwrittenBy row ∨
      item.resurrectedBy row = (item.restored.adopt row).withStatus .toUpdate := by
  unfold resurrectedBy
  dsimp only
  split
  · exact .inl rfl
  · exact .inr rfl

theorem settles_resurrectedBy (item : Item) (row : Record) :
    item.Settles (some row) .takeStored (item.resurrectedBy row) := by
  rcases item.resurrectedBy_cases row with h | h
  · rw [h]
    exact item.settles_overwrittenBy row
  · rw [h]
    exact {
      ref_eq := item.ref_restored
      bound := ⟨rfl, rfl, rfl⟩
      divergence? := BoundTo.divergence? ⟨rfl, rfl, rfl⟩
      kept := nofun
      taken := fun _ => ⟨rfl, fun _ hf _ hv => get?_adopt_restored hf hv⟩ }

/-- An item that adopts a row with all fields agrees with it. -/
theorem agreesWith_adopt (h : item.kind.Covers row) : (item.adopt row).agreesWith (some row) = true := by
  refine List.all_eq_true.2 fun field (hf : field ∈ item.kind.fields) => decide_eq_true ?_
  obtain ⟨v, hv⟩ := h field hf
  have hget : (item.adopt row).content.get? field = some v := by
    rw [get?_adopt, if_pos hf, hv, Option.some_or]
  rw [Record.value, Record.value, hget, hv]

theorem overwrittenBy_eq_resurrectedBy (h : item.kind.Covers row) :
    item.overwrittenBy row = item.resurrectedBy row := by
  unfold resurrectedBy
  rw [if_pos (agreesWith_adopt (by rw [kind_restored]; exact h))]
  rfl

end Item

/-! ### Actions -/

/-- The side that an action takes. -/
def Action.side : Action → Choice
  | keep => .keepLocal
  | overwrite => .takeStored
  | resurrect => .takeStored

namespace Action

variable {action : Action} {c : Conflict}

/-- What an action leaves settles the conflict. -/
theorem settles_result? {b : Item} (hb : action.result? c = some b) :
    c.item.Settles c.row action.side b := by
  cases action with
  | keep =>
    obtain rfl := Option.some.inj hb
    exact c.item.settles_keptAgainst c.row
  | overwrite =>
    obtain ⟨row, hrow, rfl⟩ := Option.map_eq_some_iff.1 hb
    rw [hrow]
    exact c.item.settles_overwrittenBy row
  | resurrect =>
    obtain ⟨row, hrow, rfl⟩ := Option.map_eq_some_iff.1 hb
    rw [hrow]
    exact c.item.settles_resurrectedBy row

/-- An action leaves no item exactly if it takes over a row that is gone. -/
theorem result?_eq_none_iff : action.result? c = none ↔ action.side = .takeStored ∧ c.row = none := by
  cases action with
  | keep => exact iff_of_false nofun fun h => nomatch h.1
  | overwrite => exact Option.map_eq_none_iff.trans (and_iff_right rfl).symm
  | resurrect => exact Option.map_eq_none_iff.trans (and_iff_right rfl).symm

end Action

namespace Resolved

variable {r m : Resolved}

theorem side_action (r : Resolved) : r.action.side = r.choice := by
  unfold action
  cases r.choice <;> rfl

/-- Marking an item keeps its content and whether it is removed. -/
theorem keeps_markedDirty (r : Resolved) :
    r.markedDirty.item.content = r.item.content ∧ r.markedDirty.item.removed = r.item.removed := by
  unfold markedDirty
  cases r.choice with
  | takeStored => exact ⟨rfl, rfl⟩
  | keepLocal =>
    dsimp only
    split
    next hr => exact ⟨rfl, hr.symm⟩
    next hlive =>
      split
      · exact ⟨rfl, rfl⟩
      · exact ⟨rfl, (Bool.eq_false_iff.2 hlive).symm⟩

/-- What settles the conflict of a marked item settles that of the item. -/
theorem settles_of_markedDirty {choice : Choice} {b : Item}
    (h : r.markedDirty.item.Settles r.markedDirty.row choice b) : r.item.Settles r.row choice b := by
  obtain ⟨hcontent, hremoved⟩ := r.keeps_markedDirty
  have hkind : r.markedDirty.item.kind = r.item.kind := congrArg ItemRef.kind r.ref_markedDirty
  have hrow := r.row_markedDirty
  exact {
    ref_eq := h.ref_eq.trans r.ref_markedDirty
    bound := hrow ▸ h.bound
    divergence? := hrow ▸ h.divergence?
    kept := fun hc => ⟨(h.kept hc).1.trans hcontent, (h.kept hc).2.trans hremoved⟩
    taken := fun hc => hkind ▸ hrow ▸ h.taken hc }

/-- Every answer settles its conflict, whether or not the item is marked before: there is no item
left exactly if the row that was chosen is gone, and otherwise the item is bound to the row and not
in conflict with it.  A removed item comes back as the same item by either of the two actions that
take a row over, if the row has all fields of its kind. -/
theorem settles_of_answer (hm : m = r ∨ m = r.markedDirty) {action : Action}
    (ha : action = m.action ∨ m.isResurrection = true ∧ action = .resurrect) :
    (action.result? m.toConflict = none ↔ r.choice = .takeStored ∧ r.row = none) ∧
      (∀ b, action.result? m.toConflict = some b → r.item.Settles r.row r.choice b) ∧
      ∀ row, r.item.removed = true → r.row = some row → r.item.kind.Covers row →
        Action.overwrite.result? m.toConflict = Action.resurrect.result? m.toConflict := by
  have hchoice : m.choice = r.choice := by
    rcases hm with rfl | rfl
    · rfl
    · exact r.choice_markedDirty
  have hrow : m.row = r.row := by
    rcases hm with rfl | rfl
    · rfl
    · exact r.row_markedDirty
  have hkind : m.item.kind = r.item.kind := by
    rcases hm with rfl | rfl
    · rfl
    · exact congrArg ItemRef.kind r.ref_markedDirty
  have hside : action.side = r.choice := by
    rcases ha with rfl | ⟨hres, rfl⟩
    · rw [side_action, hchoice]
    · rw [← hchoice]
      exact (of_decide_eq_true hres).1.symm
  refine ⟨?_, fun b hb => ?_, fun row _ hr hcovers => ?_⟩
  · rw [Action.result?_eq_none_iff, hside]
    exact and_congr_right fun _ => by rw [show m.toConflict.row = r.row from hrow]
  · have hsettles := Action.settles_result? hb
    rw [hside] at hsettles
    rcases hm with rfl | rfl
    · exact hsettles
    · exact settles_of_markedDirty hsettles
  · change m.row.map m.item.overwrittenBy = m.row.map m.item.resurrectedBy
    rw [hrow, hr]
    exact congrArg some (Item.overwrittenBy_eq_resurrectedBy (hkind ▸ hcovers))

/-- An alternative is removed, and the database has a new row of the same name: taking the row
brings the alternative back, and keeping the removal leaves it removed and bound to the new row. -/
theorem settles_of_recreated_alternative : ∃ (c : Conflict) (row : Record) (back kept : Item),
    (c.item.removed = true ∧ c.row = some row ∧ c.item.kind.Covers row ∧
      (c.resolve .takeStored).isResurrection = true) ∧
      (Action.resurrect.result? c = some back ∧ Action.overwrite.result? c = some back ∧
        c.item.Settles c.row .takeStored back) ∧
      Action.keep.result? (c.resolve .keepLocal).markedDirty.toConflict = some kept ∧
        c.item.Settles c.row .keepLocal kept := by
  let old : Record := .ofList [("commit_id", .integer 1), ("id", .integer 3), ("name", .text "nemo")]
  let row : Record := .ofList [("commit_id", .integer 2), ("description", .text "fish"),
    ("id", .integer 8), ("name", .text "nemo")]
  let c : Conflict := ⟨(Item.loaded ⟨1⟩ .alternative old).markRemoved none, some row⟩
  have hcovers : c.item.kind.Covers row := fun field hf => by
    have hall : ∀ field ∈ Kind.alternative.fields, (row.get? field).isSome = true := by decide
    exact Option.isSome_iff_exists.1 (hall field hf)
  obtain ⟨-, htake, hsame⟩ := settles_of_answer (r := c.resolve .takeStored) (.inl rfl)
    (.inr ⟨by decide, rfl⟩)
  obtain ⟨-, hkeep, -⟩ := settles_of_answer (r := c.resolve .keepLocal) (.inr rfl) (.inl rfl)
  exact ⟨c, row, _, _, ⟨by decide, rfl, hcovers, by decide⟩,
    ⟨rfl, hsame row (by decide) rfl hcovers, htake _ rfl⟩, rfl, hkeep _ rfl⟩

end Resolved

end StagedEdits
