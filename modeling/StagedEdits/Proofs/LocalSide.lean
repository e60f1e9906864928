import Mathlib.Data.List.Perm.Subperm
import StagedEdits.Proofs.Upkeep

/-!
# Conflicts decided for the session

When a conflict is decided for the session, an item with a local change keeps its content and stays
pending (`Item.Keeps`), be it against another row or against the loss of its row.  If that is what
becomes of all conflicts of a pass, every item that was set aside is back afterwards, and nothing is
evicted (`Session.settle_of_keepLocal`).
-/

namespace StagedEdits

/-- Whether the next commit has to write an item. -/
def Item.Pending (item : Item) : Prop := item.status = .toAdd ∨ item.status = .toUpdate

/-- Item `b` carries the pending edit of item `a`, or it has taken over a row that says the same. -/
inductive Item.Keeps (a b : Item) : Prop
  | pending (content_eq : b.content = a.content) (status : b.Pending)
  | adopted (row : Record) (content_eq : b.content = a.content) (wasNew : a.status = .toAdd)
      (status : b.status = .committed) (synced : b.synced = some row) (dbId_eq : b.dbId = row.dbId?)
      (agrees : b.agreesWith (some row) = true)

namespace Item

variable {a b : Item}

theorem Keeps.refl (h : a.Pending) : a.Keeps a := .pending rfl h

theorem Keeps.content_eq (h : a.Keeps b) : b.content = a.content := by
  cases h <;> assumption

/-- An item to add that takes over the row of its twin. -/
theorem Keeps.claim (h : a.Keeps b) (hnew : a.status = .toAdd) (row : Record) :
    a.Keeps (b.claim row) := by
  have hcontent : (b.claim row).content = b.content := by
    unfold Item.claim
    dsimp only
    split <;> rfl
  by_cases hagree : (b.bindTo row).agreesWith (some row) = true
  · have hclaim : b.claim row = { b.bindTo row with status := .committed, backup := none } := by
      unfold Item.claim
      exact if_pos hagree
    exact .adopted row (hcontent.trans h.content_eq) hnew (by rw [hclaim]) (by rw [hclaim]; rfl)
      (by rw [hclaim]; rfl) (by rw [hclaim]; exact hagree)
  · have hclaim : (b.claim row).status = .toUpdate := by
      unfold Item.claim
      rw [if_neg hagree]
      rfl
    exact .pending (hcontent.trans h.content_eq) (.inr hclaim)

/-- An item with a local change that is kept against a row, or against the loss of its row. -/
theorem keeps_keptAgainst (h : b.status = .toUpdate) (hcontent : b.content = a.content)
    (row : Option Record) : a.Keeps (b.keptAgainst row) := by
  have hkept : ∀ row, ¬ (b.isUncommittedAgainst row = true ∧ b.status = .committed) := by
    rintro row ⟨-, hc⟩
    rw [h] at hc
    cases hc
  unfold keptAgainst
  dsimp only
  rw [if_neg (hkept row)]
  cases row with
  | none =>
    have hlive : b.unbound.removed = false := by
      show b.status.isRemoved = false
      rw [h]
      rfl
    dsimp only
    rw [if_neg (by simp [hlive])]
    exact .pending hcontent (.inl rfl)
  | some row =>
    dsimp only
    split
    · exact .pending hcontent (.inr h)
    · exact .pending hcontent (.inr h)

end Item

namespace Resolved

variable {r : Resolved}

/-- A conflict decided for the session keeps the item. -/
theorem outcome?_of_keepLocal (h : r.choice = .keepLocal) :
    r.outcome? = some (r.markedDirty.item.keptAgainst r.row) := by
  have hmarked : r.markedDirty.choice = .keepLocal ∧ r.markedDirty.row = r.row := by
    unfold markedDirty
    rw [h]
    dsimp only
    split
    · exact ⟨rfl, rfl⟩
    · split
      · exact ⟨h, rfl⟩
      · exact ⟨rfl, rfl⟩
  have hkeep : r.markedDirty.settlement = .keep := by
    unfold settlement isResurrection action
    rw [hmarked.1]
    rfl
  unfold outcome?
  rw [hkeep]
  exact congrArg (fun row => some (r.markedDirty.item.keptAgainst row)) hmarked.2

theorem keeps_outcome? (h : r.choice = .keepLocal) (hst : r.item.status = .toUpdate) :
    ∃ b, r.outcome? = some b ∧ r.item.Keeps b := by
  refine ⟨_, outcome?_of_keepLocal h, ?_⟩
  have hmarked : r.markedDirty.item.status = .toUpdate ∧
      r.markedDirty.item.content = r.item.content := by
    have hlive : r.item.removed = false := by
      unfold Item.removed
      rw [hst]
      rfl
    unfold markedDirty
    rw [h]
    dsimp only
    rw [if_neg (by simp [hlive])]
    split
    · exact ⟨hst, rfl⟩
    · exact ⟨rfl, rfl⟩
  exact Item.keeps_keptAgainst hmarked.1 hmarked.2 r.row

end Resolved

/-- Answers without a fault are as many as the conflicts. -/
theorem length_of_contractFault? {conflicts : List Conflict} {answers : List Resolved}
    (h : contractFault? conflicts answers = none) : answers.length = conflicts.length := by
  unfold contractFault? at h
  split at h
  next => cases h
  next hlen => exact by_contra hlen

/-- Answers without a fault answer every conflict. -/
theorem exists_answer_of_contractFault? {conflicts : List Conflict} {answers : List Resolved}
    (h : contractFault? conflicts answers = none) :
    (answers.map (·.item.id)).Nodup ∧ ∀ c ∈ conflicts, ∃ r ∈ answers, r.item = c.item := by
  have hgo : ∀ (answers : List Resolved) (seen : List ItemId),
      contractFault?.go conflicts seen answers = none →
        (answers.map (·.item.id)).Nodup ∧ ∀ r ∈ answers, r.item.id ∉ seen := by
    intro answers
    induction answers with
    | nil => exact fun _ _ => ⟨List.nodup_nil, fun r hr => absurd hr List.not_mem_nil⟩
    | cons r answers ih =>
      intro seen h
      rw [contractFault?.go] at h
      split at h
      next => cases h
      next hseen =>
        split at h
        next =>
          obtain ⟨hnodup, hnot⟩ := ih _ h
          refine ⟨List.nodup_cons.2 ⟨fun hmem => ?_, hnodup⟩, fun r' hr' => ?_⟩
          · obtain ⟨r', hr', hid⟩ := List.mem_map.1 hmem
            exact hnot r' hr' (hid ▸ List.mem_cons_self ..)
          · rcases List.mem_cons.1 hr' with rfl | hr'
            · exact hseen
            · exact fun hmem => hnot r' hr' (List.mem_cons_of_mem _ hmem)
        next => cases h
  have hmem := item_mem_of_contractFault? h
  have hlen := length_of_contractFault? h
  unfold contractFault? at h
  rw [if_neg fun hne => hne hlen] at h
  obtain ⟨hnodup, -⟩ := hgo answers [] h
  refine ⟨hnodup, fun c hc => ?_⟩
  have hsub : answers.map (·.item.id) ⊆ conflicts.map (·.item.id) := by
    intro id hid
    obtain ⟨r, hr, rfl⟩ := List.mem_map.1 hid
    obtain ⟨c, hc, heq⟩ := hmem r hr
    exact List.mem_map.2 ⟨c, hc, by rw [heq]⟩
  have hperm : (answers.map (·.item.id)).Perm (conflicts.map (·.item.id)) :=
    (List.subperm_of_subset hnodup hsub).perm_of_length_le (by simp [hlen])
  obtain ⟨r, hr, hid⟩ := List.mem_map.1 (hperm.mem_iff.2 (List.mem_map.2 ⟨c, hc, rfl⟩))
  obtain ⟨c', hc', heq⟩ := hmem r hr
  refine ⟨r, hr, ?_⟩
  rw [← heq] at hid ⊢
  rw [List.inj_on_of_nodup_map (hperm.nodup_iff.1 hnodup) hc' hc hid]

/-- Answers without a fault are about different items, in whatever order they are carried out. -/
theorem nodup_refs_of_contractFault? {conflicts : List Conflict} {answers ordered : List Resolved}
    (h : contractFault? conflicts answers = none) (hperm : ordered.Perm answers) :
    (ordered.map (·.item.ref)).Nodup := by
  refine List.Nodup.of_map ItemRef.id ?_
  rw [List.map_map]
  exact ((hperm.map _).nodup_iff).2 (exists_answer_of_contractFault? h).1

namespace Session

/-! ### Settling the conflicts -/

/-- Settling all conflicts for the session. -/
theorem settle_of_keepLocal {conflicts : List Conflict} {answers : List Resolved}
    (hfault : contractFault? conflicts answers = none)
    (hkeep : ∀ r ∈ answers, r.choice = .keepLocal) (s : Session) :
    (∀ c ∈ conflicts, c.item.status = .toUpdate →
      ∃ b, (s.settle conflicts answers).2.item? c.item.ref = some b ∧ c.item.Keeps b) ∧
      ∀ r, (∀ c ∈ conflicts, c.item.ref ≠ r) →
        (s.settle conflicts answers).2.item? r = s.item? r := by
  obtain ⟨-, hanswer⟩ := exists_answer_of_contractFault? hfault
  have hmem := item_mem_of_contractFault? hfault
  obtain ⟨ordered, hperm, hsettle⟩ := exists_settle_eq s hfault
  have hrefs := nodup_refs_of_contractFault? hfault hperm
  -- every item stays
  have hsome : ∀ r ∈ ordered, r.outcome? ≠ none := fun r hr => by
    rw [Resolved.outcome?_of_keepLocal (hkeep r (hperm.mem_iff.1 hr))]
    nofun
  obtain ⟨hin, hout⟩ := item?_foldl_answered hrefs s fun r hr hnone => absurd hnone (hsome r hr)
  have hgone : conceded ordered = [] := by
    refine List.eq_nil_iff_forall_not_mem.2 fun ref href => ?_
    obtain ⟨r, hr, hnone, -⟩ := mem_conceded_iff.1 href
    exact hsome r hr hnone
  rw [hgone, evictReferrers_nil] at hsettle
  rw [hsettle]
  refine ⟨fun c hc hst => ?_, fun r hr => hout r fun hmem' => ?_⟩
  · obtain ⟨r, hr, heq⟩ := hanswer c hc
    obtain ⟨b, hb, hkeeps⟩ := Resolved.keeps_outcome? (hkeep r hr) (heq ▸ hst)
    refine ⟨b, ?_, heq ▸ hkeeps⟩
    rw [← heq, hin r (hperm.mem_iff.2 hr), hb]
  · obtain ⟨r', hr', rfl⟩ := List.mem_map.1 hmem'
    obtain ⟨c, hc, heq⟩ := hmem r' (hperm.mem_iff.1 hr')
    exact hr c hc (by rw [heq])

end Session

end StagedEdits
