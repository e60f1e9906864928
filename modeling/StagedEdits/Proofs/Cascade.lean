import StagedEdits.Proofs.Faithful

/-!
# Removals that cascade

Removing an item takes along whatever refers to it, and restoring one brings back only what refers
to live items.  So if the live items of any one sort refer to live items only
(`Session.RefersLive`), they still do after every edit of a single item.
-/

namespace StagedEdits

namespace Session

variable {s s' : Session} {p : Item → Prop}

/-- Live items refer to live items only. -/
def ReferencesLive (s : Session) : Prop :=
  ∀ ⦃r item⦄, s.item? r = some item → item.removed = false →
    ∀ target ∈ item.references, s.isLive target = true

/-- Live items of the given sort refer to live items only. -/
def RefersLive (s : Session) (p : Item → Prop) : Prop :=
  ∀ ⦃r item⦄, s.item? r = some item → item.removed = false → p item →
    ∀ target ∈ item.references, s.isLive target = true

theorem referencesLive_iff : s.ReferencesLive ↔ s.RefersLive fun _ => True :=
  ⟨fun h _ _ hi hlive _ => h hi hlive, fun h _ _ hi hlive => h hi hlive trivial⟩

/-! ### Adding and updating -/

/-- An item whose content has no fault refers to live items. -/
theorem isLive_of_contentFault? {item : Item} (exclude : Option ItemId)
    (hc : item.kind.Complete item.content)
    (h : s.contentFault? item.kind item.content exclude = none) :
    ∀ target ∈ item.references, s.isLive target = true := by
  rintro ⟨target, id⟩ hmem
  obtain ⟨field, he, hid⟩ := Item.mem_references_iff.1 hmem
  obtain ⟨id', hid', hlive⟩ := contentFault?_eq_none hc h (field, target) he
  rw [hid] at hid'
  cases hid'
  exact hlive

theorem RefersLive.add (h : s.RefersLive p) (hs : s.WellFormed) {kind : Kind} {given : Record}
    {id : ItemId} (hadd : s.add kind given = .ok (id, s')) : s'.RefersLive p := by
  obtain ⟨-, -, -, hfault⟩ := add_eq_ok hadd
  have hget := item?_add hadd
  have hmono : ∀ target, s.isLive target = true → s'.isLive target = true := by
    intro target htarget
    obtain ⟨a, ha, hlive⟩ := isLive_iff.1 htarget
    refine isLive_iff.2 ⟨a, ?_, hlive⟩
    rw [hget, if_neg, ha]
    rintro rfl
    rw [item?_nextId hs.toCoherent] at ha
    cases ha
  intro r a ha hlive hp target htarget
  rw [hget] at ha
  split at ha
  next =>
    obtain rfl := Option.some.inj ha
    refine hmono target (isLive_of_contentFault? none ?_ hfault target htarget)
    exact kind.complete_completed given
  next => exact hmono target (h ha hlive hp target htarget)

theorem RefersLive.update (h : s.RefersLive p) (hs : s.WellFormed)
    (hcomplete : ∀ ⦃r item⦄, s.item? r = some item → item.kind.Complete item.content) {r : ItemRef}
    {changes : Record} (hup : s.update r changes = .ok s') : s'.RefersLive p := by
  obtain ⟨item, hitem, hlive, hknown, hfault, rfl⟩ := update_eq_ok hup
  have hk := hs.item_kind hitem
  have hget := hs.named.item?_modify hitem (·.ref_edit changes)
  have hmono : ∀ target, s.isLive target = true →
      (s.modify r (·.edit changes)).isLive target = true := by
    intro target htarget
    obtain ⟨a, ha, halive⟩ := isLive_iff.1 htarget
    by_cases hr : target = r
    · refine isLive_iff.2 ⟨_, (hget target).trans (if_pos hr), ?_⟩
      rw [item.removed_edit]
      exact hlive
    · exact isLive_iff.2 ⟨a, ((hget target).trans (if_neg hr)).trans ha, halive⟩
  -- the item is the old one, or its content was checked
  have hrefs : p (item.edit changes) →
      ∀ target ∈ (item.edit changes).references, s.isLive target = true := by
    intro hp
    rcases item.edit_cases changes with ⟨-, heq⟩ | hcontent
    · rw [heq] at hp ⊢
      exact h hitem hlive hp
    · refine isLive_of_contentFault? (some r.id) ?_ ?_
      · rw [hcontent, item.kind_edit]
        exact (hcomplete hitem).insertAll (by rw [hk]; exact hknown)
      · rw [hcontent, item.kind_edit, hk]
        exact hfault
  intro r' a ha halive hp target htarget
  rw [hget] at ha
  split at ha
  next =>
    obtain rfl := Option.some.inj ha
    exact hmono target (hrefs hp target htarget)
  next => exact hmono target (h ha halive hp target htarget)

/-! ### Removing -/

/-- Live items of the given sort refer to live items only, unless they are still to be removed. -/
def LiveBut (s : Session) (p : Item → Prop) (todo : List (ItemRef × Option ItemRef)) : Prop :=
  ∀ ⦃r item⦄, s.item? r = some item → item.removed = false → p item → r ∉ todo.map (·.1) →
    ∀ target ∈ item.references, s.isLive target = true

/-- An item that is not a live one need not be removed. -/
theorem LiveBut.skip {r : ItemRef} {source : Option ItemRef}
    {rest : List (ItemRef × Option ItemRef)} (h : s.LiveBut p ((r, source) :: rest))
    (hr : s.isLive r = false) : s.LiveBut p rest := by
  intro r' item hi hlive hp hnot
  refine h hi hlive hp fun hmem => ?_
  rcases List.mem_cons.1 hmem with rfl | hmem
  · rw [isLive_iff.2 ⟨item, hi, hlive⟩] at hr
    cases hr
  · exact hnot hmem

/-- Once a live item is removed, the live items that refer to it are still to be removed. -/
theorem LiveBut.remove {r : ItemRef} {source : Option ItemRef} {item : Item}
    {rest : List (ItemRef × Option ItemRef)} (hs : s.WellFormed)
    (h : s.LiveBut p ((r, source) :: rest)) (hitem : s.item? r = some item) :
    (s.modify r (·.markRemoved source)).LiveBut p
      (((s.modify r (·.markRemoved source)).referrers r isLiveItem).reverse.map
        (fun d => (d, some r)) ++ rest) := by
  have hget := hs.named.item?_markRemoved hitem source
  have hwf := (rewrites_markRemoved hs hitem source).wellFormed
  intro r' a ha hlive hp hnot target htarget
  have hne : r' ≠ r := by
    rintro rfl
    rw [hget, if_pos rfl] at ha
    obtain rfl := Option.some.inj ha
    rw [Item.removed_markRemoved] at hlive
    cases hlive
  have hold : s.item? r' = some a := by rwa [hget, if_neg hne] at ha
  rw [List.map_append, List.mem_append, not_or] at hnot
  obtain ⟨hdependent, hrest⟩ := hnot
  -- an item that refers to the removed one would be among the dependents
  have htr : target ≠ r := by
    rintro rfl
    refine hdependent (List.mem_map.2 ⟨(r', some target), List.mem_map.2 ⟨r', ?_, rfl⟩, rfl⟩)
    refine List.mem_reverse.2 ((mem_referrers_iff hwf.named).2 ⟨a, ha, ?_, htarget⟩)
    unfold isLiveItem
    rw [hlive]
    rfl
  have hmem : r' ∉ ((r, source) :: rest).map (·.1) := by
    rw [List.map_cons, List.mem_cons, not_or]
    exact ⟨hne, hrest⟩
  obtain ⟨b, hb, hblive⟩ := isLive_iff.1 (h hold hlive hp hmem target htarget)
  exact isLive_iff.2 ⟨b, by rw [hget, if_neg htr]; exact hb, hblive⟩

theorem refersLive_removeAll (hs : s.WellFormed) (todo : List (ItemRef × Option ItemRef))
    (h : s.LiveBut p todo) : (s.removeAll todo).2.RefersLive p := by
  fun_induction removeAll s todo with
  | case1 s => exact fun _ _ hi hlive hp => h hi hlive hp List.not_mem_nil
  | case2 s r source rest hnone ih =>
    refine ih hs (h.skip ?_)
    unfold isLive
    rw [hnone]
    rfl
  | case3 s r source rest item hitem s' hrem ih =>
    have hget : ∀ r', s'.item? r' = s.item? r' :=
      hs.named.item?_markRemoved_of_removed hitem hrem source
    have hskip := h.skip (by unfold isLive; rw [hitem]; simp [hrem])
    refine ih (rewrites_markRemoved hs hitem source).wellFormed ?_
    intro r' a ha hlive hp hnot target htarget
    unfold isLive
    rw [hget]
    rw [hget] at ha
    exact hskip ha hlive hp hnot target htarget
  | case4 s r source rest item hitem s' hlive dependents removed s'' heq ih =>
    have hrest := ih (rewrites_markRemoved hs hitem source).wellFormed (h.remove hs hitem)
    rw [heq] at hrest
    exact hrest

theorem RefersLive.remove (h : s.RefersLive p) (hs : s.WellFormed) {r : ItemRef}
    {refs : List ItemRef} (hr : s.remove r = .ok (refs, s')) : s'.RefersLive p := by
  obtain ⟨-, -, heq⟩ := remove_eq_ok hr
  have hall := refersLive_removeAll hs [(r, none)] fun _ _ hi hlive hp _ => h hi hlive hp
  rwa [heq] at hall

/-! ### Restoring -/

/-- Nothing refers to a removed item if it can be restored. -/
theorem isLive_of_restoreFault? {item : Item} (h : s.restoreFault? item = none) :
    ∀ target ∈ item.references, s.isLive target = true := by
  unfold restoreFault? at h
  rw [Option.or_eq_none_iff, Option.map_eq_none_iff] at h
  intro target htarget
  have hfind := List.find?_eq_none.1 h.1 target htarget
  simpa using hfind

theorem references_restored (item : Item) : item.restored.references = item.references := by
  unfold Item.references
  rw [item.kind_restored, item.content_restored]

theorem refersLive_restoreAll (hs : s.WellFormed) (todo : List ItemRef) (h : s.RefersLive p)
    (htodo : ∀ r ∈ todo, ∀ item, s.item? r = some item →
      ∀ target ∈ item.references, s.isLive target = true) :
    (s.restoreAll todo).2.RefersLive p := by
  fun_induction restoreAll s todo with
  | case1 s => exact h
  | case2 s r rest hnone ih => exact ih hs h fun r' hr' => htodo r' (List.mem_cons_of_mem _ hr')
  | case3 s r rest item hitem s' hrem dependents restored s'' heq ih =>
    have hget := hs.named.item?_modify hitem Item.ref_restored
    have hwf := (rewrites_restored hs hitem).wellFormed
    have hmono : ∀ target, s.isLive target = true → s'.isLive target = true := by
      intro target htarget
      obtain ⟨a, ha, hlive⟩ := isLive_iff.1 htarget
      by_cases hr : target = r
      · exact isLive_iff.2 ⟨_, (hget target).trans (if_pos hr), Item.removed_restored item⟩
      · exact isLive_iff.2 ⟨a, ((hget target).trans (if_neg hr)).trans ha, hlive⟩
    have hrefs := htodo r (List.mem_cons_self ..) item hitem
    have hrest := ih hwf ?_ ?_
    · rw [heq] at hrest
      exact hrest
    · intro r' a ha hlive hp target htarget
      have ha := (hget r').symm.trans ha
      split at ha
      next =>
        obtain rfl := Option.some.inj ha
        rw [references_restored] at htarget
        exact hmono target (hrefs target htarget)
      next => exact hmono target (h ha hlive hp target htarget)
    · intro r' hr' a ha target htarget
      rcases List.mem_append.1 hr' with hr' | hr'
      · have hrestorable := (List.mem_filter.1 (List.mem_reverse.1 hr')).2
        unfold isRestorable at hrestorable
        rw [ha, Option.any_some, Option.isNone_iff_eq_none] at hrestorable
        exact isLive_of_restoreFault? hrestorable target htarget
      · have ha := (hget r').symm.trans ha
        split at ha
        next =>
          obtain rfl := Option.some.inj ha
          rw [references_restored] at htarget
          exact hmono target (hrefs target htarget)
        next => exact hmono target (htodo r' (List.mem_cons_of_mem _ hr') a ha target htarget)
  | case4 s r rest item hitem hlive ih =>
    exact ih hs h fun r' hr' => htodo r' (List.mem_cons_of_mem _ hr')

theorem RefersLive.restore (h : s.RefersLive p) (hs : s.WellFormed) {r : ItemRef}
    {refs : List ItemRef} (hr : s.restore r = .ok (refs, s')) : s'.RefersLive p := by
  obtain ⟨item, hitem, ⟨-, -, rfl⟩ | ⟨-, hfault, heq⟩⟩ := restore_eq_ok hr
  · exact h
  · have hall := refersLive_restoreAll hs [r] h fun r' hr' a ha => by
      obtain rfl := List.mem_singleton.1 hr'
      obtain rfl := Option.some.inj (hitem.symm.trans ha)
      exact isLive_of_restoreFault? hfault
    rwa [heq] at hall

end Session

end StagedEdits
