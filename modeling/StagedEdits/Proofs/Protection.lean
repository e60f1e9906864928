import StagedEdits.Proofs.LocalSide

/-!
# Taking rows in without losing an edit

An eviction takes out what refers to an evicted item, and nothing else (`Named.item?_evict`).  So
while the rows of a table are taken in, an item with a pending edit keeps it or is set aside, and of
the other tables only orphans are missing (`Absorption.Protects`).
-/

namespace StagedEdits

/-! ### What a fetch finds about pending items -/

/-- What a finding about an item says of its edits. -/
def Finding.Concerns (t : Table) : Finding → Prop
  | changed id _ => ∃ item, t.get? id = some item ∧ ¬ item.Pending
  | twin id _ => ∃ item, t.get? id = some item ∧ item.status = .toAdd
  | conflict id row _ => ∃ item, t.get? id = some item ∧ (item.divergence? row).isSome
  | gone id => ∃ item, t.get? id = some item ∧ ¬ item.Pending
  | _ => True

theorem Item.toUpdate_of_divergence {item : Item} {row : Option Record} (hp : item.Pending)
    (hd : (item.divergence? row).isSome = true) : item.status = .toUpdate := by
  refine hp.resolve_left fun hst => ?_
  unfold divergence? at hd
  rw [hst] at hd
  cases hd

theorem Item.not_pending_of_gone {item : Item} {id : ItemId} (h : item.findingWithout = .gone id) :
    ¬ item.Pending := by
  intro hp
  unfold findingWithout at h
  rcases hp with hst | hst
  · have hnone : item.divergence? none = none := by
      unfold divergence?
      rw [hst]
    rw [hnone, hst] at h
    cases h
  · have hsome : item.divergence? none = some .updatedButDeleted := by
      unfold divergence?
      rw [hst]
    rw [hsome] at h
    cases h

namespace Table

variable {t : Table}

theorem concerns_findingWith {item : Item} (h : t.get? item.id = some item) (row : Record) :
    (item.findingWith row).Concerns t := by
  rcases item.findingWith_cases row with ⟨hf, -⟩ | ⟨hf, hst⟩ | ⟨hf, hst⟩ | ⟨d, hf, hd⟩ <;> rw [hf]
  · trivial
  · refine ⟨item, h, fun hp => ?_⟩
    rcases hp with hp | hp <;> rw [hst] at hp <;> cases hp
  · exact ⟨item, h, hst⟩
  · exact ⟨item, h, by rw [hd]; rfl⟩

theorem concerns_findingWithout {item : Item} (h : t.get? item.id = some item) :
    item.findingWithout.Concerns t := by
  rcases item.findingWithout_cases with ⟨d, hf, hd⟩ | ⟨hf, -⟩ | ⟨hf, -⟩
  · rw [hf]
    exact ⟨item, h, by rw [hd]; rfl⟩
  · rw [hf]
    trivial
  · rw [hf]
    exact ⟨item, h, item.not_pending_of_gone hf⟩

/-- What the findings of any rows say of the items of any table. -/
theorem concerns_of_mem_findings {rows : List Record} {f : Finding} (h : f ∈ t.findings rows) :
    f.Concerns t := by
  rcases mem_findings h with ⟨i, row, id?, -, rfl⟩ | ⟨item, hitem, rfl⟩
  · unfold findingFor
    split
    next item hitem =>
      obtain ⟨id, -, hget⟩ := Option.bind_eq_some_iff.1 hitem
      exact concerns_findingWith (by rw [t.id_eq hget, hget]) row
    next => trivial
  · obtain ⟨⟨d, id⟩, -, hget⟩ := List.mem_filterMap.1 hitem
    dsimp only at hget
    split at hget
    · cases hget
    · exact concerns_findingWithout (by rw [t.id_eq hget, hget])

end Table

/-! ### Taking rows in -/

namespace Absorption

open Session

/-- Nothing pending is lost while the rows of a table are taken into session `s₀`: an item with an
edit keeps it or is set aside, and of the other tables only orphans are missing. -/
structure Protects (s₀ : Session) (kind : Kind) (a : Absorption) : Prop where
  follows : s₀.Follows a.session
  housed : a.Housed
  own : ∀ ⦃id x⦄, s₀.item? ⟨kind, id⟩ = some x → x.Pending →
    (∃ b, a.session.item? ⟨kind, id⟩ = some b ∧ x.Keeps b ∧ (x.status = .toUpdate → b = x)) ∨
      (x.status = .toUpdate ∧ ∃ c ∈ a.conflicts, c.item = x)
  other : ∀ ⦃r x⦄, r.kind ≠ kind → s₀.item? r = some x → a.session.item? r = some x ∨
    (a.session.item? r = none ∧ ∃ target ∈ x.references, (∃ y, s₀.item? target = some y) ∧
      a.session.item? target = none ∧ ∀ c ∈ a.conflicts, c.item.ref ≠ target)
  subset : ∀ ⦃r x⦄, r.kind ≠ kind → a.session.item? r = some x → s₀.item? r = some x
  absent : ∀ ⦃r⦄, r.id.val < s₀.nextId.val → s₀.item? r = none → a.session.item? r = none
  below : ∀ ⦃r⦄, r.kind ≠ kind → kind ∉ r.kind.dependencies → a.session.item? r = s₀.item? r
  aside : ∀ c ∈ a.conflicts, c.item.kind = kind ∧ (∃ x, s₀.item? c.item.ref = some x) ∧
    a.session.item? c.item.ref = none

variable {s₀ : Session} {kind : Kind} {a a' : Absorption}

/-- What a finding keeps if it loses nothing. -/
theorem Protects.proceed (hs : s₀.Housed) (h : Protects s₀ kind a)
    (hfollows : a.session.Follows a'.session) (hhoused : a'.Housed)
    (hown : ∀ ⦃id x⦄, s₀.item? ⟨kind, id⟩ = some x → x.Pending →
      (∃ b, a'.session.item? ⟨kind, id⟩ = some b ∧ x.Keeps b ∧ (x.status = .toUpdate → b = x)) ∨
        (x.status = .toUpdate ∧ ∃ c ∈ a'.conflicts, c.item = x))
    (hother : ∀ ⦃r x⦄, r.kind ≠ kind → a.session.item? r = some x → a'.session.item? r = some x ∨
      (a'.session.item? r = none ∧ ∃ target ∈ x.references, (∃ y, s₀.item? target = some y) ∧
        a'.session.item? target = none ∧ ∀ c ∈ a'.conflicts, c.item.ref ≠ target))
    (hsubset : ∀ ⦃r x⦄, r.kind ≠ kind → a'.session.item? r = some x → a.session.item? r = some x)
    (hnone : ∀ ⦃r⦄, r.id.val < a.session.nextId.val → a.session.item? r = none →
      a'.session.item? r = none)
    (hbelow : ∀ ⦃r⦄, r.kind ≠ kind → kind ∉ r.kind.dependencies →
      a'.session.item? r = a.session.item? r)
    (haside : ∀ c ∈ a'.conflicts, c ∈ a.conflicts ∨ (c.item.kind = kind ∧
      (∃ x, s₀.item? c.item.ref = some x) ∧ (∃ x, a.session.item? c.item.ref = some x) ∧
      a'.session.item? c.item.ref = none)) : Protects s₀ kind a' where
  follows := h.follows.trans hfollows
  housed := hhoused
  own := hown
  other r x hk hx := by
    have hgiven : ∀ {r x}, s₀.item? r = some x → r.id.val < a.session.nextId.val := fun hx =>
      Nat.lt_of_lt_of_le (hs.given hx) h.follows.nextId_le
    rcases h.other hk hx with hold | ⟨hr, target, htarget, ⟨y, hy⟩, ht, haway⟩
    · exact hother hk hold
    · refine .inr ⟨hnone (hgiven hx) hr, target, htarget, ⟨y, hy⟩, hnone (hgiven hy) ht, ?_⟩
      intro c hc heq
      rcases haside c hc with hc | ⟨-, -, ⟨z, hz⟩, -⟩
      · exact haway c hc heq
      · rw [heq, ht] at hz
        cases hz
  subset r x hk hx := h.subset hk (hsubset hk hx)
  absent r hr hx := hnone (Nat.lt_of_lt_of_le hr h.follows.nextId_le) (h.absent hr hx)
  below r hk hd := (hbelow hk hd).trans (h.below hk hd)
  aside c hc := by
    rcases haside c hc with hc | ⟨hkind, hx, -, hgone⟩
    · obtain ⟨hkind, hx, hgone⟩ := h.aside c hc
      exact ⟨hkind, hx, hnone (h.housed.conflicts c hc) hgone⟩
    · exact ⟨hkind, hx, hgone⟩

/-- A finding that only touches items of the fetched kind. -/
theorem Protects.proceed_within (hs : s₀.Housed) (h : Protects s₀ kind a)
    (hfollows : a.session.Follows a'.session) (hhoused : a'.Housed)
    (hown : ∀ ⦃id x⦄, s₀.item? ⟨kind, id⟩ = some x → x.Pending →
      (∃ b, a'.session.item? ⟨kind, id⟩ = some b ∧ x.Keeps b ∧ (x.status = .toUpdate → b = x)) ∨
        (x.status = .toUpdate ∧ ∃ c ∈ a'.conflicts, c.item = x))
    (hsame : ∀ ⦃r⦄, r.kind ≠ kind → a'.session.item? r = a.session.item? r)
    (hnone : ∀ ⦃r⦄, r.id.val < a.session.nextId.val → a.session.item? r = none →
      a'.session.item? r = none)
    (haside : ∀ c ∈ a'.conflicts, c ∈ a.conflicts ∨ (c.item.kind = kind ∧
      (∃ x, s₀.item? c.item.ref = some x) ∧ (∃ x, a.session.item? c.item.ref = some x) ∧
      a'.session.item? c.item.ref = none)) : Protects s₀ kind a' :=
  h.proceed hs hfollows hhoused hown (fun _ _ hk hx => .inl ((hsame hk).trans hx))
    (fun _ _ hk hx => (hsame hk).symm.trans hx) hnone (fun _ hk _ => hsame hk) haside

/-- A new item gets in nobody's way. -/
theorem Protects.load (hs : s₀.Housed) (h : Protects s₀ kind a) (row : Record) :
    Protects s₀ kind (a.step kind (.unknown row)) := by
  obtain ⟨hfollows, hhoused⟩ := h.housed.step kind (.unknown row)
  have hsame : ∀ r : ItemRef, r.kind ≠ kind ∨ r.id.val < a.session.nextId.val →
      (a.step kind (.unknown row)).session.item? r = a.session.item? r := by
    intro r hr
    have hput : (a.step kind (.unknown row)).session.item? r =
        if r = ⟨kind, a.session.nextId⟩ then some (.loaded a.session.nextId kind row)
        else a.session.item? r := item?_put ..
    rw [hput, if_neg]
    rintro rfl
    exact hr.elim (fun hk => hk rfl) (Nat.lt_irrefl _)
  refine h.proceed_within hs hfollows hhoused (fun id x hx hp => ?_) (fun r hk => hsame r (.inl hk))
    (fun r hr hnone => (hsame r (.inr hr)).trans hnone) (fun c hc => .inl hc)
  rw [hsame _ (.inr (Nat.lt_of_lt_of_le (hs.given hx) h.follows.nextId_le))]
  exact h.own hx hp

/-- An item is replaced by one that keeps its edit, if it has one. -/
theorem Protects.replace (hs : s₀.Housed) (h : Protects s₀ kind a) {id : ItemId} {y b : Item}
    (hy : a.session.item? ⟨kind, id⟩ = some y) (href : b.ref = y.ref)
    (hkeeps : ∀ x, s₀.item? ⟨kind, id⟩ = some x → x.Pending → x.Keeps b ∧ x.status = .toAdd)
    (hsession : a'.session = a.session.put b) (hconf : a'.conflicts = a.conflicts) :
    Protects s₀ kind a' := by
  have hfollows : a.session.Follows a'.session :=
    hsession ▸ h.housed.session.follows_replace hy href
  have hput : ∀ r, a'.session.item? r = if r = ⟨kind, id⟩ then some b else a.session.item? r := by
    intro r
    rw [hsession, item?_put, href, h.housed.session.ref_eq hy]
  refine h.proceed_within hs hfollows (h.housed.of_follows hfollows hconf) (fun id' x hx hp => ?_)
    (fun r hk => ?_) (fun r hr hnone => ?_) (fun c hc => .inl (hconf ▸ hc))
  · rw [hput, hconf]
    split
    next heq =>
      obtain rfl := congrArg ItemRef.id heq
      obtain ⟨hkeep, hnew⟩ := hkeeps x hx hp
      exact .inl ⟨b, rfl, hkeep, fun hst => by rw [hnew] at hst; cases hst⟩
    next => exact h.own hx hp
  · rw [hput, if_neg]
    rintro rfl
    exact hk rfl
  · rw [hput, if_neg]
    · exact hnone
    · rintro rfl
      rw [hnone] at hy
      cases hy

/-- An item in conflict is set aside. -/
theorem Protects.setAside (hs : s₀.Housed) (h : Protects s₀ kind a) {id : ItemId} {x y : Item}
    {row : Option Record} (hx : s₀.item? ⟨kind, id⟩ = some x)
    (hd : (x.divergence? row).isSome = true) (hy : a.session.item? ⟨kind, id⟩ = some y)
    (hfollows : a.session.Follows a'.session) (hhoused : a'.Housed)
    (hsession : a'.session = a.session.drop ⟨kind, id⟩)
    (hconf : a'.conflicts = a.conflicts ++ [⟨y, row⟩]) : Protects s₀ kind a' := by
  have hdrop : ∀ r, a'.session.item? r = if r = ⟨kind, id⟩ then none else a.session.item? r := by
    intro r
    rw [hsession, item?_drop]
  have href := h.housed.session.ref_eq hy
  refine h.proceed_within hs hfollows hhoused (fun id' x' hx' hp => ?_) (fun r hk => ?_)
    (fun r hr hnone => ?_) (fun c hc => ?_)
  · rw [hdrop, hconf]
    split
    next heq =>
      obtain rfl := congrArg ItemRef.id heq
      obtain rfl := Option.some.inj (hx.symm.trans hx')
      have hst := Item.toUpdate_of_divergence hp hd
      refine .inr ⟨hst, ?_⟩
      rcases h.own hx hp with ⟨b, hb, -, heq⟩ | ⟨-, c, hc, heq⟩
      · obtain rfl := Option.some.inj (hb.symm.trans hy)
        exact ⟨_, List.mem_append_right _ (List.mem_singleton.2 rfl), heq hst⟩
      · exact ⟨c, List.mem_append_left _ hc, heq⟩
    next =>
      refine (h.own hx' hp).imp_right ?_
      rintro ⟨hst, c, hc, heq⟩
      exact ⟨hst, c, List.mem_append_left _ hc, heq⟩
  · rw [hdrop, if_neg]
    rintro rfl
    exact hk rfl
  · rw [hdrop, hnone, ite_self]
  · rw [hconf] at hc
    refine (List.mem_append.1 hc).imp_right fun hc => ?_
    obtain rfl := List.mem_singleton.1 hc
    dsimp only
    rw [href]
    exact ⟨congrArg ItemRef.kind href, ⟨x, hx⟩, ⟨y, hy⟩, by rw [hdrop, if_pos rfl]⟩

/-- An item without an edit is evicted, and with it what refers to it. -/
theorem Protects.evict (hs : s₀.Housed) (h : Protects s₀ kind a) {id : ItemId} {x : Item}
    (hx : s₀.item? ⟨kind, id⟩ = some x) (hp : ¬ x.Pending)
    (hsession : a'.session = (a.session.evict ⟨kind, id⟩).1) (hconf : a'.conflicts = a.conflicts) :
    Protects s₀ kind a' := by
  have hfollows : a.session.Follows a'.session := hsession ▸ h.housed.session.follows_evict _
  have hnone : ∀ ⦃r⦄, a.session.item? r = none → a'.session.item? r = none := by
    intro r hr
    cases hr' : a'.session.item? r with
    | none => rfl
    | some b =>
      rw [hsession] at hr'
      rw [item?_of_evict hr'] at hr
      cases hr
  have hsame : ∀ ⦃r : ItemRef⦄, kind ∉ r.kind.dependencies → r ≠ ⟨kind, id⟩ →
      a'.session.item? r = a.session.item? r := by
    intro r hk hne
    rw [hsession]
    exact item?_evict_of_not_mem a.session hk hne
  refine h.proceed hs hfollows (h.housed.of_follows hfollows hconf) (fun id' x' hx' hp' => ?_)
    (fun r b hk hb => ?_) (fun r b hk hb => ?_) (fun r _ hr => hnone hr) (fun r hk hd => ?_)
    (fun c hc => .inl (hconf ▸ hc))
  · rw [hconf, hsame (r := ⟨kind, id'⟩) kind.not_mem_dependencies_self]
    · exact h.own hx' hp'
    · intro heq
      rw [heq, hx] at hx'
      exact hp (Option.some.inj hx' ▸ hp')
  · have hne : r ≠ ⟨kind, id⟩ := by
      rintro rfl
      exact hk rfl
    rw [hsession]
    refine (h.housed.session.named.item?_evict hb hne).imp_right ?_
    rintro ⟨hgone, target, htarget, ⟨y, hy⟩, ht⟩
    refine ⟨hgone, target, htarget, ?_, ht, fun c hc heq => ?_⟩
    · by_cases hkt : target.kind = kind
      · by_cases hid : target = ⟨kind, id⟩
        · exact ⟨x, hid ▸ hx⟩
        · have hstay := hsame (r := target) (hkt ▸ kind.not_mem_dependencies_self) hid
          rw [hsession, ht, hy] at hstay
          cases hstay
      · exact ⟨y, h.subset hkt hy⟩
    · rw [hconf] at hc
      rw [heq.symm, (h.aside c hc).2.2] at hy
      cases hy
  · rw [hsession] at hb
    exact item?_of_evict hb
  · refine hsame hd ?_
    rintro rfl
    exact hk rfl

/-- What taking in one finding keeps. -/
theorem Protects.step (hs : s₀.Housed) (h : Protects s₀ kind a) {f : Finding}
    (hf : f.Concerns (s₀.table kind)) : Protects s₀ kind (a.step kind f) := by
  have hitem : ∀ {id x}, (s₀.table kind).get? id = some x → s₀.item? ⟨kind, id⟩ = some x := by
    intro id x hx
    rw [item?_eq]
    exact hx
  cases f with
  | unknown row => exact h.load hs row
  | same id => exact h
  | changed id row =>
    obtain ⟨x, hx, hp⟩ := hf
    unfold Absorption.step
    dsimp only
    split
    next => exact h
    next y hy =>
      refine h.replace hs hy (b := y.adopt row) rfl (fun x' hx' hp' => ?_) rfl rfl
      rw [hitem hx] at hx'
      exact absurd (Option.some.inj hx' ▸ hp') hp
  | twin id row =>
    obtain ⟨x, hx, hst⟩ := hf
    unfold Absorption.step
    dsimp only
    split
    next => exact h
    next y hy =>
      refine h.replace hs hy (y.ref_claim row) (fun x' hx' hp' => ?_) rfl rfl
      obtain rfl := Option.some.inj ((hitem hx).symm.trans hx')
      rcases h.own hx' hp' with ⟨b, hb, hkeep, -⟩ | ⟨hst', -⟩
      · obtain rfl := Option.some.inj (hb.symm.trans hy)
        exact ⟨hkeep.claim hst row, hst⟩
      · rw [hst] at hst'
        cases hst'
  | conflict id row d =>
    obtain ⟨x, hx, hd⟩ := hf
    obtain ⟨hfollows, hhoused⟩ := h.housed.step kind (.conflict id row d)
    unfold Absorption.step at hfollows hhoused ⊢
    dsimp only at hfollows hhoused ⊢
    split
    next => exact h
    next y hy =>
      rw [hy] at hfollows hhoused
      exact h.setAside hs (hitem hx) hd hy hfollows hhoused rfl rfl
  | gone id =>
    obtain ⟨x, hx, hp⟩ := hf
    exact h.evict hs (hitem hx) hp rfl rfl

end Absorption

end StagedEdits
