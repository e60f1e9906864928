import StagedEdits.Proofs.Absorption

/-!
# What a fetch takes out

While the findings of a fetch are carried out, an item of the fetched table is there, or it is set
aside, or no fetched row was found for it.  Of the other tables exactly the orphans are missing: what
is taken out refers to an item that is not there any more, and what is left does not
(`Absorption.Accounts`).  An item that is set aside counts as one that is there, since nothing that
refers to it is taken out before it is decided on.
-/

namespace StagedEdits

namespace Session

/-- What session `s'` no longer has of `s` after the given rows of a table were fetched: items whose row
is not among them, and orphans. -/
structure Loses (s : Session) (kind : Kind) (rows : List Record) (s' : Session) : Prop where
  own : ∀ ⦃id x⦄, s.item? ⟨kind, id⟩ = some x → s'.item? ⟨kind, id⟩ = none →
    ∃ d, x.dbId = some d ∧ d ∉ rows.filterMap Record.dbId?
  other : ∀ ⦃r x⦄, r.kind ≠ kind → s.item? r = some x →
    s'.item? r = some x ∨ s.Orphans s' r x
  targets : s.KeepsTargets s'

end Session

namespace Absorption

open Session

/-- An item is there or set aside. -/
def Has (a : Absorption) (r : ItemRef) : Prop :=
  (∃ x, a.session.item? r = some x) ∨ ∃ c ∈ a.conflicts, c.item.ref = r

/-- What is missing of session `s₀` while the given findings about a table are taken in. -/
structure Accounts (s₀ : Session) (kind : Kind) (findings : List Finding) (a : Absorption) : Prop where
  own : ∀ ⦃id x⦄, s₀.item? ⟨kind, id⟩ = some x →
    a.Has ⟨kind, id⟩ ∨ ∃ f ∈ findings, f.missing? = some id
  other : ∀ ⦃r x⦄, r.kind ≠ kind → s₀.item? r = some x → a.session.item? r = some x ∨
    (a.session.item? r = none ∧
      ∃ target ∈ x.references, (∃ y, s₀.item? target = some y) ∧ ¬ a.Has target)
  targets : ∀ ⦃r x⦄, r.kind ≠ kind → a.session.item? r = some x →
    ∀ target ∈ x.references, (∃ y, s₀.item? target = some y) → a.Has target
  conflicts : ∀ c ∈ a.conflicts, ∃ d, Finding.conflict c.item.id c.row d ∈ findings

variable {s₀ : Session} {kind : Kind} {rows : List Record} {findings todo : List Finding}
  {f : Finding} {a a' : Absorption}

/-- A finding that takes nothing out. -/
theorem Accounts.proceed (h : Accounts s₀ kind findings a)
    (hsame : ∀ ⦃r⦄, r.kind ≠ kind → a'.session.item? r = a.session.item? r)
    (hhas : ∀ ⦃r⦄, (∃ x, s₀.item? r = some x) → (a'.Has r ↔ a.Has r))
    (hconf : ∀ c ∈ a'.conflicts, ∃ d, Finding.conflict c.item.id c.row d ∈ findings) :
    Accounts s₀ kind findings a' where
  own _ x hx := (h.own hx).imp_left (hhas ⟨x, hx⟩).2
  other r x hk hx := by
    rw [hsame hk]
    refine (h.other hk hx).imp_right ?_
    rintro ⟨hnone, target, htarget, hy, hnot⟩
    exact ⟨hnone, target, htarget, hy, fun hhas' => hnot ((hhas hy).1 hhas')⟩
  targets r x hk hx target htarget hy := by
    rw [hsame hk] at hx
    exact (hhas hy).2 (h.targets hk hx target htarget hy)
  conflicts := hconf

/-- A finding that puts an item of the fetched table in the place of another, or a new one. -/
theorem Accounts.replace (h : Accounts s₀ kind findings a) {b : Item} (hkind : b.kind = kind)
    (hplace : (∃ x, s₀.item? b.ref = some x) → ∃ y, a.session.item? b.ref = some y)
    (hitem : ∀ r, a'.session.item? r = if r = b.ref then some b else a.session.item? r)
    (hconf : a'.conflicts = a.conflicts) : Accounts s₀ kind findings a' := by
  refine h.proceed (fun r hk => ?_) (fun r hx => ?_) (hconf ▸ h.conflicts)
  · rw [hitem, if_neg]
    rintro rfl
    exact hk hkind
  · unfold Has
    rw [hitem, hconf]
    split
    next hr =>
      subst hr
      exact ⟨fun _ => .inl (hplace hx), fun _ => .inl ⟨b, rfl⟩⟩
    next => rfl

/-- An item in conflict is set aside. -/
theorem Accounts.setAside (h : Accounts s₀ kind findings a) {id : ItemId} {row : Option Record}
    {d : Divergence} {y : Item} (hs : a.session.Named) (hy : a.session.item? ⟨kind, id⟩ = some y)
    (hf : Finding.conflict id row d ∈ findings)
    (hsession : a'.session = a.session.drop ⟨kind, id⟩)
    (hconf : a'.conflicts = a.conflicts ++ [⟨y, row⟩]) : Accounts s₀ kind findings a' := by
  have href : y.ref = ⟨kind, id⟩ := hs hy
  refine h.proceed (fun r hk => ?_) (fun r hx => ?_) (fun c hc => ?_)
  · rw [hsession, item?_drop, if_neg]
    rintro rfl
    exact hk rfl
  · unfold Has
    rw [hsession, item?_drop, hconf]
    simp only [List.mem_append, List.mem_singleton, or_and_right, exists_or, exists_eq_left]
    rw [href]
    by_cases hr : r = ⟨kind, id⟩
    · subst hr
      exact ⟨fun _ => .inl ⟨y, hy⟩, fun _ => .inr (.inr rfl)⟩
    · rw [if_neg hr, or_iff_left (a := ∃ c, c ∈ a.conflicts ∧ c.item.ref = r) (Ne.symm hr)]
  · rw [hconf] at hc
    rcases List.mem_append.1 hc with hc | hc
    · exact h.conflicts c hc
    · obtain rfl := List.mem_singleton.1 hc
      have hid : y.id = id := congrArg ItemRef.id href
      exact ⟨d, by rw [hid]; exact hf⟩

/-- Items that are set aside are not in the session. -/
theorem ref_ne_of_absorbing (hs : s₀.Coherent) (habs : Absorbing s₀ kind rows todo a) {r : ItemRef}
    {x : Item} (hx : a.session.item? r = some x) : ∀ c ∈ a.conflicts, c.item.ref ≠ r := by
  rintro c hc rfl
  rw [hs.item_ref (habs.conflicts c hc).item, habs.absent c hc] at hx
  cases hx

/-- What an eviction takes out of another table refers to something that was there at first, and is
neither there nor set aside any more. -/
theorem Accounts.other_of_evict (hs : s₀.Coherent) (h : Accounts s₀ kind findings a) {id : ItemId}
    (habs : Absorbing s₀ kind rows (.gone id :: todo) a) {r : ItemRef} {x : Item}
    (hk : r.kind ≠ kind) (hx : s₀.item? r = some x) :
    (a.session.evict ⟨kind, id⟩).1.item? r = some x ∨
      ((a.session.evict ⟨kind, id⟩).1.item? r = none ∧
        ∃ target ∈ x.references, (∃ y, s₀.item? target = some y) ∧
          (a.session.evict ⟨kind, id⟩).1.item? target = none ∧
          ∀ c ∈ a.conflicts, c.item.ref ≠ target) := by
  have hnone : ∀ {r}, a.session.item? r = none →
      (a.session.evict ⟨kind, id⟩).1.item? r = none := by
    intro r hr
    refine Option.eq_none_iff_forall_ne_some.2 fun x hx => ?_
    rw [item?_of_evict hx] at hr
    cases hr
  rcases h.other hk hx with hold | ⟨hr, target, htarget, hy, hnot⟩
  · have hne : r ≠ ⟨kind, id⟩ := by
      rintro rfl
      exact hk rfl
    refine (habs.underway.coherent.named.item?_evict hold hne).imp_right ?_
    rintro ⟨hr, target, htarget, ⟨y, hy⟩, hgone⟩
    refine ⟨hr, target, htarget, ?_, hgone, ref_ne_of_absorbing hs habs hy⟩
    by_cases hkt : target.kind = kind
    · obtain ⟨k, id'⟩ := target
      obtain rfl : k = kind := hkt
      by_cases hid : (⟨k, id'⟩ : ItemRef) = ⟨k, id⟩
      · exact hid ▸ habs.item_of_mem (List.mem_cons_self ..)
      · rw [item?_evict_of_not_mem (r := ⟨k, id'⟩) a.session k.not_mem_dependencies_self hid, hy]
          at hgone
        cases hgone
    · exact ⟨y, habs.underway.item? hkt hy⟩
  · refine .inr ⟨hnone hr, target, htarget, hy, hnone ?_, fun c hc href => hnot (.inr ⟨c, hc, href⟩)⟩
    exact Option.eq_none_iff_forall_ne_some.2 fun z hz => hnot (.inl ⟨z, hz⟩)

/-- An item without a row is evicted, and with it what refers to it. -/
theorem Accounts.evict (hs : s₀.Coherent) (h : Accounts s₀ kind findings a) {id : ItemId}
    (habs : Absorbing s₀ kind rows (.gone id :: todo) a) (hf : Finding.gone id ∈ findings)
    (hsession : a'.session = (a.session.evict ⟨kind, id⟩).1) (hconf : a'.conflicts = a.conflicts) :
    Accounts s₀ kind findings a' := by
  constructor
  case own =>
    intro id' x hx
    by_cases hid : id' = id
    · exact .inr ⟨_, hf, congrArg some hid.symm⟩
    · have hne : (⟨kind, id'⟩ : ItemRef) ≠ ⟨kind, id⟩ := fun he => hid (congrArg ItemRef.id he)
      unfold Has
      rw [hsession, hconf,
        item?_evict_of_not_mem (r := ⟨kind, id'⟩) a.session kind.not_mem_dependencies_self hne]
      exact h.own hx
  case other =>
    intro r x hk hx
    rw [hsession]
    refine (h.other_of_evict hs habs hk hx).imp_right ?_
    rintro ⟨hr, target, htarget, hy, hgone, haside⟩
    refine ⟨hr, target, htarget, hy, ?_⟩
    rintro (⟨z, hz⟩ | ⟨c, hc, href⟩)
    · rw [hsession, hgone] at hz
      cases hz
    · exact haside c (hconf ▸ hc) href
  case targets =>
    intro r x hk hx target htarget hy
    rw [hsession] at hx
    unfold Has
    rw [hconf, hsession]
    refine (h.targets hk (item?_of_evict hx) target htarget hy).imp_left fun hz => ?_
    exact habs.underway.coherent.named.keepsTargets_evict _ hx target htarget hz
  case conflicts => exact hconf ▸ h.conflicts

/-- What taking in one finding takes out. -/
theorem Accounts.step (hs : s₀.Coherent) (habs : Absorbing s₀ kind rows (f :: todo) a)
    (h : Accounts s₀ kind findings a) (hf : f ∈ findings) :
    Accounts s₀ kind findings (a.step kind f) := by
  have hnamed := habs.underway.coherent.named
  cases f with
  | same id => exact h
  | unknown row =>
    refine h.replace (b := .loaded a.session.nextId kind row) rfl (fun ⟨x, hx⟩ => ?_)
      (fun r => item?_put ..) rfl
    exact absurd (hs.given hx) (Nat.not_lt.2 habs.underway.nextId_le)
  | changed id row =>
    unfold Absorption.step
    dsimp only
    split
    next => exact h
    next y hy =>
      have href : (y.adopt row).ref = y.ref := rfl
      refine h.replace (b := y.adopt row) (congrArg ItemRef.kind (hnamed hy)) (fun _ => ⟨y, ?_⟩)
        (fun r => item?_put ..) rfl
      rw [href, hnamed hy, hy]
  | twin id row =>
    unfold Absorption.step
    dsimp only
    split
    next => exact h
    next y hy =>
      have href : (y.claim row).ref = y.ref := by
        have ht := Item.takes_claim y row
        exact congrArg₂ ItemRef.mk ht.kind_eq ht.id_eq
      refine h.replace (b := y.claim row) (congrArg ItemRef.kind (href.trans (hnamed hy)))
        (fun _ => ⟨y, ?_⟩) (fun r => item?_put ..) rfl
      rw [href, hnamed hy, hy]
  | conflict id row d =>
    unfold Absorption.step
    dsimp only
    split
    next => exact h
    next y hy => exact h.setAside hnamed hy hf rfl rfl
  | gone id => exact h.evict hs habs hf rfl rfl

/-- An item for which no row was found has one, but none that was fetched. -/
theorem dbId_of_missing (ht : (s₀.table kind).Exact) (hrows : (rows.filterMap Record.dbId?).Nodup)
    {id : ItemId} {x : Item} (hx : s₀.item? ⟨kind, id⟩ = some x)
    (hf : f ∈ (s₀.table kind).findings rows) (hid : f.missing? = some id) :
    ∃ d, x.dbId = some d ∧ d ∉ rows.filterMap Record.dbId? := by
  obtain ⟨x', d, hx', hd, hmem⟩ := Table.dbId_of_missing ht hrows hf hid
  rw [item?_eq, hx'] at hx
  exact ⟨d, Option.some.inj hx ▸ hd, hmem⟩

/-- So has an item in conflict without a row. -/
theorem Accounts.dbId_of_conflict (ht : (s₀.table kind).Exact)
    (hrows : (rows.filterMap Record.dbId?).Nodup)
    (h : Accounts s₀ kind ((s₀.table kind).findings rows) a) {c : Conflict} (hc : c ∈ a.conflicts)
    (hitem : s₀.item? ⟨kind, c.item.id⟩ = some c.item) (hrow : c.row = none) :
    ∃ d, c.item.dbId = some d ∧ d ∉ rows.filterMap Record.dbId? := by
  obtain ⟨d, hf⟩ := h.conflicts c hc
  rw [hrow] at hf
  exact dbId_of_missing ht hrows hitem hf rfl

/-! ### Deciding on what is set aside -/

/-- Session `t` has the items that were set aside back, but for some whose row is gone. -/
structure Settles (a : Absorption) (gone : List ItemRef) (t : Session) : Prop where
  same : ∀ ⦃r⦄, (∀ c ∈ a.conflicts, c.item.ref ≠ r) → t.item? r = a.session.item? r
  back : ∀ c ∈ a.conflicts, (∃ x, t.item? c.item.ref = some x) ∨ c.item.ref ∈ gone
  gone : ∀ r ∈ gone, t.item? r = none ∧ ∃ c ∈ a.conflicts, c.item.ref = r ∧ c.row = none

theorem Settles.of_has {gone : List ItemRef} {t : Session} (h : Settles a gone t) {r : ItemRef}
    (hr : a.Has r) : (∃ x, t.item? r = some x) ∨ r ∈ gone := by
  by_cases hc : ∃ c ∈ a.conflicts, c.item.ref = r
  · obtain ⟨c, hc, rfl⟩ := hc
    exact h.back c hc
  · rw [h.same fun c hc' href => hc ⟨c, hc', href⟩]
    exact .inl (hr.resolve_right hc)

section

variable {gone : List ItemRef} {t : Session} (hs : s₀.Coherent)
  (habs : Absorbing s₀ kind rows [] a) (hset : Settles a gone t)

include hs habs hset

/-- Deciding leaves the other tables alone. -/
theorem Settles.item?_of_ne {r : ItemRef} (hk : r.kind ≠ kind) : t.item? r = a.session.item? r :=
  hset.same fun c hc he => hk (he ▸ hs.item_kind (habs.conflicts c hc).item)

/-- What refers to the items that are gone is in other tables. -/
theorem Settles.item?_swept (id : ItemId) :
    (t.evictReferrers gone).session.item? ⟨kind, id⟩ = t.item? ⟨kind, id⟩ := by
  have hevicts : Evicts kind t (t.evictReferrers gone).session := by
    refine evicts_evictReferrers fun r hr => ?_
    obtain ⟨-, c, hc, rfl, -⟩ := hset.gone r hr
    exact hs.item_kind (habs.conflicts c hc).item
  rw [item?_eq, hevicts.table_eq kind.not_mem_dependencies_self, ← item?_eq (r := ⟨kind, id⟩)]

/-- Of the fetched table, what is missing in the end has a row that was not fetched. -/
theorem Accounts.loses_own (ht : (s₀.table kind).Exact) (hrows : (rows.filterMap Record.dbId?).Nodup)
    (h : Accounts s₀ kind ((s₀.table kind).findings rows) a) {id : ItemId} {x : Item}
    (hx : s₀.item? ⟨kind, id⟩ = some x)
    (hgone : (t.evictReferrers gone).session.item? ⟨kind, id⟩ = none) :
    ∃ d, x.dbId = some d ∧ d ∉ rows.filterMap Record.dbId? := by
  rcases h.own hx with hhas | ⟨f, hf, hid⟩
  · rw [hset.item?_swept hs habs] at hgone
    rcases hset.of_has hhas with ⟨y, hy⟩ | hmem
    · rw [hgone] at hy
      cases hy
    · obtain ⟨-, c, hc, hcr, hrow⟩ := hset.gone _ hmem
      obtain ⟨d, hf⟩ := h.conflicts c hc
      have hid : c.item.id = id := congrArg ItemRef.id hcr
      refine dbId_of_missing ht hrows hx hf ?_
      rw [hrow, hid]
      rfl
  · exact dbId_of_missing ht hrows hx hf hid

/-- Of the other tables, what is missing in the end is an orphan. -/
theorem Accounts.loses_other (h : Accounts s₀ kind findings a) (hnamed : t.Named) {r : ItemRef}
    {x : Item} (hk : r.kind ≠ kind) (hx : s₀.item? r = some x) :
    (t.evictReferrers gone).session.item? r = some x ∨
      s₀.Orphans (t.evictReferrers gone).session r x := by
  have hswept := swept_evictReferrers hnamed gone
  have hnone : ∀ {r}, t.item? r = none → (t.evictReferrers gone).session.item? r = none := by
    intro r ht
    refine Option.eq_none_iff_forall_ne_some.2 fun x hx => ?_
    rw [hswept.subset hx] at ht
    cases ht
  rcases h.other hk hx with hold | ⟨hr, target, htarget, hy, hnot⟩
  · rw [← hset.item?_of_ne hs habs hk] at hold
    cases hw : (t.evictReferrers gone).session.item? r with
    | some y => exact .inl (congrArg some (Option.some.inj ((hswept.subset hw).symm.trans hold)))
    | none =>
      obtain ⟨target, htarget, hgone⟩ := hswept.cause hold hw
      refine .inr ⟨hw, target, htarget, ?_⟩
      rcases (hswept.mem_gone_iff target).1 hgone with hgone | ⟨⟨y, hy⟩, hwt⟩
      · obtain ⟨htn, c, hc, rfl, -⟩ := hset.gone target hgone
        have hitem := (habs.conflicts c hc).item
        exact ⟨⟨c.item, (hs.item_ref hitem).symm ▸ hitem⟩, hnone htn⟩
      · have hkt : target.kind ≠ kind := by
          intro hkt
          obtain ⟨k, id⟩ := target
          obtain rfl : k = kind := hkt
          rw [hset.item?_swept hs habs, hy] at hwt
          cases hwt
        rw [hset.item?_of_ne hs habs hkt] at hy
        exact ⟨⟨y, habs.underway.item? hkt hy⟩, hwt⟩
  · refine .inr ⟨hnone ((hset.item?_of_ne hs habs hk).trans hr), target, htarget, hy, hnone ?_⟩
    rw [hset.same fun c hc he => hnot (.inr ⟨c, hc, he⟩)]
    exact Option.eq_none_iff_forall_ne_some.2 fun z hz => hnot (.inl ⟨z, hz⟩)

/-- What is left in the end has all that it refers to. -/
theorem Accounts.loses_targets (h : Accounts s₀ kind findings a) (hnamed : t.Named)
    (hend : Underway s₀ kind rows [] [] (t.evictReferrers gone).session) :
    s₀.KeepsTargets (t.evictReferrers gone).session := by
  have hswept := swept_evictReferrers hnamed gone
  intro r x hx target htarget hy
  by_cases hk : r.kind = kind
  · -- what an item of this kind refers to comes before the kind
    have hrank := Item.rank_lt_of_mem_references htarget
    rw [hend.coherent.item_kind hx, hk] at hrank
    rw [item?_eq, (undisturbed_of_rank_lt hend.table_eq hrank).1, ← item?_eq]
    exact hy
  · have hxt := hswept.subset hx
    rw [hset.item?_of_ne hs habs hk] at hxt
    have hnot := hswept.severed hx (Kind.mem_all _) target htarget
    rw [hswept.mem_gone_iff, not_or] at hnot
    rcases hset.of_has (h.targets hk hxt target htarget hy) with hz | hgone
    · exact Option.ne_none_iff_exists'.1 fun hwn => hnot.2 ⟨hz, hwn⟩
    · exact absurd hgone hnot.1

/-- What a fetch takes out, all in all. -/
theorem Accounts.loses (ht : (s₀.table kind).Exact) (hrows : (rows.filterMap Record.dbId?).Nodup)
    (h : Accounts s₀ kind ((s₀.table kind).findings rows) a) (hnamed : t.Named)
    (hend : Underway s₀ kind rows [] [] (t.evictReferrers gone).session) :
    s₀.Loses kind rows (t.evictReferrers gone).session where
  own _ _ hx hgone := h.loses_own hs habs hset ht hrows hx hgone
  other _ _ hk hx := h.loses_other hs habs hset hnamed hk hx
  targets := h.loses_targets hs habs hset hnamed hend

end

end Absorption

end StagedEdits
