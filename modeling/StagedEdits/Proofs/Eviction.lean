import StagedEdits.Proofs.Session
import StagedEdits.Session.Eviction

/-!
# What an eviction takes out

Evicting the referrers of items of one kind only ever takes items out, and only items of kinds that
depend on that kind (`Session.evicts_evictReferrers`).  Every item that is taken out refers to one
that is gone, and no item that is left does (`Session.swept_evictReferrers`): since the sweep goes
through the kinds in order, what it has left of one kind will not be orphaned by a later one.
-/

namespace StagedEdits

namespace Kind

/-- Kinds depend on what the kinds they refer to depend on. -/
theorem mem_dependencies_of_referenced {k k' target : Kind} (h : target ∈ k'.referenced)
    (ht : target = k ∨ k ∈ target.dependencies) : k ∈ k'.dependencies := by
  revert h ht
  cases k' <;> cases target <;> first
    | (intro h; exact absurd h (by decide))
    | (intro _; cases k <;> decide)

theorem rank_lt_of_mem_dependencies {k k' : Kind} (h : k ∈ k'.dependencies) : k.rank < k'.rank := by
  revert h
  cases k' <;> cases k <;> decide

theorem not_mem_dependencies_self (k : Kind) : k ∉ k.dependencies := fun h =>
  Nat.lt_irrefl _ (rank_lt_of_mem_dependencies h)

theorem pairwise_rank_all : all.Pairwise fun a b => a.rank < b.rank := by decide

theorem rank_lt_of_mem_referenced {k target : Kind} (h : target ∈ k.referenced) :
    target.rank < k.rank := by
  obtain ⟨⟨field, kind⟩, hmem, rfl⟩ := List.mem_map.1 h
  exact rank_lt_of_mem_references hmem

/-- What refers to one of the kinds is one of them. -/
theorem mem_withDependents {kinds : List Kind} {k target : Kind} (ht : target ∈ k.referenced)
    (h : target ∈ withDependents kinds) : k ∈ withDependents kinds := by
  unfold withDependents at h ⊢
  generalize hf : (fun (doomed : List Kind) (k : Kind) =>
    if k.referenced.any (· ∈ doomed) then k :: doomed else doomed) = f at h ⊢
  have hvisit : ∀ doomed (k k' : Kind), k' ∈ f doomed k ↔
      k' ∈ doomed ∨ (k' = k ∧ k.referenced.any (· ∈ doomed) = true) := by
    intro doomed k k'
    rw [← hf]
    dsimp only
    split
    next hany => simp [hany, or_comm]
    next hany => simp [hany]
  have hmono : ∀ (l doomed : List Kind), ∀ k ∈ doomed, k ∈ l.foldl f doomed := by
    intro l
    induction l with
    | nil => exact fun _ _ hk => hk
    | cons k' l ih => exact fun doomed k hk => ih _ _ ((hvisit ..).2 (.inl hk))
  -- a kind that was passed over stays out
  have hpassed : ∀ (l doomed : List Kind), ∀ k ∉ l, k ∈ l.foldl f doomed → k ∈ doomed := by
    intro l
    induction l with
    | nil => exact fun _ _ _ hk => hk
    | cons k' l ih =>
      intro doomed k hnot hk
      rw [List.mem_cons, not_or] at hnot
      exact ((hvisit ..).1 (ih _ _ hnot.2 hk)).resolve_right fun hin => hnot.1 hin.1
  have hfold : ∀ (l doomed : List Kind), l.Pairwise (fun a b => a.rank < b.rank) → k ∈ l →
      target ∈ l.foldl f doomed → k ∈ l.foldl f doomed := by
    intro l
    induction l with
    | nil => exact fun _ _ hk => absurd hk List.not_mem_nil
    | cons k' l ih =>
      intro doomed hsorted hk hin
      obtain ⟨hfirst, hsorted⟩ := List.pairwise_cons.1 hsorted
      rcases List.mem_cons.1 hk with rfl | hk
      · refine hmono l (f doomed k) k ?_
        have hlt := rank_lt_of_mem_referenced ht
        have hin := hpassed l (f doomed k) target
          (fun hlater => Nat.lt_asymm hlt (hfirst _ hlater)) hin
        rcases (hvisit ..).1 hin with hin | ⟨rfl, -⟩
        · exact (hvisit ..).2 (.inr ⟨rfl, List.any_eq_true.2 ⟨target, ht, decide_eq_true hin⟩⟩)
        · exact absurd hlt (Nat.lt_irrefl _)
      · exact ih _ hsorted hk hin
  exact hfold _ _ pairwise_rank_all (mem_all k) h

end Kind

/-- References point to items of a kind that is referred to. -/
theorem Item.kind_mem_referenced {item : Item} {r : ItemRef} (h : r ∈ item.references) :
    r.kind ∈ item.kind.referenced := by
  unfold references at h
  obtain ⟨⟨field, target⟩, hmem, hr⟩ := List.mem_filterMap.1 h
  obtain ⟨id, -, rfl⟩ := Option.map_eq_some_iff.1 hr
  exact List.mem_map.2 ⟨(field, target), hmem, rfl⟩

/-- An item refers only to items of kinds before its own. -/
theorem Item.rank_lt_of_mem_references {item : Item} {target : ItemRef}
    (h : target ∈ item.references) : target.kind.rank < item.kind.rank :=
  Kind.rank_lt_of_mem_referenced (kind_mem_referenced h)

namespace Session

/-- The settings of a session, what it fetched and what it knows of are the same. -/
structure SameFrame (s s' : Session) : Prop where
  config : s'.config = s.config
  fetched : s'.fetched = s.fetched
  knownCommits : s'.knownCommits = s.knownCommits

theorem SameFrame.refl (s : Session) : SameFrame s s := ⟨rfl, rfl, rfl⟩

theorem SameFrame.trans {a b c : Session} (hab : SameFrame a b) (hbc : SameFrame b c) :
    SameFrame a c :=
  ⟨hbc.config.trans hab.config, hbc.fetched.trans hab.fetched,
    hbc.knownCommits.trans hab.knownCommits⟩

theorem sameFrame_put (s : Session) (item : Item) : SameFrame s (s.put item) := ⟨rfl, rfl, rfl⟩

theorem sameFrame_drop (s : Session) (r : ItemRef) : SameFrame s (s.drop r) := by
  unfold drop
  split <;> exact ⟨rfl, rfl, rfl⟩

theorem nextId_drop (s : Session) (r : ItemRef) : (s.drop r).nextId = s.nextId := by
  unfold drop
  split <;> rfl

theorem sameFrame_modify (s : Session) (r : ItemRef) (f : Item → Item) :
    SameFrame s (s.modify r f) := by
  unfold modify
  split <;> exact ⟨rfl, rfl, rfl⟩

theorem nextId_modify (s : Session) (r : ItemRef) (f : Item → Item) :
    (s.modify r f).nextId = s.nextId := by
  unfold modify
  split <;> rfl

theorem item?_of_drop {s : Session} {r r' : ItemRef} {item : Item}
    (h : (s.drop r).item? r' = some item) : s.item? r' = some item :=
  (item?_drop_eq_some_iff.1 h).2

/-- `s'` is `s` without some items of kinds that depend on `k`. -/
structure Evicts (k : Kind) (s s' : Session) : Prop where
  frame : SameFrame s s'
  nextId : s'.nextId = s.nextId
  item? : ∀ ⦃r item⦄, s'.item? r = some item → s.item? r = some item
  table_eq : ∀ ⦃k'⦄, k ∉ k'.dependencies → s'.table k' = s.table k'
  coherent : s.Coherent → s'.Coherent
  keeps : ∀ {P : Table → Prop}, (∀ t id, P t → P (t.erase id)) →
    ∀ k', P (s.table k') → P (s'.table k')

theorem Evicts.exact {k k' : Kind} {s s' : Session} (h : Evicts k s s') (ht : (s.table k').Exact) :
    (s'.table k').Exact :=
  h.keeps (fun _ id ht => ht.erase id) k' ht

theorem Evicts.refl (k : Kind) (s : Session) : Evicts k s s :=
  ⟨.refl s, rfl, fun _ _ h => h, fun _ _ => rfl, fun h => h, fun _ _ h => h⟩

theorem Evicts.trans {k : Kind} {a b c : Session} (hab : Evicts k a b) (hbc : Evicts k b c) :
    Evicts k a c where
  frame := hab.frame.trans hbc.frame
  nextId := hbc.nextId.trans hab.nextId
  item? _ _ h := hab.item? (hbc.item? h)
  table_eq _ hk := (hbc.table_eq hk).trans (hab.table_eq hk)
  coherent h := hbc.coherent (hab.coherent h)
  keeps hP k' h := hbc.keeps hP k' (hab.keeps hP k' h)

theorem evicts_drop {k : Kind} {r : ItemRef} (s : Session) (h : k ∈ r.kind.dependencies) :
    Evicts k s (s.drop r) := by
  refine ⟨sameFrame_drop s r, nextId_drop s r, fun _ _ hitem => item?_of_drop hitem, ?_,
    fun hs => hs.drop r, ?_⟩
  · intro k' hk'
    rw [table_drop, if_neg]
    rintro rfl
    exact hk' h
  · intro P hP k' hk'
    rw [table_drop]
    split
    · exact hP _ r.id hk'
    · exact hk'

theorem evicts_foldl_drop {k : Kind} {items : List Item}
    (h : ∀ item ∈ items, k ∈ item.kind.dependencies) (s : Session) :
    Evicts k s (items.foldl (fun s item => s.drop item.ref) s) := by
  induction items generalizing s with
  | nil => exact .refl k s
  | cons item items ih =>
    rw [List.foldl_cons]
    have hfirst : Evicts k s (s.drop item.ref) :=
      evicts_drop (r := item.ref) s (h item (List.mem_cons_self ..))
    exact hfirst.trans (ih (fun item' h' => h item' (List.mem_cons_of_mem _ h')) _)

/-- A sweep that started with items of kind `k` only. -/
structure SweepsFrom (k : Kind) (s : Session) (w : Sweep) : Prop where
  evicts : Evicts k s w.session
  gone : ∀ r ∈ w.gone, r.kind = k ∨ k ∈ r.kind.dependencies

theorem SweepsFrom.step {k : Kind} {s : Session} {w : Sweep} (h : SweepsFrom k s w) (kind : Kind) :
    SweepsFrom k s (w.step kind) := by
  have horphan : ∀ item ∈ w.orphans kind, k ∈ item.kind.dependencies := by
    intro item hitem
    obtain ⟨-, href⟩ := List.mem_filter.1 hitem
    obtain ⟨r, hr, hgone⟩ := List.any_eq_true.1 href
    exact Kind.mem_dependencies_of_referenced (Item.kind_mem_referenced hr)
      (h.gone r (by simpa using hgone))
  refine ⟨h.evicts.trans (evicts_foldl_drop horphan _), ?_⟩
  intro r hr
  rcases List.mem_append.1 hr with hr | hr
  · exact h.gone r hr
  · obtain ⟨item, hitem, rfl⟩ := List.mem_map.1 hr
    exact .inr (horphan item hitem)

theorem item?_foldl_drop (l : List ItemRef) (s : Session) (r : ItemRef) :
    (l.foldl drop s).item? r = if r ∈ l then none else s.item? r := by
  induction l generalizing s with
  | nil => exact (if_neg List.not_mem_nil).symm
  | cons r' l ih =>
    rw [List.foldl_cons, ih, item?_drop]
    by_cases hr : r = r'
    · rw [if_pos hr, if_pos (List.mem_cons.2 (.inl hr)), ite_self]
    · rw [if_neg hr]
      simp only [List.mem_cons, hr, false_or]

/-- One step of a sweep takes out the orphans. -/
theorem session_step (w : Sweep) (kind : Kind) :
    (w.step kind).session = ((w.orphans kind).map Item.ref).foldl drop w.session :=
  List.foldl_map.symm

theorem item?_step (w : Sweep) (kind : Kind) (r : ItemRef) : (w.step kind).session.item? r =
    if r ∈ (w.orphans kind).map Item.ref then none else w.session.item? r := by
  rw [session_step, item?_foldl_drop]

/-- What holds when a sweep begins, and is kept by every step, holds in the end. -/
theorem evictReferrers_induction {s : Session} {gone : List ItemRef} {K : Sweep → Prop}
    (hstart : K ⟨s, gone, 0⟩) (hstep : ∀ w kind, K w → K (w.step kind)) : K (s.evictReferrers gone) :=
  List.foldlRecOn (motive := K) Kind.all Sweep.step hstart fun w hw kind _ => hstep w kind hw

/-- Evictions take items out, and do nothing else to items. -/
theorem item?_of_evictReferrers {s : Session} {gone : List ItemRef} {r : ItemRef} {item : Item}
    (h : (s.evictReferrers gone).session.item? r = some item) : s.item? r = some item := by
  revert h
  refine evictReferrers_induction (K := fun w => w.session.item? r = some item → s.item? r = some item)
    id fun w kind ih h => ih ?_
  rw [item?_step] at h
  split at h
  next => cases h
  next => exact h

theorem item?_of_evict {s : Session} {r r' : ItemRef} {item : Item}
    (h : (s.evict r).1.item? r' = some item) : s.item? r' = some item := by
  revert h
  unfold evict
  cases s.item? r with
  | none => exact fun h => h
  | some gone =>
    dsimp only
    exact fun h => item?_of_drop (item?_of_evictReferrers h)

/-- Evicting what refers to items of kind `k` takes out items of kinds that depend on `k`. -/
theorem evicts_evictReferrers {k : Kind} {s : Session} {gone : List ItemRef}
    (hgone : ∀ r ∈ gone, r.kind = k) : Evicts k s (s.evictReferrers gone).session :=
  (evictReferrers_induction (K := SweepsFrom k s) ⟨.refl k s, fun r hr => .inl (hgone r hr)⟩
    fun _ kind h => h.step kind).evicts

/-- An eviction leaves alone what does not depend on the kind of the item. -/
theorem item?_evict_of_not_mem (s : Session) {r r₀ : ItemRef} (hk : r₀.kind ∉ r.kind.dependencies)
    (hne : r ≠ r₀) : (s.evict r₀).1.item? r = s.item? r := by
  unfold evict
  split
  next => rfl
  next =>
    dsimp only
    have hevicts : Evicts r₀.kind (s.drop r₀) ((s.drop r₀).evictReferrers [r₀]).session :=
      evicts_evictReferrers fun r hr => by rw [List.mem_singleton.1 hr]
    rw [item?_eq, hevicts.table_eq hk, ← item?_eq, item?_drop, if_neg hne]

/-! ### What refers to an item that is gone -/

/-- Items are found under their own names. -/
def Named (s : Session) : Prop := ∀ ⦃r item⦄, s.item? r = some item → item.ref = r

theorem Coherent.named {s : Session} (hs : s.Coherent) : s.Named := fun _ _ => hs.item_ref

/-- Item `a` of `s` is gone, and so is an item that it refers to. -/
def Orphans (s s' : Session) (r : ItemRef) (a : Item) : Prop :=
  s'.item? r = none ∧ ∃ target ∈ a.references, (∃ x, s.item? target = some x) ∧
    s'.item? target = none

/-- Whatever is left in `s'` has kept those items of `s` that it refers to. -/
def KeepsTargets (s s' : Session) : Prop :=
  ∀ ⦃r x⦄, s'.item? r = some x → ∀ target ∈ x.references, (∃ y, s.item? target = some y) →
    ∃ y, s'.item? target = some y

variable {s : Session} {r₀ r : ItemRef} {a : Item} {gone : List ItemRef} {kinds : List Kind}
  {kind : Kind} {w : Sweep}

/-- A sweep that has gone through the given kinds of session `s`, out of which the items `gone` were
taken first. -/
structure Swept (s : Session) (gone : List ItemRef) (kinds : List Kind) (w : Sweep) : Prop where
  subset : ∀ ⦃r x⦄, w.session.item? r = some x → s.item? r = some x
  mem_gone_iff : ∀ r, r ∈ w.gone ↔
    r ∈ gone ∨ ((∃ x, s.item? r = some x) ∧ w.session.item? r = none)
  cause : ∀ ⦃r x⦄, s.item? r = some x → w.session.item? r = none →
    ∃ target ∈ x.references, target ∈ w.gone
  severed : ∀ ⦃r x⦄, w.session.item? r = some x → r.kind ∈ kinds →
    ∀ target ∈ x.references, target ∉ w.gone

theorem mem_orphans_iff (hw : w.session.Named) :
    r ∈ (w.orphans kind).map Item.ref ↔ r.kind = kind ∧
      ∃ x, w.session.item? r = some x ∧ ∃ target ∈ x.references, target ∈ w.gone := by
  unfold Sweep.orphans
  constructor
  · intro hr
    obtain ⟨x, hx, rfl⟩ := List.mem_map.1 hr
    obtain ⟨hall, hany⟩ := List.mem_filter.1 hx
    obtain ⟨target, htarget, hgone⟩ := List.any_eq_true.1 hany
    have hx := mem_all_iff.1 hall
    have hk : x.kind = kind := congrArg ItemRef.kind (hw hx)
    exact ⟨hk, x, by rw [hw hx]; exact hx, target, htarget, of_decide_eq_true hgone⟩
  · rintro ⟨rfl, x, hx, target, htarget, hgone⟩
    refine List.mem_map.2 ⟨x, List.mem_filter.2 ⟨?_, ?_⟩, hw hx⟩
    · rw [mem_all_iff, item_id hx]
      exact hx
    · exact List.any_eq_true.2 ⟨target, htarget, decide_eq_true hgone⟩

theorem mem_referrers_iff (hs : s.Named) {r r' : ItemRef} {p : Item → Bool} :
    r' ∈ s.referrers r p ↔
      ∃ item, s.item? r' = some item ∧ p item = true ∧ r ∈ item.references := by
  have hall : ∀ kind, ((s.table? kind).map Table.all).getD [] = s.all kind := fun _ => rfl
  unfold referrers
  simp only [hall]
  rw [List.mem_flatMap]
  constructor
  · rintro ⟨kind, -, hmem⟩
    obtain ⟨item, hitem, rfl⟩ := List.mem_map.1 hmem
    obtain ⟨hin, htest⟩ := List.mem_filter.1 hitem
    obtain ⟨hp, hrefers⟩ := Bool.and_eq_true_iff.1 htest
    have hi := mem_all_iff.1 hin
    have hk : item.kind = kind := congrArg ItemRef.kind (hs hi)
    exact ⟨item, by rw [Item.ref, hk]; exact hi, hp, of_decide_eq_true hrefers⟩
  · rintro ⟨item, hi, hp, hrefers⟩
    have hid : item.id = r'.id := item_id hi
    have hk : item.kind = r'.kind := congrArg ItemRef.kind (hs hi)
    refine ⟨r'.kind, ?_, List.mem_map.2 ⟨item, List.mem_filter.2 ⟨?_, ?_⟩, hs hi⟩⟩
    · refine List.mem_filter.2 ⟨r'.kind.mem_all, ?_⟩
      rw [← hk]
      exact decide_eq_true (Item.kind_mem_referenced hrefers)
    · exact mem_all_iff.2 (by rw [hid]; exact hi)
    · exact Bool.and_eq_true_iff.2 ⟨hp, decide_eq_true hrefers⟩

/-- The orphans of a kind are different items. -/
theorem nodup_orphans (w : Sweep) (kind : Kind) : ((w.orphans kind).map Item.ref).Nodup := by
  refine List.Nodup.of_map ItemRef.id ?_
  rw [List.map_map]
  unfold Sweep.orphans
  rw [all_eq]
  exact (w.session.table kind).nodup_map_id _

theorem Swept.step (hs : s.Named) (h : Swept s gone kinds w) (hk : ∀ k ∈ kinds, k.rank < kind.rank) :
    Swept s gone (kinds ++ [kind]) (w.step kind) := by
  have hw : w.session.Named := fun _ _ hx => hs (h.subset hx)
  have horphan : ∀ r, r ∈ (w.orphans kind).map Item.ref ↔ r.kind = kind ∧
      ∃ x, w.session.item? r = some x ∧ ∃ target ∈ x.references, target ∈ w.gone :=
    fun _ => mem_orphans_iff hw
  have hsession := item?_step w kind
  have hleft : ∀ {r x}, (w.step kind).session.item? r = some x →
      r ∉ (w.orphans kind).map Item.ref ∧ w.session.item? r = some x := by
    intro r x hx
    rw [hsession] at hx
    split at hx
    next => cases hx
    next hnot => exact ⟨hnot, hx⟩
  constructor
  case subset => exact fun r x hx => h.subset (hleft hx).2
  case mem_gone_iff =>
    intro r
    have hgone : (w.step kind).gone = w.gone ++ (w.orphans kind).map Item.ref := rfl
    rw [hgone, List.mem_append, h.mem_gone_iff, hsession]
    constructor
    · rintro ((hr | ⟨hx, hnone⟩) | hr)
      · exact .inl hr
      · exact .inr ⟨hx, by rw [hnone, ite_self]⟩
      · obtain ⟨-, x, hx, -⟩ := (horphan r).1 hr
        exact .inr ⟨⟨x, h.subset hx⟩, if_pos hr⟩
    · rintro (hr | ⟨hx, hnone⟩)
      · exact .inl (.inl hr)
      · by_cases hr : r ∈ (w.orphans kind).map Item.ref
        · exact .inr hr
        · rw [if_neg hr] at hnone
          exact .inl (.inr ⟨hx, hnone⟩)
  case cause =>
    intro r x hx hnone
    rw [hsession] at hnone
    split at hnone
    next hr =>
      obtain ⟨-, x', hx', target, htarget, hgone⟩ := (horphan r).1 hr
      obtain rfl := Option.some.inj ((h.subset hx').symm.trans hx)
      exact ⟨target, htarget, List.mem_append_left _ hgone⟩
    next =>
      obtain ⟨target, htarget, hgone⟩ := h.cause hx hnone
      exact ⟨target, htarget, List.mem_append_left _ hgone⟩
  case severed =>
    intro r x hx hr target htarget hgone
    obtain ⟨hnot, hx⟩ := hleft hx
    have hrank := Item.rank_lt_of_mem_references htarget
    have hkind : x.kind = r.kind := congrArg ItemRef.kind (hw hx)
    rcases List.mem_append.1 hr with hr | hr <;> rcases List.mem_append.1 hgone with hgone | hgone
    · exact h.severed hx hr target htarget hgone
    · -- an orphan of this kind comes too late to be referred to by an earlier kind
      rw [((horphan target).1 hgone).1, hkind] at hrank
      exact Nat.lt_asymm hrank (hk _ hr)
    · exact hnot ((horphan r).2 ⟨List.mem_singleton.1 hr, x, hx, target, htarget, hgone⟩)
    · rw [((horphan target).1 hgone).1, hkind, List.mem_singleton.1 hr] at hrank
      exact Nat.lt_irrefl _ hrank

/-- An eviction takes out what refers to an item that is gone, and leaves nothing that does. -/
theorem swept_evictReferrers (hs : s.Named) (gone : List ItemRef) :
    Swept s gone Kind.all (s.evictReferrers gone) := by
  have hfold : ∀ (todo done : List Kind) (w : Sweep),
      (done ++ todo).Pairwise (fun a b => a.rank < b.rank) → Swept s gone done w →
        Swept s gone (done ++ todo) (todo.foldl Sweep.step w) := by
    intro todo
    induction todo with
    | nil => exact fun done w _ h => by rw [List.append_nil]; exact h
    | cons kind todo ih =>
      intro done w hrank h
      have hnext := h.step hs fun k hk => (List.pairwise_append.1 hrank).2.2 k hk kind
        (List.mem_cons_self ..)
      rw [List.append_cons] at hrank ⊢
      exact ih _ _ hrank hnext
  refine hfold Kind.all [] ⟨s, gone, 0⟩ Kind.pairwise_rank_all ⟨fun _ _ h => h, fun r => ?_, ?_, ?_⟩
  · exact ⟨.inl, fun h => h.resolve_right fun ⟨⟨x, hx⟩, hnone⟩ => nomatch hx.symm.trans hnone⟩
  · exact fun r x hx hnone => nomatch hx.symm.trans hnone
  · exact fun r x _ hr => absurd hr List.not_mem_nil

/-- When no item is gone there is nothing to evict. -/
theorem evictReferrers_nil (s : Session) : (s.evictReferrers []).session = s := by
  have hstep : ∀ kind, (Sweep.step ⟨s, [], 0⟩ kind) = ⟨s, [], 0⟩ := by
    intro kind
    have hnone : Sweep.orphans ⟨s, [], 0⟩ kind = [] :=
      List.filter_eq_nil_iff.2 fun item _ hany => by
        obtain ⟨target, -, hgone⟩ := List.any_eq_true.1 hany
        exact absurd (of_decide_eq_true hgone) List.not_mem_nil
    unfold Sweep.step
    dsimp only
    rw [hnone]
    rfl
  exact congrArg Sweep.session (evictReferrers_induction (K := fun w => w = ⟨s, [], 0⟩) rfl
    fun w kind hw => by rw [hw, hstep])

/-- What is left after an eviction refers to nothing that is gone. -/
theorem targets_evictReferrers (hs : s.Named) {x : Item}
    (hx : (s.evictReferrers gone).session.item? r = some x) {target : ItemRef}
    (htarget : target ∈ x.references) : target ∉ gone ∧ ((∃ y, s.item? target = some y) →
      ∃ y, (s.evictReferrers gone).session.item? target = some y) := by
  have hswept := swept_evictReferrers hs gone
  have hnot := hswept.severed hx (Kind.mem_all _) target htarget
  rw [hswept.mem_gone_iff, not_or] at hnot
  refine ⟨hnot.1, fun hy => Option.ne_none_iff_exists'.1 fun hnone => hnot.2 ⟨hy, hnone⟩⟩

/-- What an eviction takes out refers to something that is gone. -/
theorem cause_evictReferrers (hs : s.Named) (ha : s.item? r = some a)
    (hnone : (s.evictReferrers gone).session.item? r = none) :
    ∃ target ∈ a.references, target ∈ gone ∨ ((∃ x, s.item? target = some x) ∧
      (s.evictReferrers gone).session.item? target = none) := by
  have hswept := swept_evictReferrers hs gone
  obtain ⟨target, htarget, hgone⟩ := hswept.cause ha hnone
  exact ⟨target, htarget, (hswept.mem_gone_iff target).1 hgone⟩

theorem Named.drop (hs : s.Named) (r₀ : ItemRef) : (s.drop r₀).Named := fun _ _ hx =>
  hs (item?_of_drop hx)

/-- What an eviction takes out besides the item itself refers to something that it takes out. -/
theorem Named.item?_evict (hs : s.Named) (ha : s.item? r = some a) (hne : r ≠ r₀) :
    (s.evict r₀).1.item? r = some a ∨ s.Orphans (s.evict r₀).1 r a := by
  cases hx : (s.evict r₀).1.item? r with
  | some b => exact .inl (congrArg some (Option.some.inj ((item?_of_evict hx).symm.trans ha)))
  | none =>
    refine .inr ⟨hx, ?_⟩
    unfold evict at hx ⊢
    cases h₀ : s.item? r₀ with
    | none =>
      rw [h₀] at hx
      rw [hx] at ha
      cases ha
    | some x₀ =>
      rw [h₀] at hx
      dsimp only at hx ⊢
      have hdrop : (s.drop r₀).item? r = some a := item?_drop_eq_some_iff.2 ⟨hne, ha⟩
      obtain ⟨target, htarget, hgone | ⟨⟨x, hx'⟩, hnone⟩⟩ :=
        cause_evictReferrers (hs.drop r₀) hdrop hx
      · obtain rfl := List.mem_singleton.1 hgone
        refine ⟨target, htarget, ⟨x₀, h₀⟩, Option.eq_none_iff_forall_ne_some.2 fun y hy => ?_⟩
        exact (item?_drop_eq_some_iff.1 (item?_of_evictReferrers hy)).1 rfl
      · exact ⟨target, htarget, ⟨x, item?_of_drop hx'⟩, hnone⟩

/-- What is left after an item was evicted has kept all that it refers to. -/
theorem Named.keepsTargets_evict (hs : s.Named) (r₀ : ItemRef) : s.KeepsTargets (s.evict r₀).1 := by
  intro r x hx target htarget hy
  unfold evict at hx ⊢
  split at hx
  next h₀ => exact hy
  next x₀ h₀ =>
    dsimp only at hx ⊢
    obtain ⟨hnot, hkept⟩ := targets_evictReferrers (hs.drop r₀) hx htarget
    refine hkept ?_
    rw [item?_drop, if_neg fun he => hnot (List.mem_singleton.2 he)]
    exact hy

end Session

end StagedEdits
