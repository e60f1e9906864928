import StagedEdits.Proofs.Undoing

/-!
# What depends on an item

A removal takes along what refers to its item, directly or through others (`Session.DependsOn`), and
nothing else: the items that it gives are the smallest set with the item itself that has every live item
with a reference into the set (`Session.mem_removeAll_iff`).  The traversal meets an item as often as
something that it refers to is removed; only the first time counts.

* `Workspace.removal_of_dependents`: what a removal does, in every workspace.
* `Workspace.row_taken_by_idle_removal`: removing an item that is removed already can give its row to it.
-/

namespace StagedEdits

/-- Item `r` is one of the given ones, or an item with property `p` that refers, directly or through
others of the kind, to one of them. -/
inductive Session.DependsOn (s : Session) (p : Item → Prop) (given : ItemRef → Prop) : ItemRef → Prop
  | given {r : ItemRef} (h : given r) : DependsOn s p given r
  | refers {r target : ItemRef} {item : Item} (hitem : s.item? r = some item) (hp : p item)
      (htarget : target ∈ item.references) (h : DependsOn s p given target) : DependsOn s p given r

/-- What a removal makes of an item that was live. -/
structure Item.RemovedFor (source : Option ItemRef) (a b : Item) : Prop where
  status : b.status = if a.status = .toAdd then .addedAndRemoved else .toRemove
  statusWhenRemoved : b.statusWhenRemoved = some a.status
  removalSource : b.removalSource = source
  ref : b.ref = a.ref
  content : b.content = a.content
  dbId : b.dbId = a.dbId
  commitId : b.commitId = a.commitId
  synced : b.synced = a.synced
  backup : b.backup = a.backup

theorem Item.removedFor_markRemoved {a : Item} (h : a.removed = false) (source : Option ItemRef) :
    a.RemovedFor source (a.markRemoved source) := by
  unfold markRemoved
  rw [dif_neg (by simp [h])]
  exact ⟨rfl, rfl, rfl, rfl, rfl, rfl, rfl, rfl, rfl⟩

namespace Table

variable {t : Table} {id : ItemId} {item : Item}

/-- Putting an item in once more changes no binding, if its row leads to it. -/
theorem bindings_insert_self (ht : t.Sound) (hitem : t.get? id = some item)
    (hrow : ∀ d, item.dbId = some d → t.itemOfRow? d = some id) :
    (t.insert item).bindings = t.bindings := by
  have hid : item.id = id := t.id_eq hitem
  refine Bindings.ext_item? fun d => ?_
  change (t.insert item).itemOfRow? d = t.itemOfRow? d
  rw [itemOfRow?_insert ht]
  split
  next hd => rw [hrow d hd, hid]
  next hd =>
    -- no other row leads to the item
    cases hd' : t.itemOfRow? d with
    | none => rfl
    | some id' =>
      rw [Option.filter_some, if_pos]
      refine decide_eq_true fun he => ?_
      obtain ⟨x, hx, hxd⟩ := ht hd'
      rw [he, hid, hitem] at hx
      exact hd (Option.some.inj hx ▸ hxd)

/-- A removed item has no part in the index of keys. -/
theorem keys_insert_of_removed (hitem : t.get? item.id = some item) (hrem : item.removed = true) :
    (t.insert item).keys = t.keys := by
  have hnone : ∀ u : Table, u.keysOf item = [] := fun u => if_pos hrem
  unfold insert
  dsimp only
  rw [hnone, List.foldl_nil]
  unfold erase
  rw [hitem]
  dsimp only
  rw [hnone, List.foldl_nil]

/-- Putting a removed item in once more changes nothing, unless its row leads elsewhere. -/
theorem insert_self_iff (ht : t.Sound) (hitem : t.get? id = some item) (hrem : item.removed = true) :
    t.insert item = t ↔ ∀ d, item.dbId = some d → t.itemOfRow? d = some id := by
  have hid : item.id = id := t.id_eq hitem
  constructor
  · intro h d hd
    have hrow := itemOfRow?_insert ht item d
    rwa [h, if_pos hd, hid] at hrow
  · intro h
    have hitems : (t.insert item).items = t.items := by
      refine SortedMap.ext_get? fun id' => ?_
      have hget := get?_insert t item id'
      unfold get? at hget hitem
      rw [hget, hid]
      split
      next he => rw [he, hitem]
      next => rfl
    have hbindings := bindings_insert_self ht hitem h
    have hkeys := keys_insert_of_removed (hid ▸ hitem) hrem
    have hkind := kind_insert t item
    cases hu : t.insert item
    cases t
    rw [hu] at hitems hbindings hkeys hkind
    subst hitems hbindings hkeys hkind
    rfl

end Table

namespace Session

variable {s s' : Session} {p q : Item → Prop} {given given' : ItemRef → Prop} {r : ItemRef}

/-! ### Dependence -/

/-- The members of a set that has the given items, and every item of the sort with a reference into
it. -/
theorem DependsOn.mem_of_closed (h : s.DependsOn p given r) {members : ItemRef → Prop}
    (hgiven : ∀ r, given r → members r)
    (hclosed : ∀ ⦃r item⦄, s.item? r = some item → p item → ∀ target ∈ item.references,
      members target → members r) : members r := by
  induction h with
  | given h => exact hgiven _ h
  | refers hitem hp htarget _ ih => exact hclosed hitem hp _ htarget ih

/-- What depends on items that depend on the given ones depends on these. -/
theorem DependsOn.trans (h : s'.DependsOn q given' r)
    (hgiven : ∀ r, given' r → s.DependsOn p given r)
    (hitem : ∀ ⦃r item⦄, s'.item? r = some item → q item → s.item? r = some item ∧ p item) :
    s.DependsOn p given r :=
  h.mem_of_closed hgiven fun _ _ hx hq _ htarget hmem =>
    .refers (hitem hx hq).1 (hitem hx hq).2 htarget hmem

/-! ### The items that a removal gives -/

/-- The live items of the list are removed. -/
theorem mem_removeAll_of_mem (hs : s.Lawful Item.Tidy) {todo : List (ItemRef × Option ItemRef)}
    {a : Item} {source : Option ItemRef} (ha : s.item? r = some a) (hlive : a.removed = false)
    (hmem : (r, source) ∈ todo) : r ∈ (s.removeAll todo).1 :=
  (source_of_front hs ha hlive (List.append_nil todo).symm hmem).1

/-- Only dependents of the live items of the list are removed. -/
theorem dependsOn_of_mem_removeAll (hs : s.Lawful Item.Tidy) (todo : List (ItemRef × Option ItemRef)) :
    ∀ q ∈ (s.removeAll todo).1, s.DependsOn (·.removed = false)
      (fun r => s.isLive r = true ∧ r ∈ todo.map (·.1)) q := by
  fun_induction Session.removeAll s todo with
  | case1 s => exact fun _ hq => absurd hq List.not_mem_nil
  | case2 s r source rest hnone ih =>
    intro q hq
    exact (ih hs q hq).trans (fun _ h => .given ⟨h.1, List.mem_cons_of_mem _ h.2⟩) fun _ _ hx hp => ⟨hx, hp⟩
  | case3 s r source rest item hitem s' hrem ih =>
    have hwas : ∀ ⦃q a⦄, s'.item? q = some a → a.removed = false → s.item? q = some a :=
      fun _ _ => hs.named.live_of_markRemoved hitem source
    intro q hq
    refine (ih (hs.markRemoved Item.law_tidy r source) q hq).trans (fun q' h => .given ?_)
      fun _ _ ha hlive => ⟨hwas ha hlive, hlive⟩
    obtain ⟨a, ha, hlive⟩ := isLive_iff.1 h.1
    exact ⟨isLive_iff.2 ⟨a, hwas ha hlive, hlive⟩, List.mem_cons_of_mem _ h.2⟩
  | case4 s r source rest item hitem s' hlive dependents removed s'' heq ih =>
    have hlive : item.removed = false := Bool.eq_false_iff.2 hlive
    have hs' := hs.markRemoved Item.law_tidy r source
    have hfirst : s.DependsOn (·.removed = false)
        (fun r' => s.isLive r' = true ∧ r' ∈ ((r, source) :: rest).map (·.1)) r :=
      .given ⟨isLive_iff.2 ⟨item, hitem, hlive⟩, List.mem_cons_self ..⟩
    have hwas : ∀ ⦃q a⦄, s'.item? q = some a → a.removed = false → s.item? q = some a :=
      fun _ _ => hs.named.live_of_markRemoved hitem source
    have hrest := ih hs'
    rw [heq] at hrest
    intro q hq
    rcases List.mem_cons.1 hq with rfl | hq
    · exact hfirst
    refine (hrest q hq).trans (fun q' h => ?_) fun _ _ ha halive => ⟨hwas ha halive, halive⟩
    obtain ⟨a, ha, halive⟩ := isLive_iff.1 h.1
    obtain ⟨e, he, rfl⟩ := List.mem_map.1 h.2
    rcases List.mem_append.1 he with he | he
    · obtain ⟨d, hd, rfl⟩ := List.mem_map.1 he
      obtain ⟨b, hb, hblive, hrefers⟩ := (mem_referrers_iff hs'.named).1 (List.mem_reverse.1 hd)
      have hblive : b.removed = false := by simpa [isLiveItem] using hblive
      exact .refers (hwas hb hblive) hblive hrefers hfirst
    · exact .given ⟨isLive_iff.2 ⟨a, hwas ha halive, halive⟩, List.mem_cons_of_mem _ (List.mem_map_of_mem he)⟩

/-- A live item that refers to a removed one is removed. -/
theorem mem_removeAll_of_refers (hs : s.Lawful Item.Tidy) (todo : List (ItemRef × Option ItemRef)) :
    ∀ ⦃q a⦄, s.item? q = some a → a.removed = false → ∀ target ∈ a.references,
      target ∈ (s.removeAll todo).1 → q ∈ (s.removeAll todo).1 := by
  fun_induction Session.removeAll s todo with
  | case1 s => exact fun _ _ _ _ _ _ hmem => absurd hmem List.not_mem_nil
  | case2 s r source rest hnone ih => exact ih hs
  | case3 s r source rest item hitem s' hrem ih =>
    intro q a ha hlive
    exact ih (hs.markRemoved Item.law_tidy r source)
      ((hs.named.item?_markRemoved_of_removed hitem hrem source q).trans ha) hlive
  | case4 s r source rest item hitem s' hlive dependents removed s'' heq =>
    rename_i ih
    have hs' := hs.markRemoved Item.law_tidy r source
    have hrest := ih hs'
    rw [heq] at hrest
    intro q a ha halive target htarget hmem
    by_cases hqr : q = r
    · exact hqr ▸ List.mem_cons_self ..
    have ha' : s'.item? q = some a :=
      (hs.named.item?_markRemoved hitem source q).trans ((if_neg hqr).trans ha)
    refine List.mem_cons_of_mem r ?_
    rcases List.mem_cons.1 hmem with rfl | hmem
    · -- the item is among the dependents that are visited next
      have hdep : (q, some target) ∈ dependents ++ rest := by
        refine List.mem_append_left _ (List.mem_map.2 ⟨q, List.mem_reverse.2 ?_, rfl⟩)
        exact (mem_referrers_iff hs'.named).2 ⟨a, ha', by simp [isLiveItem, halive], htarget⟩
      have hin := mem_removeAll_of_mem hs' ha' halive hdep
      rwa [heq] at hin
    · exact hrest ha' halive target htarget hmem

/-- The removed items are the live ones of the list and their dependents. -/
theorem mem_removeAll_iff (hs : s.Lawful Item.Tidy) (todo : List (ItemRef × Option ItemRef))
    {q : ItemRef} : q ∈ (s.removeAll todo).1 ↔ s.DependsOn (·.removed = false)
      (fun r => s.isLive r = true ∧ r ∈ todo.map (·.1)) q := by
  refine ⟨dependsOn_of_mem_removeAll hs todo q, fun h => h.mem_of_closed (fun r hr => ?_)
    (mem_removeAll_of_refers hs todo)⟩
  obtain ⟨a, ha, hlive⟩ := isLive_iff.1 hr.1
  obtain ⟨⟨r', source⟩, hmem, rfl⟩ := List.mem_map.1 hr.2
  exact mem_removeAll_of_mem hs ha hlive hmem

/-- Every removed item was removed as the list says, or for a removed item that it refers to. -/
theorem source_of_mem_removeAll (hs : s.Lawful Item.Tidy) (todo : List (ItemRef × Option ItemRef)) :
    ∀ ⦃q a⦄, q ∈ (s.removeAll todo).1 → s.item? q = some a →
      (q, (s.removeAll todo).2.source q) ∈ todo ∨
        ∃ target ∈ (s.removeAll todo).1, target ∈ a.references ∧
          (s.removeAll todo).2.source q = some target := by
  fun_induction Session.removeAll s todo with
  | case1 s => exact fun _ _ hq => absurd hq List.not_mem_nil
  | case2 s r source rest hnone ih =>
    exact fun q a hq ha => (ih hs hq ha).imp_left (List.mem_cons_of_mem _)
  | case3 s r source rest item hitem s' hrem ih =>
    intro q a hq ha
    have ha' := (hs.named.item?_markRemoved_of_removed hitem hrem source q).trans ha
    exact (ih (hs.markRemoved Item.law_tidy r source) hq ha').imp_left (List.mem_cons_of_mem _)
  | case4 s r source rest item hitem s' hlive dependents removed s'' heq =>
    rename_i ih
    have hlive : item.removed = false := Bool.eq_false_iff.2 hlive
    have hs' := hs.markRemoved Item.law_tidy r source
    have hget : ∀ q, s'.item? q = _ := hs.named.item?_markRemoved hitem source
    have hrest := ih hs'
    obtain ⟨-, hafter⟩ := item?_removeAll_of_marked hs hitem source (dependents ++ rest)
    rw [heq] at hrest hafter
    intro q a hq ha
    by_cases hqr : q = r
    · subst hqr
      have hsource : s''.source q = source := Taken.source_eq ⟨hitem, hlive, hafter⟩
      exact .inl (hsource ▸ List.mem_cons_self ..)
    have hq := (List.mem_cons.1 hq).resolve_left hqr
    rcases hrest hq (((hget q).trans (if_neg hqr)).trans ha) with hmem | ⟨target, ht, htarget, hsource⟩
    · rcases List.mem_append.1 hmem with hmem | hmem
      · obtain ⟨d, hd, he⟩ := List.mem_map.1 hmem
        obtain ⟨rfl, hsource⟩ := Prod.mk.inj he
        obtain ⟨b, hb, -, hrefers⟩ := (mem_referrers_iff hs'.named).1 (List.mem_reverse.1 hd)
        obtain rfl := Option.some.inj (ha.symm.trans (((hget d).trans (if_neg hqr)).symm.trans hb))
        exact .inr ⟨r, List.mem_cons_self .., hrefers, hsource.symm⟩
      · exact .inl (List.mem_cons_of_mem _ hmem)
    · exact .inr ⟨target, List.mem_cons_of_mem r ht, htarget, hsource⟩

theorem frame_removeAll (s : Session) (todo : List (ItemRef × Option ItemRef)) :
    SameFrame s (s.removeAll todo).2 ∧ (s.removeAll todo).2.nextId = s.nextId :=
  removeAll_induction (P := fun t => SameFrame s t ∧ t.nextId = s.nextId)
    (fun t r _ _ _ ht => ⟨ht.1.trans (t.sameFrame_modify r _), (t.nextId_modify r _).trans ht.2⟩)
    todo ⟨.refl s, rfl⟩

/-! ### Removing an item -/

/-- Session `s'` is `s` after item `x`, which was live, was removed together with what depends on it;
the items `removed`, in this order. -/
structure RemovesDependents (s : Session) (x : ItemRef) (removed : List ItemRef) (s' : Session) :
    Prop where
  first : removed.head? = some x
  nodup : removed.Nodup
  mem_iff : ∀ q, q ∈ removed ↔ s.DependsOn (·.removed = false) (· = x) q
  marked : ∀ q ∈ removed, ∃ a b source, s.item? q = some a ∧ a.removed = false ∧
    s'.item? q = some b ∧ a.RemovedFor source b ∧ (q = x → source = none) ∧
    (q ≠ x → ∃ target ∈ removed, target ∈ a.references ∧ source = some target)
  others : ∀ q ∉ removed, s'.item? q = s.item? q

/-- Removing a live item. -/
theorem removesDependents_remove (hs : s.Lawful Item.Tidy) {x : ItemRef} (hx : s.isLive x = true) :
    ∃ removed s', s.remove x = .ok (removed, s') ∧ s.RemovesDependents x removed s' := by
  obtain ⟨a, ha, hlive⟩ := isLive_iff.1 hx
  have hremove : s.remove x = .ok (s.removeAll [(x, none)]) := by
    unfold remove
    rw [ha]
  obtain ⟨item, later, htaken, hlater, -⟩ := exists_taken_of_remove hs hx hremove
  obtain ⟨hnodup, hmarked, hothers⟩ := removeAll_spec hs.named [(x, none)]
  refine ⟨_, _, hremove, ?_, hnodup, fun q => ?_, fun q hq => ?_, hothers⟩
  · rw [hlater, List.head?_cons]
  · rw [mem_removeAll_iff hs]
    constructor
    · exact fun h => h.trans (fun r hr => .given (by simpa using hr.2)) fun _ _ hy hp => ⟨hy, hp⟩
    · exact fun h => h.trans (fun r hr => .given ⟨hr ▸ hx, by simp [hr]⟩) fun _ _ hy hp => ⟨hy, hp⟩
  · obtain ⟨b, source, hb⟩ := hmarked q hq
    refine ⟨b, _, source, hb.before, hb.live, hb.after, Item.removedFor_markRemoved hb.live source,
      fun hqx => ?_, fun hqx => ?_⟩
    · rw [← hb.source_eq, hqx]
      exact htaken.source_eq
    · rcases source_of_mem_removeAll hs [(x, none)] hq hb.before with hmem | ⟨target, ht, href, hsource⟩
      · exact absurd (congrArg Prod.fst (List.mem_singleton.1 hmem)) hqx
      · exact ⟨target, ht, href, hb.source_eq.symm.trans hsource⟩

/-- Removing an item that is removed already. -/
theorem remove_of_removed (hs : s.Lawful Item.Tidy) {x : ItemRef} {a : Item}
    (ha : s.item? x = some a) (hrem : a.removed = true) :
    ∃ s', s.remove x = .ok ([], s') ∧ (∀ q, s'.item? q = s.item? q) ∧
      (s' = s ↔ ∀ d, a.dbId = some d → s.itemOfRow? x.kind d = some x.id) := by
  have hput : s.modify x (·.markRemoved none) = s.put a := by
    rw [hs.housed.modify_eq_put ha (·.ref_markRemoved none), Item.markRemoved_of_removed hrem]
  have hremove : s.remove x = .ok ([], s.put a) := by
    unfold remove
    rw [ha]
    dsimp only
    rw [removeAll]
    split
    next hnone =>
      rw [ha] at hnone
      cases hnone
    next item hitem =>
      obtain rfl := Option.some.inj (ha.symm.trans hitem)
      rw [dif_pos hrem, removeAll, hput]
  have hkind : a.kind = x.kind := hs.housed.item_kind ha
  refine ⟨s.put a, hremove, fun q => ?_, ?_⟩
  · rw [item?_put, hs.housed.ref_eq ha]
    split
    next hq => rw [hq, ha]
    next => rfl
  · rw [item?_eq] at ha
    have hiff := Table.insert_self_iff (hs.table x.kind).sound ha hrem
    simp only [itemOfRow?_eq]
    refine ⟨fun h => hiff.1 ?_, fun h => ?_⟩
    · have htable := table_put s a x.kind
      rwa [if_pos hkind.symm, h, eq_comm] at htable
    · unfold put
      rw [hkind, hiff.2 h]
      refine setTable_self ?_
      cases ht : s.table? x.kind with
      | some t => rw [table, ht, Option.getD_some]
      | none =>
        rw [table, ht, Option.getD_none, Table.get?_empty] at ha
        cases ha

end Session

namespace Workspace

/-- What removing an item does, in every workspace: it is not refused.  A live item is removed together
with exactly what depends on it.  If the item is removed already, no item changes, and nothing at all
does just in case its row, if it has one, leads to it. -/
theorem removal_of_dependents {σ : Type} [Store σ] {w : Workspace σ} {name : String} {s : Session}
    {x : ItemRef} {a : Item} (hw : w.Attained) (hs : w.session? name = some s)
    (ha : s.item? x = some a) :
    ∃ removed s', w.perform name s (.remove x) =
        (.ok (.items removed), [], ⟨w.store, w.sessions.insert name s'⟩) ∧
      s.SameFrame s' ∧ s'.nextId = s.nextId ∧
      (a.removed = false → s.RemovesDependents x removed s') ∧
      (a.removed = true → removed = [] ∧ (∀ q, s'.item? q = s.item? q) ∧
        (s' = s ↔ ∀ d, a.dbId = some d → s.itemOfRow? x.kind d = some x.id)) := by
  have hlawful := hw.lawful Item.law_tidy hs
  have hframe := s.frame_removeAll [(x, none)]
  have hremove : s.remove x = .ok (s.removeAll [(x, none)]) := by
    unfold Session.remove
    rw [ha]
  refine ⟨(s.removeAll [(x, none)]).1, _, ?_, hframe.1, hframe.2, fun hlive => ?_, fun hrem => ?_⟩
  · rw [perform_items rfl, hremove]
  · obtain ⟨removed, s', hr, hspec⟩ :=
      Session.removesDependents_remove hlawful (Session.isLive_iff.2 ⟨a, ha, hlive⟩)
    have heq := Except.ok.inj (hremove.symm.trans hr)
    rw [heq]
    exact hspec
  · obtain ⟨s', hr, hspec⟩ := Session.remove_of_removed hlawful ha hrem
    have heq := Except.ok.inj (hremove.symm.trans hr)
    rw [heq]
    exact ⟨rfl, hspec⟩

set_option maxRecDepth 4000 in
/-- With the class of a sized plant go the definition of the size, its value and the plant.  The value
refers to both others, and is found twice. -/
theorem removal_of_dependents_of_class : ∃ (w : Workspace Database) (s s' : Session) (a : Item)
    (removed : List ItemRef), w.Attained ∧ w.session? "a" = some s ∧
      s.item? ⟨.entityClass, ⟨2⟩⟩ = some a ∧ a.removed = false ∧
      w.perform "a" s (.remove ⟨.entityClass, ⟨2⟩⟩) =
        (.ok (.items removed), [], ⟨w.store, w.sessions.insert "a" s'⟩) ∧
      removed = [⟨.entityClass, ⟨2⟩⟩, ⟨.parameterDefinition, ⟨4⟩⟩, ⟨.parameterValue, ⟨5⟩⟩,
        ⟨.entity, ⟨3⟩⟩] ∧
      s.RemovesDependents ⟨.entityClass, ⟨2⟩⟩ removed s' := by
  have hcheck : (((new .empty).after sizedPlant).session? "a").any (fun s =>
      (s.item? ⟨.entityClass, ⟨2⟩⟩).any (fun a => !a.removed) &&
        decide ((((new .empty).after sizedPlant).perform "a" s (.remove ⟨.entityClass, ⟨2⟩⟩)).1 =
          .ok (.items [⟨.entityClass, ⟨2⟩⟩, ⟨.parameterDefinition, ⟨4⟩⟩, ⟨.parameterValue, ⟨5⟩⟩,
            ⟨.entity, ⟨3⟩⟩]))) = true := by
    decide +kernel
  obtain ⟨s, hs, hcheck⟩ := (Option.any_eq_true ..).1 hcheck
  obtain ⟨hitem, hreply⟩ := Bool.and_eq_true_iff.1 hcheck
  obtain ⟨a, ha, hlive⟩ := (Option.any_eq_true ..).1 hitem
  have hlive : a.removed = false := by simpa using hlive
  have hw := (Attained.new Database.empty).after sizedPlant
  obtain ⟨removed, s', hrun, -, -, hspec, -⟩ := removal_of_dependents hw hs ha
  have hreply := of_decide_eq_true hreply
  rw [hrun] at hreply
  exact ⟨_, s, s', a, removed, hw, hs, ha, hlive, hrun, Reply.items.inj (Except.ok.inj hreply),
    hspec hlive⟩

/-- A session renames its alternative to a name that another session has stored, and fetches with a
resolver that has no answer.  So its alternative and a new one have the same row.  Then it removes the
new one and describes the other, to which the row leads from then on. -/
def sharedRow : List Event :=
  [.connect "a" {}, .ask "a" (.add .alternative (.ofList [("name", .text "base")])),
    .ask "a" (.commit "add"), .connect "b" {},
    .ask "b" (.add .alternative (.ofList [("name", .text "low")])), .ask "b" (.commit "low"),
    .ask "a" (.update ⟨.alternative, .first⟩ (.ofList [("name", .text "low")])),
    .ask "a" (.fetch .alternative (some fun _ _ => [])), .ask "a" (.remove ⟨.alternative, ⟨2⟩⟩),
    .ask "a" (.update ⟨.alternative, .first⟩ (.ofList [("description", .text "mine")]))]

set_option maxRecDepth 4000 in
/-- Removing the new alternative again gives nothing, and yet the row leads to it afterwards.  Without
that, the next fetch finds the other alternative in conflict with the row that has its name; with it,
the fetch finds no conflict. -/
theorem row_taken_by_idle_removal : ∃ (s s' : Session) (a : Item),
    ((new .empty).after sharedRow).Attained ∧
      ((new .empty).after sharedRow).session? "a" = some s ∧
      s.item? ⟨.alternative, ⟨2⟩⟩ = some a ∧ a.removed = true ∧
      s.remove ⟨.alternative, ⟨2⟩⟩ = .ok ([], s') ∧ s' ≠ s ∧
      (((new .empty).after sharedRow).perform "a" s
        (.fetch .alternative (some Choice.keepLocal.resolver))).2.1.flatten.length = 1 ∧
      (((new .empty).after sharedRow).perform "a" s'
        (.fetch .alternative (some Choice.keepLocal.resolver))).2.1.flatten.length = 0 := by
  have hcheck : (((new .empty).after sharedRow).session? "a").any (fun s =>
      (s.item? ⟨.alternative, ⟨2⟩⟩).any (·.removed) &&
        decide ((((new .empty).after sharedRow).perform "a" s
          (.fetch .alternative (some Choice.keepLocal.resolver))).2.1.flatten.length = 1) &&
        (s.remove ⟨.alternative, ⟨2⟩⟩).toOption.any fun gone => decide (gone.1 = []) &&
          decide ((((new .empty).after sharedRow).perform "a" gone.2
            (.fetch .alternative (some Choice.keepLocal.resolver))).2.1.flatten.length = 0)) = true := by
    decide +kernel
  obtain ⟨s, hs, hcheck⟩ := (Option.any_eq_true ..).1 hcheck
  simp only [Bool.and_eq_true, decide_eq_true_eq] at hcheck
  obtain ⟨⟨hitem, hwithout⟩, hgone⟩ := hcheck
  obtain ⟨a, ha, hrem⟩ := (Option.any_eq_true ..).1 hitem
  rcases hremove : s.remove ⟨.alternative, ⟨2⟩⟩ with e | ⟨removed, s'⟩ <;> rw [hremove] at hgone
  · cases hgone
  have hgone : (decide (removed = []) &&
      decide ((((new .empty).after sharedRow).perform "a" s'
        (.fetch .alternative (some Choice.keepLocal.resolver))).2.1.flatten.length = 0)) = true := hgone
  simp only [Bool.and_eq_true, decide_eq_true_eq] at hgone
  obtain ⟨rfl, hwith⟩ := hgone
  refine ⟨s, s', a, (Attained.new Database.empty).after sharedRow, hs, ha, hrem, hremove, ?_, hwithout,
    hwith⟩
  rintro rfl
  rw [hwithout] at hwith
  cases hwith

end Workspace

end StagedEdits
