import StagedEdits.Proofs.Lawful

/-!
# The order of a removal

A removal marks each of its items once, with the item that it was removed for.  That is the last of its
references that was removed before it (`Session.source_precedes`), and the depth first order in which
the items are found is the order of the list that a removal gives.

* `item?_removeAll_of_marked`: what is marked stays as it is.
* `referrers_eq`: the referrers of an item in the order of a list that the session fixes.
-/

namespace StagedEdits

namespace Item

variable {item : Item}

theorem references_markRemoved (item : Item) (source : Option ItemRef) :
    (item.markRemoved source).references = item.references := by
  unfold markRemoved
  split <;> rfl

theorem content_markRemoved (item : Item) (source : Option ItemRef) :
    (item.markRemoved source).content = item.content := by
  unfold markRemoved
  split <;> rfl

theorem removalSource_markRemoved (h : item.removed = false) (source : Option ItemRef) :
    (item.markRemoved source).removalSource = source := by
  rw [markRemoved, dif_neg (by simp [h])]

/-- Restoring undoes a removal. -/
theorem restored_markRemoved (h : item.removed = false) (hun : item.Unmarked)
    (source : Option ItemRef) : (item.markRemoved source).restored = item := by
  have hrem := item.removed_markRemoved source
  have hstatus := statusWhenRemoved_markRemoved h source
  rw [restored, if_pos hrem]
  simp only [hstatus, Option.getD_some]
  unfold markRemoved
  rw [dif_neg (by simp [h])]
  obtain ⟨hwas, hsource⟩ := hun
  cases item
  simp_all

end Item

namespace Session

variable {s t : Session}

/-! ### Referrers in order -/

/-- The items of a kind by name, in order. -/
def refs (s : Session) (kind : Kind) : List ItemRef := (s.all kind).map Item.ref

/-- Sessions with items under the same names list them in the same order. -/
theorem refs_congr (hs : s.Housed) (ht : t.Housed)
    (h : ∀ r, (s.item? r).isSome = (t.item? r).isSome) (kind : Kind) : s.refs kind = t.refs kind := by
  have hkeys : ∀ {u : Session}, u.Housed →
      u.refs kind = ((u.table kind).items.map fun _ => ()).keys.map (ItemRef.mk kind) := by
    intro u hu
    have hlist : ∀ e ∈ (u.table kind).items.entries, e.2.ref = ⟨kind, e.1⟩ := by
      intro e he
      exact hu.ref_eq (r := ⟨kind, e.1⟩) ((item?_eq ..).trans (SortedMap.mem_entries_iff.1 he))
    unfold refs
    rw [all_eq]
    unfold Table.all SortedMap.values SortedMap.keys SortedMap.map
    rw [List.map_map, List.map_map, List.map_map]
    exact List.map_congr_left hlist
  rw [hkeys hs, hkeys ht]
  congr 2
  refine SortedMap.ext_get? fun id => ?_
  rw [SortedMap.get?_map, SortedMap.get?_map]
  have hid := h ⟨kind, id⟩
  rw [item?_eq, item?_eq] at hid
  change ((s.table kind).items.get? id).isSome = ((t.table kind).items.get? id).isSome at hid
  cases hs : (s.table kind).items.get? id <;> cases ht : (t.table kind).items.get? id <;>
    simp_all

/-- The referrers of an item, as a selection from all items of the kinds that can refer to it. -/
theorem referrers_eq (hs : s.Housed) (r : ItemRef) (p : Item → Bool) :
    s.referrers r p = (r.kind.referrers.flatMap s.refs).filter fun q =>
      (s.item? q).any fun item => p item && item.refersTo r := by
  unfold referrers
  rw [List.filter_flatMap]
  refine List.flatMap_congr fun kind _ => ?_
  have hall : ((s.table? kind).map Table.all).getD [] = s.all kind := rfl
  unfold refs
  rw [hall, List.filter_map]
  congr 1
  refine List.filter_congr fun item hitem => ?_
  have hi := mem_all_iff.1 hitem
  have href := hs.ref_eq hi
  rw [Function.comp_apply, href, hi, Option.any_some]

/-- What is looked at after a removed item is restored: what was removed for it and is restorable. -/
def followers (s : Session) (r : ItemRef) : List ItemRef :=
  ((s.referrers r fun d => d.removed && d.removalSource = some r).filter
    (s.modify r Item.restored).isRestorable).reverse

/-! ### What is removed -/

/-- Only live items are removed. -/
theorem not_mem_removeAll (hs : s.Lawful Item.Tidy) {r : ItemRef} {a : Item}
    (hr : s.item? r = some a) (hrem : a.removed = true) (todo : List (ItemRef × Option ItemRef)) :
    r ∉ (s.removeAll todo).1 := by
  intro hmem
  obtain ⟨x, source, hx⟩ := (removeAll_spec hs.named todo).2.1 r hmem
  have hlive := hx.live
  rw [← Option.some.inj (hr.symm.trans hx.before), hrem] at hlive
  cases hlive

/-- An item that is marked stays as it is while others are removed. -/
theorem item?_removeAll_of_marked (hs : s.Lawful Item.Tidy) {r : ItemRef} {item : Item}
    (hitem : s.item? r = some item) (source : Option ItemRef)
    (todo : List (ItemRef × Option ItemRef)) :
    r ∉ ((s.modify r (·.markRemoved source)).removeAll todo).1 ∧
      ((s.modify r (·.markRemoved source)).removeAll todo).2.item? r =
        some (item.markRemoved source) := by
  have hs' := hs.markRemoved Item.law_tidy r source
  have hmarked := (hs.named.item?_markRemoved hitem source r).trans (if_pos rfl)
  have hnot := not_mem_removeAll hs' hmarked (item.removed_markRemoved source) todo
  exact ⟨hnot, ((removeAll_spec hs'.named todo).2.2 r hnot).trans hmarked⟩

/-- What a removal reaches comes from the list: no kind in it is below all of those. -/
theorem rank_removeAll (hs : s.Lawful Item.Tidy) (todo : List (ItemRef × Option ItemRef)) :
    ∀ q ∈ (s.removeAll todo).1, ∃ e ∈ todo, e.1.kind.rank ≤ q.kind.rank := by
  fun_induction Session.removeAll s todo with
  | case1 s => exact fun _ hq => absurd hq List.not_mem_nil
  | case2 s r source rest hnone ih =>
    intro q hq
    obtain ⟨e, he, hle⟩ := ih hs q hq
    exact ⟨e, List.mem_cons_of_mem _ he, hle⟩
  | case3 s r source rest item hitem s' hrem ih =>
    intro q hq
    obtain ⟨e, he, hle⟩ := ih (hs.markRemoved Item.law_tidy r source) q hq
    exact ⟨e, List.mem_cons_of_mem _ he, hle⟩
  | case4 s r source rest item hitem s' hlive dependents removed s'' heq ih =>
    have hs' := hs.markRemoved Item.law_tidy r source
    have hrest := ih hs'
    rw [heq] at hrest
    intro q hq
    rcases List.mem_cons.1 hq with rfl | hq
    · exact ⟨_, List.mem_cons_self .., Nat.le_refl _⟩
    · obtain ⟨e, he, hle⟩ := hrest q hq
      rcases List.mem_append.1 he with he | he
      · obtain ⟨d, hd, rfl⟩ := List.mem_map.1 he
        obtain ⟨a, ha, -, href⟩ := (mem_referrers_iff hs'.named).1 (List.mem_reverse.1 hd)
        have hlt := Item.rank_lt_of_mem_references href
        rw [hs'.housed.item_kind ha] at hlt
        exact ⟨_, List.mem_cons_self .., Nat.le_trans (Nat.le_of_lt hlt) hle⟩
      · exact ⟨e, List.mem_cons_of_mem _ he, hle⟩

/-! ### What an item is removed for -/

/-- What an item says it was removed for. -/
def source (s : Session) (q : ItemRef) : Option ItemRef := (s.item? q).bind (·.removalSource)

theorem Taken.source_eq {q : ItemRef} {a : Item} {source : Option ItemRef} (h : Taken s t q a source) :
    t.source q = source := by
  unfold Session.source
  rw [h.after, Option.bind_some, Item.removalSource_markRemoved h.live]

/-- The head of a work list is at its front, if there is anything at its front. -/
theorem cons_of_front {α : Type} {x y : α} {rest front back : List α} (h : x :: rest = front ++ back)
    (hy : y ∈ front) : ∃ front', front = x :: front' ∧ rest = front' ++ back ∧ (y = x ∨ y ∈ front') := by
  rcases List.cons_eq_append_iff.1 h with ⟨rfl, -⟩ | ⟨front', rfl, rfl⟩
  · exact absurd hy List.not_mem_nil
  · exact ⟨front', rfl, rfl, List.mem_cons.1 hy⟩

/-- A live item on top of the items still to be removed is removed for one of those on top, or for one
that is removed ahead of it. -/
theorem source_of_front (hs : s.Lawful Item.Tidy) {todo back : List (ItemRef × Option ItemRef)}
    {q : ItemRef} {a : Item} (hq : s.item? q = some a) (hlive : a.removed = false) :
    ∀ {front : List (ItemRef × Option ItemRef)} {e : Option ItemRef}, todo = front ++ back →
      (q, e) ∈ front → q ∈ (s.removeAll todo).1 ∧ ((q, (s.removeAll todo).2.source q) ∈ front ∨
        ∃ p, (s.removeAll todo).2.source q = some p ∧ [p, q].Sublist (s.removeAll todo).1) := by
  fun_induction Session.removeAll s todo with
  | case1 s =>
    intro front e htodo he
    rw [(List.append_eq_nil_iff.1 htodo.symm).1] at he
    exact absurd he List.not_mem_nil
  | case2 s r source rest hnone ih =>
    intro front e htodo he
    obtain ⟨front, rfl, rfl, he⟩ := cons_of_front htodo he
    have hne : q ≠ r := by
      rintro rfl
      rw [hnone] at hq
      cases hq
    have he := he.resolve_left fun heq => hne (congrArg Prod.fst heq)
    obtain ⟨hmem, hsource⟩ := ih hs hq rfl he
    exact ⟨hmem, hsource.imp_left (List.mem_cons_of_mem _)⟩
  | case3 s r source rest item hitem s' hrem ih =>
    intro front e htodo he
    obtain ⟨front, rfl, rfl, he⟩ := cons_of_front htodo he
    have hne : q ≠ r := by
      rintro rfl
      rw [Option.some.inj (hq.symm.trans hitem), hrem] at hlive
      cases hlive
    have he := he.resolve_left fun heq => hne (congrArg Prod.fst heq)
    have hq := (hs.named.item?_markRemoved_of_removed hitem hrem source q).trans hq
    obtain ⟨hmem, hsource⟩ := ih (hs.markRemoved Item.law_tidy r source) hq rfl he
    exact ⟨hmem, hsource.imp_left (List.mem_cons_of_mem _)⟩
  | case4 s r source rest item hitem s' hrem dependents removed s'' heq ih =>
    intro front e htodo he
    obtain ⟨front, rfl, rfl, he⟩ := cons_of_front htodo he
    have hget : ∀ q, s'.item? q = _ := hs.named.item?_markRemoved hitem source
    have hs' := hs.markRemoved Item.law_tidy r source
    by_cases hqr : q = r
    · subst hqr
      obtain rfl := Option.some.inj (hq.symm.trans hitem)
      obtain ⟨-, hafter⟩ :=
        item?_removeAll_of_marked hs hitem source (dependents ++ (front ++ back))
      rw [heq] at hafter
      have hsource : s''.source q = source := Taken.source_eq ⟨hitem, hlive, hafter⟩
      exact ⟨List.mem_cons_self .., .inl (hsource ▸ List.mem_cons_self ..)⟩
    · have he := he.resolve_left fun heq => hqr (congrArg Prod.fst heq)
      obtain ⟨hmem, hsource⟩ := ih hs' (((hget q).trans (if_neg hqr)).trans hq)
        (List.append_assoc ..).symm (List.mem_append_right dependents he)
      rw [heq] at hmem hsource
      refine ⟨List.mem_cons_of_mem _ hmem, ?_⟩
      rcases hsource with hfront | ⟨p, hp, hsub⟩
      · rcases List.mem_append.1 hfront with hdep | hfront
        · obtain ⟨d, -, hd⟩ := List.mem_map.1 hdep
          refine .inr ⟨r, (congrArg Prod.snd hd).symm, ?_⟩
          exact (List.singleton_sublist.2 hmem).cons_cons r
        · exact .inl (List.mem_cons_of_mem _ hfront)
      · exact .inr ⟨p, hp, hsub.cons r⟩

/-- An item that follows one it refers to was removed for an item that it follows. -/
theorem source_precedes (hs : s.Lawful Item.Tidy) (todo : List (ItemRef × Option ItemRef))
    {target q : ItemRef} {a : Item} (hq : s.item? q = some a) (htarget : target ∈ a.references)
    (hsub : [target, q].Sublist (s.removeAll todo).1) :
    ∃ p, (s.removeAll todo).2.source q = some p ∧ [p, q].Sublist (s.removeAll todo).1 := by
  fun_induction Session.removeAll s todo with
  | case1 s => cases hsub
  | case2 s r source rest hnone ih => exact ih hs hq hsub
  | case3 s r source rest item hitem s' hrem ih =>
    exact ih (hs.markRemoved Item.law_tidy r source)
      ((hs.named.item?_markRemoved_of_removed hitem hrem source q).trans hq) hsub
  | case4 s r source rest item hitem s' hrem dependents removed s'' heq ih =>
    have hget : ∀ q, s'.item? q = _ := hs.named.item?_markRemoved hitem source
    have hs' := hs.markRemoved Item.law_tidy r source
    obtain ⟨-, htaken, -⟩ := removeAll_spec hs'.named (dependents ++ rest)
    obtain ⟨hnot, -⟩ := item?_removeAll_of_marked hs hitem source (dependents ++ rest)
    rw [heq] at htaken hnot
    have hlater : ∀ q ∈ removed, ∃ a, s'.item? q = some a ∧ a.removed = false ∧ q ≠ r := by
      intro q hmem
      obtain ⟨x, source', hx⟩ := htaken q hmem
      exact ⟨x, hx.before, hx.live, fun hqr => hnot (hqr ▸ hmem)⟩
    rcases List.sublist_cons_iff.1 hsub with hsub | ⟨l, hl, hsub⟩
    · obtain ⟨-, -, -, hne⟩ := hlater q (hsub.subset (by simp))
      obtain ⟨p, hp, hlt⟩ := ih hs' (((hget q).trans (if_neg hne)).trans hq) (by rw [heq]; exact hsub)
      rw [heq] at hp hlt
      exact ⟨p, hp, hlt.cons r⟩
    · obtain ⟨rfl, rfl⟩ := List.cons.inj hl
      obtain ⟨x, hx, hlive, hne⟩ := hlater q (hsub.subset (by simp))
      obtain rfl := Option.some.inj (((hget q).trans (if_neg hne)).symm.trans hx |>.symm.trans hq)
      -- the item refers to the one that is removed first, and so it is on top of the rest
      have hdependent : (q, some target) ∈ dependents := by
        refine List.mem_map.2 ⟨q, List.mem_reverse.2 ((mem_referrers_iff hs'.named).2
          ⟨x, hx, ?_, htarget⟩), rfl⟩
        unfold isLiveItem
        rw [hlive]
        rfl
      obtain ⟨hmem, hsource⟩ := source_of_front hs' hx hlive rfl hdependent
      rw [heq] at hmem hsource
      rcases hsource with hfront | ⟨p, hp, hsub'⟩
      · obtain ⟨d, -, hd⟩ := List.mem_map.1 hfront
        exact ⟨target, (congrArg Prod.snd hd).symm, (List.singleton_sublist.2 hmem).cons_cons target⟩
      · exact ⟨p, hp, hsub'.cons target⟩

end Session

end StagedEdits
