import StagedEdits.Proofs.Integrity
import StagedEdits.Proofs.RemovalOrder

/-!
# Restoring what was removed

Restoring an item right after its removal retraces the removal, item by item and in the same order, as
long as no item was removed ahead of an item that it refers to, and nothing that was removed before says
it was removed for one of the items (`Session.restoreAll_removeAll`).  Whatever the order, a restoration
brings items back exactly as they were and leaves the others alone.

* `Workspace.restore_remove`: what a removal and a restoration do together.
* `Workspace.removal_not_undone`: a parameter value that is removed ahead of its entity stays removed.
-/

namespace StagedEdits

namespace Session

variable {o s t u : Session} {removed visits : List ItemRef} {r : ItemRef} {source : Option ItemRef}
  {todo rest : List (ItemRef × Option ItemRef)}

/-! ### Steps of a restoration -/

/-- Items that are not removed are passed over. -/
theorem restoreAll_append_of_live {pre : List ItemRef} (h : ∀ q ∈ pre, u.isLive q = true)
    (rest : List ItemRef) : u.restoreAll (pre ++ rest) = u.restoreAll rest := by
  induction pre with
  | nil => rfl
  | cons r pre ih =>
    obtain ⟨item, hitem, hlive⟩ := isLive_iff.1 (h r (List.mem_cons_self ..))
    rw [List.cons_append, restoreAll]
    split
    next hnone =>
      rw [hitem] at hnone
      cases hnone
    next x hx =>
      obtain rfl := Option.some.inj (hitem.symm.trans hx)
      rw [dif_neg (by simp [hlive])]
      exact ih fun q hq => h q (List.mem_cons_of_mem _ hq)

theorem restoreAll_cons_of_removed {item : Item} (hitem : u.item? r = some item)
    (hrem : item.removed = true) (rest : List ItemRef) :
    u.restoreAll (r :: rest) =
      (r :: ((u.modify r Item.restored).restoreAll (u.followers r ++ rest)).1,
        ((u.modify r Item.restored).restoreAll (u.followers r ++ rest)).2) := by
  rw [restoreAll]
  split
  next hnone =>
    rw [hitem] at hnone
    cases hnone
  next x hx =>
    obtain rfl := Option.some.inj (hitem.symm.trans hx)
    rw [dif_pos hrem]
    rfl

/-- A removed item is restorable if its references are live and no live item shares a key with it. -/
theorem restoreFault?_eq_none (hu : u.Lawful Item.Tidy) {item : Item}
    (hrefs : ∀ target ∈ item.references, u.isLive target = true)
    (hkeys : ∀ id b, u.item? ⟨item.kind, id⟩ = some b → b.removed = false →
      ∀ key ∈ item.kind.keysOf item.content, key ∈ item.kind.keysOf b.content → id = item.id) :
    u.restoreFault? item = none := by
  unfold restoreFault?
  rw [Option.or_eq_none_iff, Option.map_eq_none_iff, Option.map_eq_none_iff]
  constructor
  · rw [List.find?_eq_none]
    intro target htarget
    simp [hrefs target htarget]
  · rw [collision?_eq, Table.collision?_eq_none_iff, hu.kind_eq]
    intro key hkey id hholder
    obtain ⟨b, hb, hkeyb⟩ := (hu.table item.kind).keysSound hholder
    obtain ⟨hlive, hkeyb⟩ := Table.mem_keysOf_iff.1 hkeyb
    rw [hu.kind_eq] at hkeyb
    exact congrArg some (hkeys id b ((item?_eq ..).trans hb) hlive key hkey hkeyb)

/-! ### Retracing a removal -/

/-- Every removed item comes after the removed items that it refers to. -/
def FollowsReferences (o : Session) (removed : List ItemRef) : Prop :=
  ∀ q ∈ removed, ∀ a, o.item? q = some a → ∀ target ∈ a.references, target ∈ removed →
    [target, q].Sublist removed

/-- Nothing that is removed already says it was removed for one of the items. -/
def NoneLeftBehind (o : Session) (removed : List ItemRef) : Prop :=
  ∀ ⦃q a⦄, o.item? q = some a → a.removed = true → ∀ p ∈ a.removalSource, p ∉ removed

instance : Decidable (FollowsReferences o removed) :=
  inferInstanceAs (Decidable (∀ q ∈ removed, ∀ a ∈ o.item? q, ∀ target ∈ a.references,
    target ∈ removed → [target, q].Sublist removed))

instance : Decidable (NoneLeftBehind o removed) :=
  decidable_of_iff (∀ kind ∈ Kind.all, ∀ a ∈ o.all kind, a.removed = true →
    ∀ p ∈ a.removalSource, p ∉ removed) forall_item_iff.symm

theorem FollowsReferences.tail (h : FollowsReferences o (r :: removed)) (hr : r ∉ removed) :
    FollowsReferences o removed := by
  intro q hq a ha target htarget hmem
  have hsub := h q (List.mem_cons_of_mem r hq) a ha target htarget (List.mem_cons_of_mem r hmem)
  refine (List.sublist_cons_iff.1 hsub).resolve_right ?_
  rintro ⟨l, hl, -⟩
  exact hr ((List.cons.inj hl).1 ▸ hmem)

theorem NoneLeftBehind.tail (h : NoneLeftBehind o (r :: removed)) : NoneLeftBehind o removed :=
  fun _ _ ha hrem p hp hmem => h ha hrem p hp (List.mem_cons_of_mem r hmem)

/-- While items are removed one after the other: the live ones are those of the session at the start,
and there are no items but those. -/
structure Dwindles (o s : Session) : Prop where
  lawful : s.Lawful Item.Tidy
  live : ∀ ⦃q a⦄, s.item? q = some a → a.removed = false → o.item? q = some a
  names : ∀ q, (s.item? q).isSome = (o.item? q).isSome

theorem Dwindles.refl (ho : o.Lawful Item.Tidy) : Dwindles o o := ⟨ho, fun _ _ h _ => h, fun _ => rfl⟩

theorem Dwindles.mark (h : Dwindles o s) {r : ItemRef} {item : Item} (hitem : s.item? r = some item)
    (source : Option ItemRef) : Dwindles o (s.modify r (·.markRemoved source)) := by
  refine ⟨h.lawful.markRemoved Item.law_tidy r source, fun q a ha hlive => ?_, fun q => ?_⟩
  · exact h.live (h.lawful.named.live_of_markRemoved hitem source ha hlive) hlive
  · rw [h.lawful.named.item?_markRemoved hitem]
    split
    next hq =>
      rw [← h.names, hq, hitem]
      rfl
    next => exact h.names q

/-- Session `u`, with its list of items to visit, is on the way back from a removal that led from `o` to
`t`: the items `removed` are still to be restored, and those of them that are waiting to be visited are
the ones that wait for the removal to find them. -/
structure Retraces (o t : Session) (removed : List ItemRef) (todo : List (ItemRef × Option ItemRef))
    (u : Session) (visits : List ItemRef) : Prop where
  lawful : u.Lawful Item.Tidy
  item? : ∀ q, u.item? q = if q ∈ removed then t.item? q else o.item? q
  ordered : FollowsReferences o removed
  alone : NoneLeftBehind o removed
  waiting : visits.filter (· ∈ removed) =
    (todo.filter fun e => e.1 ∈ removed ∧ t.source e.1 = e.2).map (·.1)
  idle : ∀ q ∈ visits, q ∉ removed → u.isLive q = true

theorem source_eq_of_item? {item : Item} (h : t.item? r = some item) :
    t.source r = item.removalSource := by
  unfold Session.source
  rw [h, Option.bind_some]

/-- What the removal passes over, the restoration does not visit. -/
theorem Retraces.skip (h : Retraces o t removed ((r, source) :: rest) u visits) (hr : r ∉ removed) :
    Retraces o t removed rest u visits := by
  have hwaiting := h.waiting
  rw [List.filter_cons_of_neg (by simp [hr])] at hwaiting
  exact ⟨h.lawful, h.item?, h.ordered, h.alone, hwaiting, h.idle⟩

/-- The item that the removal finds next is the next one to be restored. -/
theorem Retraces.next (h : Retraces o t removed ((r, source) :: rest) u visits) (hr : r ∈ removed)
    (hsource : t.source r = source) :
    ∃ post, u.restoreAll visits = u.restoreAll (r :: post) ∧
      Retraces o t removed ((r, source) :: rest) u (r :: post) := by
  have hwaiting := h.waiting
  rw [List.filter_cons_of_pos (by simp [hr, hsource]), List.map_cons] at hwaiting
  obtain ⟨pre, post, rfl, hpre, -, hpost⟩ := List.filter_eq_cons_iff.1 hwaiting
  refine ⟨post, restoreAll_append_of_live (fun q hq => ?_) _, h.lawful, h.item?, h.ordered, h.alone,
    ?_, fun q hq => h.idle q (List.mem_append_right _ hq)⟩
  · exact h.idle q (List.mem_append_left _ hq) (by simpa using hpre q hq)
  · rw [List.filter_cons_of_pos (by simp [hr]), hpost,
      List.filter_cons_of_pos (by simp [hr, hsource]), List.map_cons]

/-- What is waiting behind the item that is restored goes on waiting. -/
theorem Retraces.waiting_tail {post : List ItemRef}
    (h : Retraces o t (r :: removed) ((r, source) :: rest) u (r :: post))
    (hsource : t.source r = source) :
    post.filter (· ∈ removed) =
      (rest.filter fun e => e.1 ∈ removed ∧ t.source e.1 = e.2).map (·.1) := by
  have hwaiting := h.waiting
  rw [List.filter_cons_of_pos (by simp), List.filter_cons_of_pos (by simp [hsource]),
    List.map_cons] at hwaiting
  have hpost := congrArg (List.filter (· ∈ removed)) (List.cons.inj hwaiting).2
  rw [List.filter_filter, List.filter_map, List.filter_filter] at hpost
  refine Eq.trans (List.filter_congr fun q _ => ?_) (hpost.trans (congrArg _
    (List.filter_congr fun e _ => ?_)))
  · by_cases hq : q ∈ removed <;> simp [hq]
  · by_cases he : e.1 ∈ removed <;> simp [he]

/-- Everything that is visited after the item that is restored, and is not to be restored itself, is live
by then. -/
theorem Retraces.idle_step {post : List ItemRef}
    (h : Retraces o t (r :: removed) todo u (r :: post)) {item : Item} (hur : u.item? r = some item)
    {q : ItemRef} (hq : q ∈ u.followers r ++ post) (hnot : q ∉ removed) :
    (u.modify r Item.restored).isLive q = true := by
  have hget := h.lawful.housed.item?_modify hur Item.ref_restored
  by_cases hqr : q = r
  · exact isLive_iff.2 ⟨item.restored, (hget q).trans (if_pos hqr), item.removed_restored⟩
  have hout : q ∉ r :: removed := by simp [hqr, hnot]
  rcases List.mem_append.1 hq with hq | hq
  · -- it was removed for the item, but not by the removal that is retraced
    obtain ⟨x, hx, htest, -⟩ := (mem_referrers_iff h.lawful.named).1
      (List.mem_filter.1 (List.mem_reverse.1 hq)).1
    obtain ⟨hrem, hsource⟩ := Bool.and_eq_true_iff.1 htest
    rw [h.item?, if_neg hout] at hx
    exact absurd (List.mem_cons_self ..) (h.alone hx hrem r (of_decide_eq_true hsource))
  · have hlive := h.idle q (List.mem_cons_of_mem r hq) hout
    unfold isLive at hlive ⊢
    rwa [hget, if_neg hqr]

/-- The item that was removed for another one, and not ahead of any item that it refers to, can be
restored as soon as the other one is. -/
theorem Retraces.restorable (ho : o.Lawful Item.Tidy) (hrefs : o.ReferencesLive) (hkeys : o.KeysApart)
    (hd : Dwindles o s) (heq : s.removeAll todo = (removed, t))
    (hu : u.Lawful Item.Tidy)
    (hitem : ∀ q, u.item? q = if q ∈ removed then t.item? q else o.item? q)
    (hordered : FollowsReferences o removed) (hr : r ∉ removed) {q : ItemRef} (hq : q ∈ removed)
    (hsource : t.source q = some r) : u.isRestorable q = true := by
  obtain ⟨hnodup, htaken, -⟩ := removeAll_spec hd.lawful.named todo
  rw [heq] at htaken
  obtain ⟨a, source, ha⟩ := htaken q hq
  have hoq := hd.live ha.before ha.live
  have haq : a.ref = q := ho.housed.ref_eq hoq
  unfold isRestorable
  rw [hitem, if_pos hq, ha.after, Option.any_some, Option.isNone_iff_eq_none]
  have hkind : (a.markRemoved source).kind = a.kind :=
    congrArg ItemRef.kind (a.ref_markRemoved source)
  refine restoreFault?_eq_none hu (fun target htarget => ?_) fun id b hb hlive key hkey hkeyb => ?_
  · rw [Item.references_markRemoved] at htarget
    obtain ⟨b, hb, hblive⟩ := isLive_iff.1 (hrefs hoq ha.live target htarget)
    have hout : target ∉ removed := by
      intro hmem
      -- then the item was removed for one that is still to be restored
      have hsub := hordered q hq a hoq target htarget hmem
      obtain ⟨p, hp, hpq⟩ := source_precedes hd.lawful todo ha.before htarget (by rw [heq]; exact hsub)
      rw [heq] at hp hpq
      obtain rfl := Option.some.inj (hp.symm.trans hsource)
      exact hr (hpq.subset (List.mem_cons_self ..))
    exact isLive_iff.2 ⟨b, by rw [hitem, if_neg hout]; exact hb, hblive⟩
  · rw [hkind, Item.content_markRemoved] at hkey
    rw [hkind] at hb hkeyb
    rw [hitem] at hb
    split at hb
    next hmem =>
      obtain ⟨x, source', hx⟩ := htaken _ hmem
      rw [← Option.some.inj (hx.after.symm.trans hb), Item.removed_markRemoved] at hlive
      cases hlive
    next =>
      have ha' : o.item? a.ref = some a := by rw [haq]; exact hoq
      have hsame := hkeys hb ha' hlive ha.live key hkeyb hkey
      exact hsame.trans (congrArg ItemRef.id (a.ref_markRemoved source)).symm

/-- What is still to be removed on account of a removed item. -/
def dependents (s : Session) (r : ItemRef) : List (ItemRef × Option ItemRef) :=
  (s.referrers r isLiveItem).reverse.map fun d => (d, some r)

/-- The items that a restoration goes on with are those among the dependents of the removed item that
were removed for it, in the same order. -/
theorem followers_eq (hs : s.Lawful Item.Tidy) (heq : s.removeAll todo = (removed, t))
    (hu : u.Lawful Item.Tidy) (hnames : ∀ q, (s.item? q).isSome = (u.item? q).isSome)
    (hitem : ∀ q ∈ removed, u.item? q = t.item? q)
    (hrestorable : ∀ q ∈ removed, t.source q = some r →
      (u.modify r Item.restored).isRestorable q = true) :
    (u.followers r).filter (· ∈ removed) =
      ((s.dependents r).filter fun e => e.1 ∈ removed ∧ t.source e.1 = e.2).map (·.1) := by
  obtain ⟨-, htaken, -⟩ := removeAll_spec hs.named todo
  rw [heq] at htaken
  have hlist : r.kind.referrers.flatMap u.refs = r.kind.referrers.flatMap s.refs :=
    List.flatMap_congr fun kind _ => (refs_congr hs.housed hu.housed hnames kind).symm
  have hfst : ((fun e : ItemRef × Option ItemRef => e.1) ∘ fun d => (d, some r)) = id := rfl
  unfold followers dependents
  rw [List.filter_map, List.map_map, hfst, List.map_id, List.filter_reverse, List.filter_reverse,
    referrers_eq hu.housed, referrers_eq hs.housed, hlist, List.filter_filter, List.filter_filter,
    List.filter_filter]
  congr 1
  refine List.filter_congr fun q _ => ?_
  by_cases hq : q ∈ removed
  · obtain ⟨a, source, ha⟩ := htaken q hq
    have hua := (hitem q hq).trans ha.after
    have hsource := ha.source_eq
    have hrefers : (a.markRemoved source).refersTo r = a.refersTo r := by
      unfold Item.refersTo
      rw [Item.references_markRemoved]
    simp only [hq, decide_true, Bool.true_and, Function.comp_apply, hua, ha.before, Option.any_some,
      Item.removed_markRemoved, hrefers, hsource, true_and, isLiveItem, ha.live, Bool.not_false,
      Item.removalSource_markRemoved ha.live]
    by_cases hr : source = some r
    · rw [hrestorable q hq (hsource.trans hr)]
      simp [hr]
    · simp [hr]
  · simp [hq]

/-- Restoring the item that was removed next leads to where the removal was after it. -/
theorem Retraces.step {s' : Session} (ho : o.Lawful Item.Tidy) (hrefs : o.ReferencesLive)
    (hkeys : o.KeysApart) (hd : Dwindles o s) {item : Item} (hitem : s.item? r = some item)
    (hlive : item.removed = false) (hs' : s' = s.modify r (·.markRemoved source))
    (heq : s'.removeAll (s'.dependents r ++ rest) = (removed, t)) {post : List ItemRef}
    (h : Retraces o t (r :: removed) ((r, source) :: rest) u (r :: post)) :
    Retraces o t removed (s'.dependents r ++ rest) (u.modify r Item.restored)
      (u.followers r ++ post) := by
  have hd' : Dwindles o s' := hs' ▸ hd.mark hitem source
  obtain ⟨-, htaken, hrest⟩ := removeAll_spec hd'.lawful.named (s'.dependents r ++ rest)
  have hmarked := item?_removeAll_of_marked hd.lawful hitem source (s'.dependents r ++ rest)
  rw [← hs', heq] at hmarked
  rw [heq] at htaken hrest
  obtain ⟨hr, htr⟩ := hmarked
  have hur : u.item? r = some (item.markRemoved source) := by
    rw [h.item?, if_pos (List.mem_cons_self ..)]
    exact htr
  have hback : (item.markRemoved source).restored = item :=
    Item.restored_markRemoved hlive ((hd.lawful.item hitem).unmarked hlive) source
  have huget := h.lawful.housed.item?_modify hur Item.ref_restored
  have hu' : (u.modify r Item.restored).Lawful Item.Tidy :=
    h.lawful.modify r Item.ref_restored Item.law_tidy.restored
  have hitem' : ∀ q, (u.modify r Item.restored).item? q =
      if q ∈ removed then t.item? q else o.item? q := by
    intro q
    rw [huget, hback]
    by_cases hqr : q = r
    · rw [if_pos hqr, if_neg (hqr ▸ hr), hqr]
      exact (hd.live hitem hlive).symm
    · rw [if_neg hqr, h.item?]
      exact if_congr (by simp [hqr]) rfl rfl
  have hordered := h.ordered.tail hr
  have hnames : ∀ q, (s'.item? q).isSome = (u.item? q).isSome := by
    intro q
    rw [hd'.names, h.item?]
    split
    next hq =>
      rcases List.mem_cons.1 hq with rfl | hq
      · rw [htr, hd.live hitem hlive]
        rfl
      · obtain ⟨a, source', ha⟩ := htaken q hq
        rw [hd'.live ha.before ha.live, ha.after]
        rfl
    next => rfl
  have hfollowers := followers_eq hd'.lawful heq h.lawful hnames
    (fun q hq => by rw [h.item?, if_pos (List.mem_cons_of_mem _ hq)])
    fun q hq hsource => Retraces.restorable ho hrefs hkeys hd' heq hu' hitem' hordered hr hq hsource
  have hsource : t.source r = source :=
    (source_eq_of_item? htr).trans (Item.removalSource_markRemoved hlive source)
  refine ⟨hu', hitem', hordered, h.alone.tail, ?_, fun q hq hnot => h.idle_step hur hq hnot⟩
  rw [List.filter_append, List.filter_append, List.map_append, hfollowers, h.waiting_tail hsource]

/-- A restoration that retraces a removal gives the same items in the same order and leads back. -/
theorem restoreAll_removeAll (ho : o.Lawful Item.Tidy) (hrefs : o.ReferencesLive)
    (hkeys : o.KeysApart) (hd : Dwindles o s) :
    ∀ {u : Session} {visits : List ItemRef},
      Retraces o (s.removeAll todo).2 (s.removeAll todo).1 todo u visits →
        (u.restoreAll visits).1 = (s.removeAll todo).1 ∧
          ∀ q, (u.restoreAll visits).2.item? q = o.item? q := by
  fun_induction Session.removeAll s todo with
  | case1 s =>
    intro u visits h
    have hidle := restoreAll_append_of_live (fun q hq => h.idle q hq List.not_mem_nil) []
    rw [List.append_nil, restoreAll] at hidle
    rw [hidle]
    exact ⟨rfl, fun q => (h.item? q).trans (if_neg List.not_mem_nil)⟩
  | case2 s r source rest hnone ih =>
    intro u visits h
    refine ih hd (h.skip fun hmem => ?_)
    obtain ⟨a, source', ha⟩ := (removeAll_spec hd.lawful.named rest).2.1 r hmem
    cases hnone.symm.trans ha.before
  | case3 s r source rest item hitem s' hrem ih =>
    intro u visits h
    have hd' := hd.mark hitem source
    exact ih hd' (h.skip (item?_removeAll_of_marked hd.lawful hitem source rest).1)
  | case4 s r source rest item hitem s' hrem dependents removed s'' heq =>
    rename_i ih
    intro u visits h
    have hlive : item.removed = false := Bool.eq_false_iff.2 hrem
    have hd' := hd.mark hitem source
    obtain ⟨-, hafter⟩ := item?_removeAll_of_marked hd.lawful hitem source (dependents ++ rest)
    rw [heq] at hafter
    have hsource : s''.source r = source := Taken.source_eq ⟨hitem, hlive, hafter⟩
    obtain ⟨post, hvisits, hnext⟩ := h.next (List.mem_cons_self ..) hsource
    have hur : u.item? r = some (item.markRemoved source) := by
      rw [hnext.item?, if_pos (List.mem_cons_self ..)]
      exact hafter
    have hstep := hnext.step ho hrefs hkeys hd hitem hlive rfl heq
    obtain ⟨hrefs', hback⟩ := ih hd' (by rw [heq]; exact hstep)
    rw [hvisits, restoreAll_cons_of_removed hur (item.removed_markRemoved source)]
    rw [heq] at hrefs'
    exact ⟨congrArg (r :: ·) hrefs', hback⟩

/-! ### Removing and restoring an item -/

theorem removeAll_cons_of_live {item : Item} (hitem : s.item? r = some item)
    (hlive : item.removed = false) :
    s.removeAll ((r, source) :: rest) =
      (r :: ((s.modify r (·.markRemoved source)).removeAll
          ((s.modify r (·.markRemoved source)).dependents r ++ rest)).1,
        ((s.modify r (·.markRemoved source)).removeAll
          ((s.modify r (·.markRemoved source)).dependents r ++ rest)).2) := by
  rw [Session.removeAll]
  split
  next hnone =>
    rw [hitem] at hnone
    cases hnone
  next x hx =>
    obtain rfl := Option.some.inj (hitem.symm.trans hx)
    rw [dif_neg (by simp [hlive])]
    rfl

/-- A removal starts with its item, and goes on with what refers to it. -/
theorem exists_taken_of_remove (ho : o.Lawful Item.Tidy) (hr : o.isLive r = true)
    (hrem : o.remove r = .ok (removed, s)) :
    ∃ item later, Taken o s r item none ∧ removed = r :: later ∧
      (o.modify r (·.markRemoved none)).removeAll
        ((o.modify r (·.markRemoved none)).dependents r) = (later, s) := by
  obtain ⟨item, hitem, hlive⟩ := isLive_iff.1 hr
  obtain ⟨-, -, heq⟩ := remove_eq_ok hrem
  have hall := (removeAll_cons_of_live hitem hlive).symm.trans heq
  rw [List.append_nil] at hall
  obtain ⟨rfl, rfl⟩ := Prod.mk.inj hall
  obtain ⟨-, hafter⟩ := item?_removeAll_of_marked ho hitem none
    ((o.modify r (·.markRemoved none)).dependents r)
  exact ⟨item, _, ⟨hitem, hlive, hafter⟩, rfl, rfl⟩

/-- What a removal takes along is of kinds after that of the item. -/
theorem rank_lt_of_remove (ho : o.Lawful Item.Tidy) {item : Item} (hitem : o.item? r = some item) :
    ∀ q ∈ ((o.modify r (·.markRemoved none)).removeAll
      ((o.modify r (·.markRemoved none)).dependents r)).1, r.kind.rank < q.kind.rank := by
  have hd := (Dwindles.refl ho).mark hitem none
  intro q hq
  obtain ⟨e, he, hle⟩ := rank_removeAll hd.lawful _ q hq
  obtain ⟨d, hd', rfl⟩ := List.mem_map.1 he
  obtain ⟨a, ha, -, hrefs⟩ := (mem_referrers_iff hd.lawful.named).1 (List.mem_reverse.1 hd')
  have hlt := hd.lawful.housed.item_kind ha ▸ Item.rank_lt_of_mem_references hrefs
  exact Nat.lt_of_lt_of_le hlt hle

/-- The item that a removal starts with can be restored right away, if its references are live and no
other live item has a key of it. -/
theorem restore_eq_of_remove (ho : o.Lawful Item.Tidy) (hrefs : o.ReferencesLive)
    (hkeys : o.KeysApart) (hr : o.isLive r = true) (hrem : o.remove r = .ok (removed, s)) :
    s.restore r = .ok (s.restoreAll [r]) := by
  obtain ⟨item, later, htaken, rfl, heq⟩ := exists_taken_of_remove ho hr hrem
  have hd := (Dwindles.refl ho).mark htaken.before none
  have hs := hd.lawful.removeAll Item.law_tidy ((o.modify r (·.markRemoved none)).dependents r)
  have hrank := rank_lt_of_remove ho htaken.before
  obtain ⟨-, hlater, hrest⟩ := removeAll_spec hd.lawful.named ((o.modify r (·.markRemoved none)).dependents r)
  rw [heq] at hs hrank hlater hrest
  have hother : ∀ q ≠ r, q ∉ later → s.item? q = o.item? q := fun q hqr hq =>
    (hrest q hq).trans ((ho.named.item?_markRemoved htaken.before none q).trans (if_neg hqr))
  have href : (item.markRemoved none).ref = r :=
    (item.ref_markRemoved none).trans (ho.housed.ref_eq htaken.before)
  have hkind : (item.markRemoved none).kind = r.kind := congrArg ItemRef.kind href
  have hid : (item.markRemoved none).id = r.id := congrArg ItemRef.id href
  have hfault : s.restoreFault? (item.markRemoved none) = none := by
    refine restoreFault?_eq_none hs (fun target htarget => ?_) fun id b hb hblive key hkey hkeyb => ?_
    · have hlt := hkind ▸ Item.rank_lt_of_mem_references htarget
      rw [Item.references_markRemoved] at htarget
      obtain ⟨b, hb, hblive⟩ := isLive_iff.1 (hrefs htaken.before htaken.live target htarget)
      refine isLive_iff.2 ⟨b, (hother target (fun h => ?_) fun hmem => ?_).trans hb, hblive⟩
      · exact absurd (h ▸ hlt) (Nat.lt_irrefl _)
      · exact Nat.lt_asymm hlt (hrank target hmem)
    · rw [hkind] at hb hkey hkeyb
      rw [Item.content_markRemoved] at hkey
      rw [hid]
      by_cases hsame : (⟨r.kind, id⟩ : ItemRef) = r
      · exact congrArg ItemRef.id hsame
      · have hout : (⟨r.kind, id⟩ : ItemRef) ∉ later := by
          intro hmem
          obtain ⟨x, source, hx⟩ := hlater _ hmem
          rw [← Option.some.inj (hx.after.symm.trans hb), Item.removed_markRemoved] at hblive
          cases hblive
        exact hkeys ((hother _ hsame hout).symm.trans hb) htaken.before hblive htaken.live key hkeyb
          hkey
  unfold restore
  rw [htaken.after]
  dsimp only
  rw [if_pos (item.removed_markRemoved none), hfault]

/-- Restoring right after a removal brings items back as they were, and the others that it restores had
been removed before; it brings back all items, and no others, if the removal found every item after
those that it refers to and nothing was left that says it was removed for one of them. -/
theorem restore_of_remove (ho : o.Lawful Item.Tidy) (hrefs : o.ReferencesLive) (hkeys : o.KeysApart)
    (hr : o.isLive r = true) (hrem : o.remove r = .ok (removed, s)) :
    ∃ restored t, s.restore r = .ok (restored, t) ∧
      (∀ q ∉ restored, t.item? q = s.item? q) ∧
      (∀ q ∈ restored, q ∈ removed → t.item? q = o.item? q) ∧
      (∀ q ∈ restored, q ∉ removed →
        ∃ a, o.item? q = some a ∧ a.removed = true ∧ t.item? q = some a.restored) ∧
      (FollowsReferences o removed → NoneLeftBehind o removed →
        restored = removed ∧ ∀ q, t.item? q = o.item? q) := by
  have hres := restore_eq_of_remove ho hrefs hkeys hr hrem
  obtain ⟨item, later, htaken, hremoved, -⟩ := exists_taken_of_remove ho hr hrem
  obtain ⟨-, -, hall⟩ := remove_eq_ok hrem
  have hs := ho.removeAll Item.law_tidy [(r, none)]
  obtain ⟨-, hmarked, hrest⟩ := removeAll_spec ho.named [(r, none)]
  rw [hall] at hs hmarked hrest
  obtain ⟨hback, hsame⟩ := restoreAll_spec hs.named [r]
  refine ⟨_, _, hres, hsame, fun q hq hmem => ?_, fun q hq hnot => ?_, fun hordered halone => ?_⟩
  · obtain ⟨a, source, ha⟩ := hmarked q hmem
    obtain ⟨x, hx, -, hafter⟩ := hback q hq
    obtain rfl := Option.some.inj (ha.after.symm.trans hx)
    rw [hafter, ha.before, Item.restored_markRemoved ha.live ((ho.item ha.before).unmarked ha.live)]
  · obtain ⟨x, hx, hrem, hafter⟩ := hback q hq
    exact ⟨x, (hrest q hnot).symm.trans hx, hrem, hafter⟩
  · have hmem : r ∈ removed := by rw [hremoved]; exact List.mem_cons_self ..
    have hretraces : Retraces o s removed [(r, none)] s [r] := by
      refine ⟨hs, fun q => ?_, hordered, halone, ?_, fun q hq hnot => ?_⟩
      · split
        next => rfl
        next hq => exact hrest q hq
      · simp [hmem, htaken.source_eq]
      · exact absurd (List.mem_singleton.1 hq ▸ hmem) hnot
    have hundone := @restoreAll_removeAll o o [(r, none)] ho hrefs hkeys (Dwindles.refl ho) s [r]
    rw [hall] at hundone
    exact hundone hretraces

end Session

namespace Workspace

section Undoing

variable {σ : Type} [Store σ] {w w' : Workspace σ} {name : String} {s : Session} {x : ItemRef}

theorem perform_items {command : Command} {f : Session → Except Error (List ItemRef × Session)}
    (h : command.run = (.items <$> ConnectionM.edit f : ConnectionM σ Reply)) (w : Workspace σ)
    (name : String) (s : Session) :
    w.perform name s command =
      match f s with
      | .ok (refs, s') => (.ok (.items refs), [], ⟨w.store, w.sessions.insert name s'⟩)
      | .error e => (.error e, [], ⟨w.store, w.sessions.insert name s⟩) := by
  unfold perform
  rw [h, ConnectionM.run_map]
  unfold ConnectionM.edit
  dsimp only
  rcases f s with e | ⟨refs, s'⟩ <;> rfl

/-- What restoring an item right after its removal does, in every state in which live items refer to
live items only and share no keys.  It is not refused, and brings each removed item that it gives back
as it was; besides it can give items that had been removed before.  If the removal gave no item ahead of
one that it refers to, and no item removed before says it was removed for one of them, then it gives
the same items in the same order, and all items are as they were. -/
theorem restore_remove (hw : w.Attained) (hs : w.session? name = some s) (hrefs : s.ReferencesLive)
    (hkeys : s.KeysApart) (hx : s.isLive x = true) {removed : List ItemRef}
    {passes : List (List Conflict)}
    (h : w.perform name s (.remove x) = (.ok (.items removed), passes, w')) :
    ∃ s' restored s'' w'', w'.session? name = some s' ∧
      w'.perform name s' (.restore x) = (.ok (.items restored), [], w'') ∧
      w''.store = w.store ∧ w''.session? name = some s'' ∧
      (∀ q ∉ restored, s''.item? q = s'.item? q) ∧
      (∀ q ∈ restored, q ∈ removed → s''.item? q = s.item? q) ∧
      (∀ q ∈ restored, q ∉ removed →
        ∃ a, s.item? q = some a ∧ a.removed = true ∧ s''.item? q = some a.restored) ∧
      (s.FollowsReferences removed → s.NoneLeftBehind removed →
        restored = removed ∧ ∀ q, s''.item? q = s.item? q) := by
  rw [perform_items rfl] at h
  rcases hrem : s.remove x with e | ⟨refs, s'⟩ <;> rw [hrem] at h <;> cases h
  obtain ⟨restored, s'', hres, hspec⟩ :=
    Session.restore_of_remove (hw.lawful Item.law_tidy hs) hrefs hkeys hx hrem
  refine ⟨s', restored, s'', ⟨w.store, (w.sessions.insert name s').insert name s''⟩,
    (SortedMap.get?_insert ..).trans (if_pos rfl), ?_, rfl,
    (SortedMap.get?_insert ..).trans (if_pos rfl), hspec⟩
  rw [perform_items rfl, hres]

end Undoing

/-- A plant of some size, which is part of a scenario. -/
def plantInScenario : List Event :=
  [.connect "a" {}, .ask "a" (.add .alternative (.ofList [("name", .text "base")])),
    .ask "a" (.add .entityClass (.ofList [("name", .text "unit")])),
    .ask "a" (.add .entity (.ofList [("class_id", .ref ⟨2⟩), ("name", .text "plant")])),
    .ask "a" (.add .parameterDefinition
      (.ofList [("entity_class_id", .ref ⟨2⟩), ("name", .text "size")])),
    .ask "a" (.add .parameterValue (.ofList [("parameter_definition_id", .ref ⟨4⟩),
      ("entity_id", .ref ⟨3⟩), ("alternative_id", .ref ⟨1⟩), ("value", .integer 5)])),
    .ask "a" (.add .scenario (.ofList [("name", .text "plan")])),
    .ask "a" (.commit "plant"),
    .ask "a" (.add .scenarioAlternative
      (.ofList [("scenario_id", .ref ⟨6⟩), ("alternative_id", .ref ⟨1⟩), ("rank", .integer 1)]))]

set_option maxRecDepth 4000 in
/-- With the alternative go the value of the size and the part that it has in the scenario; all of them
come back. -/
theorem restore_remove_of_alternative : ∃ (w w' : Workspace Database) (s : Session)
    (removed : List ItemRef) (passes : List (List Conflict)), w.Attained ∧
      w.session? "a" = some s ∧ s.ReferencesLive ∧ s.KeysApart ∧
      s.isLive ⟨.alternative, .first⟩ = true ∧
      w.perform "a" s (.remove ⟨.alternative, .first⟩) = (.ok (.items removed), passes, w') ∧
      removed = [⟨.alternative, ⟨1⟩⟩, ⟨.parameterValue, ⟨5⟩⟩, ⟨.scenarioAlternative, ⟨7⟩⟩] ∧
      s.FollowsReferences removed ∧ s.NoneLeftBehind removed ∧
      ∃ s' s'' w'', w'.session? "a" = some s' ∧
        w'.perform "a" s' (.restore ⟨.alternative, .first⟩) = (.ok (.items removed), [], w'') ∧
        w''.session? "a" = some s'' ∧ ∀ q, s''.item? q = s.item? q := by
  have hcheck : (((new .empty).after plantInScenario).session? "a").any (fun s =>
      let removed := [⟨.alternative, ⟨1⟩⟩, ⟨.parameterValue, ⟨5⟩⟩, ⟨.scenarioAlternative, ⟨7⟩⟩]
      decide s.ReferencesLive && decide s.KeysApart && s.isLive ⟨.alternative, .first⟩ &&
        decide ((((new .empty).after plantInScenario).perform "a" s
          (.remove ⟨.alternative, .first⟩)).1 = .ok (.items removed)) &&
        decide (s.FollowsReferences removed) && decide (s.NoneLeftBehind removed)) = true := by
    decide +kernel
  obtain ⟨s, hs, hcheck⟩ := (Option.any_eq_true ..).1 hcheck
  simp only [Bool.and_eq_true, decide_eq_true_eq] at hcheck
  obtain ⟨⟨⟨⟨⟨hrefs, hkeys⟩, hlive⟩, hreply⟩, hordered⟩, halone⟩ := hcheck
  rcases hrun : ((new .empty).after plantInScenario).perform "a" s
    (.remove ⟨.alternative, .first⟩) with ⟨reply, passes, w'⟩
  rw [hrun] at hreply
  obtain rfl : reply = _ := hreply
  have hw := (Attained.new Database.empty).after plantInScenario
  obtain ⟨s', restored, s'', w'', hs', hres, -, hs'', -, -, -, hundone⟩ :=
    restore_remove hw hs hrefs hkeys hlive hrun
  obtain ⟨rfl, hsame⟩ := hundone hordered halone
  exact ⟨_, w', s, _, passes, hw, hs, hrefs, hkeys, hlive, hrun, rfl, hordered, halone, s', s'', w'',
    hs', hres, hs'', hsame⟩

/-- A plant of some size. -/
def sizedPlant : List Event :=
  [.connect "a" {}, .ask "a" (.add .alternative (.ofList [("name", .text "base")])),
    .ask "a" (.add .entityClass (.ofList [("name", .text "unit")])),
    .ask "a" (.add .entity (.ofList [("class_id", .ref ⟨2⟩), ("name", .text "plant")])),
    .ask "a" (.add .parameterDefinition
      (.ofList [("entity_class_id", .ref ⟨2⟩), ("name", .text "size")])),
    .ask "a" (.add .parameterValue (.ofList [("parameter_definition_id", .ref ⟨4⟩),
      ("entity_id", .ref ⟨3⟩), ("alternative_id", .ref ⟨1⟩), ("value", .integer 5)]))]

set_option maxRecDepth 4000 in
/-- The size of the plant is removed for its definition, ahead of the plant.  When the definition is
restored, the plant is not there yet; so the value stays removed when its class is restored. -/
theorem removal_not_undone : ∃ (w : Workspace Database) (s s' s'' : Session)
    (removed restored : List ItemRef), w.Attained ∧ w.session? "a" = some s ∧ s.ReferencesLive ∧
      s.KeysApart ∧ s.isLive ⟨.entityClass, ⟨2⟩⟩ = true ∧
      s.remove ⟨.entityClass, ⟨2⟩⟩ = .ok (removed, s') ∧
      s'.restore ⟨.entityClass, ⟨2⟩⟩ = .ok (restored, s'') ∧
      ¬ restored.Perm removed ∧
      s.isLive ⟨.parameterValue, ⟨5⟩⟩ = true ∧ s''.isLive ⟨.parameterValue, ⟨5⟩⟩ = false := by
  have hcheck : (((new .empty).after sizedPlant).session? "a").any (fun s =>
      decide s.ReferencesLive && decide s.KeysApart && s.isLive ⟨.entityClass, ⟨2⟩⟩ &&
        s.isLive ⟨.parameterValue, ⟨5⟩⟩ &&
        ((s.remove ⟨.entityClass, ⟨2⟩⟩).toOption.any fun gone =>
          (gone.2.restore ⟨.entityClass, ⟨2⟩⟩).toOption.any fun back =>
            decide (back.1.length < gone.1.length) &&
              !back.2.isLive ⟨.parameterValue, ⟨5⟩⟩)) = true := by
    decide +kernel
  obtain ⟨s, hs, hcheck⟩ := (Option.any_eq_true ..).1 hcheck
  simp only [Bool.and_eq_true, decide_eq_true_eq] at hcheck
  obtain ⟨⟨⟨⟨hrefs, hkeys⟩, hlive⟩, hvalue⟩, hrun⟩ := hcheck
  rcases hrem : s.remove ⟨.entityClass, ⟨2⟩⟩ with e | ⟨removed, s'⟩ <;> rw [hrem] at hrun
  · cases hrun
  have hrun : ((s'.restore ⟨.entityClass, ⟨2⟩⟩).toOption.any fun back =>
      decide (back.1.length < removed.length) && !back.2.isLive ⟨.parameterValue, ⟨5⟩⟩) = true := hrun
  rcases hres : s'.restore ⟨.entityClass, ⟨2⟩⟩ with e | ⟨restored, s''⟩ <;> rw [hres] at hrun
  · cases hrun
  obtain ⟨hless, hgone⟩ := Bool.and_eq_true_iff.1 hrun
  have hw := (Attained.new Database.empty).after sizedPlant
  refine ⟨_, s, s', s'', removed, restored, hw, hs, hrefs, hkeys, hlive, hrem, hres, fun hperm => ?_,
    hvalue, ?_⟩
  · exact Nat.ne_of_lt (of_decide_eq_true hless) hperm.length_eq
  · simpa using hgone

end Workspace

end StagedEdits
