import StagedEdits.Proofs.Eviction
import StagedEdits.Session.Edit

/-!
# Local edits

Updating, removing and restoring replace items by others with the same identity and the same row
(`Session.Rewrites`); adding puts in an item without a row, and rolling back takes out what was
never written.  All of them keep a session well formed.

* `Session.removeAll_spec`: what is removed, and that nothing else changes.
* `Session.restoreAll_spec`: the same for a restoration.
* `Session.remove_induction`, `Session.restore_induction`: what one item of a removal or a restoration
  keeps, all of it keeps.
-/

namespace StagedEdits

/-- What every visit keeps up, with one element more that was visited, a fold over distinct elements
does. -/
theorem foldl_of_nodup {α β : Type} {f : β → α → β} {P : List α → β → Prop} {l : List α}
    (hn : l.Nodup) (hstep : ∀ done b a, a ∈ l → a ∉ done → P done b → P (a :: done) (f b a)) {b : β}
    (h : P [] b) : P l.reverse (l.foldl f b) := by
  have hfold : ∀ (l done : List α) (b : β), l.Nodup → (∀ a ∈ l, a ∉ done) →
      (∀ done b a, a ∈ l → a ∉ done → P done b → P (a :: done) (f b a)) → P done b →
      P (l.reverse ++ done) (l.foldl f b) := by
    intro l
    induction l with
    | nil => exact fun done b _ _ _ h => h
    | cons a l ih =>
      intro done b hn hout hstep h
      obtain ⟨ha, hn⟩ := List.nodup_cons.1 hn
      rw [List.foldl_cons, List.reverse_cons, List.append_assoc, List.singleton_append]
      refine ih (a :: done) _ hn (fun a' ha' hmem => ?_)
        (fun done b a' ha' => hstep done b a' (List.mem_cons_of_mem a ha'))
        (hstep done b a (List.mem_cons_self ..) (hout a (List.mem_cons_self ..)) h)
      rcases List.mem_cons.1 hmem with rfl | hmem
      · exact ha ha'
      · exact hout a' (List.mem_cons_of_mem a ha') hmem
  have hend := hfold l [] b hn (fun _ _ => List.not_mem_nil) hstep h
  rwa [List.append_nil] at hend

namespace Session

/-- Session `s'` is `s` with each item replaced by one that is `R`-related to it. -/
structure Rewrites (R : Item → Item → Prop) (s s' : Session) : Prop where
  frame : SameFrame s s'
  nextId : s'.nextId = s.nextId
  item? : ∀ r, Option.Rel R (s.item? r) (s'.item? r)
  wellFormed : s'.WellFormed

variable {R : Item → Item → Prop} {s s' s'' : Session}

theorem Rewrites.of_some (h : Rewrites R s s') {r : ItemRef} {a : Item} (ha : s.item? r = some a) :
    ∃ b, s'.item? r = some b ∧ R a b := by
  have hr := h.item? r
  rw [ha] at hr
  cases hb : s'.item? r with
  | none => rw [hb] at hr; cases hr
  | some b => rw [hb] at hr; exact ⟨b, rfl, Option.rel_some_some.1 hr⟩

theorem Rewrites.some_of (h : Rewrites R s s') {r : ItemRef} {b : Item} (hb : s'.item? r = some b) :
    ∃ a, s.item? r = some a ∧ R a b := by
  have hr := h.item? r
  rw [hb] at hr
  cases ha : s.item? r with
  | none => rw [ha] at hr; cases hr
  | some a => rw [ha] at hr; exact ⟨a, rfl, Option.rel_some_some.1 hr⟩

theorem Rewrites.refl (hs : s.WellFormed) (hR : ∀ a, R a a) : Rewrites R s s := by
  refine ⟨.refl s, rfl, fun r => ?_, hs⟩
  cases s.item? r with
  | none => exact .none
  | some a => exact .some (hR a)

theorem Rewrites.trans (h : Rewrites R s s') (h' : Rewrites R s' s'')
    (hR : ∀ a b c, R a b → R b c → R a c) : Rewrites R s s'' := by
  refine ⟨h.frame.trans h'.frame, h'.nextId.trans h.nextId, fun r => ?_, h'.wellFormed⟩
  have h₁ := h.item? r
  have h₂ := h'.item? r
  revert h₁ h₂
  cases s.item? r <;> cases s'.item? r <;> cases s''.item? r <;> intro h₁ h₂
  · exact .none
  · cases h₂
  · cases h₁
  · cases h₁
  · cases h₁
  · cases h₁
  · cases h₂
  · exact .some (hR _ _ _ (Option.rel_some_some.1 h₁) (Option.rel_some_some.1 h₂))

/-- What replaces the items of a coherent session can be said in other words. -/
theorem Rewrites.weaken {R' : Item → Item → Prop} (h : Rewrites R s s') (hs : s.Coherent)
    (hR : ∀ {a b}, a.Consistent → R a b → R' a b) : Rewrites R' s s' := by
  refine ⟨h.frame, h.nextId, fun r => ?_, h.wellFormed⟩
  have hrel := h.item? r
  cases ha : s.item? r with
  | none =>
    rw [ha] at hrel
    cases hb : s'.item? r with
    | none => exact .none
    | some b => rw [hb] at hrel; cases hrel
  | some a =>
    obtain ⟨b, hb, hab⟩ := h.of_some ha
    rw [hb]
    exact .some (hR (hs.consistent ha) hab)

/-- Replacing one item. -/
theorem rewrites_put (hs : s.WellFormed) (hR : ∀ a, R a a) {r : ItemRef} {a b : Item}
    (ha : s.item? r = some a) (hb : a.Edited b) (hab : R a b) : Rewrites R s (s.put b) := by
  have href : b.ref = r := by
    unfold Item.ref
    rw [hb.kind_eq, hb.id_eq]
    exact hs.item_ref ha
  refine ⟨sameFrame_put s b, rfl, fun r' => ?_, hs.put_edited ha hb⟩
  rw [item?_put, href]
  split
  next hr => rw [hr, ha]; exact .some hab
  next =>
    cases s.item? r' with
    | none => exact .none
    | some x => exact .some (hR x)

/-! ### Replacing an item by its image -/

section

variable {r : ItemRef} {a : Item} {f : Item → Item}

theorem Named.modify_eq (hs : s.Named) (hf : ∀ item, (f item).ref = item.ref) :
    s.modify r f = match s.item? r with
      | none => s
      | some item => s.put (f item) :=
  Session.modify_eq fun item hitem => congrArg ItemRef.kind ((hf item).trans (hs hitem))

theorem Named.modify_eq_put (hs : s.Named) (ha : s.item? r = some a)
    (hf : ∀ item, (f item).ref = item.ref) : s.modify r f = s.put (f a) := by
  rw [hs.modify_eq hf, ha]

theorem Named.item?_modify (hs : s.Named) (ha : s.item? r = some a)
    (hf : ∀ item, (f item).ref = item.ref) (r' : ItemRef) :
    (s.modify r f).item? r' = if r' = r then some (f a) else s.item? r' := by
  rw [hs.modify_eq_put ha hf, item?_put, hf, hs ha]

theorem Named.modify (hs : s.Named) (r : ItemRef) (hf : ∀ item, (f item).ref = item.ref) :
    (s.modify r f).Named := by
  rw [hs.modify_eq hf]
  split
  next => exact hs
  next item hitem =>
    intro r' b hb
    rw [item?_put] at hb
    split at hb
    next heq => exact (congrArg Item.ref (Option.some.inj hb)).symm.trans heq.symm
    next => exact hs hb

end

/-! ### Updating -/

/-- What updating does to an item. -/
def Updates (changes : Record) (a b : Item) : Prop := b = a ∨ b = a.edit changes

/-- An update that is not refused. -/
theorem update_eq_ok {r : ItemRef} {changes : Record} (h : s.update r changes = .ok s') :
    ∃ item, s.item? r = some item ∧ item.removed = false ∧ unknownField? r.kind changes = none ∧
      s.contentFault? r.kind (item.content.insertAll changes) (some r.id) = none ∧
      s' = s.modify r (·.edit changes) := by
  unfold update at h
  split at h
  next => cases h
  next item hitem =>
    split at h
    next => cases h
    next hlive =>
      split at h
      next => cases h
      next hnone =>
        cases h
        rw [Option.or_eq_none_iff, Option.map_eq_none_iff] at hnone
        exact ⟨item, hitem, Bool.eq_false_iff.2 hlive, hnone.1, hnone.2, rfl⟩

theorem rewrites_update (hs : s.WellFormed) {r : ItemRef} {changes : Record}
    (h : s.update r changes = .ok s') : Rewrites (Updates changes) s s' := by
  obtain ⟨item, hitem, -, -, -, rfl⟩ := update_eq_ok h
  rw [hs.named.modify_eq_put hitem (·.ref_edit changes)]
  exact rewrites_put hs (fun _ => .inl rfl) hitem (Item.edited_edit (hs.consistent hitem) changes)
    (.inr rfl)

theorem edits_update (hs : s.WellFormed) {r : ItemRef} {changes : Record}
    (h : s.update r changes = .ok s') : Rewrites Item.Edited s s' := by
  refine (rewrites_update hs h).weaken hs.toCoherent ?_
  rintro a b hcons (rfl | rfl)
  · exact .refl hcons
  · exact Item.edited_edit hcons _

/-! ### Removing and restoring -/

/-- What a removal does to an item. -/
def Removes (a b : Item) : Prop := b = a ∨ (a.removed = false ∧ ∃ source, b = a.markRemoved source)

theorem Removes.refl (a : Item) : Removes a a := .inl rfl

theorem Removes.trans (a b c : Item) (hab : Removes a b) (hbc : Removes b c) : Removes a c := by
  rcases hab with rfl | ⟨ha, source, rfl⟩
  · exact hbc
  · rcases hbc with rfl | ⟨hb, -⟩
    · exact .inr ⟨ha, source, rfl⟩
    · rw [Item.removed_markRemoved] at hb
      cases hb

section

variable (hs : s.Named) {r : ItemRef} {item : Item} (hitem : s.item? r = some item)

include hs hitem

theorem Named.item?_markRemoved (source : Option ItemRef) (q : ItemRef) :
    (s.modify r (·.markRemoved source)).item? q =
      if q = r then some (item.markRemoved source) else s.item? q :=
  hs.item?_modify hitem (·.ref_markRemoved source) q

/-- Items that are removed already stay as they are. -/
theorem Named.item?_markRemoved_of_removed (hrem : item.removed = true) (source : Option ItemRef)
    (q : ItemRef) : (s.modify r (·.markRemoved source)).item? q = s.item? q := by
  rw [hs.item?_markRemoved hitem, Item.markRemoved_of_removed hrem]
  split
  next hq => rw [hq, hitem]
  next => rfl

/-- Marking an item leaves no live items but those that were live before, unchanged. -/
theorem Named.live_of_markRemoved (source : Option ItemRef) {q : ItemRef} {a : Item}
    (ha : (s.modify r (·.markRemoved source)).item? q = some a) (hlive : a.removed = false) :
    s.item? q = some a := by
  rw [hs.item?_markRemoved hitem] at ha
  split at ha
  next =>
    rw [← Option.some.inj ha, Item.removed_markRemoved] at hlive
    cases hlive
  next => exact ha

end

/-- Marking an item, live or not, as removed. -/
theorem rewrites_markRemoved (hs : s.WellFormed) {r : ItemRef} {item : Item}
    (hitem : s.item? r = some item) (source : Option ItemRef) :
    Rewrites Removes s (s.modify r (·.markRemoved source)) := by
  have he := Item.edited_markRemoved (hs.consistent hitem) source
  rw [hs.named.modify_eq_put hitem (·.ref_markRemoved source)]
  refine rewrites_put hs Removes.refl hitem he ?_
  cases hr : item.removed with
  | true => exact .inl (Item.markRemoved_of_removed hr source)
  | false => exact .inr ⟨hr, source, rfl⟩

/-- What marking one item as removed keeps, a removal of many keeps. -/
theorem removeAll_induction {P : Session → Prop}
    (hstep : ∀ ⦃s : Session⦄ ⦃r item⦄ (source : Option ItemRef), s.item? r = some item → P s →
      P (s.modify r (·.markRemoved source)))
    (todo : List (ItemRef × Option ItemRef)) (h : P s) : P (s.removeAll todo).2 := by
  fun_induction removeAll s todo with
  | case1 s => exact h
  | case2 s r source rest hnone ih => exact ih h
  | case3 s r source rest item hitem s' hrem ih => exact ih (hstep source hitem h)
  | case4 s r source rest item hitem s' hlive dependents removed s'' heq ih =>
    have hrest := ih (hstep source hitem h)
    rwa [heq] at hrest

/-- A removed item as it was, and with what it was removed for. -/
structure Taken (s t : Session) (r : ItemRef) (a : Item) (source : Option ItemRef) : Prop where
  before : s.item? r = some a
  live : a.removed = false
  after : t.item? r = some (a.markRemoved source)

/-- A removal marks the items that it gives, each once, and nothing else. -/
theorem removeAll_spec (hs : s.Named) (todo : List (ItemRef × Option ItemRef)) :
    (s.removeAll todo).1.Nodup ∧
      (∀ q ∈ (s.removeAll todo).1, ∃ a source, Taken s (s.removeAll todo).2 q a source) ∧
      ∀ q ∉ (s.removeAll todo).1, (s.removeAll todo).2.item? q = s.item? q := by
  fun_induction removeAll s todo with
  | case1 s => exact ⟨.nil, fun _ hq => absurd hq List.not_mem_nil, fun _ _ => rfl⟩
  | case2 s r source rest hnone ih => exact ih hs
  | case3 s r source rest item hitem s' hrem ih =>
    have hsame : ∀ q, s'.item? q = s.item? q :=
      hs.item?_markRemoved_of_removed hitem hrem source
    obtain ⟨hn, htaken, hrest⟩ := ih (hs.modify r (·.ref_markRemoved source))
    refine ⟨hn, fun q hq => ?_, fun q hq => (hrest q hq).trans (hsame q)⟩
    obtain ⟨a, source', h⟩ := htaken q hq
    exact ⟨a, source', (hsame q).symm.trans h.before, h.live, h.after⟩
  | case4 s r source rest item hitem s' hlive dependents removed s'' heq ih =>
    have hlive : item.removed = false := Bool.eq_false_iff.2 hlive
    have hget : ∀ q, s'.item? q = _ := hs.item?_markRemoved hitem source
    obtain ⟨hn, htaken, hrest⟩ := ih (hs.modify r (·.ref_markRemoved source))
    rw [heq] at hn htaken hrest
    -- the item is not live any more when the rest is removed
    have hr : r ∉ removed := by
      intro hmem
      obtain ⟨a, source', h⟩ := htaken r hmem
      have hbefore := (hget r).symm.trans h.before
      rw [if_pos rfl] at hbefore
      have hwas := h.live
      rw [← Option.some.inj hbefore, Item.removed_markRemoved] at hwas
      cases hwas
    refine ⟨List.nodup_cons.2 ⟨hr, hn⟩, fun q hq => ?_, fun q hq => ?_⟩
    · rcases List.mem_cons.1 hq with rfl | hq
      · exact ⟨item, source, hitem, hlive, (hrest q hr).trans ((hget q).trans (if_pos rfl))⟩
      · obtain ⟨a, source', h⟩ := htaken q hq
        have hne : q ≠ r := fun he => hr (he ▸ hq)
        exact ⟨a, source', ((hget q).trans (if_neg hne)).symm.trans h.before, h.live, h.after⟩
    · obtain ⟨hne, hq⟩ := not_or.1 (mt List.mem_cons.2 hq)
      exact (hrest q hq).trans ((hget q).trans (if_neg hne))

/-- A removal that is not refused. -/
theorem remove_eq_ok {r : ItemRef} {refs : List ItemRef} (h : s.remove r = .ok (refs, s')) :
    ∃ item, s.item? r = some item ∧ s.removeAll [(r, none)] = (refs, s') := by
  unfold remove at h
  split at h
  next => cases h
  next item hitem => exact ⟨item, hitem, Except.ok.inj h⟩

theorem remove_induction {P : Session → Prop}
    (hstep : ∀ ⦃s : Session⦄ ⦃r item⦄ (source : Option ItemRef), s.item? r = some item → P s →
      P (s.modify r (·.markRemoved source)))
    {r : ItemRef} {refs : List ItemRef} (hrem : s.remove r = .ok (refs, s')) (h : P s) : P s' := by
  obtain ⟨-, -, heq⟩ := remove_eq_ok hrem
  have hall := removeAll_induction hstep [(r, none)] h
  rwa [heq] at hall

theorem rewrites_remove (hs : s.WellFormed) {r : ItemRef} {refs : List ItemRef}
    (h : s.remove r = .ok (refs, s')) : Rewrites Removes s s' := by
  refine remove_induction (fun t _ _ source hitem ht => ?_) h (.refl hs Removes.refl)
  exact ht.trans (rewrites_markRemoved ht.wellFormed hitem source) Removes.trans

theorem edits_remove (hs : s.WellFormed) {r : ItemRef} {refs : List ItemRef}
    (h : s.remove r = .ok (refs, s')) : Rewrites Item.Edited s s' := by
  refine (rewrites_remove hs h).weaken hs.toCoherent ?_
  rintro a b hcons (rfl | ⟨-, source, rfl⟩)
  · exact .refl hcons
  · exact Item.edited_markRemoved hcons source

/-- What a restoration does to an item. -/
def Restores (a b : Item) : Prop := b = a ∨ b = a.restored

theorem Restores.refl (a : Item) : Restores a a := .inl rfl

theorem Restores.trans (a b c : Item) (hab : Restores a b) (hbc : Restores b c) : Restores a c := by
  rcases hab with rfl | rfl
  · exact hbc
  · rcases hbc with rfl | rfl
    · exact .inr rfl
    · exact .inr (Item.restored_of_live a.removed_restored)

theorem rewrites_restored (hs : s.WellFormed) {r : ItemRef} {item : Item}
    (hitem : s.item? r = some item) : Rewrites Restores s (s.modify r Item.restored) := by
  rw [hs.named.modify_eq_put hitem Item.ref_restored]
  exact rewrites_put hs Restores.refl hitem (Item.edited_restored (hs.consistent hitem)) (.inr rfl)

/-- What restoring one item keeps, a restoration of many keeps. -/
theorem restoreAll_induction {P : Session → Prop}
    (hstep : ∀ ⦃s : Session⦄ ⦃r item⦄, s.item? r = some item → P s → P (s.modify r Item.restored))
    (todo : List ItemRef) (h : P s) : P (s.restoreAll todo).2 := by
  fun_induction restoreAll s todo with
  | case1 s => exact h
  | case2 s r rest hnone ih => exact ih h
  | case3 s r rest item hitem s' hrem dependents restored s'' heq ih =>
    have hrest := ih (hstep hitem h)
    rwa [heq] at hrest
  | case4 s r rest item hitem hlive ih => exact ih h

/-- A restoration restores the items that it gives, and nothing else. -/
theorem restoreAll_spec (hs : s.Named) (todo : List ItemRef) :
    (∀ q ∈ (s.restoreAll todo).1, ∃ a, s.item? q = some a ∧ a.removed = true ∧
        (s.restoreAll todo).2.item? q = some a.restored) ∧
      ∀ q ∉ (s.restoreAll todo).1, (s.restoreAll todo).2.item? q = s.item? q := by
  fun_induction restoreAll s todo with
  | case1 s => exact ⟨fun _ hq => absurd hq List.not_mem_nil, fun _ _ => rfl⟩
  | case2 s r rest hnone ih => exact ih hs
  | case3 s r rest item hitem s' hrem dependents restored s'' heq ih =>
    have hget : ∀ q, s'.item? q = _ := hs.item?_modify hitem Item.ref_restored
    obtain ⟨hback, hrest⟩ := ih (hs.modify r Item.ref_restored)
    rw [heq] at hback hrest
    -- once restored, the item is not found removed again
    have hr : r ∉ restored := by
      intro hmem
      obtain ⟨a, ha, harem, -⟩ := hback r hmem
      have ha := (hget r).symm.trans ha
      rw [if_pos rfl] at ha
      rw [← Option.some.inj ha, Item.removed_restored] at harem
      cases harem
    refine ⟨fun q hq => ?_, fun q hq => ?_⟩
    · rcases List.mem_cons.1 hq with rfl | hq
      · exact ⟨item, hitem, hrem, (hrest q hr).trans ((hget q).trans (if_pos rfl))⟩
      · obtain ⟨a, ha, harem, hafter⟩ := hback q hq
        have hne : q ≠ r := fun he => hr (he ▸ hq)
        exact ⟨a, ((hget q).trans (if_neg hne)).symm.trans ha, harem, hafter⟩
    · obtain ⟨hne, hq⟩ := not_or.1 (mt List.mem_cons.2 hq)
      exact (hrest q hq).trans ((hget q).trans (if_neg hne))
  | case4 s r rest item hitem hlive ih => exact ih hs

/-- A restoration that is not refused does nothing, or it restores a removed item. -/
theorem restore_eq_ok {r : ItemRef} {refs : List ItemRef} (h : s.restore r = .ok (refs, s')) :
    ∃ item, s.item? r = some item ∧ ((item.removed = false ∧ refs = [] ∧ s' = s) ∨
      (item.removed = true ∧ s.restoreFault? item = none ∧ s.restoreAll [r] = (refs, s'))) := by
  unfold restore at h
  split at h
  next => cases h
  next item hitem =>
    refine ⟨item, hitem, ?_⟩
    split at h
    next hrem =>
      split at h
      next => cases h
      next hfault => exact .inr ⟨hrem, hfault, Except.ok.inj h⟩
    next hlive =>
      cases h
      exact .inl ⟨Bool.eq_false_iff.2 hlive, rfl, rfl⟩

theorem restore_induction {P : Session → Prop}
    (hstep : ∀ ⦃s : Session⦄ ⦃r item⦄, s.item? r = some item → P s → P (s.modify r Item.restored))
    {r : ItemRef} {refs : List ItemRef} (hres : s.restore r = .ok (refs, s')) (h : P s) : P s' := by
  obtain ⟨-, -, ⟨-, -, rfl⟩ | ⟨-, -, heq⟩⟩ := restore_eq_ok hres
  · exact h
  · have hall := restoreAll_induction hstep [r] h
    rwa [heq] at hall

theorem rewrites_restore (hs : s.WellFormed) {r : ItemRef} {refs : List ItemRef}
    (h : s.restore r = .ok (refs, s')) : Rewrites Restores s s' := by
  refine restore_induction (fun t _ _ hitem ht => ?_) h (.refl hs Restores.refl)
  exact ht.trans (rewrites_restored ht.wellFormed hitem) Restores.trans

theorem edits_restore (hs : s.WellFormed) {r : ItemRef} {refs : List ItemRef}
    (h : s.restore r = .ok (refs, s')) : Rewrites Item.Edited s s' := by
  refine (rewrites_restore hs h).weaken hs.toCoherent ?_
  rintro a b hcons (rfl | rfl)
  · exact .refl hcons
  · exact Item.edited_restored hcons

/-! ### Adding -/

/-- An addition that is not refused. -/
theorem add_eq_ok {kind : Kind} {given : Record} {id : ItemId} (h : s.add kind given = .ok (id, s')) :
    id = s.nextId ∧
      s' = { s with nextId := s.nextId.next }.put (.added s.nextId kind (kind.completed given)) ∧
      unknownField? kind given = none ∧ s.contentFault? kind (kind.completed given) none = none := by
  unfold add at h
  dsimp only at h
  split at h
  next => cases h
  next hnone =>
    cases h
    rw [Option.or_eq_none_iff, Option.map_eq_none_iff] at hnone
    exact ⟨rfl, rfl, hnone⟩

theorem item?_nextId (hs : s.Coherent) (kind : Kind) : s.item? ⟨kind, s.nextId⟩ = none := by
  cases h : s.item? ⟨kind, s.nextId⟩ with
  | none => rfl
  | some item => exact absurd (hs.given h) (Nat.lt_irrefl _)

/-- An addition puts in a single item, under a new identity. -/
theorem item?_add {kind : Kind} {given : Record} {id : ItemId} (h : s.add kind given = .ok (id, s'))
    (r : ItemRef) :
    s'.item? r = if r = ⟨kind, s.nextId⟩ then some (.added s.nextId kind (kind.completed given))
      else s.item? r := by
  obtain ⟨-, rfl, -⟩ := add_eq_ok h
  exact item?_put _ _ r

theorem wellFormed_add (hs : s.WellFormed) {kind : Kind} {given : Record} {id : ItemId}
    (h : s.add kind given = .ok (id, s')) : s'.WellFormed := by
  obtain ⟨-, rfl, -⟩ := add_eq_ok h
  have hnext : ({ s with nextId := s.nextId.next } : Session).WellFormed :=
    hs.congr (fun _ => rfl) (Nat.le_succ _)
  refine hnext.put (Nat.lt_succ_self _) ?_ (Item.consistent_added ..) ?_
  · intro k a ha
    have hnone : s.item? ⟨k, s.nextId⟩ = none := item?_nextId hs.toCoherent k
    have ha : s.item? ⟨k, s.nextId⟩ = some a := ha
    rw [hnone] at ha
    cases ha
  · exact fun _ _ hd => nomatch hd

/-! ### Removed items -/

/-- The removed items of `s'` are removed items of `s`. -/
def KeepsRemovals (s s' : Session) : Prop :=
  ∀ ⦃r item⦄, s'.item? r = some item → item.removed = true → s.item? r = some item

theorem KeepsRemovals.trans (h : s.KeepsRemovals s') (h' : s'.KeepsRemovals s'') :
    s.KeepsRemovals s'' :=
  fun _ _ hi hrem => h (h' hi hrem) hrem

theorem KeepsRemovals.of_subset (h : ∀ ⦃r item⦄, s'.item? r = some item → s.item? r = some item) :
    s.KeepsRemovals s' :=
  fun _ _ hi _ => h hi

theorem KeepsRemovals.refl (s : Session) : s.KeepsRemovals s := .of_subset fun _ _ h => h

theorem keepsRemovals_add {kind : Kind} {given : Record} {id : ItemId}
    (h : s.add kind given = .ok (id, s')) : s.KeepsRemovals s' := by
  intro r b hb hrem
  rw [item?_add h] at hb
  split at hb
  next =>
    obtain rfl := Option.some.inj hb
    cases hrem
  next => exact hb

theorem keepsRemovals_update (hs : s.WellFormed) {r : ItemRef} {changes : Record}
    (h : s.update r changes = .ok s') : s.KeepsRemovals s' := by
  intro r' b hb hrem
  obtain ⟨item, hitem, hlive, -, -, rfl⟩ := update_eq_ok h
  rw [hs.named.item?_modify hitem (·.ref_edit changes)] at hb
  split at hb
  next =>
    obtain rfl := Option.some.inj hb
    rw [Item.removed_edit, hlive] at hrem
    cases hrem
  next => exact hb

end Session

/-! ### Rolling back -/

namespace Table

/-- Discards the edits of one item. -/
def rollBackItem (t : Table) (id : ItemId) : Table :=
  match t.get? id with
  | none => t
  | some item =>
    match item.rolledBack? with
    | none => t.erase id
    | some item => t.insert item

theorem rollBack_eq (t : Table) : t.rollBack = t.ids.foldl rollBackItem t := by
  unfold rollBack
  congr 1

variable {t : Table}

theorem get?_rollBackItem {id : ItemId}
    (hcons : ∀ item, t.get? id = some item → item.Consistent) (id' : ItemId) :
    (t.rollBackItem id).get? id' =
      if id' = id then (t.get? id).bind Item.rolledBack? else t.get? id' := by
  unfold rollBackItem
  cases ht : t.get? id with
  | none =>
    dsimp only
    split
    next hid => rw [hid, ht]; rfl
    next => rfl
  | some item =>
    rw [Option.bind_some]
    dsimp only
    cases hb : item.rolledBack? with
    | none => exact get?_erase t id id'
    | some b =>
      have hid : b.id = id :=
        (Item.edited_rolledBack (hcons item ht) hb).1.id_eq.trans (t.id_eq ht)
      rw [get?_insert, hid]

theorem exact_rollBackItem (h : t.Exact) {id : ItemId}
    (hcons : ∀ item, t.get? id = some item → item.Consistent) : (t.rollBackItem id).Exact := by
  unfold rollBackItem
  split
  next => exact h
  next item hitem =>
    split
    next => exact h.erase id
    next b hb =>
      have he := (Item.edited_rolledBack (hcons item hitem) hb).1
      have hid : b.id = id := he.id_eq.trans (t.id_eq hitem)
      exact h.insert_of_dbId_eq (by rw [hid]; exact hitem) he.dbId_eq

theorem kind_rollBackItem (t : Table) (id : ItemId) : (t.rollBackItem id).kind = t.kind := by
  unfold rollBackItem
  split
  next => rfl
  next =>
    split
    next => exact kind_erase t id
    next => exact kind_insert ..

theorem foldl_rollBackItem {ids : List ItemId} (hn : ids.Nodup)
    (hcons : ∀ id item, t.get? id = some item → item.Consistent) :
    (t.Exact → (ids.foldl rollBackItem t).Exact) ∧ (ids.foldl rollBackItem t).kind = t.kind ∧
      ∀ id, (ids.foldl rollBackItem t).get? id =
        if id ∈ ids then (t.get? id).bind Item.rolledBack? else t.get? id := by
  have hstart : (t.Exact → t.Exact) ∧ t.kind = t.kind ∧ ∀ id, t.get? id =
      if id ∈ ([] : List ItemId) then (t.get? id).bind Item.rolledBack? else t.get? id :=
    ⟨fun h => h, rfl, fun id => (if_neg List.not_mem_nil).symm⟩
  have hend := foldl_of_nodup (P := fun done t' => (t.Exact → t'.Exact) ∧ t'.kind = t.kind ∧
      ∀ id, t'.get? id = if id ∈ done then (t.get? id).bind Item.rolledBack? else t.get? id)
    (f := rollBackItem) hn (fun done t' id _ hid ⟨hexact, hkind, hget⟩ => ?_) hstart
  · simpa only [List.mem_reverse] using hend
  have hat : t'.get? id = t.get? id := (hget id).trans (if_neg hid)
  have hcons' : ∀ item, t'.get? id = some item → item.Consistent := fun item hi =>
    hcons id item (hat.symm.trans hi)
  refine ⟨fun h => exact_rollBackItem (hexact h) hcons', (kind_rollBackItem t' id).trans hkind,
    fun id' => ?_⟩
  rw [get?_rollBackItem hcons', hat]
  by_cases he : id' = id
  · rw [if_pos he, if_pos (he ▸ List.mem_cons_self ..), he]
  · rw [if_neg he, hget]
    exact if_congr (by simp [he]) rfl rfl

theorem rollBack_spec (hcons : ∀ id item, t.get? id = some item → item.Consistent) :
    (t.Exact → t.rollBack.Exact) ∧ t.rollBack.kind = t.kind ∧
      ∀ id, t.rollBack.get? id = (t.get? id).bind Item.rolledBack? := by
  rw [rollBack_eq]
  obtain ⟨hexact, hkind, hget⟩ := foldl_rollBackItem t.items.nodup_keys hcons
  refine ⟨hexact, hkind, fun id => (hget id).trans ?_⟩
  split
  next => rfl
  next hid =>
    cases ht : t.get? id with
    | none => rfl
    | some item => exact absurd (mem_ids_iff.2 ⟨item, ht⟩) hid

end Table

namespace Session

variable {s s' : Session}

theorem rollBack_eq_ok (h : s.rollBack = .ok s') :
    s' = { s with tables := s.tables.map Table.rollBack } := by
  unfold rollBack at h
  split at h
  next => exact (Except.ok.inj h).symm
  next => cases h

theorem table_rollBack (h : s.rollBack = .ok s') (kind : Kind) :
    s'.table kind = (s.table kind).rollBack := by
  rw [rollBack_eq_ok h]
  exact table_map s (fun _ => rfl) kind

theorem Coherent.consistent_get? (hs : s.Coherent) (kind : Kind) :
    ∀ id item, (s.table kind).get? id = some item → item.Consistent := fun id item hi =>
  hs.consistent (r := ⟨kind, id⟩) (by rw [item?_eq]; exact hi)

/-- Rolling back discards the edits of each item by itself. -/
theorem item?_rollBack (hs : s.Coherent) (h : s.rollBack = .ok s') (r : ItemRef) :
    s'.item? r = (s.item? r).bind Item.rolledBack? := by
  rw [item?_eq, table_rollBack h, (Table.rollBack_spec (hs.consistent_get? r.kind)).2.2, item?_eq]

/-- Rolling back discards the edits of every item. -/
theorem rollBack_spec (hs : s.WellFormed) (h : s.rollBack = .ok s') :
    SameFrame s s' ∧ s'.nextId = s.nextId ∧ s'.WellFormed ∧
      ∀ r, s'.item? r = (s.item? r).bind Item.rolledBack? := by
  have hitem := item?_rollBack hs.toCoherent h
  have htable := table_rollBack h
  obtain rfl := rollBack_eq_ok h
  have hspec : ∀ kind, _ := fun kind => Table.rollBack_spec (hs.consistent_get? kind)
  have hfrom : ∀ {r b}, ({ s with tables := s.tables.map Table.rollBack } : Session).item? r =
      some b → ∃ a, s.item? r = some a ∧ a.Edited b := by
    intro r b hb
    rw [hitem] at hb
    obtain ⟨a, ha, hb⟩ := Option.bind_eq_some_iff.1 hb
    exact ⟨a, ha, (Item.edited_rolledBack (hs.consistent ha) hb).1⟩
  refine ⟨⟨rfl, rfl, rfl⟩, rfl, wellFormed_of_exact ⟨?_, ?_, ?_, ?_, ?_, ?_⟩ ?_, hitem⟩
  · intro kind; rw [htable, (hspec kind).2.1]; exact hs.kind_eq kind
  · intro kind; rw [htable]; exact ((hspec kind).1 (hs.exact kind)).sound
  · intro r b hb
    obtain ⟨a, ha, he⟩ := hfrom hb
    exact he.kind_eq.trans (hs.item_kind ha)
  · intro r b hb
    obtain ⟨a, ha, -⟩ := hfrom hb
    exact hs.given ha
  · intro kind kind' id a b ha hb
    obtain ⟨a', ha', -⟩ := hfrom ha
    obtain ⟨b', hb', -⟩ := hfrom hb
    exact hs.one_kind ha' hb'
  · intro r b hb
    obtain ⟨a, -, he⟩ := hfrom hb
    exact he.consistent
  · intro kind; rw [htable]; exact (hspec kind).1 (hs.exact kind)

/-- What is left after rolling back is edited items. -/
theorem edited_rollBack (hs : s.WellFormed) (h : s.rollBack = .ok s') {r : ItemRef} {b : Item}
    (hb : s'.item? r = some b) : ∃ a, s.item? r = some a ∧ a.Edited b := by
  obtain ⟨-, -, -, hitem⟩ := rollBack_spec hs h
  rw [hitem] at hb
  obtain ⟨a, ha, hb⟩ := Option.bind_eq_some_iff.1 hb
  exact ⟨a, ha, (Item.edited_rolledBack (hs.consistent ha) hb).1⟩

/-- All items are committed. -/
def Clean (s : Session) : Prop := ∀ ⦃r item⦄, s.item? r = some item → item.status = .committed

/-- Rolling back leaves committed items only. -/
theorem clean_rollBack (hs : s.WellFormed) (h : s.rollBack = .ok s') : s'.Clean := by
  obtain ⟨-, -, -, hitem⟩ := rollBack_spec hs h
  intro r b hb
  rw [hitem] at hb
  obtain ⟨a, ha, hb⟩ := Option.bind_eq_some_iff.1 hb
  exact (Item.edited_rolledBack (hs.consistent ha) hb).2

/-! ### Resetting -/

/-- Resetting empties some tables. -/
theorem table_reset (s : Session) (kinds : List Kind) (kind : Kind) :
    (s.reset kinds).table kind =
      if kind ∈ Kind.withDependents kinds then .empty kind else s.table kind := by
  unfold reset table table?
  rw [SortedMap.get?_filter]
  cases s.tables.get? kind with
  | none =>
    split
    next => rfl
    next => rfl
  | some t =>
    by_cases hk : kind ∈ Kind.withDependents kinds
    · rw [if_pos hk, Option.filter_some, if_neg (by simpa using hk)]
      rfl
    · rw [if_neg hk, Option.filter_some, if_pos (by simpa using hk)]

theorem item?_reset {kinds : List Kind} {r : ItemRef} {item : Item}
    (h : (s.reset kinds).item? r = some item) : s.item? r = some item := by
  rw [item?_eq, table_reset] at h
  split at h
  next => rw [Table.get?_empty] at h; cases h
  next => rw [item?_eq]; exact h

theorem wellFormed_reset (hs : s.WellFormed) (kinds : List Kind) : (s.reset kinds).WellFormed := by
  refine wellFormed_of_exact ⟨?_, ?_, ?_, ?_, ?_, ?_⟩ ?_
  · intro kind
    rw [table_reset]
    split
    · rfl
    · exact hs.kind_eq kind
  · intro kind
    rw [table_reset]
    split
    · exact Table.sound_empty kind
    · exact hs.sound kind
  · exact fun r item hi => hs.item_kind (item?_reset hi)
  · exact fun r item hi => hs.given (item?_reset hi)
  · exact fun _ _ _ _ _ ha hb => hs.one_kind (item?_reset ha) (item?_reset hb)
  · exact fun r item hi => hs.consistent (item?_reset hi)
  · intro kind
    rw [table_reset]
    split
    · exact Table.exact_empty kind
    · exact hs.exact kind

end Session

end StagedEdits
