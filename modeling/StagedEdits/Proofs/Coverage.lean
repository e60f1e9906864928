import StagedEdits.Proofs.LocalSide
import StagedEdits.Proofs.PairedKeys

/-!
# Keys without a holder

A fetch may pass through states in which live items share keys: rows have exchanged a key, and the
items take that over one after the other.  What it keeps up is that every key has a holder
(`Table.Covered`), as long as an item is replaced or taken out only while it is *open*: no other item
has a key that it holds.  Once live items share no keys, the index is exact (`Table.Covered.exact`).

* `Session.CoversFrom.reconcile`: fetching a table.
* `Session.Covers.restore`, `Session.Covers.committed`, `Session.KeysExact.covers_rollBack`: restoring
  items, and writing and discarding edits.
-/

namespace StagedEdits

namespace Table

variable {t : Table} {p q : ItemId → Prop} {id : ItemId} {item : Item}

/-- No other item has a key that item `id` holds. -/
def Alone (t : Table) (id : ItemId) : Prop :=
  ∀ key, t.keys.holder? key = some id → ∀ j x, t.get? j = some x → key ∈ t.keysOf x → j = id

/-- Every key of an item has a holder, and the open items, those with `p`, share none that they hold. -/
structure Covered (p : ItemId → Prop) (t : Table) : Prop where
  sound : t.KeysSound
  held : ∀ id item, t.get? id = some item → ∀ key ∈ t.keysOf item, ∃ j, t.keys.holder? key = some j
  alone : ∀ id, p id → t.Alone id

theorem Covered.mono (h : t.Covered p) (hqp : ∀ id, q id → p id) : t.Covered q :=
  ⟨h.sound, h.held, fun id hid => h.alone id (hqp id hid)⟩

theorem KeysExact.covered (h : t.KeysExact) (p : ItemId → Prop) : t.Covered p where
  sound := h.sound
  held id _ hitem key hkey := ⟨id, h.complete id hitem key hkey⟩
  alone _ _ key hid j _ hx hkey := Option.some.inj ((h.complete j hx key hkey).symm.trans hid)

/-- If items share no keys, none can be held by another item than the one that has it. -/
theorem Covered.exact (h : t.Covered p) (hapart : ∀ i j a b, t.get? i = some a → t.get? j = some b →
    ∀ key ∈ t.keysOf a, key ∈ t.keysOf b → i = j) : t.KeysExact := by
  refine ⟨h.sound, fun id item hitem key hkey => ?_⟩
  obtain ⟨j, hj⟩ := h.held id item hitem key hkey
  obtain ⟨b, hb, hkeyb⟩ := h.sound hj
  rw [hj, hapart id j item b hitem hb key hkey hkeyb]

theorem Covered.exact_of_open (h : t.Covered p) (hp : ∀ id, p id) : t.KeysExact := by
  refine h.exact fun i j a b ha hb key hkey hkey' => ?_
  obtain ⟨k, hk⟩ := h.held i a ha key hkey
  exact (h.alone k (hp k) key hk i a ha hkey).trans (h.alone k (hp k) key hk j b hb hkey').symm

/-- A removed item holds nothing. -/
theorem KeysSound.alone (h : t.KeysSound) (hrem : ∀ x, t.get? id = some x → x.removed = true) :
    t.Alone id := by
  intro key hid
  obtain ⟨x, hx, hkey⟩ := h hid
  have hlive := (mem_keysOf_iff.1 hkey).1
  rw [hrem x hx] at hlive
  cases hlive

/-- An open item may be taken out. -/
theorem Covered.erase (h : t.Covered p) (hid : t.Alone id) : (t.erase id).Covered p := by
  have hold : ∀ {j x}, (t.erase id).get? j = some x → j ≠ id ∧ t.get? j = some x := by
    intro j x hx
    rw [get?_erase] at hx
    split at hx
    next => cases hx
    next hne => exact ⟨hne, hx⟩
  refine ⟨h.sound.erase id, fun j x hx key hkey => ?_, fun i hi key hholder j x hx hkey => ?_⟩
  · obtain ⟨hne, hget⟩ := hold hx
    rw [keysOf_erase] at hkey
    obtain ⟨k, hk⟩ := h.held j x hget key hkey
    refine ⟨k, ?_⟩
    rw [holder?_erase h.sound, hk, Option.filter_some, if_pos (decide_eq_true ?_)]
    rintro rfl
    exact hne (hid key hk j x hget hkey)
  · rw [keysOf_erase] at hkey
    rw [holder?_erase h.sound, Option.filter_eq_some_iff] at hholder
    exact h.alone i hi key hholder.1 j x (hold hx).2 hkey

/-- An item may be put in if what the item in its place gives up is a key of no other item. -/
theorem Covered.insert (h : t.Covered p) (hgives : ∀ key, t.keys.holder? key = some item.id →
      key ∈ t.keysOf item ∨ ∀ j x, t.get? j = some x → key ∈ t.keysOf x → j = item.id) :
    (t.insert item).Covered fun id => p id ∧ id ≠ item.id := by
  refine ⟨h.sound.insert item, fun j x hx key hkey => ?_, fun i hi key hholder j x hx hkey => ?_⟩
  · rw [keysOf_insert] at hkey
    rw [holder?_insert h.sound]
    rw [get?_insert] at hx
    by_cases hnew : key ∈ t.keysOf item
    · exact ⟨item.id, if_pos hnew⟩
    · rw [if_neg hnew]
      split at hx
      next => exact absurd (Option.some.inj hx ▸ hkey) hnew
      next hne =>
        obtain ⟨k, hk⟩ := h.held j x hx key hkey
        refine ⟨k, ?_⟩
        rw [hk, Option.filter_some, if_pos (decide_eq_true ?_)]
        rintro rfl
        exact hne ((hgives key hk).resolve_left hnew j x hx hkey)
  · rw [keysOf_insert] at hkey
    rw [holder?_insert h.sound] at hholder
    split at hholder
    next => exact absurd (Option.some.inj hholder).symm hi.2
    next hnew =>
      rw [Option.filter_eq_some_iff] at hholder
      rw [get?_insert] at hx
      split at hx
      next => exact absurd (Option.some.inj hx ▸ hkey) hnew
      next => exact h.alone i hi.1 key hholder.1 j x hx hkey

/-- An open item may be replaced; it is not open any more. -/
theorem Covered.insert_of_open (h : t.Covered p) (hid : p item.id) :
    (t.insert item).Covered fun id => p id ∧ id ≠ item.id :=
  h.insert fun key hkey => .inr (h.alone item.id hid key hkey)

/-- An item may be replaced by one that has all its keys. -/
theorem Covered.insert_of_subset (h : t.Covered p)
    (hkeys : ∀ old, t.get? item.id = some old → ∀ key ∈ t.keysOf old, key ∈ t.keysOf item) :
    (t.insert item).Covered fun id => p id ∧ id ≠ item.id := by
  refine h.insert fun key hkey => .inl ?_
  obtain ⟨old, hold, hmem⟩ := h.sound hkey
  exact hkeys old hold key hmem

theorem Covered.dropRemoved (h : t.Covered p) : t.dropRemoved.Covered p := by
  unfold Table.dropRemoved
  have hrem : ∀ item ∈ t.all.filter Item.removed, ∀ x, t.get? item.id = some x → x.removed = true := by
    intro item hitem x hx
    obtain ⟨hall, hremoved⟩ := List.mem_filter.1 hitem
    rw [← Option.some.inj ((mem_all_iff.1 hall).symm.trans hx)]
    exact hremoved
  revert hrem
  generalize t.all.filter Item.removed = items
  induction items generalizing t with
  | nil => exact fun _ => h
  | cons item items ih =>
    intro hrem
    refine ih (h.erase (h.sound.alone (hrem item (List.mem_cons_self ..)))) fun item' h' x hx => ?_
    rw [get?_erase] at hx
    split at hx
    next => cases hx
    next => exact hrem item' (List.mem_cons_of_mem _ h') x hx

/-- Rolling back replaces every item once, or takes it out. -/
theorem KeysExact.covered_rollBack (h : t.KeysExact) : t.rollBack.Covered fun _ => False := by
  have hend := foldl_of_nodup (f := rollBackItem) (l := t.ids) (P := fun done t => t.Covered (· ∉ done))
    t.items.nodup_keys (fun done t id _ hid h => ?_) (h.covered _)
  · rw [rollBack_eq]
    exact hend.mono fun _ => False.elim
  · have hrest : ∀ i, i ∉ id :: done → i ∉ done ∧ i ≠ id := fun i hi => by
      rw [List.mem_cons, not_or] at hi
      exact hi.symm
    unfold rollBackItem
    split
    next => exact h.mono fun i hi => (hrest i hi).1
    next item hitem =>
      split
      next => exact (h.erase (h.alone id hid)).mono fun i hi => (hrest i hi).1
      next b hb =>
        have hbid : b.id = id :=
          (congrArg ItemRef.id (Item.ref_rolledBack hb)).trans (t.id_eq hitem)
        refine (h.insert_of_open (hbid ▸ hid)).mono fun i hi => ?_
        rw [hbid]
        exact hrest i hi

end Table

namespace Session

variable {I : Item → Prop} {s s' : Session} {kind : Kind} {p q : ItemId → Prop}

/-- No key of an item is without a holder. -/
def Covers (s : Session) : Prop := ∀ k, (s.table k).Covered fun _ => False

/-- No key of an item is without a holder, and all items of kinds from rank `n` on are open. -/
def CoversFrom (n : Nat) (s : Session) : Prop := ∀ k, (s.table k).Covered fun _ => n ≤ k.rank

/-- While the table of `kind` is fetched, its items with `p` are open, and so are all items of kinds
after it. -/
def CoversAt (kind : Kind) (p : ItemId → Prop) (s : Session) : Prop :=
  ∀ k, (s.table k).Covered fun id => kind.rank < k.rank ∨ (k = kind ∧ p id)

theorem CoversFrom.covers {n : Nat} (h : s.CoversFrom n) : s.Covers :=
  fun k => (h k).mono fun _ => False.elim

theorem KeysExact.coversFrom (h : s.KeysExact) (n : Nat) : s.CoversFrom n := fun k => (h k).covered _

/-- If live items share no keys, the indices are exact. -/
theorem Covers.exact (h : s.Covers) (hs : s.Lawful I) (hapart : s.KeysApart) : s.KeysExact := by
  refine fun kind => (h kind).exact fun i j a b ha hb key hkey hkey' => ?_
  obtain ⟨hla, hkey⟩ := Table.mem_keysOf_iff.1 hkey
  obtain ⟨hlb, hkey'⟩ := Table.mem_keysOf_iff.1 hkey'
  rw [hs.kind_eq] at hkey hkey'
  exact hapart ((item?_eq ..).trans ha) ((item?_eq ..).trans hb) hla hlb key hkey hkey'

theorem Covers.put (h : s.Covers) {item : Item} (hkeys : ∀ old, s.item? item.ref = some old →
      ∀ key ∈ (s.table item.kind).keysOf old, key ∈ (s.table item.kind).keysOf item) :
    (s.put item).Covers := by
  intro k
  rw [table_put]
  split
  next hk =>
    subst hk
    exact ((h _).insert_of_subset fun old hold => hkeys old ((item?_eq ..).trans hold)).mono
      fun _ => False.elim
  next => exact h k

/-! ### Taking rows in -/

theorem CoversAt.mono (h : s.CoversAt kind p) (hqp : ∀ id, q id → p id) : s.CoversAt kind q :=
  fun k => (h k).mono fun _ => Or.imp_right (And.imp_right (hqp _))

theorem CoversAt.put {item : Item} (h : s.CoversAt kind p) (hkind : item.kind = kind)
    (hid : p item.id) : (s.put item).CoversAt kind fun id => p id ∧ id ≠ item.id := by
  subst hkind
  intro k
  rw [table_put]
  split
  next hk =>
    subst hk
    refine ((h _).insert_of_open (.inr ⟨rfl, hid⟩)).mono fun id hor => ?_
    obtain hlt | ⟨-, hp, hne⟩ := hor
    · exact absurd hlt (Nat.lt_irrefl _)
    · exact ⟨.inr ⟨rfl, hp⟩, hne⟩
  next hk => exact (h k).mono fun _ => Or.imp_right fun hk' => absurd hk'.1 hk

theorem CoversAt.drop {id : ItemId} (h : s.CoversAt kind p) (hid : p id) :
    (s.drop ⟨kind, id⟩).CoversAt kind p := by
  intro k
  rw [table_drop]
  split
  next hk => exact (h k).erase ((h k).alone id (.inr ⟨hk, hid⟩))
  next => exact h k

/-- Evictions take out items of later kinds, all of which are open. -/
theorem CoversAt.evicts (h : s.CoversAt kind p) (he : Evicts kind s s') : s'.CoversAt kind p := by
  intro k
  by_cases hk : kind.rank < k.rank
  · have hexact : (s.table k).KeysExact := (h k).exact_of_open fun _ => .inl hk
    exact (he.keeps (fun _ id ht => ht.erase id) k hexact).covered _
  · rw [he.table_eq fun hmem => hk (Kind.rank_lt_of_mem_dependencies hmem)]
    exact h k

/-- Putting in items of one kind, each in its own place, which is open. -/
theorem CoversAt.foldl_put {α : Type} {f : Session → α → Session} {g : α → ItemId} {l : List α}
    (h : s.CoversAt kind fun id => id ∈ l.map g) (hn : (l.map g).Nodup)
    (hf : ∀ x ∈ l, (∀ s, f s x = s) ∨
      ∃ b : Item, (∀ s, f s x = s.put b) ∧ b.kind = kind ∧ b.id = g x) :
    (l.foldl f s).CoversAt kind fun _ => False := by
  induction l generalizing s with
  | nil => exact h.mono fun _ => False.elim
  | cons x l ih =>
    obtain ⟨hnot, hn⟩ := List.nodup_cons.1 hn
    refine ih ?_ hn fun y hy => hf y (List.mem_cons_of_mem _ hy)
    rcases hf x (List.mem_cons_self ..) with hsame | ⟨b, hput, hkind, hid⟩
    · rw [hsame]
      exact h.mono fun id hid => List.mem_cons_of_mem _ hid
    · rw [hput]
      refine (h.put hkind (hid ▸ List.mem_cons_self ..)).mono fun id hmem => ?_
      exact ⟨List.mem_cons_of_mem _ hmem, fun he => hnot (hid ▸ he ▸ hmem)⟩

end Session

namespace Absorption

open Session

variable {a a' : Absorption} {kind : Kind} {f : Finding} {todo : List Finding}

/-- The items that are to be replaced or put back: those of the findings left, and those set aside. -/
def awaited (a : Absorption) (todo : List Finding) : List ItemId :=
  todo.filterMap Finding.about? ++ a.conflicts.map (·.item.id)

/-- On the way of taking findings in, all items that are still to be replaced are open. -/
structure Covering (kind : Kind) (todo : List Finding) (a : Absorption) : Prop where
  housed : a.Housed
  kinds : ∀ c ∈ a.conflicts, c.item.kind = kind
  given : ∀ id ∈ todo.filterMap Finding.about?, id.val < a.session.nextId.val
  nodup : (a.awaited todo).Nodup
  covers : a.session.CoversAt kind fun id => id ∈ a.awaited todo ∨ a.session.nextId.val ≤ id.val

theorem Covering.given_awaited (h : a.Covering kind todo) {id : ItemId} (hid : id ∈ a.awaited todo) :
    id.val < a.session.nextId.val := by
  rcases List.mem_append.1 hid with hid | hid
  · exact h.given id hid
  · obtain ⟨c, hc, rfl⟩ := List.mem_map.1 hid
    exact h.housed.conflicts c hc

theorem awaited_cons {id : ItemId} (hid : f.about? = some id) :
    a.awaited (f :: todo) = id :: a.awaited todo := by
  unfold awaited
  rw [List.filterMap_cons_some hid, List.cons_append]

theorem awaited_subset (a : Absorption) (f : Finding) (todo : List Finding) :
    (a.awaited todo).Sublist (a.awaited (f :: todo)) :=
  (((List.sublist_cons_self f todo).filterMap Finding.about?)).append_right _

/-- Taking in a finding that is not a conflict. -/
theorem Covering.proceed (h : a.Covering kind (f :: todo)) (hf : a.session.Follows a'.session)
    (hconf : a'.conflicts = a.conflicts)
    (hcovers : a'.session.CoversAt kind fun id => id ∈ a.awaited todo ∨ a'.session.nextId.val ≤ id.val) :
    a'.Covering kind todo := by
  have hsame : a'.awaited todo = a.awaited todo := by
    unfold awaited
    rw [hconf]
  refine ⟨h.housed.of_follows hf hconf, hconf ▸ h.kinds, fun id hid => ?_, ?_, ?_⟩
  · refine Nat.lt_of_lt_of_le (h.given id ?_) hf.nextId_le
    exact ((List.sublist_cons_self f todo).filterMap Finding.about?).subset hid
  · rw [hsame]
    exact h.nodup.sublist (a.awaited_subset f todo)
  · rw [hsame]
    exact hcovers

/-- Taking in a finding that changes nothing. -/
theorem Covering.skip (h : a.Covering kind (f :: todo)) : a.Covering kind todo :=
  h.proceed (.refl h.housed.session) rfl <|
    h.covers.mono fun _ => Or.imp_left fun hid => (a.awaited_subset f todo).subset hid

/-- Replacing the item of a finding. -/
theorem Covering.replace (h : a.Covering kind (f :: todo)) {id : ItemId} (hid : f.about? = some id)
    {item b : Item} (hitem : a.session.item? ⟨kind, id⟩ = some item) (href : b.ref = item.ref)
    (hsession : a'.session = a.session.put b) (hconf : a'.conflicts = a.conflicts) :
    a'.Covering kind todo := by
  have hname : b.ref = ⟨kind, id⟩ := href.trans (h.housed.session.ref_eq hitem)
  have hbid : b.id = id := congrArg ItemRef.id hname
  have hfollows := h.housed.session.follows_replace hitem href
  have hcons : a.awaited (f :: todo) = id :: a.awaited todo := awaited_cons hid
  have hmem : id ∈ a.awaited (f :: todo) := hcons ▸ List.mem_cons_self ..
  have hnot : id ∉ a.awaited todo := (List.nodup_cons.1 (hcons ▸ h.nodup)).1
  refine h.proceed (hsession ▸ hfollows) hconf ?_
  rw [hsession]
  refine (h.covers.put (congrArg ItemRef.kind hname) (.inl (hbid ▸ hmem))).mono fun i hi => ?_
  rw [hbid]
  rcases hi with hi | hi
  · exact ⟨.inl ((a.awaited_subset f todo).subset hi), fun he => hnot (he ▸ hi)⟩
  · refine ⟨.inr hi, fun he => ?_⟩
    have hlt := h.given_awaited hmem
    rw [← he] at hlt
    exact Nat.not_lt_of_le hi hlt

/-- Evicting the item of a finding. -/
theorem Covering.evict {id : ItemId} (h : a.Covering kind (.gone id :: todo))
    (hsession : a'.session = (a.session.evict ⟨kind, id⟩).1) (hconf : a'.conflicts = a.conflicts) :
    a'.Covering kind todo := by
  have hfollows := h.housed.session.follows_evict ⟨kind, id⟩
  have hmem : id ∈ a.awaited (.gone id :: todo) := by
    rw [show a.awaited (.gone id :: todo) = id :: a.awaited todo from awaited_cons rfl]
    exact List.mem_cons_self ..
  have hcovers : (a.session.evict ⟨kind, id⟩).1.CoversAt kind fun i =>
      i ∈ a.awaited (.gone id :: todo) ∨ a.session.nextId.val ≤ i.val := by
    unfold Session.evict
    split
    next => exact h.covers
    next =>
      dsimp only
      refine (h.covers.drop (.inl hmem)).evicts ?_
      exact evicts_evictReferrers fun r hr => by rw [List.mem_singleton.1 hr]
  rw [← hsession] at hfollows hcovers
  refine h.proceed hfollows hconf (hcovers.mono fun i hi => ?_)
  exact hi.imp (fun hi => (a.awaited_subset _ todo).subset hi) fun hi =>
    Nat.le_trans hfollows.nextId_le hi

theorem Covering.step (h : a.Covering kind (f :: todo)) : (a.step kind f).Covering kind todo := by
  cases f with
  | unknown row =>
    refine h.proceed (h.housed.session.follows_new rfl) rfl ?_
    have hnext : Session.CoversAt kind
        (fun id => id ∈ a.awaited (.unknown row :: todo) ∨ a.session.nextId.val ≤ id.val)
        { a.session with nextId := a.session.nextId.next } := h.covers
    have hkind : (Item.loaded a.session.nextId kind row).kind = kind := rfl
    refine (hnext.put hkind (.inr (Nat.le_refl _))).mono fun i hi => ?_
    rcases hi with hi | hi
    · refine ⟨.inl hi, fun he => ?_⟩
      have hlt : i.val < a.session.nextId.val := h.given_awaited hi
      rw [he] at hlt
      exact Nat.lt_irrefl _ hlt
    · refine ⟨.inr (Nat.le_of_succ_le hi), fun he => ?_⟩
      rw [he] at hi
      exact Nat.not_succ_le_self _ hi
  | same id => exact h.skip
  | changed id row =>
    unfold Absorption.step
    dsimp only
    split
    next => exact h.skip
    next item hitem => exact h.replace rfl (b := item.adopt row) hitem rfl rfl rfl
  | twin id row =>
    unfold Absorption.step
    dsimp only
    split
    next => exact h.skip
    next item hitem => exact h.replace rfl hitem (item.ref_claim row) rfl rfl
  | conflict id row d =>
    have hhoused := (h.housed.step kind (.conflict id row d)).2
    revert hhoused
    unfold Absorption.step
    dsimp only
    split
    next => exact fun _ => h.skip
    next item hitem =>
      intro hhoused
      have hid : item.id = id := item_id hitem
      have hcons : a.awaited (.conflict id row d :: todo) = id :: a.awaited todo := awaited_cons rfl
      have hperm : (todo.filterMap Finding.about? ++
          (a.conflicts ++ [(⟨item, row⟩ : Conflict)]).map (·.item.id)).Perm (id :: a.awaited todo) := by
        rw [List.map_append, ← List.append_assoc, List.map_singleton, hid]
        exact List.perm_append_singleton ..
      refine ⟨hhoused, fun c hc => ?_, fun i hi => ?_, ?_, ?_⟩
      · rcases List.mem_append.1 hc with hc | hc
        · exact h.kinds c hc
        · rw [List.mem_singleton.1 hc]
          exact h.housed.session.item_kind hitem
      · rw [nextId_drop]
        exact h.given i (((List.sublist_cons_self _ todo).filterMap Finding.about?).subset hi)
      · exact hperm.nodup_iff.2 (hcons ▸ h.nodup)
      · refine (h.covers.drop (.inl (hcons ▸ List.mem_cons_self ..))).mono fun i hi => ?_
        rw [nextId_drop] at hi
        exact hi.imp_left fun hi => hcons ▸ hperm.subset hi
  | gone id => exact h.evict rfl rfl

theorem Covering.foldl (h : a.Covering kind todo) :
    (todo.foldl (Absorption.step kind) a).Covering kind [] := by
  induction todo generalizing a with
  | nil => exact h
  | cons f todo ih => exact ih h.step

end Absorption

namespace Table

variable {t : Table} {rows : List Record}

theorem exists_item_of_about? (hp : (t.pair rows).Valid t rows) {id : ItemId}
    (hid : id ∈ (t.findings rows).filterMap Finding.about?) : ∃ item, t.get? id = some item := by
  rw [about?_findings hp] at hid
  rcases List.mem_append.1 hid with hid | hid
  · obtain ⟨⟨row, id?⟩, hslot, rfl⟩ := List.mem_filterMap.1 hid
    obtain ⟨i, hi⟩ := List.mem_iff_getElem?.1 hslot
    exact hp.present hi
  · obtain ⟨item, hitem, rfl⟩ := List.mem_map.1 hid
    exact ⟨item, (mem_unmatched hitem).1⟩

end Table

namespace Session

variable {I : Item → Prop} {s s' : Session} {kind : Kind} {rows : List Record}

theorem CoversFrom.absorb (h : s.CoversFrom kind.rank) (hs : s.Lawful I)
    (hrows : (rows.filterMap Record.dbId?).Nodup) : (s.absorb kind rows).Covering kind [] := by
  have hp : ((s.table kind).pair (s.readable kind rows)).Valid (s.table kind) (s.readable kind rows) :=
    Table.valid_pair (hs.table kind).sound (nodup_readable hrows)
  unfold Session.absorb
  refine Absorption.Covering.foldl ⟨?_, fun c hc => ?_, fun id hid => ?_, ?_, fun k => ?_⟩
  · exact ⟨(hs.housed.follows_markFetched kind).housed, fun c hc => absurd hc List.not_mem_nil⟩
  · exact absurd hc List.not_mem_nil
  · obtain ⟨item, hitem⟩ := Table.exists_item_of_about? hp hid
    exact hs.given (r := ⟨kind, id⟩) ((item?_eq ..).trans hitem)
  · unfold Absorption.awaited
    rw [List.map_nil, List.append_nil]
    exact Table.nodup_about? hp
  · rw [table_markFetched]
    refine (h k).mono fun id hor => ?_
    obtain hlt | ⟨rfl, -⟩ := hor
    · exact Nat.le_of_lt hlt
    · exact Nat.le_refl _

/-- The items of conflicts are put back as they were, or as the answers want them. -/
theorem covers_settle {a : Absorption} (h : a.Covering kind []) (answers : List Resolved) :
    (a.session.settle a.conflicts answers).2.CoversAt kind fun _ => False := by
  have haside : a.session.CoversAt kind fun id => id ∈ a.conflicts.map (·.item.id) :=
    h.covers.mono fun id hid => .inl hid
  cases hfault : contractFault? a.conflicts answers with
  | some fault =>
    rw [settle_eq_error a.session hfault]
    exact haside.foldl_put h.nodup fun c hc => .inr ⟨c.item, fun _ => rfl, h.kinds c hc, rfl⟩
  | none =>
    obtain ⟨ordered, hperm, heq⟩ := exists_settle_eq a.session hfault
    obtain ⟨hids, -⟩ := exists_answer_of_contractFault? hfault
    have hmem : ∀ r ∈ ordered, ∃ c ∈ a.conflicts, c.item = r.item := fun r hr =>
      item_mem_of_contractFault? hfault r (hperm.mem_iff.1 hr)
    have hkind : ∀ r ∈ ordered, r.item.kind = kind := fun r hr => by
      obtain ⟨c, hc, hitem⟩ := hmem r hr
      exact hitem ▸ h.kinds c hc
    have hanswered : (ordered.foldl answered a.session).CoversAt kind fun _ => False := by
      refine CoversAt.foldl_put (g := (·.item.id)) (haside.mono fun id hid => ?_)
        ((hperm.map _).nodup_iff.2 hids) fun r hr => ?_
      · obtain ⟨r, hr, rfl⟩ := List.mem_map.1 hid
        obtain ⟨c, hc, hitem⟩ := hmem r hr
        exact List.mem_map.2 ⟨c, hc, hitem ▸ rfl⟩
      · cases hout : r.outcome? with
        | none => exact .inl fun s => by rw [answered_eq, hout]
        | some b =>
          have href := Resolved.ref_outcome? hout
          exact .inr ⟨b, fun s => by rw [answered_eq, hout],
            (congrArg ItemRef.kind href).trans (hkind r hr), congrArg ItemRef.id href⟩
    rw [heq]
    refine hanswered.evicts (evicts_evictReferrers fun ref href => ?_)
    obtain ⟨r, hr, rfl⟩ := List.mem_map.1 href
    exact hkind r (List.mem_filter.1 hr).1

/-- A fetch of a table leaves no key without a holder, and the indices of later kinds exact. -/
theorem CoversFrom.reconcile (h : s.CoversFrom kind.rank) (hs : s.Lawful I)
    (hrows : (rows.filterMap Record.dbId?).Nodup) (answer : List Conflict → List Resolved) :
    (s.reconcile kind rows answer).2.1.CoversFrom (kind.rank + 1) := by
  have habsorb := h.absorb hs hrows
  rcases s.session_reconcile kind rows answer with heq | heq <;> rw [heq]
  · exact fun k => (habsorb.covers k).mono fun _ hlt => .inl hlt
  · exact fun k => (covers_settle habsorb _ k).mono fun _ hlt => .inl hlt

/-! ### Edits -/

/-- An item may be modified if a live one stays live and keeps its content. -/
theorem Covers.modify (h : s.Covers) (hs : s.Housed) (r : ItemRef) {f : Item → Item}
    (href : ∀ item, (f item).ref = item.ref) (hf : ∀ item, item.removed = false →
      (f item).removed = false ∧ (f item).content = item.content) : (s.modify r f).Covers := by
  rw [hs.named.modify_eq href]
  split
  next => exact h
  next item hitem =>
    refine h.put fun old hold key hkey => ?_
    rw [href, hs.ref_eq hitem, hitem] at hold
    obtain rfl := Option.some.inj hold
    obtain ⟨hlive, hmem⟩ := Table.mem_keysOf_iff.1 hkey
    obtain ⟨hlive', hcontent⟩ := hf item hlive
    exact Table.mem_keysOf_iff.2 ⟨hlive', hcontent ▸ hmem⟩

theorem Covers.restored (h : s.Covers) (hs : s.Housed) (r : ItemRef) :
    (s.modify r Item.restored).Covers := by
  refine h.modify hs r Item.ref_restored fun item hlive => ?_
  rw [Item.restored_of_live hlive]
  exact ⟨hlive, rfl⟩

theorem Covers.restore (h : s.Covers) (hs : s.Housed) {r : ItemRef} {refs : List ItemRef}
    (hres : s.restore r = .ok (refs, s')) : s'.Covers :=
  (restore_induction (P := fun t => t.Covers ∧ t.Housed)
    (fun _ r _ _ ht => ⟨ht.1.restored ht.2 r, (ht.2.follows_modify r Item.ref_restored).housed⟩)
    hres ⟨h, hs⟩).1

theorem KeysExact.covers (h : s.KeysExact) : s.Covers := fun k => (h k).covered _

theorem KeysExact.covers_rollBack (h : s.KeysExact) (hback : s.rollBack = .ok s') : s'.Covers := by
  intro k
  rw [table_rollBack hback]
  exact (h k).covered_rollBack

theorem KeysExact.reset (h : s.KeysExact) (kinds : List Kind) : (s.reset kinds).KeysExact := by
  intro k
  rw [table_reset]
  split
  · exact Table.keysExact_empty k
  · exact h k

theorem live_writeItem (reserved : List (ItemId × DbId)) (commit : CommitId) (r : ItemRef) (item : Item)
    (hlive : item.removed = false) : (writeItem reserved commit r item).removed = false ∧
      (writeItem reserved commit r item).content = item.content := by
  unfold writeItem
  split
  · exact ⟨rfl, rfl⟩
  · exact ⟨hlive, rfl⟩

/-- A commit changes no content of a live item, and then takes removed items out. -/
theorem Covers.committed (h : s.Covers) (hs : s.Housed) (pending : List Pending)
    (reserved : List (ItemId × DbId)) (commit : CommitId) :
    (s.committed pending reserved commit).Covers := by
  unfold Session.committed
  rw [← List.foldl_flatMap]
  generalize pending.flatMap (fun p => p.updates ++ p.additions) = refs
  intro k
  rw [table_dropRemoved]
  refine Table.Covered.dropRemoved ?_
  revert k
  induction refs generalizing s with
  | nil => exact h
  | cons r refs ih =>
    exact ih (h.modify hs r (ref_writeItem reserved commit r) (live_writeItem reserved commit r))
      (hs.follows_modify r (ref_writeItem reserved commit r)).housed

end Session

end StagedEdits
