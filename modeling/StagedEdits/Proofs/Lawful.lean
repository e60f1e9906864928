import StagedEdits.Proofs.Keys
import StagedEdits.Proofs.KeptEdits
import StagedEdits.Proofs.Steps
import StagedEdits.Proofs.Truth

/-!
# What holds of items and tables, on any store

A property of single items that survives every transition of an item (`Item.Law`) holds of all items
of all sessions, whatever rows the store shows and however the resolver answers.  So do the soundness
of bindings and key indices, and that every item is in one table only (`Session.Lawful`).

* `Command.lawful_run`: every command keeps a session lawful.
* `Workspace.Attained.lawful`: the sessions of a workspace are lawful, whatever happens to its store.
* `Item.law_tidy`: the law that later results use.
-/

namespace StagedEdits

/-- A property of items that no transition breaks; items are added with complete contents, and edited in
fields that they have. -/
structure Item.Law (I : Item → Prop) : Prop where
  added : ∀ id kind {content}, kind.Complete content → I (added id kind content)
  loaded : ∀ id kind row, I (loaded id kind row)
  edit : ∀ {a changes}, Session.unknownField? a.kind changes = none → I a → I (a.edit changes)
  markRemoved : ∀ {a} source, I a → I (a.markRemoved source)
  restored : ∀ {a}, I a → I a.restored
  adopt : ∀ {a} row, I a → I (a.adopt row)
  claim : ∀ {a} row, I a → a.removed = false → I (a.claim row)
  outcome : ∀ {r : Resolved} {b}, I r.item → r.outcome? = some b → I b
  written : ∀ {a} d commit, I a → I (a.written d commit)
  rolledBack : ∀ {a b}, I a → a.rolledBack? = some b → I b

variable {I : Item → Prop}

theorem Item.Law.writeItem (hI : Item.Law I) {reserved : List (ItemId × DbId)} {commit : CommitId}
    {r : ItemRef} {a : Item} (h : I a) : I (Session.writeItem reserved commit r a) := by
  unfold Session.writeItem
  split
  · exact hI.written _ _ h
  · exact h

/-! ### Tables -/

namespace Table

variable {t : Table}

/-- Bindings and keys are sound, and every item is of the kind of the table and keeps the law. -/
structure Lawful (I : Item → Prop) (t : Table) : Prop where
  sound : t.Sound
  keysSound : t.KeysSound
  item_kind : ∀ ⦃id item⦄, t.get? id = some item → item.kind = t.kind
  item : ∀ ⦃id item⦄, t.get? id = some item → I item

theorem lawful_empty (kind : Kind) : (empty kind).Lawful I := by
  refine ⟨sound_empty kind, keysSound_empty kind, fun id item h => ?_, fun id item h => ?_⟩
  · rw [get?_empty] at h
    cases h
  · rw [get?_empty] at h
    cases h

theorem Lawful.erase (h : t.Lawful I) (id : ItemId) : (t.erase id).Lawful I := by
  have hold : ∀ {id' item}, (t.erase id).get? id' = some item → t.get? id' = some item := by
    intro id' item hi
    rw [get?_erase] at hi
    split at hi
    next => cases hi
    next => exact hi
  refine ⟨h.sound.erase id, h.keysSound.erase id, fun id' item hi => ?_,
    fun id' item hi => h.item (hold hi)⟩
  rw [kind_erase]
  exact h.item_kind (hold hi)

theorem Lawful.insert (h : t.Lawful I) {item : Item} (hkind : item.kind = t.kind) (hI : I item) :
    (t.insert item).Lawful I := by
  have hcases : ∀ {id x}, (t.insert item).get? id = some x → x = item ∨ t.get? id = some x := by
    intro id x hx
    rw [get?_insert] at hx
    split at hx
    next => exact .inl (Option.some.inj hx).symm
    next => exact .inr hx
  refine ⟨h.sound.insert item, h.keysSound.insert item, fun id x hx => ?_, fun id x hx => ?_⟩
  · rw [kind_insert]
    rcases hcases hx with rfl | hx
    · exact hkind
    · exact h.item_kind hx
  · rcases hcases hx with rfl | hx
    · exact hI
    · exact h.item hx

theorem Lawful.rollBack (hI : Item.Law I) (h : t.Lawful I) :
    t.rollBack.Lawful I ∧ t.rollBack.kind = t.kind := by
  have hstep : ∀ (t : Table) (id : ItemId), t.Lawful I → (t.rollBackItem id).Lawful I := by
    intro t id h
    unfold rollBackItem
    split
    next => exact h
    next item hitem =>
      split
      next => exact h.erase id
      next b hb =>
        have hkind : b.kind = item.kind := congrArg ItemRef.kind (Item.ref_rolledBack hb)
        exact h.insert (hkind.trans (h.item_kind hitem)) (hI.rolledBack (h.item hitem) hb)
  rw [rollBack_eq]
  generalize t.ids = ids
  induction ids generalizing t with
  | nil => exact ⟨h, rfl⟩
  | cons id ids ih =>
    obtain ⟨hend, hkind⟩ := ih (hstep t id h)
    exact ⟨hend, hkind.trans (kind_rollBackItem t id)⟩

theorem Lawful.dropRemoved (h : t.Lawful I) :
    t.dropRemoved.Lawful I ∧ t.dropRemoved.kind = t.kind := by
  unfold Table.dropRemoved
  generalize t.all.filter Item.removed = items
  induction items generalizing t with
  | nil => exact ⟨h, rfl⟩
  | cons item items ih =>
    obtain ⟨hend, hkind⟩ := ih (h.erase item.id)
    exact ⟨hend, hkind.trans (kind_erase t item.id)⟩

end Table

/-! ### Sessions -/

namespace Session

variable {s s' : Session}

/-- Every table is lawful, and identities were given out to one item each. -/
structure Lawful (I : Item → Prop) (s : Session) : Prop where
  kind_eq : ∀ kind, (s.table kind).kind = kind
  table : ∀ kind, (s.table kind).Lawful I
  given : ∀ ⦃r item⦄, s.item? r = some item → r.id.val < s.nextId.val
  one_kind : ∀ ⦃kind kind' id a b⦄, s.item? ⟨kind, id⟩ = some a → s.item? ⟨kind', id⟩ = some b →
    kind = kind'

theorem Lawful.item (h : s.Lawful I) {r : ItemRef} {item : Item} (hi : s.item? r = some item) :
    I item := by
  rw [item?_eq] at hi
  exact (h.table r.kind).item hi

theorem Lawful.housed (h : s.Lawful I) : s.Housed where
  item_kind r item hi := by
    rw [item?_eq] at hi
    exact ((h.table r.kind).item_kind hi).trans (h.kind_eq r.kind)
  given := h.given

theorem Lawful.named (h : s.Lawful I) : s.Named := h.housed.named

theorem Lawful.coherent (h : s.Lawful I) (hI : ∀ {a}, I a → a.Consistent) : s.Coherent where
  kind_eq := h.kind_eq
  sound kind := (h.table kind).sound
  item_kind := h.housed.item_kind
  given := h.given
  one_kind := h.one_kind
  consistent _ _ hi := hI (h.item hi)

theorem lawful_new (config : Config) (count : Nat) : (new config count).Lawful I where
  kind_eq _ := rfl
  table kind := Table.lawful_empty kind
  given _ _ h := nomatch h
  one_kind _ _ _ _ _ h := nomatch h

/-- A session is lawful if its tables are and it has no items under new names. -/
theorem Lawful.of_subset (h : s.Lawful I)
    (htable : ∀ kind, (s'.table kind).Lawful I ∧ (s'.table kind).kind = kind)
    (hnext : s.nextId.val ≤ s'.nextId.val)
    (hitem : ∀ ⦃r b⦄, s'.item? r = some b → ∃ a, s.item? r = some a) : s'.Lawful I where
  kind_eq kind := (htable kind).2
  table kind := (htable kind).1
  given r b hb := by
    obtain ⟨a, ha⟩ := hitem hb
    exact Nat.lt_of_lt_of_le (h.given ha) hnext
  one_kind kind kind' id a b ha hb := by
    obtain ⟨a', ha'⟩ := hitem ha
    obtain ⟨b', hb'⟩ := hitem hb
    exact h.one_kind ha' hb'

/-- A session with the same tables is as lawful. -/
theorem Lawful.congr (h : s.Lawful I) (htable : ∀ kind, s'.table kind = s.table kind)
    (hnext : s.nextId.val ≤ s'.nextId.val) : s'.Lawful I :=
  h.of_subset (fun kind => by rw [htable]; exact ⟨h.table kind, h.kind_eq kind⟩) hnext
    fun r b hb => ⟨b, by rw [item?_eq, ← htable, ← item?_eq]; exact hb⟩

theorem Lawful.put (h : s.Lawful I) {item : Item} (hI : I item)
    (hgiven : item.id.val < s.nextId.val)
    (hkind : ∀ kind a, s.item? ⟨kind, item.id⟩ = some a → kind = item.kind) :
    (s.put item).Lawful I := by
  have hcases : ∀ {r : ItemRef} {x : Item}, (s.put item).item? r = some x →
      r = item.ref ∨ s.item? r = some x := by
    intro r x hx
    rw [item?_put] at hx
    split at hx
    next hr => exact .inl hr
    next => exact .inr hx
  have htable : ∀ kind, ((s.put item).table kind).Lawful I ∧ ((s.put item).table kind).kind = kind := by
    intro kind
    rw [table_put]
    split
    next hk =>
      rw [Table.kind_insert]
      exact ⟨(h.table kind).insert (hk.symm.trans (h.kind_eq kind).symm) hI, h.kind_eq kind⟩
    next => exact ⟨h.table kind, h.kind_eq kind⟩
  refine ⟨fun kind => (htable kind).2, fun kind => (htable kind).1, fun r x hx => ?_,
    fun kind kind' id a b ha hb => ?_⟩
  · rcases hcases hx with rfl | hx
    · exact hgiven
    · exact h.given hx
  · rcases hcases ha with hr | ha <;> rcases hcases hb with hr' | hb
    · exact (congrArg ItemRef.kind hr).trans (congrArg ItemRef.kind hr').symm
    · have hid : id = item.id := congrArg ItemRef.id hr
      exact (congrArg ItemRef.kind hr).trans (hkind _ _ (hid ▸ hb)).symm
    · have hid : id = item.id := congrArg ItemRef.id hr'
      exact (hkind _ _ (hid ▸ ha)).trans (congrArg ItemRef.kind hr').symm
    · exact h.one_kind ha hb

/-- An item may be replaced by one of the same name. -/
theorem Lawful.replace (h : s.Lawful I) {r : ItemRef} {a b : Item} (ha : s.item? r = some a)
    (href : b.ref = a.ref) (hI : I b) : (s.put b).Lawful I := by
  have hr : a.ref = r := h.housed.ref_eq ha
  have hid : b.id = r.id := congrArg ItemRef.id (href.trans hr)
  have hk : b.kind = r.kind := congrArg ItemRef.kind (href.trans hr)
  refine h.put hI (hid ▸ h.given ha) fun kind x hx => ?_
  rw [hid] at hx
  exact (h.one_kind hx ha).trans hk.symm

theorem Lawful.drop (h : s.Lawful I) (r : ItemRef) : (s.drop r).Lawful I := by
  refine h.of_subset (fun kind => ?_) (Nat.le_of_eq (by rw [nextId_drop])) fun r' b hb =>
    ⟨b, item?_of_drop hb⟩
  rw [table_drop]
  split
  · rw [Table.kind_erase]
    exact ⟨(h.table kind).erase r.id, h.kind_eq kind⟩
  · exact ⟨h.table kind, h.kind_eq kind⟩

theorem Lawful.modify_of_kind (h : s.Lawful I) (r : ItemRef) {f : Item → Item}
    (hf : ∀ item, (f item).ref = item.ref)
    (hI : ∀ {item : Item}, item.kind = r.kind → I item → I (f item)) : (s.modify r f).Lawful I := by
  rw [h.named.modify_eq hf]
  split
  next => exact h
  next item hitem =>
    exact h.replace hitem (hf item) (hI (h.housed.item_kind hitem) (h.item hitem))

theorem Lawful.modify (h : s.Lawful I) (r : ItemRef) {f : Item → Item}
    (hf : ∀ item, (f item).ref = item.ref) (hI : ∀ {item}, I item → I (f item)) :
    (s.modify r f).Lawful I :=
  h.modify_of_kind r hf fun _ => hI

theorem Lawful.markRemoved (hI : Item.Law I) (h : s.Lawful I) (r : ItemRef)
    (source : Option ItemRef) : (s.modify r (·.markRemoved source)).Lawful I :=
  h.modify r (·.ref_markRemoved source) (hI.markRemoved source)

/-- An identity is given out, and the item that has it is put in. -/
theorem Lawful.new (h : s.Lawful I) {item : Item} (hid : item.id = s.nextId) (hI : I item) :
    ({ s with nextId := s.nextId.next }.put item).Lawful I := by
  have hnext : ({ s with nextId := s.nextId.next } : Session).Lawful I :=
    h.congr (fun _ => rfl) (Nat.le_succ _)
  refine hnext.put hI (hid ▸ Nat.lt_succ_self _) fun kind a ha => ?_
  have ha : s.item? ⟨kind, s.nextId⟩ = some a := hid ▸ ha
  exact absurd (h.given ha) (Nat.lt_irrefl _)

/-! ### Edits -/

theorem Lawful.add (hI : Item.Law I) (h : s.Lawful I) {kind : Kind} {given : Record} {id : ItemId}
    (hadd : s.add kind given = .ok (id, s')) : s'.Lawful I := by
  obtain ⟨-, rfl, -⟩ := add_eq_ok hadd
  exact h.new rfl (hI.added _ _ (kind.complete_completed given))

theorem Lawful.update (hI : Item.Law I) (h : s.Lawful I) {r : ItemRef} {changes : Record}
    (hup : s.update r changes = .ok s') : s'.Lawful I := by
  obtain ⟨-, -, -, hknown, -, rfl⟩ := update_eq_ok hup
  exact h.modify_of_kind r (·.ref_edit changes) fun hkind => hI.edit (hkind ▸ hknown)

theorem Lawful.removeAll (hI : Item.Law I) (h : s.Lawful I)
    (todo : List (ItemRef × Option ItemRef)) : (s.removeAll todo).2.Lawful I :=
  removeAll_induction (fun _ r _ source _ ht => ht.markRemoved hI r source) todo h

theorem Lawful.remove (hI : Item.Law I) (h : s.Lawful I) {r : ItemRef} {refs : List ItemRef}
    (hrem : s.remove r = .ok (refs, s')) : s'.Lawful I :=
  remove_induction (fun _ r _ source _ ht => ht.markRemoved hI r source) hrem h

theorem Lawful.restore (hI : Item.Law I) (h : s.Lawful I) {r : ItemRef} {refs : List ItemRef}
    (hres : s.restore r = .ok (refs, s')) : s'.Lawful I :=
  restore_induction (fun _ r _ _ ht => ht.modify r Item.ref_restored hI.restored) hres h

theorem Lawful.rollBack (hI : Item.Law I) (h : s.Lawful I) (hback : s.rollBack = .ok s') :
    s'.Lawful I := by
  have hnext : s'.nextId = s.nextId := by rw [rollBack_eq_ok hback]
  refine h.of_subset (fun kind => ?_) (Nat.le_of_eq (by rw [hnext])) fun r b hb => ?_
  · rw [table_rollBack hback]
    obtain ⟨hlawful, hkind⟩ := (h.table kind).rollBack hI
    exact ⟨hlawful, hkind.trans (h.kind_eq kind)⟩
  · rw [item?_eq, table_rollBack hback] at hb
    obtain ⟨a, ha, -⟩ := Table.get?_of_rollBack hb
    exact ⟨a, by rw [item?_eq]; exact ha⟩

theorem Lawful.reset (h : s.Lawful I) (kinds : List Kind) : (s.reset kinds).Lawful I := by
  refine h.of_subset (fun kind => ?_) (Nat.le_refl _) fun r b hb => ⟨b, item?_reset hb⟩
  rw [table_reset]
  split
  · exact ⟨Table.lawful_empty kind, rfl⟩
  · exact ⟨h.table kind, h.kind_eq kind⟩

/-! ### Taking rows in -/

theorem Lawful.evictReferrers (h : s.Lawful I) (gone : List ItemRef) :
    (s.evictReferrers gone).session.Lawful I :=
  evictReferrers_induction (K := fun w => w.session.Lawful I) h fun w kind hw =>
    List.foldlRecOn (motive := fun s : Session => s.Lawful I) (w.orphans kind) _ hw
      fun _ hs item _ => hs.drop item.ref

theorem Lawful.evict (h : s.Lawful I) (r : ItemRef) : (s.evict r).1.Lawful I := by
  unfold Session.evict
  cases s.item? r with
  | none => exact h
  | some gone =>
    dsimp only
    exact (h.drop r).evictReferrers [r]

/-- Under the names given out, `s'` has no items that `s` does not have, and what was live is so
still. -/
structure Inherits (s s' : Session) : Prop where
  nextId_le : s.nextId.val ≤ s'.nextId.val
  item? : ∀ ⦃r b⦄, s'.item? r = some b → r.id.val < s.nextId.val → ∃ a, s.item? r = some a
  removed : ∀ ⦃r b⦄, s'.item? r = some b → b.removed = true →
    ∃ a, s.item? r = some a ∧ a.removed = true

theorem Inherits.of_subset (hnext : s.nextId.val ≤ s'.nextId.val)
    (h : ∀ ⦃r b⦄, s'.item? r = some b → s.item? r = some b) : s.Inherits s' :=
  ⟨hnext, fun _ b hb _ => ⟨b, h hb⟩, fun _ b hb hrem => ⟨b, h hb, hrem⟩⟩

/-- Putting an item in the place of one, or under a new name, if it is not a live one removed. -/
theorem inherits_put (item : Item) (hnext : s.nextId.val ≤ s'.nextId.val)
    (hs : ∀ r, s'.item? r = s.item? r)
    (hold : s.nextId.val ≤ item.id.val ∨ ∃ a, s.item? item.ref = some a)
    (hlive : item.removed = false ∨ ∃ a, s.item? item.ref = some a ∧ a.removed = true) :
    s.Inherits (s'.put item) := by
  refine ⟨hnext, fun r b hb hlt => ?_, fun r b hb hrem => ?_⟩
  · rw [item?_put, hs] at hb
    split at hb
    next hr =>
      rcases hold with hnew | hold
      · rw [hr] at hlt
        exact absurd hlt (Nat.not_lt_of_le hnew)
      · exact hr ▸ hold
    next => exact ⟨b, hb⟩
  · rw [item?_put, hs] at hb
    split at hb
    next hr =>
      obtain rfl := Option.some.inj hb
      rcases hlive with hlive | hold
      · rw [hlive] at hrem
        cases hrem
      · exact hr ▸ hold
    next => exact ⟨b, hb, hrem⟩

/-- The identity was given out, and no table but that of `kind` has it. -/
def Spares (s : Session) (kind : Kind) (id : ItemId) : Prop :=
  id.val < s.nextId.val ∧ ∀ k x, s.item? ⟨k, id⟩ = some x → k = kind

theorem Spares.inherits {kind : Kind} {id : ItemId} (h : s.Spares kind id) (hin : s.Inherits s') :
    s'.Spares kind id := by
  refine ⟨Nat.lt_of_lt_of_le h.1 hin.nextId_le, fun k x hx => ?_⟩
  obtain ⟨a, ha⟩ := hin.item? hx h.1
  exact h.2 k a ha

theorem Spares.put {item : Item} {id : ItemId} (h : s.Spares item.kind id) :
    (s.put item).Spares item.kind id := by
  refine ⟨h.1, fun k x hx => ?_⟩
  rw [item?_put] at hx
  split at hx
  next hr => exact congrArg ItemRef.kind hr
  next => exact h.2 k x hx

/-- Items of one kind are put in, under identities that no other table has. -/
theorem Lawful.foldl_put {α : Type} {f : Session → α → Session} {l : List α} (kind : Kind)
    (h : s.Lawful I) (hf : ∀ x ∈ l, (∀ s, f s x = s) ∨
      ∃ b : Item, (∀ s, f s x = s.put b) ∧ I b ∧ b.kind = kind ∧ s.Spares kind b.id) :
    (l.foldl f s).Lawful I := by
  induction l generalizing s with
  | nil => exact h
  | cons x l ih =>
    have hrest := fun y hy => hf y (List.mem_cons_of_mem x hy)
    rw [List.foldl_cons]
    rcases hf x (List.mem_cons_self ..) with hsame | ⟨b, hput, hb, rfl, hspares⟩
    · rw [hsame]
      exact ih h hrest
    · rw [hput]
      refine ih (h.put hb hspares.1 hspares.2) fun y hy => (hrest y hy).imp_right ?_
      rintro ⟨b', hput', hb', hk, hspares'⟩
      exact ⟨b', hput', hb', hk, hspares'.put⟩

end Session

namespace Absorption

variable {a a' : Absorption} {kind : Kind}

/-- The session is lawful, and so are the items set aside, with identities that were given out and
that no other table has. -/
structure Lawful (I : Item → Prop) (kind : Kind) (a : Absorption) : Prop where
  session : a.session.Lawful I
  aside : ∀ c ∈ a.conflicts, c.item.kind = kind ∧ I c.item ∧ a.session.Spares kind c.item.id

theorem Lawful.of_inherits (h : a.Lawful I kind) (hs : a'.session.Lawful I)
    (hin : a.session.Inherits a'.session) (hc : a'.conflicts = a.conflicts) : a'.Lawful I kind := by
  refine ⟨hs, fun c hmem => ?_⟩
  obtain ⟨hk, hI, hspares⟩ := h.aside c (hc ▸ hmem)
  exact ⟨hk, hI, hspares.inherits hin⟩

/-- What was said to be a twin of a row is a live item. -/
def TwinsLive (kind : Kind) (s : Session) (f : Finding) : Prop :=
  ∀ id row item, f = .twin id row → s.item? ⟨kind, id⟩ = some item → item.removed = false

/-- Taking in one finding. -/
theorem Lawful.step (hI : Item.Law I) (h : a.Lawful I kind) {f : Finding}
    (hf : TwinsLive kind a.session f) :
    (a.step kind f).Lawful I kind ∧ a.session.Inherits (a.step kind f).session := by
  have hs := h.session
  have hlift : ∀ {a' : Absorption}, a'.session.Lawful I → a.session.Inherits a'.session →
      a'.conflicts = a.conflicts → a'.Lawful I kind ∧ a.session.Inherits a'.session :=
    fun hs' hin hc => ⟨h.of_inherits hs' hin hc, hin⟩
  have hidle : a.session.Inherits a.session := .of_subset (Nat.le_refl _) fun _ _ hb => hb
  cases f with
  | unknown row =>
    exact hlift (hs.new rfl (hI.loaded ..))
      (Session.inherits_put _ (Nat.le_succ _) (fun _ => rfl) (.inl (Nat.le_refl _)) (.inl rfl)) rfl
  | same id => exact hlift hs hidle rfl
  | gone id =>
    exact hlift (hs.evict ⟨kind, id⟩) (.of_subset (hs.housed.follows_evict ⟨kind, id⟩).nextId_le
      fun _ _ hb => Session.item?_of_evict hb) rfl
  | changed id row =>
    unfold Absorption.step
    dsimp only
    split
    next => exact hlift hs hidle rfl
    next item hitem =>
      have href : item.ref = ⟨kind, id⟩ := hs.housed.ref_eq hitem
      refine hlift (hs.replace hitem rfl (hI.adopt row (hs.item hitem)))
        (Session.inherits_put (item.adopt row) (Nat.le_refl _) (fun _ => rfl)
          (.inr ⟨item, href ▸ hitem⟩) ?_) rfl
      cases hrem : item.removed with
      | false => exact .inl hrem
      | true => exact .inr ⟨item, href ▸ hitem, hrem⟩
  | twin id row =>
    unfold Absorption.step
    dsimp only
    split
    next => exact hlift hs hidle rfl
    next item hitem =>
      have href : (item.claim row).ref = ⟨kind, id⟩ := (item.ref_claim row).trans (hs.housed.ref_eq hitem)
      exact hlift (hs.replace hitem (item.ref_claim row)
          (hI.claim row (hs.item hitem) (hf id row item rfl hitem)))
        (Session.inherits_put _ (Nat.le_refl _) (fun _ => rfl) (.inr ⟨item, href ▸ hitem⟩)
          (.inl (item.removed_claim row))) rfl
  | conflict id row d =>
    unfold Absorption.step
    dsimp only
    split
    next => exact hlift hs hidle rfl
    next item hitem =>
      have hin : a.session.Inherits (a.session.drop ⟨kind, id⟩) :=
        .of_subset (hs.housed.follows_drop _).nextId_le fun _ _ hb => Session.item?_of_drop hb
      refine ⟨⟨hs.drop _, fun c hc => ?_⟩, hin⟩
      rcases List.mem_append.1 hc with hc | hc
      · obtain ⟨hk, hIc, hspares⟩ := h.aside c hc
        exact ⟨hk, hIc, hspares.inherits hin⟩
      · obtain rfl := List.mem_singleton.1 hc
        have hid : item.id = id := Session.item_id hitem
        refine ⟨hs.housed.item_kind hitem, hs.item hitem, Session.Spares.inherits ⟨?_, ?_⟩ hin⟩
        · rw [hid]
          exact hs.given hitem
        · intro k x hx
          rw [hid] at hx
          exact hs.one_kind hx hitem

theorem Lawful.foldl (hI : Item.Law I) (h : a.Lawful I kind) {fs : List Finding}
    (hf : ∀ f ∈ fs, TwinsLive kind a.session f) :
    (fs.foldl (Absorption.step kind) a).Lawful I kind := by
  induction fs generalizing a with
  | nil => exact h
  | cons f fs ih =>
    obtain ⟨hstep, hin⟩ := h.step hI (hf f (List.mem_cons_self ..))
    refine ih hstep fun f' hf' id row item htwin hitem => ?_
    cases hrem : item.removed with
    | false => rfl
    | true =>
      obtain ⟨x, hx, hxrem⟩ := hin.removed hitem hrem
      rw [hf f' (List.mem_cons_of_mem _ hf') id row x htwin hx] at hxrem
      cases hxrem

end Absorption

namespace Session

variable {s s' : Session} {kind : Kind}

theorem Lawful.absorb (hI : Item.Law I) (h : s.Lawful I) (kind : Kind) (rows : List Record) :
    (s.absorb kind rows).Lawful I kind := by
  have hmark : (s.markFetched kind).Lawful I := h.congr (table_markFetched s kind) (Nat.le_refl _)
  refine Absorption.Lawful.foldl hI ⟨hmark, fun _ hc => absurd hc List.not_mem_nil⟩ ?_
  rintro f hf id row item rfl hitem
  rw [item?_markFetched, item?_eq] at hitem
  obtain ⟨x, hx, hst⟩ := Table.concerns_of_mem_findings hf
  obtain rfl := Option.some.inj (hitem.symm.trans hx)
  rw [Item.removed, hst]
  rfl

theorem Lawful.settle (hI : Item.Law I) (h : s.Lawful I) {conflicts : List Conflict}
    (haside : ∀ c ∈ conflicts, c.item.kind = kind ∧ I c.item ∧ s.Spares kind c.item.id)
    (answers : List Resolved) : (s.settle conflicts answers).2.Lawful I := by
  cases hfault : contractFault? conflicts answers with
  | some fault =>
    rw [settle_eq_error s hfault]
    refine h.foldl_put kind fun c hc => .inr ⟨c.item, fun _ => rfl, ?_⟩
    obtain ⟨hk, hIc, hspares⟩ := haside c hc
    exact ⟨hIc, hk, hspares⟩
  | none =>
    obtain ⟨ordered, hperm, heq⟩ := Session.exists_settle_eq s hfault
    rw [heq]
    refine Lawful.evictReferrers (h.foldl_put kind fun r hr => ?_) _
    obtain ⟨c, hc, hitem⟩ := item_mem_of_contractFault? hfault r (hperm.mem_iff.1 hr)
    obtain ⟨hk, hIc, hspares⟩ := haside c hc
    simp only [Session.answered_eq]
    cases hb : r.outcome? with
    | none => exact .inl fun _ => rfl
    | some b =>
      have href : b.ref = c.item.ref :=
        (Resolved.ref_outcome? hb).trans (congrArg Item.ref hitem.symm)
      have hid : b.id = c.item.id := congrArg ItemRef.id href
      refine .inr ⟨b, fun _ => rfl, hI.outcome (r := r) (hitem ▸ hIc) hb, ?_, hid ▸ hspares⟩
      exact (congrArg ItemRef.kind href).trans hk

theorem Lawful.reconcile (hI : Item.Law I) (h : s.Lawful I) (kind : Kind) (rows : List Record)
    (answer : List Conflict → List Resolved) : (s.reconcile kind rows answer).2.1.Lawful I := by
  have habsorb := h.absorb hI kind rows
  have hsettle := habsorb.session.settle hI habsorb.aside (answer (s.absorb kind rows).conflicts)
  rcases s.session_reconcile kind rows answer with h | h <;> rw [h]
  · exact habsorb.session
  · exact hsettle

/-! ### Committing -/

theorem Lawful.committed (hI : Item.Law I) (h : s.Lawful I) (pending : List Pending)
    (reserved : List (ItemId × DbId)) (commit : CommitId) :
    (s.committed pending reserved commit).Lawful I := by
  have hwrite : ∀ (refs : List ItemRef) (s : Session), s.Lawful I →
      (refs.foldl (fun s r => s.modify r (writeItem reserved commit r)) s).Lawful I := by
    intro refs
    induction refs with
    | nil => exact fun s h => h
    | cons r refs ih =>
      exact fun s h => ih _ (h.modify r (ref_writeItem reserved commit r) hI.writeItem)
  have hall : ∀ (pending : List Pending) (s : Session), s.Lawful I →
      (pending.foldl (fun s p => (p.updates ++ p.additions).foldl
        (fun s r => s.modify r (writeItem reserved commit r)) s) s).Lawful I := by
    intro pending
    induction pending with
    | nil => exact fun s h => h
    | cons p pending ih => exact fun s h => ih _ (hwrite _ s h)
  have hwritten := hall pending s h
  unfold Session.committed
  refine hwritten.of_subset (fun kind => ?_) (Nat.le_refl _) fun r b hb => ?_
  · rw [table_dropRemoved]
    obtain ⟨hlawful, hkind⟩ := (hwritten.table kind).dropRemoved
    exact ⟨hlawful, hkind.trans (hwritten.kind_eq kind)⟩
  · rw [item?_dropRemoved, Option.filter_eq_some_iff] at hb
    exact ⟨b, hb.1⟩

end Session

/-! ### Commands -/

section Commands

open ConnectionM

variable {σ α : Type}

/-- The session stays lawful. -/
def Connection.KeepsLaw (I : Item → Prop) (c c' : Connection σ) : Prop :=
  c.session.Lawful I → c'.session.Lawful I

theorem chains_keepsLaw : Chains (Connection.KeepsLaw (σ := σ) I) :=
  ⟨fun _ h => h, fun h h' hs => h' (h hs)⟩

/-- A step that makes a call leaves the session alone. -/
theorem leads_call (x : StoreM σ α) : Leads (Connection.KeepsLaw I) (call x) := fun _ h => h

/-- An edit keeps the law if it does so where it is accepted. -/
theorem leads_edit {f : Session → Except Error (α × Session)}
    (h : ∀ {s a s'}, s.Lawful I → f s = .ok (a, s') → s'.Lawful I) :
    Leads (Connection.KeepsLaw (σ := σ) I) (edit f) := by
  intro c hc
  unfold edit
  cases hf : f c.session with
  | error e => exact hc
  | ok p => exact h hc hf

variable [Store σ]

theorem Connection.leads_pull (hI : Item.Law I) (resolver : Resolver) (kind : Kind) :
    Leads (Connection.KeepsLaw (σ := σ) I) (fetchTable resolver kind) :=
  Leads.bind chains_keepsLaw (leads_call _) fun rows c hc =>
    hc.reconcile hI kind rows (resolver c.passes)

theorem Connection.leads_renewal (hI : Item.Law I) (resolver : Resolver) :
    Leads (Connection.KeepsLaw (σ := σ) I) (refresh resolver) :=
  leads_refresh chains_keepsLaw (leads_call _) (leads_pull hI resolver) fun _ _ hc =>
    hc.congr (fun _ => rfl) (Nat.le_refl _)

theorem Connection.leads_writePending (hI : Item.Law I) (comment : String) :
    Leads (Connection.KeepsLaw (σ := σ) I) (writePending comment) := by
  intro c
  rcases writePending_split chains_keepsLaw (fun _ _ => leads_call _) comment c with
    ⟨-, -, hc⟩ | ⟨info, batch, reserved, mid, hmid, ⟨e, -, hrun⟩ | ⟨id, -, hrun⟩⟩
  · exact hc
  · rw [hrun]
    exact hmid
  · rw [hrun]
    exact fun hc => hc.committed hI c.session.pending reserved id

/-- Whatever the store shows and the resolver answers, a session stays lawful. -/
theorem Command.lawful_run (hI : Item.Law I) (command : Command) {c : Connection σ}
    (hc : c.session.Lawful I) : (command.run c).2.session.Lawful I := by
  have hleads : Leads (Connection.KeepsLaw (σ := σ) I) command.run := by
    cases command with
    | add kind fields => exact (leads_edit fun hs h => hs.add hI h).map _
    | update r changes => exact leads_edit fun hs h => hs.update hI (Session.eq_ok_of_done h)
    | remove r => exact (leads_edit fun hs h => hs.remove hI h).map _
    | restore r => exact (leads_edit fun hs h => hs.restore hI h).map _
    | fetch kind resolver =>
      exact (leads_of_eq chains_keepsLaw fun _ => rfl).bind chains_keepsLaw fun s =>
        (Connection.leads_fetch chains_keepsLaw (Connection.leads_pull hI _) kind).map _
    | refresh resolver =>
      exact (leads_of_eq chains_keepsLaw fun _ => rfl).bind chains_keepsLaw fun s =>
        (Connection.leads_renewal hI _).map _
    | commit comment =>
      exact (Connection.leads_commit chains_keepsLaw
        (Connection.leads_refreshIfStale chains_keepsLaw (leads_call _)
          (Connection.leads_renewal hI)) (Connection.leads_writePending hI comment)).map _
    | rollBack => exact leads_edit fun hs h => hs.rollBack hI (Session.eq_ok_of_done h)
    | reset kinds =>
      refine leads_edit fun hs h => ?_
      cases h
      exact hs.reset kinds
    | hasExternalCommits =>
      exact (Connection.leads_hasExternalCommits chains_keepsLaw (leads_call _)).map _
  exact hleads c hc

end Commands

/-- In every workspace all sessions are lawful. -/
theorem Workspace.Attained.lawful {σ : Type} [Store σ] (hI : Item.Law I) {w : Workspace σ}
    {name : String} {s : Session} (hw : w.Attained) (hs : w.session? name = some s) :
    s.Lawful I :=
  hw.session Session.lawful_new (fun command _ hc => command.lawful_run hI hc) hs

/-! ### Items without traces of a removal -/

namespace Item

variable {a b : Item}

/-- The item remembers neither a status before a removal nor what it was removed for. -/
def Unmarked (item : Item) : Prop := item.statusWhenRemoved = none ∧ item.removalSource = none

/-- The identity fields are those of the row, and a live item does not remember any removal. -/
structure Tidy (item : Item) : Prop where
  consistent : item.Consistent
  unmarked : item.removed = false → item.Unmarked

/-- What was removed of an item is said in the same fields. -/
def SameMarks (a b : Item) : Prop :=
  b.removed = a.removed ∧ b.statusWhenRemoved = a.statusWhenRemoved ∧
    b.removalSource = a.removalSource

theorem Tidy.of_sameMarks (h : a.Tidy) (hcons : b.Consistent) (hsame : a.SameMarks b) : b.Tidy := by
  refine ⟨hcons, fun hlive => ?_⟩
  obtain ⟨hstatus, hsource⟩ := h.unmarked (hsame.1 ▸ hlive)
  exact ⟨hsame.2.1.trans hstatus, hsame.2.2.trans hsource⟩

theorem sameMarks_edit (item : Item) (changes : Record) : item.SameMarks (item.edit changes) := by
  refine ⟨item.removed_edit changes, ?_⟩
  unfold edit
  split
  · dsimp only
    split <;> split <;> exact ⟨rfl, rfl⟩
  · exact ⟨rfl, rfl⟩

theorem unmarked_restored (h : a.removed = false → a.Unmarked) : a.restored.Unmarked := by
  cases hrem : a.removed with
  | false =>
    rw [restored_of_live hrem]
    exact h hrem
  | true =>
    rw [restored, if_pos hrem]
    exact ⟨rfl, rfl⟩

theorem unmarked_keptAgainst (h : a.removed = false → a.Unmarked) (row : Option Record)
    (hlive : (a.keptAgainst row).removed = false) : (a.keptAgainst row).Unmarked := by
  have hmarks : (a.keptAgainst row).statusWhenRemoved = a.statusWhenRemoved ∧
      (a.keptAgainst row).removalSource = a.removalSource := by
    unfold keptAgainst
    dsimp only
    cases row <;> dsimp only <;> split <;> split <;> exact ⟨rfl, rfl⟩
  rw [removed_keptAgainst] at hlive
  exact ⟨hmarks.1.trans (h hlive).1, hmarks.2.trans (h hlive).2⟩

theorem unmarked_backToRow (h : a.Unmarked) : a.backToRow.Unmarked := by
  unfold backToRow
  split
  · unfold reverted
    split <;> exact h
  · exact h
  · exact h

theorem law_tidy : Law Tidy where
  added id kind content _ := ⟨consistent_added id kind content, fun _ => ⟨rfl, rfl⟩⟩
  loaded id kind row := ⟨(takes_loaded id kind row).consistent, fun _ => ⟨rfl, rfl⟩⟩
  edit {a changes} _ h := h.of_sameMarks (edited_edit h.consistent changes).consistent
    (a.sameMarks_edit changes)
  markRemoved {a} source h := by
    refine ⟨(edited_markRemoved h.consistent source).consistent, fun hlive => ?_⟩
    rw [removed_markRemoved] at hlive
    cases hlive
  restored h := ⟨(edited_restored h.consistent).consistent, fun _ => unmarked_restored h.unmarked⟩
  adopt {a} row h := h.of_sameMarks (takes_adopt h.consistent row).consistent ⟨rfl, rfl, rfl⟩
  claim {a} row h hlive := by
    refine ⟨(takes_claim a row).consistent, fun _ => ?_⟩
    unfold Item.claim
    dsimp only
    split <;> exact h.unmarked hlive
  outcome {r b} h hb := by
    refine ⟨(r.takes_outcome? h.consistent hb).consistent, fun hlive => ?_⟩
    rcases Resolved.outcome?_eq_some hb with
      ⟨-, row, -, ⟨-, rfl⟩ | ⟨-, rfl⟩⟩ | ⟨-, kept, rfl, ⟨-, rfl⟩ | ⟨hwas, rfl | rfl⟩⟩
    · unfold resurrectedBy
      dsimp only
      split <;> exact unmarked_restored h.unmarked
    · exact unmarked_restored h.unmarked
    · exact unmarked_keptAgainst (a := r.item.withStatus .toRemove)
        (fun hlive => Bool.noConfusion hlive) r.row hlive
    · exact unmarked_keptAgainst h.unmarked r.row hlive
    · exact unmarked_keptAgainst (a := r.item.withStatus .toUpdate) (fun _ => h.unmarked hwas) r.row
        hlive
  written {a} d commit h := ⟨(takes_written a d commit).consistent, fun _ => ⟨rfl, rfl⟩⟩
  rolledBack {a b} h hb := by
    obtain ⟨hedited, -⟩ := edited_rolledBack h.consistent hb
    refine ⟨hedited.consistent, fun hlive => ?_⟩
    have hback := unmarked_backToRow (unmarked_restored h.unmarked)
    unfold rolledBack? at hb
    split at hb
    · cases hb
    · cases hb
    · obtain rfl := Option.some.inj hb
      split
      next => exact hback
      next hrem => exact h.unmarked (Bool.eq_false_iff.2 hrem)
    · exact Option.some.inj hb ▸ hback

end Item

theorem Session.Lawful.tidy {s : Session} (h : s.Lawful Item.Tidy) : s.Coherent :=
  h.coherent fun hI => hI.consistent

end StagedEdits
