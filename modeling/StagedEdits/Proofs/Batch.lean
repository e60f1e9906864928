import StagedEdits.Proofs.Reservation
import StagedEdits.Proofs.Rows

/-!
# The batch of a commit

In a well formed session the changes of a batch are about different rows: the rows of items to
update or to remove, and new rows for items to add (`Session.nodup_targets`).  Hence the database
after the batch is known row by row (`Session.Writes`).
-/

namespace StagedEdits

theorem mapM_forall₂ {α β : Type} {f : α → Except Error β} {l : List α} {r : List β}
    (h : l.mapM f = .ok r) : List.Forall₂ (fun a b => f a = .ok b) l r := by
  induction l generalizing r with
  | nil =>
    rw [List.mapM_nil] at h
    cases h
    exact .nil
  | cons a l ih =>
    rw [List.mapM_cons] at h
    obtain ⟨b, hb, h⟩ := bind_eq_ok_iff.1 h
    obtain ⟨bs, hbs, h⟩ := bind_eq_ok_iff.1 h
    cases h
    exact .cons hb (ih hbs)

theorem exists_mapM_eq_ok {α β : Type} {f : α → Except Error β} {l : List α}
    (h : ∀ a ∈ l, ∃ b, f a = .ok b) : ∃ r, l.mapM f = .ok r := by
  induction l with
  | nil => exact ⟨[], rfl⟩
  | cons a l ih =>
    obtain ⟨b, hb⟩ := h a (List.mem_cons_self ..)
    obtain ⟨r, hr⟩ := ih fun a ha => h a (List.mem_cons_of_mem _ ha)
    refine ⟨b :: r, ?_⟩
    rw [List.mapM_cons]
    exact bind_eq_ok_iff.2 ⟨b, hb, bind_eq_ok_iff.2 ⟨r, hr, rfl⟩⟩

theorem forall₂_exists_of_mem_left {α β : Type} {R : α → β → Prop} {l : List α} {r : List β}
    (h : List.Forall₂ R l r) {a : α} (ha : a ∈ l) : ∃ b ∈ r, R a b := by
  induction h with
  | nil => exact absurd ha List.not_mem_nil
  | cons hab _ ih =>
    rcases List.mem_cons.1 ha with rfl | ha
    · exact ⟨_, List.mem_cons_self .., hab⟩
    · obtain ⟨b, hb, hr⟩ := ih ha
      exact ⟨b, List.mem_cons_of_mem _ hb, hr⟩

theorem forall₂_exists_of_mem_right {α β : Type} {R : α → β → Prop} {l : List α} {r : List β}
    (h : List.Forall₂ R l r) {b : β} (hb : b ∈ r) : ∃ a ∈ l, R a b := by
  induction h with
  | nil => exact absurd hb List.not_mem_nil
  | cons hab _ ih =>
    rcases List.mem_cons.1 hb with rfl | hb
    · exact ⟨_, List.mem_cons_self .., hab⟩
    · obtain ⟨a, ha, hr⟩ := ih hb
      exact ⟨a, List.mem_cons_of_mem _ ha, hr⟩

theorem forall₂_filterMap_eq {α β γ : Type} {R : α → β → Prop} {l : List α} {r : List β}
    {f : α → Option γ} {g : β → Option γ} (h : List.Forall₂ R l r)
    (hfg : ∀ a ∈ l, ∀ b, R a b → g b = f a) : r.filterMap g = l.filterMap f := by
  induction h with
  | nil => rfl
  | cons hab _ ih =>
    rw [List.filterMap_cons, List.filterMap_cons, hfg _ (List.mem_cons_self ..) _ hab,
      ih fun a ha b => hfg a (List.mem_cons_of_mem _ ha) b]

/-- Whether a commit has something to do about an item of this status. -/
def Status.isPending : Status → Bool
  | toAdd => true
  | toUpdate => true
  | toRemove => true
  | _ => false

theorem Item.status_of_pending {item : Item} (h : item.status.isPending = true) :
    item.status = .toAdd ∨ item.status = .toUpdate ∨ item.status = .toRemove := by
  revert h
  cases item.status <;> simp [Status.isPending]

namespace Session

variable {s : Session} {db db₁ : Database} {reserved : List (ItemId × DbId)}

/-- No row of an item has an identity that was not given out yet. -/
def Bounded (s : Session) (db : Database) : Prop :=
  ∀ ⦃r item d⦄, s.item? r = some item → item.dbId = some d → d.val ≤ db.lastId r.kind

/-- The row that a pending item is written to, or deleted from. -/
def goal? (s : Session) (reserved : List (ItemId × DbId)) (r : ItemRef) : Option DbId :=
  (s.item? r).bind fun item => if item.status = .toAdd then reserved.lookup r.id else item.dbId

theorem goal?_of_added {r : ItemRef} {item : Item} (hitem : s.item? r = some item)
    (hst : item.status = .toAdd) : s.goal? reserved r = reserved.lookup r.id := by
  rw [goal?, hitem, Option.bind_some, if_pos hst]

theorem goal?_of_not_added {r : ItemRef} {item : Item} (hitem : s.item? r = some item)
    (hst : item.status ≠ .toAdd) : s.goal? reserved r = item.dbId := by
  rw [goal?, hitem, Option.bind_some, if_neg hst]

/-- No item has the row that another one is written to. -/
theorem eq_of_goal? (hs : s.WellFormed) (hb : s.Bounded db) (hres : s.Reserves db reserved db₁)
    {kind : Kind} {i j : ItemId} {b : Item} {d : DbId} (hi : s.goal? reserved ⟨kind, i⟩ = some d)
    (hj : s.item? ⟨kind, j⟩ = some b) (hd : b.dbId = some d) : i = j := by
  obtain ⟨a, ha, hgoal⟩ := Option.bind_eq_some_iff.1 hi
  split at hgoal
  next hst =>
    obtain ⟨kind', item, hitem, -, hlt, -⟩ := hres.given hgoal
    obtain rfl := hs.one_kind hitem ha
    have hle : d.val ≤ db.lastId kind' := hb hj hd
    omega
  next => exact hs.dbId_injective ha hj hgoal hd

/-- Different items are written to different rows. -/
theorem goal?_injective (hs : s.WellFormed) (hb : s.Bounded db)
    (hres : s.Reserves db reserved db₁) {kind : Kind} {i j : ItemId} {d : DbId}
    (hi : s.goal? reserved ⟨kind, i⟩ = some d) (hj : s.goal? reserved ⟨kind, j⟩ = some d) :
    i = j := by
  obtain ⟨b, hjb, hgoal⟩ := Option.bind_eq_some_iff.1 hj
  split at hgoal
  next hst =>
    obtain ⟨a, hia, hgoal'⟩ := Option.bind_eq_some_iff.1 hi
    split at hgoal'
    next hst' => exact hres.injective hia hjb hgoal' hgoal
    next => exact (eq_of_goal? hs hb hres hj hia hgoal').symm
  next => exact eq_of_goal? hs hb hres hi hjb hgoal

/-- Only items to add have an identity reserved. -/
theorem lookup_eq_none (hs : s.Coherent) (hres : s.Reserves db reserved db₁) {r : ItemRef}
    {item : Item} (hitem : s.item? r = some item) (hst : item.status ≠ .toAdd) :
    reserved.lookup r.id = none := by
  cases hl : reserved.lookup r.id with
  | none => rfl
  | some d =>
    obtain ⟨kind, a, ha, hadd, -⟩ := hres.given hl
    obtain rfl := hs.one_kind ha hitem
    have heq := ha.symm.trans hitem
    rw [Option.some.injEq] at heq
    exact absurd (heq ▸ hadd) hst

/-- An identity that was reserved for an item is that of no row. -/
theorem Reserves.row?_eq_none (hres : s.Reserves db reserved db₁) (hs : s.Coherent) (hdb : db.Sound)
    {r : ItemRef} {item : Item} {d : DbId} (hitem : s.item? r = some item)
    (hl : reserved.lookup r.id = some d) : db.row? r.kind d = none := by
  obtain ⟨kind, a, ha, -, hlt, -⟩ := hres.given hl
  obtain rfl := hs.one_kind ha hitem
  cases hr : db.row? r.kind d with
  | none => rfl
  | some row =>
    have hle := hdb.id_le hr
    omega

/-! ### The changes of a batch -/

theorem dbId?_insert_id (row : Record) (d : DbId) :
    Record.dbId? (row.insert Record.idField (.integer d.val)) = some d := by
  unfold Record.dbId?
  rw [SortedMap.get?_insert, if_pos rfl]
  rfl

theorem dbId?_storedRow {item : Item} {d : DbId} {row : Record}
    (h : s.storedRow reserved item d = .ok row) : row.dbId? = some d := by
  obtain ⟨row', -, rfl⟩ := storedRow_eq_ok_iff.1 h
  exact dbId?_insert_id row' d

theorem updateOf_eq_ok {r : ItemRef} {m : Mutation} (h : s.updateOf reserved r = .ok m) :
    ∃ item d row, s.item? r = some item ∧ item.dbId = some d ∧
      s.storedRow reserved item d = .ok row ∧ m = .update r.kind row := by
  unfold updateOf at h
  split at h
  next => cases h
  next item hitem =>
    split at h
    next => cases h
    next d hd =>
      obtain ⟨row, hrow, h⟩ := bind_eq_ok_iff.1 h
      cases h
      exact ⟨item, d, row, hitem, hd, hrow, rfl⟩

theorem insertionOf_eq_ok {r : ItemRef} {d : DbId} {m : Mutation}
    (h : s.insertionOf reserved r d = .ok m) : ∃ item row, s.item? r = some item ∧
      s.storedRow reserved item d = .ok row ∧ m = .insert r.kind row := by
  unfold insertionOf at h
  split at h
  next => cases h
  next item hitem =>
    obtain ⟨row, hrow, h⟩ := bind_eq_ok_iff.1 h
    cases h
    exact ⟨item, row, hitem, hrow, rfl⟩

/-- A batch in its three parts. -/
theorem batch_eq_ok {pending : List Pending} {batch : List Mutation}
    (h : s.batch pending reserved = .ok batch) :
    ∃ updates insertions,
      List.Forall₂ (fun r m => s.updateOf reserved r = .ok m) (pending.flatMap Pending.updates)
        updates ∧
      List.Forall₂ (fun (x : ItemRef × DbId) m => s.insertionOf reserved x.1 x.2 = .ok m)
        ((pending.flatMap Pending.additions).filterMap fun r =>
          (reserved.lookup r.id).map (r, ·)) insertions ∧
      batch = (pending.reverse.flatMap Pending.removals).filterMap s.deletion? ++ updates ++
        insertions := by
  unfold Session.batch at h
  obtain ⟨updates, hup, h⟩ := bind_eq_ok_iff.1 h
  obtain ⟨insertions, hins, h⟩ := bind_eq_ok_iff.1 h
  cases h
  exact ⟨updates, insertions, mapM_forall₂ hup, mapM_forall₂ hins, rfl⟩

/-- The row that a reference stands for in a batch, with its kind. -/
def target? (s : Session) (reserved : List (ItemId × DbId)) (r : ItemRef) : Option (Kind × DbId) :=
  (s.goal? reserved r).map (r.kind, ·)

/-- The items that a batch is about. -/
def batchRefs (s : Session) : List ItemRef :=
  s.pending.reverse.flatMap Pending.removals ++ s.pending.flatMap Pending.updates ++
    s.pending.flatMap Pending.additions

theorem mem_reverse_removals_iff (hs : s.Coherent) {r : ItemRef} :
    r ∈ s.pending.reverse.flatMap Pending.removals ↔
      ∃ item, s.item? r = some item ∧ item.status = .toRemove ∧ item.dbId.isSome = true := by
  rw [← mem_removals_iff hs, List.mem_flatMap, List.mem_flatMap]
  simp only [List.mem_reverse]

/-- A batch is about pending items. -/
theorem isPending_of_mem_batchRefs (hs : s.Coherent) {r : ItemRef} (hr : r ∈ s.batchRefs) :
    ∃ item, s.item? r = some item ∧ item.status.isPending = true := by
  unfold batchRefs at hr
  rcases List.mem_append.1 hr with hr | hr
  · rcases List.mem_append.1 hr with hr | hr
    · obtain ⟨item, hitem, hst, -⟩ := (mem_reverse_removals_iff hs).1 hr
      exact ⟨item, hitem, by rw [hst]; rfl⟩
    · obtain ⟨item, hitem, hst⟩ := (mem_updates_iff hs).1 hr
      exact ⟨item, hitem, by rw [hst]; rfl⟩
  · obtain ⟨item, hitem, hst⟩ := (mem_additions_iff hs).1 hr
    exact ⟨item, hitem, by rw [hst]; rfl⟩

theorem nodup_batchRefs (hs : s.Coherent) : s.batchRefs.Nodup := by
  have hk := nodup_pending_kinds hs
  have hkr : (s.pending.reverse.map Pending.kind).Nodup := by
    rw [List.map_reverse]
    exact List.nodup_reverse.2 hk
  have hp : ∀ {p}, p ∈ s.pending → p = (s.table p.kind).pending := fun hp => ((mem_pending hs).1 hp).1
  have hremove : (s.pending.reverse.flatMap Pending.removals).Nodup :=
    nodup_flatMap_pending hkr fun q hq => by
      rw [hp (List.mem_reverse.1 hq)]; exact Table.nodup_map_id ..
  have hupdate : (s.pending.flatMap Pending.updates).Nodup :=
    nodup_flatMap_pending hk fun q hq => by rw [hp hq]; exact Table.nodup_map_id ..
  have hadd : (s.pending.flatMap Pending.additions).Nodup :=
    nodup_flatMap_pending hk fun q hq => by rw [hp hq]; exact Table.nodup_map_id ..
  have hdisjoint : ∀ {r : ItemRef} {a b : Item}, s.item? r = some a → s.item? r = some b →
      a.status = b.status := by
    intro r a b ha hb
    rw [Option.some.inj (ha.symm.trans hb)]
  unfold batchRefs
  rw [List.nodup_append, List.nodup_append]
  refine ⟨⟨hremove, hupdate, ?_⟩, hadd, ?_⟩
  · rintro r hr _ hr' rfl
    obtain ⟨a, ha, hst, -⟩ := (mem_reverse_removals_iff hs).1 hr
    obtain ⟨b, hb, hst'⟩ := (mem_updates_iff hs).1 hr'
    have heq := hdisjoint ha hb
    rw [hst, hst'] at heq
    cases heq
  · rintro r hr _ hr' rfl
    obtain ⟨b, hb, hst'⟩ := (mem_additions_iff hs).1 hr'
    rcases List.mem_append.1 hr with hr | hr
    · obtain ⟨a, ha, hst, -⟩ := (mem_reverse_removals_iff hs).1 hr
      have heq := hdisjoint ha hb
      rw [hst, hst'] at heq
      cases heq
    · obtain ⟨a, ha, hst⟩ := (mem_updates_iff hs).1 hr
      have heq := hdisjoint ha hb
      rw [hst, hst'] at heq
      cases heq

theorem target?_of_not_added {r : ItemRef} {item : Item} (hitem : s.item? r = some item)
    (hst : item.status ≠ .toAdd) : s.target? reserved r = item.dbId.map (r.kind, ·) := by
  unfold target? goal?
  rw [hitem, Option.bind_some, if_neg hst]

theorem target?_of_added {r : ItemRef} {item : Item} (hitem : s.item? r = some item)
    (hst : item.status = .toAdd) :
    s.target? reserved r = (reserved.lookup r.id).map (r.kind, ·) := by
  unfold target? goal?
  rw [hitem, Option.bind_some, if_pos hst]

/-- The rows that a batch is about are those of the pending items. -/
theorem targets_batch (hs : s.Coherent) {batch : List Mutation}
    (h : s.batch s.pending reserved = .ok batch) :
    batch.filterMap Mutation.target? = s.batchRefs.filterMap (s.target? reserved) := by
  obtain ⟨updates, insertions, hup, hins, rfl⟩ := batch_eq_ok h
  have hdeletions : ((s.pending.reverse.flatMap Pending.removals).filterMap s.deletion?).filterMap
      Mutation.target? =
      (s.pending.reverse.flatMap Pending.removals).filterMap (s.target? reserved) := by
    rw [List.filterMap_filterMap]
    refine List.filterMap_congr fun r hr => ?_
    obtain ⟨item, hitem, hst, -⟩ := (mem_reverse_removals_iff hs).1 hr
    rw [target?_of_not_added hitem (by rw [hst]; decide)]
    unfold deletion?
    rw [hitem, Option.bind_some]
    cases item.dbId <;> rfl
  have hupdates : updates.filterMap Mutation.target? =
      (s.pending.flatMap Pending.updates).filterMap (s.target? reserved) := by
    refine forall₂_filterMap_eq hup fun r hr m hm => ?_
    obtain ⟨item', hitem', hst⟩ := (mem_updates_iff hs).1 hr
    obtain ⟨item, d, row, hitem, hd, hrow, rfl⟩ := updateOf_eq_ok hm
    obtain rfl := Option.some.inj (hitem'.symm.trans hitem)
    rw [target?_of_not_added hitem (by rw [hst]; decide), hd]
    unfold Mutation.target?
    dsimp only
    rw [dbId?_storedRow hrow]
  have hinsertions : insertions.filterMap Mutation.target? =
      (s.pending.flatMap Pending.additions).filterMap (s.target? reserved) := by
    rw [forall₂_filterMap_eq (f := fun x : ItemRef × DbId => some (x.1.kind, x.2)) hins
      (fun x _ m hm => ?_), List.filterMap_filterMap]
    · refine List.filterMap_congr fun r hr => ?_
      obtain ⟨item, hitem, hst⟩ := (mem_additions_iff hs).1 hr
      rw [target?_of_added hitem hst]
      cases reserved.lookup r.id <;> rfl
    · obtain ⟨item, row, -, hrow, rfl⟩ := insertionOf_eq_ok hm
      unfold Mutation.target?
      dsimp only
      rw [dbId?_storedRow hrow]
      rfl
  unfold batchRefs
  rw [List.filterMap_append, List.filterMap_append, List.filterMap_append, List.filterMap_append,
    hdeletions, hupdates, hinsertions]

/-- The changes of a batch are about different rows. -/
theorem nodup_targets (hs : s.WellFormed) (hb : s.Bounded db) (hres : s.Reserves db reserved db₁)
    {batch : List Mutation} (h : s.batch s.pending reserved = .ok batch) :
    (batch.filterMap Mutation.target?).Nodup := by
  rw [targets_batch hs.toCoherent h]
  refine (nodup_batchRefs hs.toCoherent).filterMap ?_
  rintro ⟨kind, i⟩ ⟨kind', j⟩ ⟨k, d⟩ hi hj
  obtain ⟨d₁, hd₁, he₁⟩ := Option.map_eq_some_iff.1 hi
  obtain ⟨d₂, hd₂, he₂⟩ := Option.map_eq_some_iff.1 hj
  cases he₁
  cases he₂
  rw [goal?_injective hs hb hres hd₁ hd₂]

section Members

variable {batch : List Mutation} {r : ItemRef} {item : Item}

theorem insert_mem_batch (hs : s.Coherent) (h : s.batch s.pending reserved = .ok batch)
    (hitem : s.item? r = some item) (hst : item.status = .toAdd) {d : DbId}
    (hd : reserved.lookup r.id = some d) :
    ∃ row, s.storedRow reserved item d = .ok row ∧ Mutation.insert r.kind row ∈ batch := by
  obtain ⟨updates, insertions, -, hins, rfl⟩ := batch_eq_ok h
  have hmem : (r, d) ∈ (s.pending.flatMap Pending.additions).filterMap fun r =>
      (reserved.lookup r.id).map (r, ·) :=
    List.mem_filterMap.2 ⟨r, (mem_additions_iff hs).2 ⟨item, hitem, hst⟩, by rw [hd]; rfl⟩
  obtain ⟨m, hm, hmr⟩ := forall₂_exists_of_mem_left hins hmem
  obtain ⟨item', row, hitem', hstored, rfl⟩ := insertionOf_eq_ok hmr
  obtain rfl := Option.some.inj (hitem.symm.trans hitem')
  exact ⟨row, hstored, List.mem_append_right _ hm⟩

theorem update_mem_batch (hs : s.Coherent) (h : s.batch s.pending reserved = .ok batch)
    (hitem : s.item? r = some item) (hst : item.status = .toUpdate) :
    ∃ d row, item.dbId = some d ∧ s.storedRow reserved item d = .ok row ∧
      Mutation.update r.kind row ∈ batch := by
  obtain ⟨updates, insertions, hup, -, rfl⟩ := batch_eq_ok h
  obtain ⟨m, hm, hmr⟩ := forall₂_exists_of_mem_left hup ((mem_updates_iff hs).2 ⟨item, hitem, hst⟩)
  obtain ⟨item', d, row, hitem', hd, hstored, rfl⟩ := updateOf_eq_ok hmr
  obtain rfl := Option.some.inj (hitem.symm.trans hitem')
  exact ⟨d, row, hd, hstored, List.mem_append_left _ (List.mem_append_right _ hm)⟩

theorem delete_mem_batch (hs : s.Coherent) (h : s.batch s.pending reserved = .ok batch)
    (hitem : s.item? r = some item) (hst : item.status = .toRemove) {d : DbId}
    (hd : item.dbId = some d) : Mutation.delete r.kind d ∈ batch := by
  obtain ⟨updates, insertions, -, -, rfl⟩ := batch_eq_ok h
  have hdel : s.deletion? r = some (.delete r.kind d) := by
    unfold deletion?
    rw [hitem, Option.bind_some, hd]
    rfl
  refine List.mem_append_left _ (List.mem_append_left _ (List.mem_filterMap.2 ⟨r, ?_, hdel⟩))
  exact (mem_reverse_removals_iff hs).2 ⟨item, hitem, hst, by rw [hd]; rfl⟩

/-- What the changes of a batch can be. -/
theorem mem_batch_cases (h : s.batch s.pending reserved = .ok batch) {m : Mutation}
    (hm : m ∈ batch) : (∃ kind d, m = .delete kind d) ∨
      (∃ r item d row, s.item? r = some item ∧ item.dbId = some d ∧
        s.storedRow reserved item d = .ok row ∧ m = .update r.kind row) ∨
      ∃ r item d row, s.item? r = some item ∧ reserved.lookup r.id = some d ∧
        s.storedRow reserved item d = .ok row ∧ m = .insert r.kind row := by
  obtain ⟨updates, insertions, hup, hins, rfl⟩ := batch_eq_ok h
  rcases List.mem_append.1 hm with hm | hm
  · rcases List.mem_append.1 hm with hm | hm
    · obtain ⟨r, -, hdel⟩ := List.mem_filterMap.1 hm
      obtain ⟨d, -, rfl⟩ := Option.map_eq_some_iff.1 hdel
      exact .inl ⟨r.kind, d, rfl⟩
    · obtain ⟨r, -, hr⟩ := forall₂_exists_of_mem_right hup hm
      obtain ⟨item, d, row, hrest⟩ := updateOf_eq_ok hr
      exact .inr (.inl ⟨r, item, d, row, hrest⟩)
  · obtain ⟨⟨r, d⟩, hmem, hr⟩ := forall₂_exists_of_mem_right hins hm
    obtain ⟨r', -, hpair⟩ := List.mem_filterMap.1 hmem
    obtain ⟨d', hl, heq⟩ := Option.map_eq_some_iff.1 hpair
    cases heq
    obtain ⟨item, row, hi, hstored, rfl⟩ := insertionOf_eq_ok hr
    exact .inr (.inr ⟨r, item, d, row, hi, hl, hstored, rfl⟩)

end Members

/-! ### The database after a batch -/

/-- Database `db'` is `db` after the pending items of a session were written by a commit. -/
structure Writes (s : Session) (reserved : List (ItemId × DbId)) (db : Database)
    (commit : CommitId) (db' : Database) : Prop where
  written : ∀ ⦃r item⦄, s.item? r = some item → item.status = .toAdd ∨ item.status = .toUpdate →
    ∃ d row, s.goal? reserved r = some d ∧ s.storedRow reserved item d = .ok row ∧
      db'.row? r.kind d = some (row.insert Record.commitField (.integer commit.val))
  deleted : ∀ ⦃r item d⦄, s.item? r = some item → item.status = .toRemove →
    item.dbId = some d → db'.row? r.kind d = none
  kept : ∀ ⦃kind d⦄, (∀ r item, s.item? r = some item → r.kind = kind →
    item.status.isPending = true → s.goal? reserved r ≠ some d) → db'.row? kind d = db.row? kind d
  fresh : ∀ ⦃r item d⦄, s.item? r = some item → item.status = .toAdd →
    s.goal? reserved r = some d → db.row? r.kind d = none

theorem writes_of_applies (hs : s.WellFormed) (hb : s.Bounded db) (hdb : db.Sound)
    (hres : s.Reserves db reserved db₁) {batch : List Mutation}
    (h : s.batch s.pending reserved = .ok batch) {commit : CommitId} {db' : Database}
    (ha : db₁.Applies batch commit db') : s.Writes reserved db commit db' := by
  have hn := nodup_targets hs hb hres h
  constructor
  case written =>
    rintro r item hitem (hst | hst)
    · obtain ⟨d, hd⟩ := hres.covers hitem hst
      obtain ⟨row, hstored, hmem⟩ := insert_mem_batch hs.toCoherent h hitem hst hd
      refine ⟨d, row, (goal?_of_added hitem hst).trans hd, hstored, ?_⟩
      refine ha.row?_of_mem hn (.insert r.kind row) hmem ?_
      exact congrArg (Option.map (r.kind, ·)) (dbId?_storedRow hstored)
    · obtain ⟨d, row, hd, hstored, hmem⟩ := update_mem_batch hs.toCoherent h hitem hst
      refine ⟨d, row, (goal?_of_not_added hitem (by rw [hst]; decide)).trans hd, hstored, ?_⟩
      refine ha.row?_of_mem hn (.update r.kind row) hmem ?_
      exact congrArg (Option.map (r.kind, ·)) (dbId?_storedRow hstored)
  case deleted =>
    intro r item d hitem hst hd
    exact ha.row?_of_mem hn (.delete r.kind d) (delete_mem_batch hs.toCoherent h hitem hst hd) rfl
  case kept =>
    intro kind d hno
    rw [← hres.row?_eq]
    refine ha.row?_of_not_mem fun hmem => ?_
    rw [targets_batch hs.toCoherent h] at hmem
    obtain ⟨r, hr, htarget⟩ := List.mem_filterMap.1 hmem
    obtain ⟨d', hgoal, he⟩ := Option.map_eq_some_iff.1 htarget
    cases he
    obtain ⟨item, hitem, hpending⟩ := isPending_of_mem_batchRefs hs.toCoherent hr
    exact hno r item hitem rfl hpending hgoal
  case fresh =>
    intro r item d hitem hst hgoal
    rw [goal?_of_added hitem hst] at hgoal
    exact hres.row?_eq_none hs.toCoherent hdb hitem hgoal

end Session

end StagedEdits
