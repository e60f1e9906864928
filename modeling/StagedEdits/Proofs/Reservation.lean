import Mathlib.Algebra.Group.Int.Defs
import StagedEdits.Connection
import StagedEdits.Proofs.Database
import StagedEdits.Proofs.Session

/-!
# Pending items and the identities reserved for them

Every pending item is listed once (`Session.mem_additions_iff` and its like).  As long as no table
runs out of identities, each item to add gets one that was given out to nobody before
(`Session.Reserves`).
-/

namespace StagedEdits

/-! ### Pending items -/

namespace Table

variable {t : Table}

theorem mem_pending_toAdd {id : ItemId} :
    id ∈ t.pending.toAdd ↔ ∃ item, t.get? id = some item ∧ item.status = .toAdd := by
  unfold pending
  simp only [mem_map_id, decide_eq_true_eq]

theorem mem_pending_toUpdate {id : ItemId} :
    id ∈ t.pending.toUpdate ↔ ∃ item, t.get? id = some item ∧ item.status = .toUpdate := by
  unfold pending
  simp only [mem_map_id, decide_eq_true_eq]

theorem mem_pending_toRemove {id : ItemId} :
    id ∈ t.pending.toRemove ↔
      ∃ item, t.get? id = some item ∧ item.status = .toRemove ∧ item.dbId.isSome = true := by
  unfold pending
  simp only [mem_map_id, decide_eq_true_eq]

end Table

theorem Pending.isEmpty_iff {p : Pending} :
    p.isEmpty = true ↔ p.toAdd = [] ∧ p.toUpdate = [] ∧ p.toRemove = [] := by
  unfold isEmpty
  simp only [Bool.and_eq_true, List.isEmpty_iff, and_assoc]

namespace Session

variable {s : Session}

theorem pending_eq (s : Session) :
    s.pending = (Kind.all.map fun kind => (s.table kind).pending).filter (!·.isEmpty) := by
  unfold pending
  generalize Kind.all = kinds
  induction kinds with
  | nil => rfl
  | cons kind kinds ih =>
    rw [List.map_cons]
    unfold table at ih ⊢
    cases ht : s.table? kind with
    | none =>
      have hempty : (Table.empty kind).pending.isEmpty = true := rfl
      rw [List.filterMap_cons_none (by rw [ht]; rfl), ih, Option.getD_none]
      exact (List.filter_cons_of_neg (by simp [hempty])).symm
    | some t =>
      rw [List.filterMap_cons_some (by rw [ht]; rfl), Option.getD_some, List.filter_cons,
        List.filter_cons, ih]

theorem mem_pending (h : s.Coherent) {p : Pending} :
    p ∈ s.pending ↔ p = (s.table p.kind).pending ∧ p.isEmpty = false := by
  rw [pending_eq, List.mem_filter, List.mem_map]
  constructor
  · rintro ⟨⟨kind, -, rfl⟩, hne⟩
    have hk : (s.table kind).pending.kind = kind := h.kind_eq kind
    exact ⟨by rw [hk], by simpa using hne⟩
  · rintro ⟨hp, hne⟩
    exact ⟨⟨p.kind, p.kind.mem_all, hp.symm⟩, by simpa using hne⟩

theorem nodup_pending_kinds (h : s.Coherent) : (s.pending.map Pending.kind).Nodup := by
  rw [pending_eq]
  refine List.Nodup.sublist (List.filter_sublist.map _) ?_
  have heq : (Kind.all.map fun kind => (s.table kind).pending).map Pending.kind = Kind.all := by
    rw [List.map_map]
    refine (List.map_congr_left fun kind _ => ?_).trans (List.map_id _)
    exact h.kind_eq kind
  rw [heq]
  decide

/-- Membership in a listing of the pending items of every kind. -/
theorem mem_flatMap_pending (h : s.Coherent) {f : Pending → List ItemId} {p : Item → Prop}
    (hf : ∀ kind id, id ∈ f (s.table kind).pending ↔ ∃ item, (s.table kind).get? id = some item ∧
      p item)
    (hempty : ∀ q : Pending, q.isEmpty = true → f q = []) {r : ItemRef} :
    (∃ q ∈ s.pending, r ∈ (f q).map (ItemRef.mk q.kind)) ↔ ∃ item, s.item? r = some item ∧ p item := by
  constructor
  · rintro ⟨q, hq, hr⟩
    obtain ⟨hqk, -⟩ := (mem_pending h).1 hq
    obtain ⟨id, hid, rfl⟩ := List.mem_map.1 hr
    rw [hqk] at hid
    obtain ⟨item, hitem, hp⟩ := (hf q.kind id).1 hid
    exact ⟨item, by rw [item?_eq]; exact hitem, hp⟩
  · rintro ⟨item, hitem, hp⟩
    rw [item?_eq] at hitem
    have hk : (s.table r.kind).pending.kind = r.kind := h.kind_eq r.kind
    have hid : r.id ∈ f (s.table r.kind).pending := (hf r.kind r.id).2 ⟨item, hitem, hp⟩
    refine ⟨(s.table r.kind).pending, (mem_pending h).2 ⟨by rw [hk], ?_⟩,
      List.mem_map.2 ⟨r.id, hid, by rw [hk]⟩⟩
    cases he : (s.table r.kind).pending.isEmpty with
    | false => rfl
    | true => rw [hempty _ he] at hid; exact absurd hid List.not_mem_nil

theorem mem_additions_iff (h : s.Coherent) {r : ItemRef} :
    r ∈ s.pending.flatMap Pending.additions ↔
      ∃ item, s.item? r = some item ∧ item.status = .toAdd := by
  rw [List.mem_flatMap]
  exact mem_flatMap_pending h (f := Pending.toAdd) (fun kind id => Table.mem_pending_toAdd)
    fun q hq => (Pending.isEmpty_iff.1 hq).1

theorem mem_updates_iff (h : s.Coherent) {r : ItemRef} :
    r ∈ s.pending.flatMap Pending.updates ↔
      ∃ item, s.item? r = some item ∧ item.status = .toUpdate := by
  rw [List.mem_flatMap]
  exact mem_flatMap_pending h (f := Pending.toUpdate) (fun kind id => Table.mem_pending_toUpdate)
    fun q hq => (Pending.isEmpty_iff.1 hq).2.1

theorem mem_removals_iff (h : s.Coherent) {r : ItemRef} :
    r ∈ s.pending.flatMap Pending.removals ↔
      ∃ item, s.item? r = some item ∧ item.status = .toRemove ∧ item.dbId.isSome = true := by
  rw [List.mem_flatMap]
  exact mem_flatMap_pending h (f := Pending.toRemove) (fun kind id => Table.mem_pending_toRemove)
    fun q hq => (Pending.isEmpty_iff.1 hq).2.2

/-- A listing of items kind by kind names none twice. -/
theorem nodup_flatMap_pending {pending : List Pending} (hk : (pending.map Pending.kind).Nodup)
    {f : Pending → List ItemId} (hf : ∀ q ∈ pending, (f q).Nodup) :
    (pending.flatMap fun q => (f q).map (ItemRef.mk q.kind)).Nodup := by
  rw [List.nodup_flatMap]
  constructor
  · intro q hq
    exact (hf q hq).map fun a b he => congrArg ItemRef.id he
  · rw [List.Nodup, List.pairwise_map] at hk
    refine hk.imp fun {q q'} hne => ?_
    intro r hr hr'
    obtain ⟨id, -, rfl⟩ := List.mem_map.1 hr
    obtain ⟨id', -, he⟩ := List.mem_map.1 hr'
    exact hne (congrArg ItemRef.kind he).symm

/-- The item at a place of a list of items to add. -/
theorem exists_item_of_toAdd (hs : s.Coherent) {p : Pending} (hp : p ∈ s.pending) {n : Nat}
    {id : ItemId} (hn : p.toAdd[n]? = some id) :
    ∃ item, s.item? ⟨p.kind, id⟩ = some item ∧ item.status = .toAdd := by
  obtain ⟨hpk, -⟩ := (mem_pending hs).1 hp
  have hid : id ∈ (s.table p.kind).pending.toAdd := hpk ▸ List.mem_of_getElem? hn
  obtain ⟨item, hitem, hst⟩ := Table.mem_pending_toAdd.1 hid
  exact ⟨item, by rw [item?_eq]; exact hitem, hst⟩

end Session

/-! ### Reserving identities -/

theorem mem_of_lookup {α β : Type} [BEq α] [LawfulBEq α] {l : List (α × β)} {a : α} {b : β}
    (h : l.lookup a = some b) : (a, b) ∈ l := by
  obtain ⟨l₁, l₂, rfl, -⟩ := List.lookup_eq_some_iff.1 h
  exact List.mem_append_right _ (List.mem_cons_self ..)

namespace Database

/-- No identity of a table is used up by reserving some more. -/
def HasRoom (db : Database) (kind : Kind) (count : Nat) : Prop := db.lastId kind + count < 2 ^ 63

theorem wrap_of_nonneg {n : Int} (h0 : 0 ≤ n) (h : n < 2 ^ 63) : wrap n = n := by
  have hsize : UInt64.size = 2 ^ 64 := rfl
  rw [wrap, hsize]
  exact Int.bmod_eq_of_le (by omega) (by omega)

variable {db : Database}

theorem lastId_reserve (db : Database) (kind : Kind) (count : Nat) (kind' : Kind) :
    (db.reserve kind count).2.lastId kind' =
      if kind' = kind then wrap (db.lastId kind + count) else db.lastId kind' := by
  unfold reserve lastId
  dsimp only
  rw [SortedMap.get?_insert]
  split <;> rfl

theorem lastId_reserve_of_hasRoom (h : db.Sound) {kind : Kind} {count : Nat}
    (hroom : db.HasRoom kind count) (kind' : Kind) : (db.reserve kind count).2.lastId kind' =
      if kind' = kind then db.lastId kind + count else db.lastId kind' := by
  have h0 := h.lastId_nonneg kind
  rw [lastId_reserve, wrap_of_nonneg (by omega) hroom]

/-- With enough room the identities reserved are those after the last one. -/
theorem ids_reserve (h : db.Sound) {kind : Kind} {count : Nat} (hroom : db.HasRoom kind count) :
    (db.reserve kind count).1 =
      (List.range count).map fun (i : Nat) => ⟨db.lastId kind + (i + 1 : Nat)⟩ := by
  refine List.map_congr_left fun i hi => ?_
  have h0 := h.lastId_nonneg kind
  have hi := List.mem_range.1 hi
  unfold HasRoom at hroom
  rw [wrap_of_nonneg (by omega) (by omega)]

/-- The identities that are reserved are new ones. -/
theorem mem_zip_reserve (h : db.Sound) {kind : Kind} {ids : List ItemId}
    (hroom : db.HasRoom kind ids.length) {id : ItemId} {d : DbId}
    (hmem : (id, d) ∈ ids.zip (db.reserve kind ids.length).1) :
    ∃ n, ids[n]? = some id ∧ d.val = db.lastId kind + (n + 1 : Nat) := by
  obtain ⟨n, hn⟩ := List.mem_iff_getElem?.1 hmem
  rw [List.getElem?_zip_eq_some, ids_reserve h hroom, List.getElem?_map] at hn
  obtain ⟨hid, hd⟩ := hn
  obtain ⟨m, hm, rfl⟩ := Option.map_eq_some_iff.1 hd
  obtain ⟨hlt, rfl⟩ := List.getElem?_eq_some_iff.1 hm
  exact ⟨n, hid, by rw [List.getElem_range]⟩

/-- A database in which identities were given out, and nothing else changed. -/
structure Reserved (db db' : Database) : Prop where
  sound : db'.Sound
  tables : db'.tables = db.tables
  commits : db'.commits = db.commits
  lastId_le : ∀ kind, db.lastId kind ≤ db'.lastId kind

theorem Reserved.refl (h : db.Sound) : db.Reserved db := ⟨h, rfl, rfl, fun _ => Int.le_refl _⟩

theorem Reserved.row?_eq {db' : Database} (h : db.Reserved db') (kind : Kind) (id : DbId) :
    db'.row? kind id = db.row? kind id := by
  unfold row? table
  rw [h.tables]

theorem Reserved.trans {db' db'' : Database} (h : db.Reserved db') (h' : db'.Reserved db'') :
    db.Reserved db'' where
  sound := h'.sound
  tables := h'.tables.trans h.tables
  commits := h'.commits.trans h.commits
  lastId_le kind := Int.le_trans (h.lastId_le kind) (h'.lastId_le kind)

theorem reserved_reserve (h : db.Sound) {kind : Kind} {count : Nat} (hroom : db.HasRoom kind count) :
    db.Reserved (db.reserve kind count).2 := by
  have hgrow : ∀ k, db.lastId k ≤ (db.reserve kind count).2.lastId k := by
    intro k
    rw [lastId_reserve_of_hasRoom h hroom]
    split
    next hk => rw [hk]; omega
    next => exact Int.le_refl _
  exact {
    sound := ⟨h.dbId_eq, h.stamped, fun k _ _ hrow => Int.le_trans (h.id_le hrow) (hgrow k),
      fun k => Int.le_trans (h.lastId_nonneg k) (hgrow k)⟩
    tables := rfl
    commits := rfl
    lastId_le := hgrow }

/-- The identities reserved for some pending items, and the database afterwards. -/
def reserveAll (db : Database) (pending : List Pending) : List (ItemId × DbId) × Database :=
  (pending.flatMap fun p => p.toAdd.zip (db.reserve p.kind p.toAdd.length).1,
    pending.foldl (fun db p => (db.reserve p.kind p.toAdd.length).2) db)

/-- Reserving for the kinds one after the other is to reserve for each of them at the start. -/
theorem mapM_reserve {pending : List Pending} (hk : (pending.map Pending.kind).Nodup)
    (c : Connection Database) :
    ∃ lists, (pending.mapM fun p => (do
        return p.toAdd.zip (← ConnectionM.call (Store.reserve p.kind p.toAdd.length)) :
          ConnectionM Database (List (ItemId × DbId)))) c =
        (.ok lists, { c with store := (c.store.reserveAll pending).2 }) ∧
      lists.flatten = (c.store.reserveAll pending).1 := by
  induction pending generalizing c with
  | nil => exact ⟨[], rfl, rfl⟩
  | cons p pending ih =>
    obtain ⟨hp, hk⟩ := List.nodup_cons.1 hk
    obtain ⟨lists, hlists, hflat⟩ :=
      ih hk { c with store := (c.store.reserve p.kind p.toAdd.length).2 }
    refine ⟨p.toAdd.zip (c.store.reserve p.kind p.toAdd.length).1 :: lists, ?_, ?_⟩
    · rw [List.mapM_cons, ConnectionM.run_bind]
      have hcall : (do
          return p.toAdd.zip (← ConnectionM.call (Store.reserve p.kind p.toAdd.length)) :
            ConnectionM Database (List (ItemId × DbId))) c =
          (.ok (p.toAdd.zip (c.store.reserve p.kind p.toAdd.length).1),
            { c with store := (c.store.reserve p.kind p.toAdd.length).2 }) := rfl
      rw [hcall]
      dsimp only
      rw [ConnectionM.run_bind, hlists]
      rfl
    · rw [List.flatten_cons, hflat]
      unfold reserveAll
      rw [List.flatMap_cons]
      refine congrArg _ ?_
      rw [List.flatMap_def, List.flatMap_def]
      refine congrArg List.flatten (List.map_congr_left fun q hq => ?_)
      have hne : q.kind ≠ p.kind := fun he => hp (he ▸ List.mem_map.2 ⟨q, hq, rfl⟩)
      have hlast : (c.store.reserve p.kind p.toAdd.length).2.lastId q.kind =
          c.store.lastId q.kind := by rw [lastId_reserve, if_neg hne]
      unfold reserve at hlast ⊢
      rw [hlast]

/-- Each kind gets as many identities as it has items to add. -/
theorem reserved_reserveAll (h : db.Sound) {pending : List Pending}
    (hk : (pending.map Pending.kind).Nodup)
    (hroom : ∀ p ∈ pending, db.HasRoom p.kind p.toAdd.length) :
    db.Reserved (db.reserveAll pending).2 ∧
      (∀ kind, kind ∉ pending.map Pending.kind →
        (db.reserveAll pending).2.lastId kind = db.lastId kind) ∧
      ∀ p ∈ pending, (db.reserveAll pending).2.lastId p.kind = db.lastId p.kind + p.toAdd.length := by
  unfold reserveAll
  dsimp only
  induction pending generalizing db with
  | nil => exact ⟨.refl h, fun _ _ => rfl, fun p hp => absurd hp List.not_mem_nil⟩
  | cons p pending ih =>
    obtain ⟨hp, hk⟩ := List.nodup_cons.1 hk
    have hroomp := hroom p (List.mem_cons_self ..)
    have hlast := lastId_reserve_of_hasRoom h hroomp
    have hfirst := reserved_reserve h hroomp
    have hother : ∀ q ∈ pending, (db.reserve p.kind p.toAdd.length).2.lastId q.kind =
        db.lastId q.kind := by
      intro q hq
      rw [hlast, if_neg fun he : q.kind = p.kind => hp (he ▸ List.mem_map.2 ⟨q, hq, rfl⟩)]
    obtain ⟨hres, hsame, hlq⟩ := ih hfirst.sound hk fun q hq => by
      unfold HasRoom
      rw [hother q hq]
      exact hroom q (List.mem_cons_of_mem _ hq)
    rw [List.foldl_cons]
    refine ⟨hfirst.trans hres, ?_, ?_⟩
    · intro kind hkind
      rw [List.map_cons, List.mem_cons, not_or] at hkind
      rw [hsame kind hkind.2, hlast, if_neg hkind.1]
    · intro q hq
      rcases List.mem_cons.1 hq with rfl | hq
      · rw [hsame q.kind hp, hlast, if_pos rfl]
      · rw [hlq q hq, hother q hq]

/-- An identity is reserved for an item that is to be added, and it belongs to its place. -/
theorem exists_of_lookup_reserveAll (h : db.Sound) {pending : List Pending} {id : ItemId}
    (hroom : ∀ p ∈ pending, db.HasRoom p.kind p.toAdd.length) {d : DbId}
    (hl : (db.reserveAll pending).1.lookup id = some d) :
    ∃ p ∈ pending, ∃ n : Nat, p.toAdd[n]? = some id ∧ d.val = db.lastId p.kind + (n + 1 : Nat) := by
  obtain ⟨p, hp, hzip⟩ := List.mem_flatMap.1 (mem_of_lookup hl)
  obtain ⟨n, hn, hd⟩ := mem_zip_reserve h (hroom p hp) hzip
  exact ⟨p, hp, n, hn, hd⟩

/-- An identity is reserved for each item that is to be added. -/
theorem exists_lookup_reserveAll (db : Database) {pending : List Pending} {p : Pending}
    {id : ItemId} (hp : p ∈ pending) (hid : id ∈ p.toAdd) : ∃ d, (db.reserveAll pending).1.lookup id = some d := by
  obtain ⟨n, hn⟩ := List.mem_iff_getElem?.1 hid
  obtain ⟨hlt, -⟩ := List.getElem?_eq_some_iff.1 hn
  have hlen : (db.reserve p.kind p.toAdd.length).1.length = p.toAdd.length := by
    unfold reserve
    rw [List.length_map, List.length_range]
  obtain ⟨d, hd⟩ : ∃ d, (db.reserve p.kind p.toAdd.length).1[n]? = some d :=
    ⟨_, List.getElem?_eq_getElem (by rw [hlen]; exact hlt)⟩
  have hzip : (id, d) ∈ p.toAdd.zip (db.reserve p.kind p.toAdd.length).1 :=
    List.mem_iff_getElem?.2 ⟨n, List.getElem?_zip_eq_some.2 ⟨hn, hd⟩⟩
  exact Option.isSome_iff_exists.1 (List.lookup_isSome_iff.2
    ⟨_, List.mem_flatMap.2 ⟨p, hp, hzip⟩, by simp⟩)

end Database

namespace Session

/-- Each item to add has an identity that was not given out before. -/
structure Reserves (s : Session) (db : Database) (reserved : List (ItemId × DbId))
    (db' : Database) : Prop extends db.Reserved db' where
  given : ∀ ⦃id d⦄, reserved.lookup id = some d → ∃ kind item, s.item? ⟨kind, id⟩ = some item ∧
    item.status = .toAdd ∧ db.lastId kind < d.val ∧ d.val ≤ db'.lastId kind
  covers : ∀ ⦃r item⦄, s.item? r = some item → item.status = .toAdd →
    ∃ d, reserved.lookup r.id = some d
  injective : ∀ ⦃kind i j a b d⦄, s.item? ⟨kind, i⟩ = some a → s.item? ⟨kind, j⟩ = some b →
    reserved.lookup i = some d → reserved.lookup j = some d → i = j

/-- No table runs out of identities when those for the items to add are reserved. -/
def HasRoom (s : Session) (db : Database) : Prop :=
  ∀ p ∈ s.pending, db.HasRoom p.kind p.toAdd.length

/-- As long as no table runs out of identities, reserving them succeeds. -/
theorem reserves_reserveAll {c : Connection Database} (hs : c.session.Coherent)
    (hdb : c.store.Sound) (hroom : c.session.HasRoom c.store) :
    ∃ reserved db', Connection.reserveAll c.session.pending c =
      (.ok reserved, { c with store := db' }) ∧ c.session.Reserves c.store reserved db' := by
  obtain ⟨s, db, passes⟩ := c
  dsimp only at hs hdb hroom ⊢
  have hsub := List.filter_sublist (p := fun p : Pending => !p.toAdd.isEmpty) (l := s.pending)
  have hk := (hsub.map Pending.kind).nodup (nodup_pending_kinds hs)
  have hroom' : ∀ p ∈ s.pending.filter (fun p => !p.toAdd.isEmpty), db.HasRoom p.kind p.toAdd.length :=
    fun p hp => hroom p (hsub.subset hp)
  obtain ⟨lists, hlists, hflat⟩ := Database.mapM_reserve hk ⟨s, db, passes⟩
  obtain ⟨hres, -, hlast⟩ := Database.reserved_reserveAll hdb hk hroom'
  refine ⟨lists.flatten, (db.reserveAll (s.pending.filter fun p => !p.toAdd.isEmpty)).2, ?_, ?_⟩
  · unfold Connection.reserveAll
    rw [ConnectionM.run_bind, hlists]
    rfl
  rw [hflat]
  constructor
  case toReserved => exact hres
  case given =>
    intro id d hl
    obtain ⟨p, hp, n, hn, hd⟩ := Database.exists_of_lookup_reserveAll hdb hroom' hl
    obtain ⟨item, hi, hst⟩ := exists_item_of_toAdd hs (hsub.subset hp) hn
    obtain ⟨hlt, -⟩ := List.getElem?_eq_some_iff.1 hn
    refine ⟨p.kind, item, hi, hst, by omega, ?_⟩
    rw [hlast p hp]
    omega
  case covers =>
    intro r item hi hst
    obtain ⟨p, hp, hr⟩ := List.mem_flatMap.1 ((mem_additions_iff hs).2 ⟨item, hi, hst⟩)
    obtain ⟨id, hid, rfl⟩ := List.mem_map.1 hr
    refine db.exists_lookup_reserveAll (List.mem_filter.2 ⟨hp, ?_⟩) hid
    cases he : p.toAdd with
    | nil => rw [he] at hid; exact absurd hid List.not_mem_nil
    | cons => rfl
  case injective =>
    intro kind i j a b d ha hb hi hj
    obtain ⟨p, hp, n, hn, hd⟩ := Database.exists_of_lookup_reserveAll hdb hroom' hi
    obtain ⟨q, hq, m, hm, hd'⟩ := Database.exists_of_lookup_reserveAll hdb hroom' hj
    obtain ⟨x, hx, -⟩ := exists_item_of_toAdd hs (hsub.subset hp) hn
    obtain ⟨y, hy, -⟩ := exists_item_of_toAdd hs (hsub.subset hq) hm
    have hpk := hs.one_kind hx ha
    have hqk := hs.one_kind hy hb
    have hpq : p = q := by
      rw [((mem_pending hs).1 (hsub.subset hp)).1, ((mem_pending hs).1 (hsub.subset hq)).1,
        hpk, hqk]
    subst hpq
    have hnm : n = m := by omega
    subst hnm
    rw [hn] at hm
    exact Option.some.inj hm

end Session

end StagedEdits
