import StagedEdits.Proofs.Batch
import StagedEdits.Proofs.Edits

/-!
# What a commit does

`Session.Commits` describes a session and its database after a commit that succeeded, item by item
and row by row.  A commit leads there, or it fails and changes nothing but the identities that were
given out (`Connection.writePending_cases`).
-/

namespace StagedEdits

namespace Table

variable {t : Table}

theorem foldl_erase_spec {items : List Item} :
    ((t.Exact → (items.foldl (fun t item => t.erase item.id) t).Exact) ∧
      (items.foldl (fun t item => t.erase item.id) t).kind = t.kind) ∧
      ∀ id, (items.foldl (fun t item => t.erase item.id) t).get? id =
        if id ∈ items.map Item.id then none else t.get? id := by
  induction items generalizing t with
  | nil => exact ⟨⟨fun h => h, rfl⟩, fun id => (if_neg List.not_mem_nil).symm⟩
  | cons item items ih =>
    obtain ⟨⟨hexact, hkind⟩, hget⟩ := ih (t := t.erase item.id)
    rw [List.foldl_cons]
    refine ⟨⟨fun h => hexact (h.erase item.id), hkind.trans (kind_erase ..)⟩, fun id => ?_⟩
    rw [hget, get?_erase, List.map_cons]
    by_cases hid : id = item.id
    · rw [if_pos hid, ite_self, if_pos (by rw [hid]; exact List.mem_cons_self)]
    · rw [if_neg hid]
      exact if_congr (by simp [hid]) rfl rfl

/-- Dropping the removed items leaves the live ones. -/
theorem get?_dropRemoved (t : Table) (id : ItemId) :
    t.dropRemoved.get? id = (t.get? id).filter fun item => !item.removed := by
  unfold dropRemoved
  rw [foldl_erase_spec.2]
  cases ht : t.get? id with
  | none => split <;> rfl
  | some item =>
    have hid := t.id_eq ht
    have hiff : id ∈ (t.all.filter Item.removed).map Item.id ↔ item.removed = true := by
      rw [List.mem_map]
      constructor
      · rintro ⟨item', hmem, he⟩
        obtain ⟨hall, hrem⟩ := List.mem_filter.1 hmem
        have hget := mem_all_iff.1 hall
        rw [he, ht] at hget
        rwa [Option.some.inj hget]
      · intro hrem
        exact ⟨item, List.mem_filter.2 ⟨mem_all_iff.2 (hid ▸ ht), hrem⟩, hid⟩
    cases hrem : item.removed with
    | true => rw [if_pos (hiff.2 hrem), Option.filter_some, if_neg (by simp [hrem])]
    | false =>
      have hnot : id ∉ (t.all.filter Item.removed).map Item.id := fun h =>
        Bool.false_ne_true (hrem.symm.trans (hiff.1 h))
      rw [if_neg hnot, Option.filter_some, if_pos (by simp [hrem])]

end Table

namespace Session

variable {s x : Session} {db db₁ : Database} {reserved : List (ItemId × DbId)} {commit : CommitId}

/-- What a commit makes of an item. -/
def committedItem? (s : Session) (reserved : List (ItemId × DbId)) (commit : CommitId)
    (r : ItemRef) : Option Item :=
  (s.item? r).bind fun item =>
    if item.removed then none
    else if item.status = .committed then some item
    else some (writeItem reserved commit r item)

/-- The row of a pending item is the one its session wants to write it to. -/
theorem or_dbId_eq_goal? (hs : s.Coherent) (hres : s.Reserves db reserved db₁) {r : ItemRef}
    {item : Item} (hitem : s.item? r = some item) :
    (reserved.lookup r.id).or item.dbId = s.goal? reserved r := by
  unfold goal?
  rw [hitem, Option.bind_some]
  split
  next hst =>
    obtain ⟨d, hd⟩ := hres.covers hitem hst
    rw [hd, Option.some_or]
  next hst => rw [lookup_eq_none hs hres hitem hst, Option.none_or]

theorem ref_writeItem (reserved : List (ItemId × DbId)) (commit : CommitId) (r : ItemRef)
    (item : Item) : (writeItem reserved commit r item).ref = item.ref := by
  unfold writeItem
  split <;> rfl

theorem dbId_writeItem (hs : s.Coherent) (hres : s.Reserves db reserved db₁) {r : ItemRef}
    {item : Item} (hitem : s.item? r = some item) :
    (writeItem reserved commit r item).dbId = s.goal? reserved r := by
  rw [← or_dbId_eq_goal? hs hres hitem]
  unfold writeItem
  cases hor : (reserved.lookup r.id).or item.dbId with
  | some d => rfl
  | none => exact (Option.or_eq_none_iff.1 hor).2

theorem consistent_writeItem {r : ItemRef} {item : Item} (h : item.Consistent) :
    (writeItem reserved commit r item).Consistent := by
  unfold writeItem
  split
  · exact (Item.takes_written ..).consistent
  · exact h

/-- Session `x`, on the way from `s`, with some of the pending items written. -/
structure Writing (s : Session) (reserved : List (ItemId × DbId)) (commit : CommitId)
    (done : List ItemRef) (x : Session) : Prop where
  frame : SameFrame s x
  nextId : x.nextId = s.nextId
  wellFormed : x.WellFormed
  item? : ∀ r, x.item? r =
    if r ∈ done then (s.item? r).map (writeItem reserved commit r) else s.item? r

theorem Writing.step (hs : s.WellFormed) (hb : s.Bounded db) (hres : s.Reserves db reserved db₁)
    {done : List ItemRef} (h : Writing s reserved commit done x) {r : ItemRef} {item : Item}
    (hitem : s.item? r = some item) (hr : r ∉ done) :
    Writing s reserved commit (r :: done)
      (x.modify r (writeItem reserved commit r)) := by
  have hx : x.item? r = some item := by rw [h.item?, if_neg hr, hitem]
  have href : (writeItem reserved commit r item).ref = r := (ref_writeItem ..).trans (hs.named hitem)
  have hkind : (writeItem reserved commit r item).kind = r.kind := congrArg ItemRef.kind href
  have hid : (writeItem reserved commit r item).id = r.id := congrArg ItemRef.id href
  rw [h.wellFormed.named.modify_eq_put hx (ref_writeItem reserved commit r)]
  refine ⟨h.frame.trans (sameFrame_put ..), h.nextId, ?_, ?_⟩
  · refine h.wellFormed.put ?_ ?_ (consistent_writeItem (hs.consistent hitem)) ?_
    · rw [hid]; exact h.wellFormed.given hx
    · intro kind y hy
      rw [hid] at hy
      rw [hkind]
      exact h.wellFormed.one_kind hy hx
    · intro id d hd hrow
      rw [dbId_writeItem hs.toCoherent hres hitem] at hd
      rw [hkind] at hrow
      rw [hid]
      -- whoever has the row now is written to it, or had it before
      obtain ⟨y, hy, hyd⟩ := h.wellFormed.itemOfRow? hrow
      rw [h.item?] at hy
      split at hy
      next =>
        obtain ⟨z, hz, rfl⟩ := Option.map_eq_some_iff.1 hy
        rw [dbId_writeItem hs.toCoherent hres hz] at hyd
        exact goal?_injective hs hb hres hyd hd
      next => exact (eq_of_goal? hs hb hres hd hy hyd).symm
  · intro r'
    rw [item?_put, href, h.item?]
    by_cases he : r' = r
    · subst he
      rw [if_pos rfl, if_pos (List.mem_cons_self ..), hitem]
      rfl
    · rw [if_neg he]
      exact if_congr (by simp [he]) rfl rfl

/-- The pending items that a commit writes. -/
def writtenRefs (s : Session) : List ItemRef := s.pending.flatMap fun p => p.updates ++ p.additions

theorem mem_writtenRefs_iff (hs : s.Coherent) {r : ItemRef} :
    r ∈ s.writtenRefs ↔
      ∃ item, s.item? r = some item ∧ (item.status = .toAdd ∨ item.status = .toUpdate) := by
  have hor : r ∈ s.writtenRefs ↔ r ∈ s.pending.flatMap Pending.updates ∨
      r ∈ s.pending.flatMap Pending.additions := by
    unfold writtenRefs
    simp only [List.mem_flatMap, List.mem_append, and_or_left, exists_or]
  rw [hor, mem_updates_iff hs, mem_additions_iff hs]
  constructor
  · rintro (⟨item, hitem, hst⟩ | ⟨item, hitem, hst⟩)
    · exact ⟨item, hitem, .inr hst⟩
    · exact ⟨item, hitem, .inl hst⟩
  · rintro ⟨item, hitem, hst | hst⟩
    · exact .inr ⟨item, hitem, hst⟩
    · exact .inl ⟨item, hitem, hst⟩

theorem nodup_writtenRefs (hs : s.Coherent) : s.writtenRefs.Nodup := by
  have hlist : s.writtenRefs =
      s.pending.flatMap fun p => (p.toUpdate ++ p.toAdd).map (ItemRef.mk p.kind) := by
    unfold writtenRefs Pending.updates Pending.additions
    simp only [List.map_append]
  rw [hlist]
  refine nodup_flatMap_pending (nodup_pending_kinds hs) fun p hp => ?_
  rw [((mem_pending hs).1 hp).1, List.nodup_append]
  refine ⟨Table.nodup_map_id .., Table.nodup_map_id .., ?_⟩
  rintro id hid _ hid' rfl
  obtain ⟨a, ha, hst⟩ := Table.mem_pending_toUpdate.1 hid
  obtain ⟨b, hb, hst'⟩ := Table.mem_pending_toAdd.1 hid'
  rw [ha] at hb
  rw [Option.some.inj hb, hst'] at hst
  cases hst

/-- The session before the removed items are dropped. -/
theorem writing_foldl (hs : s.WellFormed) (hb : s.Bounded db) (hres : s.Reserves db reserved db₁)
    (commit : CommitId) :
    ∃ x done, Writing s reserved commit done x ∧
      (∀ r item, s.item? r = some item →
        (r ∈ done ↔ item.status = .toAdd ∨ item.status = .toUpdate)) ∧
      s.pending.foldl
        (fun s p => (p.updates ++ p.additions).foldl
          (fun s r => s.modify r (writeItem reserved commit r)) s)
        s = x := by
  have hmem := fun r => mem_writtenRefs_iff hs.toCoherent (r := r)
  have hstart : Writing s reserved commit [] s :=
    ⟨.refl s, rfl, hs, fun r => (if_neg List.not_mem_nil).symm⟩
  have hend := foldl_of_nodup (f := fun s r => s.modify r (writeItem reserved commit r))
    (nodup_writtenRefs hs.toCoherent) (fun done x r hr hdone h => by
      obtain ⟨item, hitem, -⟩ := (hmem r).1 hr
      exact h.step hs hb hres hitem hdone) hstart
  refine ⟨_, _, hend, ?_, ?_⟩
  · intro r item hitem
    rw [List.mem_reverse, hmem]
    constructor
    · rintro ⟨item', hitem', hst⟩
      rwa [Option.some.inj (hitem.symm.trans hitem')]
    · intro hst
      exact ⟨item, hitem, hst⟩
  · unfold writtenRefs
    rw [List.foldl_flatMap]

/-! ### Dropping the removed items from all tables -/

theorem table_dropRemoved (s : Session) (count : Nat) (kind : Kind) :
    Session.table { s with tables := s.tables.map Table.dropRemoved, knownCommits := count } kind =
      (s.table kind).dropRemoved :=
  table_map s (fun _ => rfl) kind

theorem item?_dropRemoved (s : Session) (count : Nat) (r : ItemRef) :
    Session.item? { s with tables := s.tables.map Table.dropRemoved, knownCommits := count } r =
      (s.item? r).filter fun item => !item.removed := by
  rw [item?_eq, table_dropRemoved, Table.get?_dropRemoved, item?_eq]

theorem wellFormed_dropRemoved (hs : s.WellFormed) (count : Nat) :
    Session.WellFormed { s with
      tables := s.tables.map Table.dropRemoved, knownCommits := count } := by
  have hold : ∀ {r item}, Session.item? { s with
      tables := s.tables.map Table.dropRemoved, knownCommits := count } r = some item →
        s.item? r = some item := by
    intro r item hi
    rw [item?_dropRemoved, Option.filter_eq_some_iff] at hi
    exact hi.1
  refine wellFormed_of_exact ⟨?_, ?_, ?_, ?_, ?_, ?_⟩ ?_
  · intro kind
    rw [table_dropRemoved]
    exact Table.foldl_erase_spec.1.2.trans (hs.kind_eq kind)
  · intro kind
    rw [table_dropRemoved]
    exact (Table.foldl_erase_spec.1.1 (hs.exact kind)).sound
  · exact fun r item hi => hs.item_kind (hold hi)
  · exact fun r item hi => hs.given (hold hi)
  · exact fun _ _ _ _ _ ha hb => hs.one_kind (hold ha) (hold hb)
  · exact fun r item hi => hs.consistent (hold hi)
  · intro kind
    rw [table_dropRemoved]
    exact Table.foldl_erase_spec.1.1 (hs.exact kind)

/-! ### The session after a commit -/

/-- Dropping the removed items once the pending ones are written. -/
theorem item?_dropRemoved_of_written {done : List ItemRef}
    (hx : ∀ r, x.item? r =
      if r ∈ done then (s.item? r).map (writeItem reserved commit r) else s.item? r)
    (hdone : ∀ r item, s.item? r = some item →
      (r ∈ done ↔ item.status = .toAdd ∨ item.status = .toUpdate)) (count : Nat) (r : ItemRef) :
    Session.item? { x with tables := x.tables.map Table.dropRemoved, knownCommits := count } r =
      s.committedItem? reserved commit r := by
  rw [item?_dropRemoved, hx]
  unfold committedItem?
  cases hi : s.item? r with
  | none => split <;> rfl
  | some item =>
    have hd := hdone r item hi
    rw [Option.bind_some]
    by_cases hst : item.status = .toAdd ∨ item.status = .toUpdate
    · obtain ⟨hlive, hdirty⟩ := Item.live_of_unwritten hst
      have hwlive : (writeItem reserved commit r item).removed = false := by
        unfold writeItem
        split
        · rfl
        · exact hlive
      rw [if_pos (hd.2 hst), Option.map_some, Option.filter_some, if_pos (by simp [hwlive]),
        if_neg (by simp [hlive]), if_neg hdirty]
    · rw [if_neg fun h => hst (hd.1 h), Option.filter_some]
      cases hrem : item.removed with
      | true => rw [if_neg (by simp), if_pos rfl]
      | false =>
        have hcom := (Item.status_of_live hrem).resolve_right hst
        rw [if_pos (by simp), if_neg (by simp), if_pos hcom]

/-- A commit that succeeded writes the pending items, and drops the removed ones. -/
theorem committed_spec (hs : s.WellFormed) (hb : s.Bounded db) (hres : s.Reserves db reserved db₁)
    (commit : CommitId) :
    (s.committed s.pending reserved commit).config = s.config ∧
      (s.committed s.pending reserved commit).fetched = s.fetched ∧
      (s.committed s.pending reserved commit).nextId = s.nextId ∧
      (s.committed s.pending reserved commit).WellFormed ∧
      ∀ r, (s.committed s.pending reserved commit).item? r =
        s.committedItem? reserved commit r := by
  obtain ⟨x, done, hx, hdone, hfold⟩ := writing_foldl hs hb hres commit
  unfold committed
  rw [hfold]
  dsimp only
  exact ⟨hx.frame.config, hx.frame.fetched, hx.nextId, wellFormed_dropRemoved hx.wellFormed _,
    item?_dropRemoved_of_written hx.item? hdone _⟩

end Session

namespace Session

/-- Sessions and databases after a commit that succeeded. -/
structure Commits (s : Session) (db : Database) (reserved : List (ItemId × DbId))
    (commit : CommitId) (s' : Session) (db' : Database) : Prop where
  pending_ne : s.pending ≠ []
  gate : s.sharedKeyFault? s.pending = none
  commit_eq : commit.val = db.commits.length + 1
  commits_length : db'.commits.length = db.commits.length + 1
  sound : db'.Sound
  lastId_le : ∀ kind, db.lastId kind ≤ db'.lastId kind
  writes : s.Writes reserved db commit db'
  bounded : s'.Bounded db'
  config : s'.config = s.config
  fetched : s'.fetched = s.fetched
  nextId : s'.nextId = s.nextId
  knownCommits : s'.knownCommits =
    if commit.val = s.knownCommits + 1 then s.knownCommits + 1 else s.knownCommits
  wellFormed : s'.WellFormed
  item? : ∀ r, s'.item? r = s.committedItem? reserved commit r

/-- Why a commit was refused after its keys were checked. -/
def BatchRefused (s : Session) (reserved : List (ItemId × DbId)) (db : Database) (e : Error) : Prop :=
  s.batch s.pending reserved = .error e ∨
    ∃ batch, s.batch s.pending reserved = .ok batch ∧ batch.findSome? db.refusal? = some e

variable {s s' : Session} {db db₁ db' : Database} {reserved : List (ItemId × DbId)}
  {commit : CommitId}

/-- Rows of a committed session have identities that were given out. -/
theorem bounded_committed (hs : s.WellFormed) (hb : s.Bounded db)
    (hres : s.Reserves db reserved db₁) (hle : ∀ kind, db₁.lastId kind ≤ db'.lastId kind)
    (hitem : ∀ r, s'.item? r = s.committedItem? reserved commit r) : s'.Bounded db' := by
  intro r b d hr hd
  rw [hitem] at hr
  obtain ⟨a, ha, hb'⟩ := Option.bind_eq_some_iff.1 hr
  have hold : ∀ {d}, a.dbId = some d → d.val ≤ db'.lastId r.kind := fun hd =>
    Int.le_trans (hb ha hd) (Int.le_trans (hres.lastId_le r.kind) (hle r.kind))
  split at hb'
  next => cases hb'
  next =>
    split at hb'
    next =>
      obtain rfl := Option.some.inj hb'
      exact hold hd
    next =>
      obtain rfl := Option.some.inj hb'
      rw [dbId_writeItem hs.toCoherent hres ha] at hd
      unfold goal? at hd
      rw [ha, Option.bind_some] at hd
      split at hd
      next =>
        obtain ⟨kind, x, hx, -, -, hlast⟩ := hres.given hd
        obtain rfl := hs.one_kind hx ha
        exact Int.le_trans hlast (hle _)
      next => exact hold hd

end Session

namespace Connection

open ConnectionM

theorem writePending_eq {σ : Type} [Store σ] (s : Session) (store : σ)
    (passes : List (List Conflict)) (comment : String) :
    writePending comment ⟨s, store, passes⟩ =
      (do
        if s.pending = [] then throw .nothingToCommit
        match s.sharedKeyFault? s.pending with
        | some e => throw e
        | none =>
          let reserved ← reserveAll s.pending
          let batch ← check (s.batch s.pending reserved)
          let commit ← call (Store.apply ⟨comment, s.config.user⟩ batch)
          putSession (s.committed s.pending reserved commit)
          return commit : ConnectionM σ CommitId) ⟨s, store, passes⟩ := rfl

/-- Handing the batch over, and what the session makes of the answer. -/
theorem run_apply (s : Session) (db : Database) (passes : List (List Conflict)) (info : CommitInfo)
    (batch : List Mutation) (settle : CommitId → Session) :
    (do
      let commit ← call (Store.apply info batch)
      putSession (settle commit)
      return commit : ConnectionM Database CommitId) ⟨s, db, passes⟩ =
      match db.apply info batch with
      | (.ok commit, db') => (.ok commit, ⟨settle commit, db', passes⟩)
      | (.error e, db') => (.error e, ⟨s, db', passes⟩) := by
  rw [run_bind]
  have happly : (call (Store.apply info batch) : ConnectionM Database CommitId) ⟨s, db, passes⟩ =
      ((db.apply info batch).1, ⟨s, (db.apply info batch).2, passes⟩) := rfl
  rw [happly]
  rcases db.apply info batch with ⟨_ | commit, db'⟩ <;> rfl

/-- A batch that is carried out makes the session committed. -/
theorem commits_of_applies {s : Session} {db db₁ db' : Database} {reserved : List (ItemId × DbId)}
    {batch : List Mutation} {commit : CommitId} (hs : s.WellFormed) (hb : s.Bounded db)
    (hdb : db.Sound) (hpending : s.pending ≠ []) (hgate : s.sharedKeyFault? s.pending = none)
    (hres : s.Reserves db reserved db₁) (hbatch : s.batch s.pending reserved = .ok batch)
    (h : db₁.Applies batch commit db') :
    s.Commits db reserved commit (s.committed s.pending reserved commit) db' := by
  obtain ⟨hconfig, hfetched, hnext, hwf, hitem⟩ := Session.committed_spec hs hb hres commit
  constructor
  case pending_ne => exact hpending
  case gate => exact hgate
  case commit_eq => rw [h.commit_eq, hres.commits]
  case commits_length => rw [h.commits_length, hres.commits]
  case sound => exact h.sound
  case lastId_le => exact fun kind => Int.le_trans (hres.lastId_le kind) (h.lastId_le kind)
  case writes => exact Session.writes_of_applies hs hb hdb hres hbatch h
  case bounded => exact Session.bounded_committed hs hb hres h.lastId_le hitem
  case config => exact hconfig
  case fetched => exact hfetched
  case nextId => exact hnext
  case knownCommits => rfl
  case wellFormed => exact hwf
  case item? => exact hitem

/-- Writing the pending items either succeeds, or it fails and at most uses identities up. -/
theorem writePending_cases {c : Connection Database} (hs : c.session.WellFormed)
    (hb : c.session.Bounded c.store) (hdb : c.store.Sound) (hroom : c.session.HasRoom c.store)
    (comment : String) :
    (∃ e db', writePending comment c = (.error e, { c with store := db' }) ∧
      c.store.Reserved db' ∧
      (e = .nothingToCommit ∨ c.session.sharedKeyFault? c.session.pending = some e ∨
        ∃ reserved, c.session.Reserves c.store reserved db' ∧
          c.session.BatchRefused reserved db' e)) ∨
    ∃ commit s' db' db₁ reserved,
      writePending comment c = (.ok commit, { c with session := s', store := db' }) ∧
      c.session.Reserves c.store reserved db₁ ∧
      c.session.Commits c.store reserved commit s' db' ∧
      ∃ batch, c.session.batch c.session.pending reserved = .ok batch ∧
        db₁.apply ⟨comment, c.session.config.user⟩ batch = (.ok commit, db') := by
  obtain ⟨s, db, passes⟩ := c
  dsimp only at hs hb hdb hroom ⊢
  have hsame : db.Reserved db := .refl hdb
  rw [writePending_eq]
  by_cases hp : s.pending = []
  · left
    refine ⟨.nothingToCommit, db, ?_, hsame, .inl rfl⟩
    rw [if_pos hp]
    rfl
  rw [if_neg hp]
  cases hgate : s.sharedKeyFault? s.pending with
  | some e => exact .inl ⟨e, db, rfl, hsame, .inr (.inl rfl)⟩
  | none =>
    obtain ⟨reserved, db₁, hreserve, hres⟩ := Session.reserves_reserveAll (c := ⟨s, db, passes⟩)
      hs.toCoherent hdb hroom
    have hafter : (do
          let reserved ← reserveAll s.pending
          let batch ← check (s.batch s.pending reserved)
          let commit ← call (Store.apply ⟨comment, s.config.user⟩ batch)
          putSession (s.committed s.pending reserved commit)
          return commit : ConnectionM Database CommitId) ⟨s, db, passes⟩ =
        (do
          let batch ← check (s.batch s.pending reserved)
          let commit ← call (Store.apply ⟨comment, s.config.user⟩ batch)
          putSession (s.committed s.pending reserved commit)
          return commit : ConnectionM Database CommitId) ⟨s, db₁, passes⟩ := by
      rw [run_bind, hreserve]
    dsimp only
    rw [hafter, run_bind]
    cases hbatch : s.batch s.pending reserved with
    | error e => exact .inl ⟨e, db₁, rfl, hres.toReserved, .inr (.inr ⟨reserved, hres, .inl hbatch⟩)⟩
    | ok batch =>
      have hcheck : (check (.ok batch) : ConnectionM Database (List Mutation)) ⟨s, db₁, passes⟩ =
          (.ok batch, ⟨s, db₁, passes⟩) := rfl
      rw [hcheck]
      dsimp only
      rw [run_apply]
      rcases db₁.apply_cases ⟨comment, s.config.user⟩ batch with ⟨e, he, ha⟩ | ⟨-, ha⟩
      · rw [ha]
        exact .inl ⟨e, db₁, rfl, hres.toReserved,
          .inr (.inr ⟨reserved, hres, .inr ⟨batch, hbatch, he⟩⟩)⟩
      · have happlies := Database.applies_apply hres.sound ha
        rw [ha]
        exact .inr ⟨_, _, _, db₁, reserved, rfl, hres,
          commits_of_applies hs hb hdb hp hgate hres hbatch happlies, batch, hbatch, ha⟩

end Connection

end StagedEdits
