import Mathlib.Data.List.Induction
import StagedEdits.Proofs.SortedMap
import StagedEdits.Store.Database

/-!
# What the calls on a database do

`Database.Sound` holds of every database that was only changed by its own calls: rows are stored
under the identities they carry, stamped with a commit there was, and no identity is above the last
one that was given out.  A batch whose changes are about different rows has the effect of each of
them (`Database.applies_apply`).
-/

namespace StagedEdits

namespace Mutation

/-- The row that a change is about. -/
def target? : Mutation → Option (Kind × DbId)
  | insert kind row => row.dbId?.map (kind, ·)
  | update kind row => row.dbId?.map (kind, ·)
  | delete kind id => some (kind, id)

/-- What is stored under the identity of that row after the change was made by a commit. -/
def result (commit : CommitId) : Mutation → Option Record
  | insert _ row => some (row.insert Record.commitField (.integer commit.val))
  | update _ row => some (row.insert Record.commitField (.integer commit.val))
  | delete .. => none

/-- The last change of a batch that is about the given row. -/
def lastAbout? (batch : List Mutation) (kind : Kind) (id : DbId) : Option Mutation :=
  (batch.filter fun m => m.target? = some (kind, id)).getLast?

theorem lastAbout?_concat (batch : List Mutation) (m : Mutation) (kind : Kind) (id : DbId) :
    lastAbout? (batch ++ [m]) kind id =
      if m.target? = some (kind, id) then some m else lastAbout? batch kind id := by
  unfold lastAbout?
  rw [List.filter_append]
  by_cases ht : m.target? = some (kind, id) <;> simp [ht]

theorem lastAbout?_eq_some {batch : List Mutation} {kind : Kind} {id : DbId} {m : Mutation}
    (h : lastAbout? batch kind id = some m) : m ∈ batch ∧ m.target? = some (kind, id) := by
  have hmem := List.mem_of_getLast? h
  exact (List.mem_filter.1 hmem).imp_right of_decide_eq_true

end Mutation

/-- A stamp does not change the identity of a row. -/
theorem Record.dbId?_stamped (row : Record) (commit : CommitId) :
    Record.dbId? (row.insert Record.commitField (.integer commit.val)) = row.dbId? := by
  unfold Record.dbId?
  rw [SortedMap.get?_insert, if_neg (by decide)]

theorem Record.commitId?_stamped (row : Record) (commit : CommitId) :
    Record.commitId? (row.insert Record.commitField (.integer commit.val)) = some commit := by
  unfold Record.commitId?
  rw [SortedMap.get?_insert, if_pos rfl]
  rfl

namespace Database

variable {db : Database}

/-! ### Single changes -/

theorem table_insert_tables (db : Database) (kind : Kind) (t : SortedMap DbId Record)
    (lastIds : SortedMap Kind Int) (commits : List CommitInfo) (kind' : Kind) :
    (Database.mk (db.tables.insert kind t) lastIds commits).table kind' =
      if kind' = kind then t else db.table kind' := by
  unfold table
  dsimp only
  rw [SortedMap.get?_insert]
  split <;> rfl

theorem row?_change (commit : CommitId) (db : Database) (m : Mutation) (kind : Kind) (id : DbId) :
    (db.change commit m).row? kind id =
      if m.target? = some (kind, id) then m.result commit else db.row? kind id := by
  have hstore : ∀ (kind' : Kind) (row : Record),
      (db.store commit kind' row).row? kind id =
        if row.dbId?.map (kind', ·) = some (kind, id) then
          some (row.insert Record.commitField (.integer commit.val)) else db.row? kind id := by
    intro kind' row
    unfold store
    cases hd : row.dbId? with
    | none => exact (if_neg nofun).symm
    | some d =>
      dsimp only
      unfold row?
      rw [table_insert_tables, Option.map_some]
      by_cases hk : kind = kind'
      · subst hk
        rw [if_pos rfl, SortedMap.get?_insert]
        exact if_congr (by simp [eq_comm]) rfl rfl
      · rw [if_neg hk, if_neg (by simp [Ne.symm hk])]
  cases m with
  | insert kind' row => exact hstore kind' row
  | update kind' row => exact hstore kind' row
  | delete kind' d =>
    unfold change delete row?
    rw [table_insert_tables]
    by_cases hk : kind = kind'
    · subst hk
      rw [if_pos rfl, SortedMap.get?_erase]
      exact if_congr (by simp [Mutation.target?, eq_comm]) rfl rfl
    · rw [if_neg hk, if_neg (by simp [Mutation.target?, Ne.symm hk])]

theorem commits_change (commit : CommitId) (db : Database) (m : Mutation) :
    (db.change commit m).commits = db.commits := by
  have hstore : ∀ (kind : Kind) (row : Record), (db.store commit kind row).commits = db.commits := by
    intro kind row
    unfold store
    split <;> rfl
  cases m with
  | insert kind row => exact hstore kind row
  | update kind row => exact hstore kind row
  | delete kind d => rfl

theorem lastId_change (commit : CommitId) (db : Database) (m : Mutation) (kind : Kind) :
    db.lastId kind ≤ (db.change commit m).lastId kind ∧
      ∀ id row, m.target? = some (kind, id) → m.result commit = some row →
        id.val ≤ (db.change commit m).lastId kind := by
  have hstore : ∀ (kind' : Kind) (row : Record), db.lastId kind ≤
      (db.store commit kind' row).lastId kind ∧
        ∀ id, row.dbId?.map (kind', ·) = some (kind, id) →
          id.val ≤ (db.store commit kind' row).lastId kind := by
    intro kind' row
    unfold store
    cases hd : row.dbId? with
    | none => exact ⟨Int.le_refl _, fun _ h => nomatch h⟩
    | some d =>
      unfold lastId
      dsimp only
      rw [SortedMap.get?_insert]
      by_cases hk : kind = kind'
      · subst hk
        rw [if_pos rfl, Option.getD_some]
        refine ⟨Int.le_max_left .., ?_⟩
        intro id hid
        simp only [Option.map_some, Option.some.injEq, Prod.mk.injEq, true_and] at hid
        subst hid
        exact Int.le_max_right ..
      · rw [if_neg hk]
        refine ⟨Int.le_refl _, fun id hid => ?_⟩
        simp only [Option.map_some, Option.some.injEq, Prod.mk.injEq] at hid
        exact absurd hid.1.symm hk
  cases m with
  | insert kind' row => exact ⟨(hstore kind' row).1, fun id _ h _ => (hstore kind' row).2 id h⟩
  | update kind' row => exact ⟨(hstore kind' row).1, fun id _ h _ => (hstore kind' row).2 id h⟩
  | delete kind' d => exact ⟨Int.le_refl _, fun _ _ _ h => nomatch h⟩

/-- A change of a row whose identity was given out before uses up no other. -/
theorem lastId_change_of_le (commit : CommitId) {m : Mutation}
    (hle : ∀ kind id, m.target? = some (kind, id) → id.val ≤ db.lastId kind) (kind : Kind) :
    (db.change commit m).lastId kind = db.lastId kind := by
  have hstore : ∀ (kind' : Kind) (row : Record),
      (∀ id, row.dbId? = some id → id.val ≤ db.lastId kind') →
      (db.store commit kind' row).lastId kind = db.lastId kind := by
    intro kind' row hle
    unfold store
    cases hd : row.dbId? with
    | none => rfl
    | some d =>
      unfold lastId
      dsimp only
      rw [SortedMap.get?_insert]
      split
      next hk =>
        rw [hk]
        exact Int.max_eq_left (hle d hd)
      next => rfl
  cases m with
  | insert kind' row =>
    exact hstore kind' row fun id hid => hle kind' id (congrArg (Option.map (kind', ·)) hid)
  | update kind' row =>
    exact hstore kind' row fun id hid => hle kind' id (congrArg (Option.map (kind', ·)) hid)
  | delete kind' d => rfl

/-! ### Sound databases -/

/-- What the calls on a database keep true. -/
structure Sound (db : Database) : Prop where
  dbId_eq : ∀ ⦃kind id row⦄, db.row? kind id = some row → row.dbId? = some id
  stamped : ∀ ⦃kind id row⦄, db.row? kind id = some row →
    ∃ commit, row.commitId? = some commit ∧ commit.val ≤ db.commits.length
  id_le : ∀ ⦃kind id row⦄, db.row? kind id = some row → id.val ≤ db.lastId kind
  lastId_nonneg : ∀ kind, 0 ≤ db.lastId kind

theorem row?_empty (kind : Kind) (id : DbId) : empty.row? kind id = none := rfl

theorem sound_empty : empty.Sound := by
  refine ⟨?_, ?_, ?_, fun _ => Int.le_refl _⟩
  · intro kind id row h; rw [row?_empty] at h; cases h
  · intro kind id row h; rw [row?_empty] at h; cases h
  · intro kind id row h; rw [row?_empty] at h; cases h

theorem mem_rows_iff {kind : Kind} {row : Record} :
    row ∈ db.rows kind ↔ ∃ id, db.row? kind id = some row :=
  SortedMap.mem_values_iff

/-! ### Rows under their identities -/

/-- Rows are stored under the identities they carry. -/
def Filed (db : Database) : Prop := ∀ ⦃kind id row⦄, db.row? kind id = some row → row.dbId? = some id

theorem Sound.filed (h : db.Sound) : db.Filed := h.dbId_eq

/-- The rows of a table carry the identities they are stored under. -/
theorem Filed.dbIds_rows (h : db.Filed) (kind : Kind) :
    (db.rows kind).map Record.dbId? = (db.table kind).keys.map some := by
  unfold rows SortedMap.values SortedMap.keys
  rw [List.map_map, List.map_map]
  exact List.map_congr_left fun e he => h (SortedMap.mem_entries_iff.1 he)

/-- The rows of a table carry different identities. -/
theorem Filed.nodup_rows (h : db.Filed) (kind : Kind) :
    ((db.rows kind).filterMap Record.dbId?).Nodup := by
  have hkeys : (db.rows kind).filterMap Record.dbId? = (db.table kind).keys := by
    have hids := congrArg (List.filterMap id) (h.dbIds_rows kind)
    rw [List.filterMap_map, List.filterMap_map] at hids
    simpa using hids
  rw [hkeys]
  exact SortedMap.nodup_keys _

theorem Sound.nodup_rows (h : db.Sound) (kind : Kind) :
    ((db.rows kind).filterMap Record.dbId?).Nodup :=
  h.filed.nodup_rows kind

/-- What a change stores carries the identity it is stored under, and the commit that wrote it. -/
theorem fields_of_result {commit : CommitId} {m : Mutation} {kind : Kind} {id : DbId} {row : Record}
    (ht : m.target? = some (kind, id)) (hr : m.result commit = some row) :
    row.dbId? = some id ∧ row.commitId? = some commit := by
  have hstored : ∀ {kind' : Kind} {row' : Record},
      row'.dbId?.map (kind', ·) = some (kind, id) →
      some (row'.insert Record.commitField (.integer commit.val)) = some row →
      row.dbId? = some id ∧ row.commitId? = some commit := by
    intro kind' row' ht hr
    obtain rfl := Option.some.inj hr
    obtain ⟨d, hd, he⟩ := Option.map_eq_some_iff.1 ht
    cases he
    exact ⟨(Record.dbId?_stamped ..).trans hd, Record.commitId?_stamped ..⟩
  cases m with
  | insert kind' row' => exact hstored ht hr
  | update kind' row' => exact hstored ht hr
  | delete => cases hr

/-- A row after a change is one that it stores, or it was there before. -/
theorem row?_change_cases {commit : CommitId} {m : Mutation} {kind : Kind} {id : DbId} {row : Record}
    (h : (db.change commit m).row? kind id = some row) :
    (m.target? = some (kind, id) ∧ m.result commit = some row) ∨ db.row? kind id = some row := by
  rw [row?_change] at h
  split at h
  next ht => exact .inl ⟨ht, h⟩
  next => exact .inr h

theorem Filed.change (h : db.Filed) (commit : CommitId) (m : Mutation) :
    (db.change commit m).Filed := by
  intro kind id row hrow
  rcases row?_change_cases hrow with ⟨ht, hr⟩ | hrow
  · exact (fields_of_result ht hr).1
  · exact h hrow

theorem Filed.apply (h : db.Filed) (info : CommitInfo) (batch : List Mutation) :
    (db.apply info batch).2.Filed := by
  have hfold : ∀ (batch : List Mutation) (commit : CommitId) (db : Database), db.Filed →
      (batch.foldl (Database.change commit) db).Filed := by
    intro batch commit
    induction batch with
    | nil => exact fun db h => h
    | cons m batch ih => exact fun db h => ih _ (h.change commit m)
  unfold Database.apply
  split
  · exact h
  · exact hfold batch _ _ h

/-! ### Changes of sound databases -/

theorem Sound.change (h : db.Sound) {commit : CommitId} (hc : commit.val ≤ db.commits.length)
    (m : Mutation) : (db.change commit m).Sound := by
  constructor
  case dbId_eq =>
    intro kind id row hrow
    rcases row?_change_cases hrow with ⟨ht, hr⟩ | hrow
    · exact (fields_of_result ht hr).1
    · exact h.dbId_eq hrow
  case stamped =>
    intro kind id row hrow
    rw [commits_change]
    rcases row?_change_cases hrow with ⟨ht, hr⟩ | hrow
    · exact ⟨commit, (fields_of_result ht hr).2, hc⟩
    · exact h.stamped hrow
  case id_le =>
    intro kind id row hrow
    rcases row?_change_cases hrow with ⟨ht, hr⟩ | hrow
    · exact (lastId_change commit db m kind).2 id row ht hr
    · exact Int.le_trans (h.id_le hrow) (lastId_change commit db m kind).1
  case lastId_nonneg =>
    exact fun kind => Int.le_trans (h.lastId_nonneg kind) (lastId_change commit db m kind).1

/-! ### Batches -/

/-- After a batch a row is what the last change about it stores, and what it was if there is none. -/
theorem row?_foldl (commit : CommitId) (batch : List Mutation) (db : Database) (kind : Kind)
    (id : DbId) : (batch.foldl (change commit) db).row? kind id =
      (Mutation.lastAbout? batch kind id).elim (db.row? kind id) (Mutation.result commit) := by
  induction batch using List.reverseRecOn with
  | nil => rfl
  | append_singleton batch m ih =>
    rw [List.foldl_append, List.foldl_cons, List.foldl_nil, row?_change, ih,
      Mutation.lastAbout?_concat]
    split <;> rfl

theorem row?_foldl_of_not_mem {commit : CommitId} {batch : List Mutation} {kind : Kind} {id : DbId}
    (h : (kind, id) ∉ batch.filterMap Mutation.target?) (db : Database) :
    (batch.foldl (change commit) db).row? kind id = db.row? kind id := by
  rw [row?_foldl]
  cases hlast : Mutation.lastAbout? batch kind id with
  | none => rfl
  | some m =>
    obtain ⟨hm, ht⟩ := Mutation.lastAbout?_eq_some hlast
    exact absurd (List.mem_filterMap.2 ⟨m, hm, ht⟩) h

theorem row?_foldl_of_mem {commit : CommitId} {batch : List Mutation}
    (hn : (batch.filterMap Mutation.target?).Nodup) {m : Mutation} (hm : m ∈ batch) {kind : Kind}
    {id : DbId} (ht : m.target? = some (kind, id)) (db : Database) :
    (batch.foldl (change commit) db).row? kind id = m.result commit := by
  induction batch generalizing db with
  | nil => exact absurd hm List.not_mem_nil
  | cons m' batch ih =>
    rw [List.foldl_cons]
    have hn' := hn.sublist ((List.sublist_cons_self m' batch).filterMap _)
    rcases List.mem_cons.1 hm with rfl | hm
    · rw [List.filterMap_cons_some ht] at hn
      rw [row?_foldl_of_not_mem (List.nodup_cons.1 hn).1, row?_change, if_pos ht]
    · exact ih hn' hm _

theorem commits_foldl_change (commit : CommitId) (batch : List Mutation) (db : Database) :
    (batch.foldl (change commit) db).commits = db.commits := by
  induction batch generalizing db with
  | nil => rfl
  | cons m batch ih => exact (ih _).trans (commits_change commit db m)

theorem sound_foldl_change (commit : CommitId) (batch : List Mutation) (h : db.Sound)
    (hc : commit.val ≤ db.commits.length) :
    (batch.foldl (change commit) db).Sound ∧
      ∀ kind, db.lastId kind ≤ (batch.foldl (change commit) db).lastId kind := by
  induction batch generalizing db with
  | nil => exact ⟨h, fun _ => Int.le_refl _⟩
  | cons m batch ih =>
    obtain ⟨hs, hl⟩ := ih (h.change hc m) (commits_change commit db m ▸ hc)
    rw [List.foldl_cons]
    exact ⟨hs, fun kind => Int.le_trans (lastId_change commit db m kind).1 (hl kind)⟩

theorem refusal?_update_eq_none {kind : Kind} {row stored : Record} {d : DbId}
    (hd : row.dbId? = some d) (h : db.row? kind d = some stored) :
    db.refusal? (.update kind row) = none := by
  unfold refusal?
  dsimp only
  rw [hd]
  exact if_pos (SortedMap.contains_iff.2 ⟨stored, h⟩)

theorem refusal?_insert_eq_none {kind : Kind} {row : Record} {d : DbId}
    (hd : row.dbId? = some d) (h : db.row? kind d = none) :
    db.refusal? (.insert kind row) = none := by
  unfold refusal?
  dsimp only
  rw [hd]
  refine if_neg fun hc => ?_
  obtain ⟨stored, hstored⟩ := SortedMap.contains_iff.1 hc
  cases h.symm.trans hstored

/-- A batch is refused as a whole, or it is one more commit. -/
theorem apply_cases (db : Database) (info : CommitInfo) (batch : List Mutation) :
    (∃ e, batch.findSome? db.refusal? = some e ∧ db.apply info batch = (.error e, db)) ∨
      batch.findSome? db.refusal? = none ∧ db.apply info batch = (.ok ⟨db.commits.length + 1⟩,
        batch.foldl (change ⟨db.commits.length + 1⟩) { db with commits := db.commits ++ [info] }) := by
  unfold apply
  cases hfault : batch.findSome? db.refusal? with
  | some e => exact .inl ⟨e, rfl, rfl⟩
  | none => exact .inr ⟨rfl, rfl⟩

/-- A batch that is refused changes nothing. -/
theorem apply_of_error {info : CommitInfo} {batch : List Mutation} {e : Error}
    (h : (db.apply info batch).1 = .error e) : db.apply info batch = (.error e, db) := by
  rcases db.apply_cases info batch with ⟨e', -, ha⟩ | ⟨-, ha⟩ <;> rw [ha] at h
  · cases h
    exact ha
  · cases h

/-- A batch that is not refused is carried out change by change. -/
theorem apply_eq_ok {info : CommitInfo} {batch : List Mutation} {commit : CommitId}
    {db' : Database} (ha : db.apply info batch = (.ok commit, db')) :
    batch.findSome? db.refusal? = none ∧ commit = ⟨db.commits.length + 1⟩ ∧
      db' = batch.foldl (change commit) { db with commits := db.commits ++ [info] } := by
  rcases db.apply_cases info batch with ⟨e, -, h⟩ | ⟨hnone, h⟩ <;> rw [h] at ha
  · cases ha
  · cases ha
    exact ⟨hnone, rfl, rfl⟩

/-- A batch that is not refused is recorded as one more commit. -/
theorem commits_apply {info : CommitInfo} {batch : List Mutation} {commit : CommitId}
    {db' : Database} (ha : db.apply info batch = (.ok commit, db')) :
    db'.commits = db.commits ++ [info] := by
  obtain ⟨-, -, rfl⟩ := apply_eq_ok ha
  exact commits_foldl_change ..

theorem commits_length_apply {info : CommitInfo} {batch : List Mutation} {commit : CommitId}
    {db' : Database} (ha : db.apply info batch = (.ok commit, db')) :
    db'.commits.length = db.commits.length + 1 := by
  rw [commits_apply ha, List.length_append]
  rfl

/-- A batch about rows whose identities were given out before uses up no others. -/
theorem lastId_apply {info : CommitInfo} {batch : List Mutation} {commit : CommitId}
    {db' : Database} (ha : db.apply info batch = (.ok commit, db'))
    (hle : ∀ kind id, (kind, id) ∈ batch.filterMap Mutation.target? → id.val ≤ db.lastId kind)
    (kind : Kind) : db'.lastId kind = db.lastId kind := by
  have hfold : ∀ (commit : CommitId) (db : Database),
      (∀ kind id, (kind, id) ∈ batch.filterMap Mutation.target? → id.val ≤ db.lastId kind) →
      (batch.foldl (change commit) db).lastId kind = db.lastId kind := by
    intro commit
    clear ha hle
    induction batch with
    | nil => exact fun _ _ => rfl
    | cons m batch ih =>
      intro db hle
      have hchange := lastId_change_of_le commit fun kind id hm =>
        hle kind id (List.mem_filterMap.2 ⟨m, List.mem_cons_self .., hm⟩)
      rw [List.foldl_cons, ih _ fun kind id hmem => ?_, hchange]
      rw [hchange]
      exact hle kind id (((List.sublist_cons_self m batch).filterMap _).subset hmem)
  obtain ⟨-, -, rfl⟩ := apply_eq_ok ha
  exact hfold _ _ hle

/-- A batch that is carried out. -/
structure Applies (db : Database) (batch : List Mutation) (commit : CommitId) (db' : Database) :
    Prop where
  commit_eq : commit.val = db.commits.length + 1
  commits_length : db'.commits.length = db.commits.length + 1
  sound : db'.Sound
  lastId_le : ∀ kind, db.lastId kind ≤ db'.lastId kind
  accepted : ∀ m ∈ batch, db.refusal? m = none
  row?_of_not_mem : ∀ ⦃kind id⦄, (kind, id) ∉ batch.filterMap Mutation.target? →
    db'.row? kind id = db.row? kind id
  row?_of_mem : (batch.filterMap Mutation.target?).Nodup → ∀ m ∈ batch, ∀ ⦃kind id⦄,
    m.target? = some (kind, id) → db'.row? kind id = m.result commit

theorem applies_apply (h : db.Sound) {info : CommitInfo} {batch : List Mutation}
    {commit : CommitId} {db' : Database} (ha : db.apply info batch = (.ok commit, db')) :
    db.Applies batch commit db' := by
  have hlen := commits_length_apply ha
  obtain ⟨hnone, rfl, rfl⟩ := apply_eq_ok ha
  have hsound : ({ db with commits := db.commits ++ [info] } : Database).Sound := by
    refine ⟨h.dbId_eq, ?_, h.id_le, h.lastId_nonneg⟩
    intro kind id row hrow
    obtain ⟨c, hc, hle⟩ := h.stamped hrow
    refine ⟨c, hc, Int.le_trans hle ?_⟩
    dsimp only
    rw [List.length_append, List.length_singleton]
    omega
  have hcommit : ((⟨db.commits.length + 1⟩ : CommitId).val : Int) ≤
      ({ db with commits := db.commits ++ [info] } : Database).commits.length := by
    dsimp only
    rw [List.length_append]
    exact Int.le_refl _
  obtain ⟨hs, hl⟩ := sound_foldl_change ⟨db.commits.length + 1⟩ batch hsound hcommit
  constructor
  case commit_eq => rfl
  case commits_length => exact hlen
  case sound => exact hs
  case lastId_le => exact hl
  case accepted => exact List.findSome?_eq_none_iff.1 hnone
  case row?_of_not_mem => exact fun kind id hmem => row?_foldl_of_not_mem hmem _
  case row?_of_mem => exact fun hn m hm kind id ht => row?_foldl_of_mem hn hm ht _

end Database

end StagedEdits
