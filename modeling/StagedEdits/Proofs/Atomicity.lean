import StagedEdits.Proofs.Repetition

/-!
# An atomic database with fresh identities

What holds of a database that starts empty, whatever calls are made on it by whomever, as long as no
table runs out of identities.

* `Database.Atomic`: a batch is refused as a whole, or it is one more commit, and a row is what the
  last change about it says.
* `Database.ListsInOrder`: the rows of a table are listed in the order of the identities they carry.
* `Database.le_lastId_of_used`: no identity that was used, be it reserved or that of a row that was
  stored and perhaps deleted since, is above the last one of its table.  So those that are reserved
  next are new ones.
-/

namespace StagedEdits

/-- The identity under which a change stores a row of the given table. -/
def Mutation.storedId? (kind : Kind) : Mutation → Option DbId
  | insert k row => if k = kind then row.dbId? else none
  | update k row => if k = kind then row.dbId? else none
  | delete .. => none

theorem Mutation.storedId?_eq_some_iff {m : Mutation} {kind : Kind} {id : DbId}
    (commit : CommitId) :
    m.storedId? kind = some id ↔
      m.target? = some (kind, id) ∧ ∃ row, m.result commit = some row := by
  have hstored : ∀ (k : Kind) (row : Record), (if k = kind then row.dbId? else none) = some id ↔
      row.dbId?.map (k, ·) = some (kind, id) := by
    intro k row
    by_cases hk : k = kind <;> simp [hk]
  cases m with
  | insert k row => exact (hstored k row).trans (and_iff_left ⟨_, rfl⟩).symm
  | update k row => exact (hstored k row).trans (and_iff_left ⟨_, rfl⟩).symm
  | delete k d => exact iff_of_false nofun fun h => nomatch h.2

/-- The identities of a table that a call uses: those that it reserves, or those of all rows that
its batch stores, also where a later change of the batch replaces or deletes the row. -/
def ForeignCall.uses (kind : Kind) (db : Database) : ForeignCall → List DbId
  | reserve k count => if k = kind then (db.reserve k count).1 else []
  | write info batch =>
    match (db.apply info batch).1 with
    | .error _ => []
    | .ok _ => batch.filterMap (Mutation.storedId? kind)

/-- A batch uses nothing if it is refused, and otherwise the identities that it stores. -/
theorem ForeignCall.uses_write (kind : Kind) (db : Database) (info : CommitInfo)
    (batch : List Mutation) :
    ((write info batch).uses kind db = [] ∧ (db.apply info batch).2 = db) ∨
      ((write info batch).uses kind db = batch.filterMap (Mutation.storedId? kind) ∧
        ∃ commit : CommitId, (db.apply info batch).2 =
          batch.foldl (Database.change commit) { db with commits := db.commits ++ [info] }) := by
  unfold uses
  dsimp only
  rcases db.apply_cases info batch with ⟨e, -, heq⟩ | ⟨-, heq⟩
  · rw [heq]
    exact .inl ⟨rfl, rfl⟩
  · rw [heq]
    exact .inr ⟨rfl, _, rfl⟩

namespace Database

/-- Calls made one after the other, none of which uses up the identities of a table. -/
def InRange : Database → List ForeignCall → Prop
  | _, [] => True
  | db, x :: calls => x.InRange db ∧ (db.afterCall x).InRange calls

/-- The identities of a table that were used by calls made one after the other. -/
def used (kind : Kind) : Database → List ForeignCall → List DbId
  | _, [] => []
  | db, x :: calls => x.uses kind db ++ (db.afterCall x).used kind calls

/-- A batch is refused, and the database stays as it is, or it is recorded as one more commit, whose
number it gets.  Then a row is what the last change about it stores, stamped with the commit, or it
is gone if that deletes it; and it is the one that was there if no change is about it. -/
def Atomic (db : Database) (info : CommitInfo) (batch : List Mutation) : Prop :=
  (∃ e, batch.findSome? db.refusal? = some e ∧ db.apply info batch = (.error e, db)) ∨
    ∃ db', batch.findSome? db.refusal? = none ∧
      db.apply info batch = (.ok ⟨db'.commits.length⟩, db') ∧ db'.commits = db.commits ++ [info] ∧
      ∀ kind id, db'.row? kind id =
        (Mutation.lastAbout? batch kind id).elim (db.row? kind id)
          (Mutation.result ⟨db'.commits.length⟩)

/-- The rows of a table are listed in strictly increasing order of their identities, each of them
stored under the identity that it carries. -/
structure ListsInOrder (db : Database) (kind : Kind) : Prop where
  increasing : ∃ ids : List DbId, (db.rows kind).map Record.dbId? = ids.map some ∧
    ids.Pairwise fun d e => d.val < e.val
  filed : ∀ row id, row ∈ db.rows kind ∧ row.dbId? = some id ↔ db.row? kind id = some row

/-- As many identities as were asked for, none twice and none that was used before. -/
structure Fresh (used : List DbId) (count : Nat) (ids : List DbId) : Prop where
  length_eq : ids.length = count
  nodup : ids.Nodup
  not_mem_used : ∀ id ∈ ids, id ∉ used

variable {db : Database} {kind : Kind} {calls : List ForeignCall}

/-! ### Batches -/

theorem atomic (db : Database) (info : CommitInfo) (batch : List Mutation) :
    db.Atomic info batch := by
  rcases db.apply_cases info batch with hrefused | ⟨hnone, heq⟩
  · exact .inl hrefused
  · have hlen := commits_length_apply heq
    refine .inr ⟨_, hnone, heq.trans ?_, commits_apply heq, fun kind id => ?_⟩
    · rw [hlen]
      rfl
    · rw [hlen]
      exact row?_foldl _ batch { db with commits := db.commits ++ [info] } kind id

/-! ### Rows -/

theorem Filed.listsInOrder (h : db.Filed) (kind : Kind) : db.ListsInOrder kind where
  increasing := ⟨(db.table kind).keys, h.dbIds_rows kind,
    (db.table kind).pairwise_keys.imp fun hlt => Int.compare_eq_lt.1 hlt⟩
  filed := fun row id => by
    rw [mem_rows_iff]
    constructor
    · rintro ⟨⟨id', hrow⟩, hid⟩
      obtain rfl := Option.some.inj ((h hrow).symm.trans hid)
      exact hrow
    · exact fun hrow => ⟨⟨id, hrow⟩, h hrow⟩

/-! ### Identities that were used -/

/-- A batch leaves no identity that it stores above the last one of the table. -/
theorem lastId_foldl_change (commit : CommitId) (batch : List Mutation) (db : Database)
    (kind : Kind) :
    ∀ id ∈ batch.filterMap (Mutation.storedId? kind),
      id.val ≤ (batch.foldl (change commit) db).lastId kind := by
  induction batch using List.reverseRecOn with
  | nil => exact fun id hid => absurd hid List.not_mem_nil
  | append_singleton batch m ih =>
    obtain ⟨hle, hstored⟩ := lastId_change commit (batch.foldl (change commit) db) m kind
    intro id hid
    rw [List.foldl_append, List.foldl_cons, List.foldl_nil]
    rw [List.filterMap_append, List.mem_append] at hid
    rcases hid with hid | hid
    · exact Int.le_trans (ih id hid) hle
    · obtain ⟨m', hm', hid'⟩ := List.mem_filterMap.1 hid
      obtain rfl := List.mem_singleton.1 hm'
      obtain ⟨ht, row, hrow⟩ := (Mutation.storedId?_eq_some_iff commit).1 hid'
      exact hstored id row ht hrow

theorem le_lastId_of_uses (h : db.Sound) {x : ForeignCall} (hx : x.InRange db) {id : DbId}
    (hid : id ∈ x.uses kind db) : id.val ≤ (db.afterCall x).lastId kind := by
  cases x with
  | reserve k count =>
    change id ∈ if k = kind then (db.reserve k count).1 else [] at hid
    change _ ≤ (db.reserve k count).2.lastId kind
    split at hid
    next hk =>
      subst hk
      rw [ids_reserve h hx] at hid
      obtain ⟨i, hi, rfl⟩ := List.mem_map.1 hid
      have hi := List.mem_range.1 hi
      rw [lastId_reserve_of_hasRoom h hx, if_pos rfl]
      dsimp only
      omega
    next => exact absurd hid List.not_mem_nil
  | write info batch =>
    change _ ≤ (db.apply info batch).2.lastId kind
    rcases ForeignCall.uses_write kind db info batch with ⟨huses, -⟩ | ⟨huses, commit, heq⟩
    · rw [huses] at hid
      exact absurd hid List.not_mem_nil
    · rw [huses] at hid
      rw [heq]
      exact lastId_foldl_change commit batch _ kind id hid

/-- Calls keep a database sound, and no identity that was used is above the last one. -/
theorem le_lastId_of_used (h : db.Sound) (hin : db.InRange calls) :
    (db.afterCalls calls).Sound ∧ ∀ kind, db.lastId kind ≤ (db.afterCalls calls).lastId kind ∧
      ∀ id ∈ db.used kind calls, id.val ≤ (db.afterCalls calls).lastId kind := by
  induction calls generalizing db with
  | nil => exact ⟨h, fun kind => ⟨Int.le_refl _, fun id hid => absurd hid List.not_mem_nil⟩⟩
  | cons x calls ih =>
    have hadv := advances_afterCall h hin.1
    obtain ⟨hsound, hlast⟩ := ih hadv.sound hin.2
    refine ⟨hsound, fun kind => ⟨Int.le_trans (hadv.lastId_le kind) (hlast kind).1, ?_⟩⟩
    intro id hid
    rcases List.mem_append.1 hid with hid | hid
    · exact Int.le_trans (le_lastId_of_uses h hin.1 hid) (hlast kind).1
    · exact (hlast kind).2 id hid

/-- A row that a call leaves was there before, or its identity is one that the call uses. -/
theorem mem_uses_of_row? {x : ForeignCall} {id : DbId} {row : Record}
    (h : (db.afterCall x).row? kind id = some row) :
    db.row? kind id = some row ∨ id ∈ x.uses kind db := by
  cases x with
  | reserve k count => exact .inl h
  | write info batch =>
    change (db.apply info batch).2.row? kind id = some row at h
    rcases ForeignCall.uses_write kind db info batch with ⟨-, heq⟩ | ⟨huses, commit, heq⟩
    · rw [heq] at h
      exact .inl h
    · rw [heq, row?_foldl] at h
      rw [huses]
      cases hlast : Mutation.lastAbout? batch kind id with
      | none =>
        rw [hlast] at h
        exact .inl h
      | some m =>
        rw [hlast] at h
        obtain ⟨hm, ht⟩ := Mutation.lastAbout?_eq_some hlast
        exact .inr (List.mem_filterMap.2
          ⟨m, hm, (Mutation.storedId?_eq_some_iff commit).2 ⟨ht, row, h⟩⟩)

/-- So the identities of all rows were used. -/
theorem mem_used_of_row? {id : DbId} {row : Record}
    (h : (db.afterCalls calls).row? kind id = some row) :
    db.row? kind id = some row ∨ id ∈ db.used kind calls := by
  induction calls generalizing db with
  | nil => exact .inl h
  | cons x calls ih =>
    rcases ih h with hrow | hid
    · exact (mem_uses_of_row? hrow).imp_right (List.mem_append_left _)
    · exact .inr (List.mem_append_right _ hid)

/-- Identities above all that were used are new ones. -/
theorem fresh_reserve (h : db.Sound) {used : List DbId} {count : Nat} (hroom : db.HasRoom kind count)
    (hused : ∀ id ∈ used, id.val ≤ db.lastId kind) : Fresh used count (db.reserve kind count).1 := by
  rw [ids_reserve h hroom]
  refine ⟨by rw [List.length_map, List.length_range], ?_, fun id hid hmem => ?_⟩
  · refine List.nodup_range.map fun i j hij => ?_
    have hval := congrArg DbId.val hij
    dsimp only at hval
    omega
  · obtain ⟨i, -, rfl⟩ := List.mem_map.1 hid
    have hle := hused _ hmem
    dsimp only at hle
    omega

/-- After any calls on an empty database that kept within the identities of its tables: every batch
is carried out as a whole or not at all, the rows of a table are listed in the order of the
identities they carry, and identities that are reserved were not used before, as those of all rows
were. -/
theorem atomic_of_calls (h : empty.InRange calls) :
    (∀ info batch, (empty.afterCalls calls).Atomic info batch) ∧
      ∀ kind, (empty.afterCalls calls).ListsInOrder kind ∧
        (∀ id row, (empty.afterCalls calls).row? kind id = some row → id ∈ empty.used kind calls) ∧
        ∀ count, (empty.afterCalls calls).HasRoom kind count →
          Fresh (empty.used kind calls) count ((empty.afterCalls calls).reserve kind count).1 := by
  obtain ⟨hsound, hlast⟩ := le_lastId_of_used sound_empty h
  refine ⟨fun info batch => atomic _ info batch, fun kind => ⟨hsound.filed.listsInOrder kind, ?_, ?_⟩⟩
  · intro id row hrow
    exact (mem_used_of_row? hrow).resolve_left (by rw [row?_empty]; exact nofun)
  · exact fun count hroom => fresh_reserve hsound hroom (hlast kind).2

/-- Two identities are reserved and one of them is stored, together with another that was not, and
deleted by the same batch; a batch that updates a row which is not there is refused.  Then the next
batch stores and deletes a row again, and the identities reserved after all are those after the
greatest that was stored. -/
theorem atomic_of_deleted_row : ∃ (calls : List ForeignCall) (info : CommitInfo)
    (batch : List Mutation), empty.InRange calls ∧ calls.length = 3 ∧
      (empty.afterCalls calls).Atomic info batch ∧
      ((empty.afterCalls calls).apply info batch).1 = .ok ⟨2⟩ ∧
      (empty.afterCalls calls).ListsInOrder .alternative ∧
      empty.used .alternative calls = [⟨1⟩, ⟨2⟩, ⟨1⟩, ⟨7⟩] ∧
      Fresh (empty.used .alternative calls) 2 [⟨8⟩, ⟨9⟩] := by
  let row (id : Int) (name : String) : Record := .ofList [("id", .integer id), ("name", .text name)]
  let info : CommitInfo := ⟨"base", "tester"⟩
  let calls : List ForeignCall := [.reserve .alternative 2,
    .write info [.insert .alternative (row 1 "a"), .insert .alternative (row 7 "b"),
      .delete .alternative ⟨1⟩],
    .write info [.insert .alternative (row 3 "c"), .update .alternative (row 42 "d")]]
  let batch : List Mutation := [.insert .alternative (row 8 "e"), .delete .alternative ⟨7⟩,
    .update .alternative (row 7 "f"), .delete .alternative ⟨8⟩]
  have hroom : ∀ {db : Database} {count : Nat}, decide (db.lastId .alternative + count < 2 ^ 63) = true →
      db.HasRoom .alternative count := of_decide_eq_true
  have hin : empty.InRange calls := ⟨hroom (by decide +kernel), trivial, trivial, trivial⟩
  obtain ⟨hatomic, htable⟩ := atomic_of_calls hin
  obtain ⟨hlists, -, hfresh⟩ := htable .alternative
  have hids : ((empty.afterCalls calls).reserve .alternative 2).1 = [⟨8⟩, ⟨9⟩] := by decide +kernel
  have hnew := hfresh 2 (hroom (by decide +kernel))
  rw [hids] at hnew
  exact ⟨calls, info, batch, hin, rfl, hatomic info batch, by decide +kernel, hlists,
    by decide +kernel, hnew⟩

end Database

end StagedEdits
