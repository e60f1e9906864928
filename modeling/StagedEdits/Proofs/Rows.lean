import StagedEdits.Proofs.Session
import StagedEdits.Session.Reconcile

/-!
# Translated rows, field by field

Rows of the database and rows of a session differ in the fields of references only.
`localRow?_eq_some_iff` and `storedRow_eq_ok_iff` say what the two translations give, field by field
(`Record.Translates`).
-/

namespace StagedEdits

namespace Kind

/-- The fields of references. -/
def referenceFields (k : Kind) : List String := k.references.map (·.1)

theorem nodup_referenceFields (k : Kind) : k.referenceFields.Nodup := by cases k <;> decide

theorem idField_not_mem_referenceFields (k : Kind) : Record.idField ∉ k.referenceFields := by
  cases k <;> decide

theorem commitField_not_mem_referenceFields (k : Kind) :
    Record.commitField ∉ k.referenceFields := by
  cases k <;> decide

theorem mem_referenceFields {k : Kind} {e : String × Kind} (h : e ∈ k.references) :
    e.1 ∈ k.referenceFields :=
  List.mem_map.2 ⟨e, h, rfl⟩

end Kind

/-! ### Records that differ in some fields -/

/-- `r` is `row` with each listed field translated as `R` says. -/
structure Record.Translates (R : String × Kind → Option Value → Option Value → Prop)
    (refs : List (String × Kind)) (row r : Record) : Prop where
  same : ∀ field, field ∉ refs.map (·.1) → r.get? field = row.get? field
  translated : ∀ e ∈ refs, R e (row.get? e.1) (r.get? e.1)

namespace Record

variable {R : String × Kind → Option Value → Option Value → Prop} {refs : List (String × Kind)}
  {row r : Record}

theorem translates_nil : Translates R [] row r ↔ row = r := by
  constructor
  · intro h
    exact SortedMap.ext_get? fun field => (h.same field List.not_mem_nil).symm
  · rintro rfl
    exact ⟨fun _ _ => rfl, fun _ h => absurd h List.not_mem_nil⟩

/-- Translating fields one after the other. -/
theorem translates_cons {e : String × Kind} (he : e.1 ∉ refs.map (·.1)) :
    Translates R (e :: refs) row r ↔
      ∃ row', Translates R [e] row row' ∧ Translates R refs row' r := by
  constructor
  · intro h
    have hrow : ∃ row' : Record, row'.get? e.1 = r.get? e.1 ∧
        ∀ field, field ≠ e.1 → row'.get? field = row.get? field := by
      cases hv : r.get? e.1 with
      | none =>
        refine ⟨row.erase e.1, by rw [SortedMap.get?_erase, if_pos rfl], fun field hne => ?_⟩
        rw [SortedMap.get?_erase, if_neg hne]
      | some v =>
        refine ⟨row.insert e.1 v, by rw [SortedMap.get?_insert, if_pos rfl], fun field hne => ?_⟩
        rw [SortedMap.get?_insert, if_neg hne]
    obtain ⟨row', hself, hother⟩ := hrow
    refine ⟨row', ⟨?_, ?_⟩, ⟨?_, ?_⟩⟩
    · intro field hne
      exact hother field (by simpa using hne)
    · intro e' he'
      obtain rfl := List.mem_singleton.1 he'
      rw [hself]
      exact h.translated e' (List.mem_cons_self ..)
    · intro field hfield
      by_cases hf : field = e.1
      · rw [hf, hself]
      · rw [hother field hf]
        refine h.same field ?_
        rw [List.map_cons, List.mem_cons, not_or]
        exact ⟨hf, hfield⟩
    · intro e' he'
      rw [hother e'.1 fun hf => he (hf ▸ List.mem_map.2 ⟨e', he', rfl⟩)]
      exact h.translated e' (List.mem_cons_of_mem _ he')
  · rintro ⟨row', hfirst, hrest⟩
    constructor
    · intro field hfield
      rw [List.map_cons, List.mem_cons, not_or] at hfield
      rw [hrest.same field hfield.2, hfirst.same field (by simpa using hfield.1)]
    · intro e' he'
      rcases List.mem_cons.1 he' with rfl | he'
      · rw [hrest.same e'.1 he]
        exact hfirst.translated e' (List.mem_cons_self ..)
      · have hne : e'.1 ∉ [e].map (·.1) := by
          rw [List.map_singleton, List.mem_singleton]
          exact fun hf => he (hf ▸ List.mem_map.2 ⟨e', he', rfl⟩)
        rw [← hfirst.same e'.1 hne]
        exact hrest.translated e' he'

theorem translates_singleton {e : String × Kind} :
    Translates R [e] row r ↔ R e (row.get? e.1) (r.get? e.1) ∧
      ∀ field, field ≠ e.1 → r.get? field = row.get? field := by
  constructor
  · intro h
    exact ⟨h.translated e (List.mem_cons_self ..), fun field hf => h.same field (by simpa using hf)⟩
  · rintro ⟨hself, hother⟩
    refine ⟨fun field hf => hother field (by simpa using hf), fun e' he' => ?_⟩
    rw [List.mem_singleton.1 he']
    exact hself

/-- Replacing the value of a field. -/
theorem eq_insert_iff {field : String} {v : Value} :
    row.insert field v = r ↔ r.get? field = some v ∧
      ∀ field', field' ≠ field → r.get? field' = row.get? field' := by
  constructor
  · rintro rfl
    exact ⟨by rw [SortedMap.get?_insert, if_pos rfl],
      fun field' hne => by rw [SortedMap.get?_insert, if_neg hne]⟩
  · rintro ⟨hself, hother⟩
    refine SortedMap.ext_get? fun field' => ?_
    rw [SortedMap.get?_insert]
    split
    next hf => rw [hf, hself]
    next hf => exact (hother field' hf).symm

theorem eq_iff_get? (field : String) :
    row = r ↔ r.get? field = row.get? field ∧
      ∀ field', field' ≠ field → r.get? field' = row.get? field' := by
  constructor
  · rintro rfl
    exact ⟨rfl, fun _ _ => rfl⟩
  · rintro ⟨hself, hother⟩
    refine SortedMap.ext_get? fun field' => ?_
    by_cases hf : field' = field
    · rw [hf, hself]
    · exact (hother field' hf).symm

/-- A record can be translated if every listed field can. -/
theorem exists_translates (row : Record) (hn : (refs.map (·.1)).Nodup)
    (h : ∀ e ∈ refs, ∃ w, R e (row.get? e.1) (some w)) : ∃ r, Translates R refs row r := by
  induction refs generalizing row with
  | nil => exact ⟨row, translates_nil.2 rfl⟩
  | cons e refs ih =>
    obtain ⟨he, hn⟩ := List.nodup_cons.1 hn
    obtain ⟨w, hw⟩ := h e (List.mem_cons_self ..)
    have hfirst : Translates R [e] row (row.insert e.1 w) := by
      refine translates_singleton.2 ⟨?_, fun field hf => ?_⟩
      · rw [SortedMap.get?_insert, if_pos rfl]
        exact hw
      · rw [SortedMap.get?_insert, if_neg hf]
    have hrest : ∀ e' ∈ refs, ∃ v, R e' ((row.insert e.1 w).get? e'.1) (some v) := by
      intro e' he'
      have hne : e'.1 ≠ e.1 := fun heq => he (List.mem_map.2 ⟨e', he', heq⟩)
      rw [SortedMap.get?_insert, if_neg hne]
      exact h e' (List.mem_cons_of_mem _ he')
    obtain ⟨r, hr⟩ := ih _ hn hrest
    exact ⟨r, (translates_cons he).2 ⟨_, hfirst, hr⟩⟩

end Record

/-- Rows that differ in the fields of references only. -/
def Record.SameButReferences (kind : Kind) (a b : Record) : Prop :=
  ∀ field, field ∉ kind.referenceFields → a.get? field = b.get? field

/-- An identity and a stamp leave the other fields of a row alone. -/
theorem Record.get?_stamped_of_ne (row : Record) (v w : Value) {field : String}
    (hid : field ≠ Record.idField) (hcommit : field ≠ Record.commitField) :
    ((row.insert Record.idField v).insert Record.commitField w).get? field = row.get? field := by
  rw [SortedMap.get?_insert, if_neg hcommit, SortedMap.get?_insert, if_neg hid]

/-- References are among the fields that are left alone. -/
theorem Record.get?_stamped_of_reference (row : Record) (v w : Value) {kind : Kind}
    {e : String × Kind} (he : e ∈ kind.references) :
    ((row.insert Record.idField v).insert Record.commitField w).get? e.1 = row.get? e.1 := by
  have hfield := Kind.mem_referenceFields he
  refine row.get?_stamped_of_ne v w (fun heq => ?_) fun heq => ?_
  · exact kind.idField_not_mem_referenceFields (heq ▸ hfield)
  · exact kind.commitField_not_mem_referenceFields (heq ▸ hfield)

namespace Record.SameButReferences

variable {kind : Kind} {a b : Record}

theorem dbId? (h : a.SameButReferences kind b) : a.dbId? = b.dbId? := by
  unfold Record.dbId?
  rw [h _ kind.idField_not_mem_referenceFields]

theorem commitId? (h : a.SameButReferences kind b) : a.commitId? = b.commitId? := by
  unfold Record.commitId?
  rw [h _ kind.commitField_not_mem_referenceFields]

end Record.SameButReferences

theorem bind_eq_ok_iff {α β : Type} {x : Except Error α} {f : α → Except Error β} {b : β} :
    x >>= f = .ok b ↔ ∃ a, x = .ok a ∧ f a = .ok b := by
  cases x with
  | error e => exact ⟨(fun h => nomatch h), (fun ⟨_, h, _⟩ => nomatch h)⟩
  | ok a =>
    constructor
    · exact fun h => ⟨a, rfl, h⟩
    · rintro ⟨a', h, hf⟩
      cases h
      exact hf

namespace Session

variable {s : Session}

/-! ### Reading rows -/

/-- What a session makes of the value of a reference field: null stays, and the identity of a row
becomes a reference to the item that stands for it. -/
def ReadsAs (s : Session) (target : Kind) (v w : Option Value) : Prop :=
  (v.getD .null = .null ∧ w = v) ∨
    ∃ n id, v = some (.integer n) ∧ s.itemOfRow? target ⟨n⟩ = some id ∧ w = some (.ref id)

/-- Reading a single field. -/
theorem readField_eq_some_iff {row r : Record} {field : String} {target : Kind} :
    (match row.value field with
      | .null => some row
      | v => (s.localReference? target v).map fun id => row.insert field (.ref id)) = some r ↔
    s.ReadsAs target (row.get? field) (r.get? field) ∧
      ∀ field', field' ≠ field → r.get? field' = row.get? field' := by
  unfold ReadsAs Record.value
  have hnot : ∀ {v : Value}, row.get? field = some v → v ≠ .null →
      ((s.localReference? target v).map (fun id => row.insert field (.ref id)) = some r ↔
        (((some v).getD .null = .null ∧ r.get? field = some v) ∨
          ∃ n id, some v = some (.integer n) ∧ s.itemOfRow? target ⟨n⟩ = some id ∧
            r.get? field = some (.ref id)) ∧
        ∀ field', field' ≠ field → r.get? field' = row.get? field') := by
    intro v hv hne
    constructor
    · intro h
      obtain ⟨id, hid, hins⟩ := Option.map_eq_some_iff.1 h
      obtain ⟨n, hn, hrow⟩ := Option.bind_eq_some_iff.1 hid
      obtain ⟨hself, hother⟩ := Record.eq_insert_iff.1 hins
      refine ⟨.inr ⟨n, id, ?_, hrow, hself⟩, hother⟩
      cases v <;> simp_all [Value.integer?]
    · rintro ⟨⟨hnull, -⟩ | ⟨n, id, hn, hrow, hself⟩, hother⟩
      · exact absurd hnull hne
      · obtain rfl := Option.some.inj hn
        refine Option.map_eq_some_iff.2 ⟨id, ?_, Record.eq_insert_iff.2 ⟨hself, hother⟩⟩
        exact hrow
  cases hv : row.get? field with
  | none =>
    simp only [Option.getD_none, true_and, Option.some_inj, reduceCtorEq, false_and, exists_false,
      or_false]
    rw [Record.eq_iff_get? field, hv]
  | some v =>
    cases v with
    | null =>
      simp only [Option.getD_some, true_and, Option.some_inj, reduceCtorEq, false_and, exists_false,
        or_false]
      rw [Record.eq_iff_get? field, hv]
    | _ => exact hnot hv (by rintro ⟨⟩)

theorem localRow?_eq_some_iff {kind : Kind} {row r : Record} :
    s.localRow? kind row = some r ↔
      row.Translates (fun e v w => s.ReadsAs e.2 v w) kind.references r := by
  unfold localRow?
  have hn := kind.nodup_referenceFields
  unfold Kind.referenceFields at hn
  generalize kind.references = refs at hn ⊢
  induction refs generalizing row with
  | nil =>
    rw [List.foldlM_nil, Record.translates_nil]
    exact Option.some_inj
  | cons e refs ih =>
    obtain ⟨field, target⟩ := e
    obtain ⟨he, hrefs⟩ := List.nodup_cons.1 hn
    rw [List.foldlM_cons, Option.bind_eq_bind, Option.bind_eq_some_iff, Record.translates_cons he]
    refine exists_congr fun row' => and_congr ?_ (ih hrefs)
    rw [Record.translates_singleton]
    exact readField_eq_some_iff

/-- A row can be read if items stand for the rows that it refers to. -/
theorem exists_localRow? {kind : Kind} {row : Record}
    (h : ∀ e ∈ kind.references, ∃ n id, row.get? e.1 = some (.integer n) ∧
      s.itemOfRow? e.2 ⟨n⟩ = some id) : ∃ r, s.localRow? kind row = some r := by
  obtain ⟨r, hr⟩ := Record.exists_translates (R := fun e v w => s.ReadsAs e.2 v w) row
    kind.nodup_referenceFields fun e he => by
      obtain ⟨n, id, hn, hid⟩ := h e he
      exact ⟨.ref id, .inr ⟨n, id, hn, hid, rfl⟩⟩
  exact ⟨r, localRow?_eq_some_iff.2 hr⟩

/-- Sessions that bind the rows of the kinds referred to alike read a row alike. -/
theorem localRow?_congr {s' : Session} {kind : Kind}
    (h : ∀ target ∈ kind.referenced, ∀ d, s'.itemOfRow? target d = s.itemOfRow? target d)
    (row : Record) : s'.localRow? kind row = s.localRow? kind row := by
  refine Option.ext fun r => ?_
  rw [localRow?_eq_some_iff, localRow?_eq_some_iff]
  have hreads : ∀ e ∈ kind.references, ∀ v w, s'.ReadsAs e.2 v w ↔ s.ReadsAs e.2 v w := by
    intro e he v w
    unfold ReadsAs
    simp only [h e.2 (List.mem_map.2 ⟨e, he, rfl⟩)]
  constructor
  · intro ht
    exact ⟨ht.same, fun e he => (hreads e he _ _).1 (ht.translated e he)⟩
  · intro ht
    exact ⟨ht.same, fun e he => (hreads e he _ _).2 (ht.translated e he)⟩

/-- A row that is read differs in reference fields only. -/
theorem same_of_localRow? {kind : Kind} {row r : Record} (h : s.localRow? kind row = some r) :
    row.SameButReferences kind r :=
  fun field hf => ((localRow?_eq_some_iff.1 h).same field hf).symm

theorem mem_readable_iff {kind : Kind} {rows : List Record} {r : Record} :
    r ∈ s.readable kind rows ↔ ∃ row ∈ rows, s.localRow? kind row = some r :=
  List.mem_filterMap

/-- Reading rows does not change their identities. -/
theorem nodup_readable {kind : Kind} {rows : List Record}
    (h : (rows.filterMap Record.dbId?).Nodup) :
    ((s.readable kind rows).filterMap Record.dbId?).Nodup := by
  refine List.Nodup.sublist ?_ h
  unfold readable
  rw [List.filterMap_filterMap]
  induction rows with
  | nil => exact .slnil
  | cons row rows ih =>
    have ih := ih (List.Nodup.sublist ((List.sublist_cons_self row rows).filterMap _) h)
    cases hr : s.localRow? kind row with
    | none =>
      rw [List.filterMap_cons_none (by rw [hr]; rfl)]
      exact ih.trans ((List.sublist_cons_self row rows).filterMap _)
    | some r =>
      have hd : r.dbId? = row.dbId? := (same_of_localRow? hr).dbId?.symm
      cases hrow : row.dbId? with
      | none =>
        rw [List.filterMap_cons_none (by rw [hr, Option.bind_some, hd, hrow]),
          List.filterMap_cons_none hrow]
        exact ih
      | some d =>
        rw [List.filterMap_cons_some (by rw [hr, Option.bind_some, hd, hrow]),
          List.filterMap_cons_some hrow]
        exact ih.cons_cons _

/-! ### Writing rows -/

/-- What becomes of the value of a reference field when it is written. -/
def WritesAs (s : Session) (reserved : List (ItemId × DbId)) (target : Kind)
    (v w : Option Value) : Prop :=
  (∃ id d, v = some (.ref id) ∧ s.rowOf? reserved ⟨target, id⟩ = some d ∧
    w = some (.integer d.val)) ∨
  ((∀ id, v ≠ some (.ref id)) ∧ w = v)

/-- Writing a single field. -/
theorem writeField_eq_ok_iff {reserved : List (ItemId × DbId)} {kind target : Kind}
    {row r : Record} {field : String} :
    (match row.value field with
      | .ref id =>
        match s.rowOf? reserved ⟨target, id⟩ with
        | some d => Except.ok (row.insert field (.integer d.val))
        | none => .error (Error.danglingReference kind field)
      | _ => .ok row) = .ok r ↔
    s.WritesAs reserved target (row.get? field) (r.get? field) ∧
      ∀ field', field' ≠ field → r.get? field' = row.get? field' := by
  unfold WritesAs Record.value
  have hnot : ∀ {v : Option Value}, row.get? field = v → (∀ id, v ≠ some (.ref id)) →
      ((Except.ok row : Except Error Record) = .ok r ↔
        ((∃ id d, v = some (.ref id) ∧ s.rowOf? reserved ⟨target, id⟩ = some d ∧
          r.get? field = some (.integer d.val)) ∨
          (∀ id, v ≠ some (.ref id)) ∧ r.get? field = v) ∧
        ∀ field', field' ≠ field → r.get? field' = row.get? field') := by
    rintro v rfl hno
    rw [Except.ok.injEq, Record.eq_iff_get? field]
    constructor
    · rintro ⟨hself, hother⟩
      exact ⟨.inr ⟨hno, hself⟩, hother⟩
    · rintro ⟨⟨id, d, hid, -⟩ | ⟨-, hself⟩, hother⟩
      · exact absurd hid (hno id)
      · exact ⟨hself, hother⟩
  cases hv : row.get? field with
  | none => exact hnot hv nofun
  | some v =>
    cases v with
    | ref id =>
      rw [Option.getD_some]
      dsimp only
      cases hrow : s.rowOf? reserved ⟨target, id⟩ with
      | none =>
        constructor
        · exact fun h => nomatch h
        · rintro ⟨⟨id', d, hid, hd, -⟩ | ⟨hno, -⟩, -⟩
          · injection hid with hid
            injection hid with hid
            rw [← hid, hrow] at hd
            cases hd
          · exact absurd rfl (hno id)
      | some d =>
        dsimp only
        rw [Except.ok.injEq, Record.eq_insert_iff]
        constructor
        · rintro ⟨hself, hother⟩
          exact ⟨.inl ⟨id, d, rfl, hrow, hself⟩, hother⟩
        · rintro ⟨⟨id', d', hid, hd, hself⟩ | ⟨hno, -⟩, hother⟩
          · injection hid with hid
            injection hid with hid
            rw [← hid, hrow] at hd
            obtain rfl := Option.some.inj hd
            exact ⟨hself, hother⟩
          · exact absurd rfl (hno id)
    | _ => exact hnot hv nofun

theorem storedRow_eq_ok_iff {reserved : List (ItemId × DbId)} {item : Item} {d : DbId}
    {r : Record} :
    s.storedRow reserved item d = .ok r ↔
      ∃ row, item.content.Translates (fun e v w => s.WritesAs reserved e.2 v w)
        item.kind.references row ∧ row.insert Record.idField (.integer d.val) = r := by
  unfold storedRow
  rw [bind_eq_ok_iff]
  refine exists_congr fun row => and_congr ?_ (Iff.of_eq (Except.ok.injEq ..))
  generalize hk : item.kind = kind
  have hn := kind.nodup_referenceFields
  unfold Kind.referenceFields at hn
  generalize kind.references = refs at hn ⊢
  generalize item.content = content
  clear hk
  induction refs generalizing content with
  | nil =>
    rw [List.foldlM_nil, Record.translates_nil]
    exact Iff.of_eq (Except.ok.injEq ..)
  | cons e refs ih =>
    obtain ⟨field, target⟩ := e
    obtain ⟨he, hrefs⟩ := List.nodup_cons.1 hn
    rw [List.foldlM_cons, bind_eq_ok_iff, Record.translates_cons he]
    refine exists_congr fun row' => and_congr ?_ (ih hrefs row')
    rw [Record.translates_singleton]
    exact writeField_eq_ok_iff

/-- An item can be written if it refers to items that have rows or get some. -/
theorem exists_storedRow {reserved : List (ItemId × DbId)} {item : Item} (d : DbId)
    (h : ∀ e ∈ item.kind.references, ∃ id d, item.content.get? e.1 = some (.ref id) ∧
      s.rowOf? reserved ⟨e.2, id⟩ = some d) : ∃ r, s.storedRow reserved item d = .ok r := by
  obtain ⟨row, hrow⟩ := Record.exists_translates
    (R := fun e v w => s.WritesAs reserved e.2 v w) item.content
    item.kind.nodup_referenceFields fun e he => by
      obtain ⟨id, d, hid, hd⟩ := h e he
      exact ⟨.integer d.val, .inl ⟨id, d, hid, hd, rfl⟩⟩
  exact ⟨_, storedRow_eq_ok_iff.2 ⟨row, hrow, rfl⟩⟩

end Session

end StagedEdits
