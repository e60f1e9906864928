import StagedEdits.Proofs.Edits
import StagedEdits.Proofs.Rows

/-!
# Contents of items

`Kind.Complete` contents have the fields of their kind and no others, so that a content agrees with
a row exactly if it is the content of that row (`Item.agreesWith_iff`).  `Session.Refers` contents
refer to items of the kinds that they should, as far as these are still there.
-/

namespace StagedEdits

namespace Kind

variable {k : Kind} {content row : Record}

/-- A content with the fields of its kind and no others. -/
def Complete (k : Kind) (content : Record) : Prop :=
  ∀ field, (∃ v, content.get? field = some v) ↔ field ∈ k.fields

/-- A row with all fields of its kind. -/
def Covers (k : Kind) (row : Record) : Prop := ∀ field ∈ k.fields, ∃ v, row.get? field = some v

theorem idField_not_mem_fields (k : Kind) : Record.idField ∉ k.fields := by cases k <;> decide

theorem commitField_not_mem_fields (k : Kind) : Record.commitField ∉ k.fields := by
  cases k <;> decide

theorem referenceFields_subset (k : Kind) : ∀ field ∈ k.referenceFields, field ∈ k.fields := by
  cases k <;> decide

/-- Every field that refers to another item must have a value. -/
theorem referenceFields_subset_required (k : Kind) :
    ∀ field ∈ k.referenceFields, field ∈ k.required := by
  cases k <;> decide

theorem Complete.covers (h : k.Complete content) : k.Covers content := fun field hf => (h field).2 hf

theorem get?_contentOf (k : Kind) (row : Record) (field : String) :
    (k.contentOf row).get? field = if field ∈ k.fields then some (row.value field) else none :=
  SortedMap.get?_ofList_map ..

/-- What a row says in a field of the kind is in its content. -/
theorem get?_contentOf_of_some {field : String} {v : Value} (hf : field ∈ k.fields)
    (h : row.get? field = some v) : (k.contentOf row).get? field = some v := by
  rw [get?_contentOf, if_pos hf, Record.value, h, Option.getD_some]

theorem complete_contentOf (k : Kind) (row : Record) : k.Complete (k.contentOf row) := by
  intro field
  rw [get?_contentOf]
  split
  next h => exact ⟨fun _ => h, fun _ => ⟨_, rfl⟩⟩
  next h => exact ⟨fun ⟨_, hv⟩ => (nomatch hv), fun hf => absurd hf h⟩

/-- Two complete contents are equal if they have the same values. -/
theorem Complete.ext {content' : Record} (h : k.Complete content) (h' : k.Complete content')
    (hv : ∀ field ∈ k.fields, content.value field = content'.value field) : content = content' := by
  refine SortedMap.ext_get? fun field => ?_
  by_cases hf : field ∈ k.fields
  · obtain ⟨v, hv₁⟩ := (h field).2 hf
    obtain ⟨v', hv₂⟩ := (h' field).2 hf
    have heq := hv field hf
    unfold Record.value at heq
    rw [hv₁, hv₂] at heq ⊢
    exact congrArg some heq
  · have hnone : ∀ {c : Record}, k.Complete c → c.get? field = none := fun hc =>
      Option.eq_none_iff_forall_not_mem.2 fun v hv => hf ((hc field).1 ⟨v, hv⟩)
    rw [hnone h, hnone h']

theorem Complete.eq_contentOf_iff (h : k.Complete content) :
    content = k.contentOf row ↔ ∀ field ∈ k.fields, content.value field = row.value field := by
  have hval : ∀ field ∈ k.fields, (k.contentOf row).value field = row.value field := by
    intro field hf
    unfold Record.value
    rw [get?_contentOf, if_pos hf]
    rfl
  refine ⟨fun heq field hf => ?_, fun hv => h.ext (complete_contentOf k row) fun field hf => ?_⟩
  · rw [heq]; exact hval field hf
  · rw [hv field hf, hval field hf]

/-- The identity fields of a row are not part of its content. -/
theorem Complete.contentOf_insert (h : k.Complete content) (v w : Value) :
    k.contentOf ((content.insert Record.idField v).insert Record.commitField w) = content := by
  refine (h.eq_contentOf_iff.2 fun field hf => ?_).symm
  have hid : field ≠ Record.idField := fun he => idField_not_mem_fields k (he ▸ hf)
  have hcommit : field ≠ Record.commitField := fun he => commitField_not_mem_fields k (he ▸ hf)
  unfold Record.value
  rw [SortedMap.get?_insert, if_neg hcommit, SortedMap.get?_insert, if_neg hid]

/-- A new content is complete. -/
theorem complete_completed (k : Kind) (given : Record) : k.Complete (k.completed given) := by
  intro field
  unfold completed
  rw [SortedMap.get?_ofList_map]
  split
  next h => exact ⟨fun _ => h, fun _ => ⟨_, rfl⟩⟩
  next h => exact ⟨fun ⟨_, hv⟩ => (nomatch hv), fun hf => absurd hf h⟩

/-- Changing known fields keeps a content complete. -/
theorem Complete.insertAll {changes : Record} (h : k.Complete content)
    (hknown : Session.unknownField? k changes = none) : k.Complete (content.insertAll changes) := by
  intro field
  rw [SortedMap.get?_insertAll]
  constructor
  · rintro ⟨v, hv⟩
    rcases Option.or_eq_some_iff.1 hv with hv | ⟨-, hv⟩
    · have hnot := List.find?_eq_none.1 hknown field (SortedMap.mem_keys_iff.2 ⟨v, hv⟩)
      unfold isField at hnot
      simpa using hnot
    · exact (h field).1 ⟨v, hv⟩
  · intro hf
    obtain ⟨v, hv⟩ := (h field).2 hf
    rw [hv]
    cases changes.get? field with
    | none => exact ⟨v, rfl⟩
    | some w => exact ⟨w, rfl⟩

end Kind

namespace Item

variable {item : Item} {row : Record}

/-- Agreement with a row is to have its content. -/
theorem agreesWith_iff (h : item.kind.Complete item.content) :
    item.agreesWith (some row) = true ↔ item.content = item.kind.contentOf row := by
  rw [h.eq_contentOf_iff]
  unfold agreesWith
  simp

/-- Adopting a row takes the fields of the content that it has. -/
theorem get?_adopt (item : Item) (row : Record) (field : String) :
    (item.adopt row).content.get? field =
      (if field ∈ item.kind.fields then row.get? field else none).or (item.content.get? field) := by
  have hmem : field ∈ (item.kind.fields.filterMap fun field =>
      (row.get? field).map (field, ·)).map (·.1) ↔
        field ∈ item.kind.fields ∧ ∃ v, row.get? field = some v := by
    rw [List.mem_map]
    constructor
    · rintro ⟨e, he, rfl⟩
      obtain ⟨f, hf, he⟩ := List.mem_filterMap.1 he
      obtain ⟨v, hv, rfl⟩ := Option.map_eq_some_iff.1 he
      exact ⟨hf, v, hv⟩
    · rintro ⟨hf, v, hv⟩
      exact ⟨(field, v), List.mem_filterMap.2 ⟨field, hf, by rw [hv]; rfl⟩, rfl⟩
  have hfold := SortedMap.get?_foldl_insert (g := row.get?)
    (l := item.kind.fields.filterMap fun field => (row.get? field).map (field, ·)) (fun e he => by
      obtain ⟨f, -, he⟩ := List.mem_filterMap.1 he
      obtain ⟨v, hv, rfl⟩ := Option.map_eq_some_iff.1 he
      exact hv) item.content field
  refine hfold.trans ?_
  by_cases hf : field ∈ item.kind.fields
  · cases hv : row.get? field with
    | none => rw [if_neg (by simp [hmem, hv]), if_pos hf, Option.none_or]
    | some v => rw [if_pos (hmem.2 ⟨hf, v, hv⟩), if_pos hf, Option.some_or]
  · rw [if_neg fun h => hf (hmem.1 h).1, if_neg hf, Option.none_or]

/-- Adopting a row that has all fields gives its content. -/
theorem content_adopt (h : item.kind.Complete item.content) (hrow : item.kind.Covers row) :
    (item.adopt row).content = item.kind.contentOf row := by
  have hget : ∀ field ∈ item.kind.fields, (item.adopt row).content.get? field = row.get? field := by
    intro field hf
    obtain ⟨v, hv⟩ := hrow field hf
    rw [get?_adopt, if_pos hf, hv, Option.some_or]
  have hcomplete : item.kind.Complete (item.adopt row).content := by
    intro field
    by_cases hf : field ∈ item.kind.fields
    · rw [hget field hf]
      exact ⟨fun _ => hf, fun _ => hrow field hf⟩
    · rw [get?_adopt, if_neg hf, Option.none_or]
      exact h field
  refine hcomplete.eq_contentOf_iff.2 fun field hf => ?_
  unfold Record.value
  rw [hget field hf]

/-- A reference of an item is the value of a reference field. -/
theorem mem_references_iff {r : ItemRef} :
    r ∈ item.references ↔
      ∃ field, (field, r.kind) ∈ item.kind.references ∧ item.content.get? field = some (.ref r.id) := by
  unfold references
  rw [List.mem_filterMap]
  constructor
  · rintro ⟨⟨field, target⟩, he, hr⟩
    obtain ⟨id, hid, rfl⟩ := Option.map_eq_some_iff.1 hr
    obtain ⟨v, hv, hid⟩ := Option.bind_eq_some_iff.1 hid
    cases v with
    | ref id' =>
      cases hid
      exact ⟨field, he, hv⟩
    | _ => cases hid
  · rintro ⟨field, he, hv⟩
    exact ⟨(field, r.kind), he, by dsimp only; rw [hv]; rfl⟩

end Item

namespace Session

variable {s s' : Session} {kind : Kind} {content row : Record}

/-- An identity was given out, and if there is an item of that identity it is of the kind
`target`. -/
def Names (s : Session) (target : Kind) (id : ItemId) : Prop :=
  id.val < s.nextId.val ∧ ∀ kind item, s.item? ⟨kind, id⟩ = some item → kind = target

/-- Every reference field refers to an item of the kind that it should. -/
def Refers (s : Session) (kind : Kind) (content : Record) : Prop :=
  ∀ e ∈ kind.references, ∃ id, content.get? e.1 = some (.ref id) ∧ s.Names e.2 id

/-- Items of later sessions are those of earlier ones, or they have new identities. -/
structure Succeeds (s s' : Session) : Prop where
  nextId_le : s.nextId.val ≤ s'.nextId.val
  old : ∀ ⦃r item⦄, s'.item? r = some item → r.id.val < s.nextId.val →
    ∃ item, s.item? r = some item

theorem Names.succeeds {target : Kind} {id : ItemId} (h : s.Names target id)
    (hs : s.Succeeds s') : s'.Names target id := by
  refine ⟨Nat.lt_of_lt_of_le h.1 hs.nextId_le, fun k item hi => ?_⟩
  obtain ⟨item', hi'⟩ := hs.old hi h.1
  exact h.2 k item' hi'

theorem Refers.succeeds (h : s.Refers kind content) (hs : s.Succeeds s') :
    s'.Refers kind content := by
  intro e he
  obtain ⟨id, hid, hn⟩ := h e he
  exact ⟨id, hid, hn.succeeds hs⟩

theorem Coherent.names (hs : s.Coherent) {r : ItemRef} {item : Item} (hi : s.item? r = some item) :
    s.Names r.kind r.id :=
  ⟨hs.given hi, fun _ _ hi' => hs.one_kind hi' hi⟩

theorem Refers.contentOf (h : s.Refers kind row) : s.Refers kind (kind.contentOf row) := by
  intro e he
  obtain ⟨id, hid, hn⟩ := h e he
  refine ⟨id, ?_, hn⟩
  rw [Kind.get?_contentOf,
    if_pos (kind.referenceFields_subset e.1 (Kind.mem_referenceFields he))]
  unfold Record.value
  rw [hid]
  rfl

/-- Two sessions read a row into contents that differ in reference fields only. -/
theorem contentOf_localRow? {r r' : Record} (hr : s.localRow? kind row = some r)
    (hr' : s'.localRow? kind row = some r') :
    (kind.contentOf r).SameButReferences kind (kind.contentOf r') := by
  intro field hf
  rw [Kind.get?_contentOf, Kind.get?_contentOf, Record.value, Record.value,
    ← same_of_localRow? hr field hf, ← same_of_localRow? hr' field hf]

/-- A row can be read only if items stand for the rows that it refers to. -/
theorem exists_itemOfRow?_of_localRow? {r : Record} (hr : s.localRow? kind row = some r)
    {e : String × Kind} (he : e ∈ kind.references) {n : Int}
    (hn : row.get? e.1 = some (.integer n)) : ∃ i, s.itemOfRow? e.2 ⟨n⟩ = some i := by
  rcases (localRow?_eq_some_iff.1 hr).translated e he with ⟨hnull, -⟩ | ⟨m, i, hm, hi, -⟩ <;>
    rw [hn] at *
  · cases hnull
  · cases hm
    exact ⟨i, hi⟩

/-- In the content of a row that was read, a field refers to the item that stands for the row which
the field of the row refers to. -/
theorem get?_contentOf_eq_ref_iff {r : Record} (hr : s.localRow? kind row = some r)
    {e : String × Kind} (he : e ∈ kind.references) {i : ItemId} :
    (kind.contentOf r).get? e.1 = some (.ref i) ↔
      ∃ n, row.get? e.1 = some (.integer n) ∧ s.itemOfRow? e.2 ⟨n⟩ = some i := by
  have hfield : e.1 ∈ kind.fields :=
    kind.referenceFields_subset e.1 (Kind.mem_referenceFields he)
  rw [Kind.get?_contentOf, if_pos hfield, Record.value]
  rcases (localRow?_eq_some_iff.1 hr).translated e he with ⟨hnull, heq⟩ | ⟨m, j, hm, hj, heq⟩
  · rw [heq, hnull]
    refine ⟨fun h => (nomatch h), ?_⟩
    rintro ⟨n, hn, -⟩
    rw [hn] at hnull
    cases hnull
  · rw [heq, hm]
    constructor
    · intro h
      cases h
      exact ⟨m, rfl, hj⟩
    · rintro ⟨n, hn, hi⟩
      cases hn
      rw [hj] at hi
      cases hi
      rfl

/-- A content without a fault refers to live items. -/
theorem contentFault?_eq_none (hc : kind.Complete content) {exclude : Option ItemId}
    (h : s.contentFault? kind content exclude = none) :
    ∀ e ∈ kind.references, ∃ id, content.get? e.1 = some (.ref id) ∧ s.isLive ⟨e.2, id⟩ = true := by
  unfold contentFault? at h
  rw [Option.or_eq_none_iff, Option.or_eq_none_iff, Option.map_eq_none_iff,
    Option.map_eq_none_iff] at h
  obtain ⟨hmissing, hdangling, -⟩ := h
  rintro ⟨field, target⟩ he
  have hfield := Kind.mem_referenceFields he
  obtain ⟨v, hv⟩ := (hc field).2 (kind.referenceFields_subset field hfield)
  have hvalue : content.value field = v := by
    unfold Record.value
    rw [hv]
    rfl
  have hnull : v ≠ .null := by
    have hreq := List.find?_eq_none.1 hmissing field
      (kind.referenceFields_subset_required field hfield)
    rw [hvalue, Value.isNull_iff] at hreq
    exact hreq
  have href : s.isReference target v = true := by
    unfold danglingField? at hdangling
    rw [Option.map_eq_none_iff] at hdangling
    have hnone := List.find?_eq_none.1 hdangling (field, target) he
    simpa [hvalue] using hnone
  cases v with
  | ref id => exact ⟨id, hv, href⟩
  | null => exact absurd rfl hnull
  | _ => cases href

theorem refers_of_contentFault? (hs : s.Coherent) (hc : kind.Complete content)
    {exclude : Option ItemId} (h : s.contentFault? kind content exclude = none) :
    s.Refers kind content := by
  intro e he
  obtain ⟨id, hid, hlive⟩ := contentFault?_eq_none hc h e he
  obtain ⟨item, hi, -⟩ := isLive_iff.1 hlive
  exact ⟨id, hid, hs.names hi⟩

end Session

end StagedEdits
