import StagedEdits.Proofs.KeptApart

/-!
# Which records are accepted

An addition or an update is checked field by field, against the live items and against the key indices.
What these checks come to is said without the indices: `Session.Accepts` is what a record has to fulfil,
and `Session.Objects` is the first thing that is wrong with it.  The checks agree with both as long as the
indices are exact, and so in every session whose live items never shared a key.

* `Item.law_whole`: contents have the fields of their kind and no others.
* `Session.recordFault?_eq_none_iff`, `Session.recordFault?_eq_some_iff`: what the checks find.
* `Workspace.accepts_exactly`: additions and updates in a session whose live items never shared a key.
-/

namespace StagedEdits

/-! ### Complete contents -/

/-- An item whose contents, the present one and the one that undoing goes back to, have the fields of its
kind and no others. -/
structure Item.Whole (item : Item) : Prop where
  content : item.kind.Complete item.content
  backup : ∀ content, item.backup = some content → item.kind.Complete content

namespace Item

variable {item : Item}

theorem Whole.of_eq {b : Item} (h : item.Whole) (hkind : b.kind = item.kind)
    (hcontent : b.content = item.content) (hbackup : b.backup = none ∨ b.backup = item.backup ∨
      ∃ row, b.backup = some (item.kind.contentOf row)) : b.Whole := by
  refine ⟨by rw [hkind, hcontent]; exact h.content, fun content hc => ?_⟩
  rw [hkind]
  rcases hbackup with hb | hb | ⟨row, hb⟩ <;> rw [hb] at hc
  · cases hc
  · exact h.backup content hc
  · exact Option.some.inj hc ▸ Kind.complete_contentOf item.kind row

theorem Whole.edit (h : item.Whole) {changes : Record}
    (hknown : Session.unknownField? item.kind changes = none) : (item.edit changes).Whole := by
  have hcontent := h.content.insertAll hknown
  have hnone : ∀ content, none = some content → item.kind.Complete content := fun _ hc => by cases hc
  have hsome : ∀ content, some item.content = some content → item.kind.Complete content :=
    fun content hc => Option.some.inj hc ▸ h.content
  unfold Item.edit
  split
  · by_cases hst : item.status = .committed
    · simp only [hst, if_true]
      split
      next => exact ⟨hcontent, hnone⟩
      next => exact ⟨hcontent, hsome⟩
    · simp only [hst, if_false]
      split
      next => exact ⟨hcontent, hnone⟩
      next => exact ⟨hcontent, h.backup⟩
  · exact h

/-- An item that takes a row over takes no other fields than it has. -/
theorem Whole.adopt (h : item.Whole) (row : Record) : (item.adopt row).Whole := by
  refine ⟨fun field => ?_, h.backup⟩
  have hentries : ∀ e ∈ item.kind.fields.filterMap fun field => (row.get? field).map (field, ·),
      e.1 ∈ item.kind.fields ∧ row.get? e.1 = some e.2 := by
    intro e he
    obtain ⟨field, hfield, hmap⟩ := List.mem_filterMap.1 he
    obtain ⟨v, hv, rfl⟩ := Option.map_eq_some_iff.1 hmap
    exact ⟨hfield, hv⟩
  have hget : (item.adopt row).content.get? field = _ :=
    SortedMap.get?_foldl_insert (fun e he => (hentries e he).2) item.content field
  rw [hget]
  split
  next hmem =>
    obtain ⟨e, he, rfl⟩ := List.mem_map.1 hmem
    obtain ⟨hfield, hv⟩ := hentries e he
    exact ⟨fun _ => hfield, fun _ => ⟨e.2, hv⟩⟩
  next => exact h.content field

theorem Whole.restored (h : item.Whole) : item.restored.Whole := by
  refine h.of_eq (item.kind_restored) item.content_restored (.inr (.inl ?_))
  unfold Item.restored
  split <;> rfl

theorem Whole.keptAgainst (h : item.Whole) (row : Option Record) : (item.keptAgainst row).Whole := by
  refine h.of_eq (congrArg ItemRef.kind (item.ref_keptAgainst row)) (item.content_keptAgainst row) ?_
  unfold Item.keptAgainst
  dsimp only
  cases row with
  | none =>
    dsimp only
    split <;> split <;> first | exact .inl rfl | exact .inr (.inl rfl)
  | some row =>
    dsimp only
    split <;> split <;> first | exact .inr (.inl rfl) | exact .inr (.inr ⟨row, rfl⟩)

theorem Whole.backToRow (h : item.Whole) : item.backToRow.Whole := by
  unfold Item.backToRow
  split
  next _ content hback =>
    unfold reverted
    rw [hback]
    exact ⟨h.backup content hback, nofun⟩
  next row _ _ => exact (h.adopt row).of_eq rfl rfl (.inr (.inl rfl))
  next => exact h.of_eq rfl rfl (.inr (.inl rfl))

theorem law_whole : Law Whole where
  added id kind content hc := ⟨hc, nofun⟩
  loaded id kind row := ⟨kind.complete_contentOf row, nofun⟩
  edit hknown h := h.edit hknown
  markRemoved {a} source h := by
    unfold Item.markRemoved
    split
    · exact h
    · exact h.of_eq rfl rfl (.inr (.inl rfl))
  restored h := h.restored
  adopt row h := h.adopt row
  claim {a} row h _ := by
    refine h.of_eq (congrArg ItemRef.kind (a.ref_claim row)) (a.content_claim row) ?_
    unfold Item.claim
    dsimp only
    split
    · exact .inl rfl
    · exact .inr (.inr ⟨row, rfl⟩)
  outcome {r b} h hb := by
    rcases Resolved.outcome?_eq_some hb with
      ⟨-, row, -, ⟨-, rfl⟩ | ⟨-, rfl⟩⟩ | ⟨-, kept, rfl, ⟨-, rfl⟩ | ⟨-, rfl | rfl⟩⟩
    · unfold resurrectedBy
      dsimp only
      split
      · exact (h.restored.adopt row).of_eq rfl rfl (.inl rfl)
      · exact (h.restored.adopt row).of_eq rfl rfl (.inr (.inl rfl))
    · exact (h.restored.adopt row).of_eq rfl rfl (.inl rfl)
    · have hmarked : (r.item.withStatus .toRemove).Whole := ⟨h.content, h.backup⟩
      exact hmarked.keptAgainst r.row
    · exact h.keptAgainst r.row
    · have hmarked : (r.item.withStatus .toUpdate).Whole := ⟨h.content, h.backup⟩
      exact hmarked.keptAgainst r.row
  written d commit h := h.of_eq rfl rfl (.inl rfl)
  rolledBack {a b} h hb := by
    unfold rolledBack? at hb
    split at hb
    · cases hb
    · cases hb
    · obtain rfl := Option.some.inj hb
      split
      · exact h.restored.backToRow
      · exact h
    · exact Option.some.inj hb ▸ h.restored.backToRow

end Item

namespace Item

variable {item : Item} {changes : Record}

/-- Changes that give no field another value leave the content as it is. -/
theorem insertAll_of_not_differsFrom (h : item.kind.Complete item.content)
    (hknown : Session.unknownField? item.kind changes = none) (hsame : item.differsFrom changes = false) :
    item.content.insertAll changes = item.content := by
  refine (h.insertAll hknown).ext h fun field hf => ?_
  unfold Record.value
  rw [SortedMap.get?_insertAll]
  cases hv : changes.get? field with
  | none => rfl
  | some v =>
    unfold differsFrom at hsame
    have hnot := List.any_eq_false.1 hsame (field, v) (SortedMap.mem_entries_iff.2 hv)
    have heq : item.content.value field = v := by simpa using hnot
    exact heq.symm

/-- An edit makes the merged record the content of the item, also where it changes nothing. -/
theorem Whole.content_edit (h : item.Whole) (hknown : Session.unknownField? item.kind changes = none) :
    (item.edit changes).content = item.content.insertAll changes := by
  rcases item.edit_cases changes with ⟨hsame, hedit⟩ | hcontent
  · rw [hedit, insertAll_of_not_differsFrom h.content hknown hsame]
  · exact hcontent

end Item

/-! ### The first of a list -/

section IsFirst

variable {α : Type} {p : α → Bool} {q : α → Prop} {l : List α} {a : α}

/-- The first member of a list that has a property. -/
def IsFirst (q : α → Prop) (l : List α) (a : α) : Prop :=
  q a ∧ ∃ before after, l = before ++ a :: after ∧ ∀ b ∈ before, ¬ q b

theorem find?_eq_some_iff_isFirst (h : ∀ a ∈ l, p a = true ↔ q a) :
    l.find? p = some a ↔ IsFirst q l a := by
  rw [List.find?_eq_some_iff_append]
  unfold IsFirst
  constructor
  · rintro ⟨hp, before, after, rfl, hbefore⟩
    refine ⟨(h a (by simp)).1 hp, before, after, rfl, fun b hb hq => ?_⟩
    have hnot := hbefore b hb
    rw [(h b (List.mem_append_left _ hb)).2 hq] at hnot
    cases hnot
  · rintro ⟨hq, before, after, rfl, hbefore⟩
    refine ⟨(h a (by simp)).2 hq, before, after, rfl, fun b hb => ?_⟩
    rw [Bool.not_eq_true', Bool.eq_false_iff]
    exact fun hp => hbefore b hb ((h b (List.mem_append_left _ hb)).1 hp)

theorem find?_eq_none_iff_forall (h : ∀ a ∈ l, p a = true ↔ q a) :
    l.find? p = none ↔ ∀ a ∈ l, ¬ q a := by
  rw [List.find?_eq_none]
  exact forall₂_congr fun a ha => not_congr (h a ha)

end IsFirst

namespace Kind

variable {k : Kind} {record content : Record} {field : String}

theorem required_subset_fields (k : Kind) : ∀ field ∈ k.required, field ∈ k.fields := by
  cases k <;> decide

/-- Required fields have no default. -/
theorem defaultValue_of_required (k : Kind) : ∀ field ∈ k.required, k.defaultValue field = .null := by
  cases k <;> decide

theorem value_completed (hf : field ∈ k.required) :
    (k.completed record).value field = record.value field := by
  unfold completed Record.value
  rw [SortedMap.get?_ofList_map, if_pos (k.required_subset_fields field hf), Option.getD_some,
    k.defaultValue_of_required field hf]

/-- A content with all fields is not completed any further. -/
theorem Complete.completed_eq (h : k.Complete content) : k.completed content = content := by
  refine (k.complete_completed content).ext h fun field hf => ?_
  obtain ⟨v, hv⟩ := (h field).2 hf
  unfold completed Record.value
  rw [SortedMap.get?_ofList_map, if_pos hf, hv]
  rfl

end Kind

namespace Session

variable {I : Item → Prop} {s : Session} {kind : Kind} {record : Record} {own : Option ItemId}
  {field : String} {reference : String × Kind} {key : UniqueKey} {e : Error}

/-! ### What a record has to fulfil -/

/-- The record has no field that the kind does not have. -/
def Known (kind : Kind) (record : Record) : Prop := ∀ field ∈ record.keys, field ∈ kind.fields

/-- The record has a value in the field, and it is not null. -/
def Filled (record : Record) (field : String) : Prop := ∃ v, record.get? field = some v ∧ v ≠ .null

/-- The field refers to a live item of the kind that it should refer to. -/
def Reaches (s : Session) (record : Record) (reference : String × Kind) : Prop :=
  ∃ id, record.get? reference.1 = some (.ref id) ∧ s.isLive ⟨reference.2, id⟩ = true

/-- A live item, other than the one that the record is meant for, has the key. -/
def KeyTaken (s : Session) (kind : Kind) (own : Option ItemId) (key : UniqueKey) : Prop :=
  ∃ id item, s.item? ⟨kind, id⟩ = some item ∧ item.removed = false ∧ some id ≠ own ∧
    key ∈ kind.keysOf item.content

/-- A record that can be the content of an item, of a new one or of the item `own`. -/
structure Accepts (s : Session) (kind : Kind) (record : Record) (own : Option ItemId) : Prop where
  known : Known kind record
  filled : ∀ field ∈ kind.required, Filled record field
  reaches : ∀ reference ∈ kind.references, s.Reaches record reference
  free : ∀ key ∈ kind.keysOf (kind.completed record), ¬ s.KeyTaken kind own key

/-- The first thing that is wrong with a record. -/
inductive Objects (s : Session) (kind : Kind) (record : Record) (own : Option ItemId) : Error → Prop
  | unknownField {field : String} (hfirst : IsFirst (· ∉ kind.fields) record.keys field) :
      Objects s kind record own (.unknownField kind field)
  | missingField {field : String} (hknown : Known kind record)
      (hfirst : IsFirst (¬ Filled record ·) kind.required field) :
      Objects s kind record own (.missingField kind field)
  | danglingReference {reference : String × Kind} (hknown : Known kind record)
      (hfilled : ∀ field ∈ kind.required, Filled record field)
      (hfirst : IsFirst (¬ s.Reaches record ·) kind.references reference) :
      Objects s kind record own (.danglingReference kind reference.1)
  | keyTaken {key : UniqueKey} (hknown : Known kind record)
      (hfilled : ∀ field ∈ kind.required, Filled record field)
      (hreaches : ∀ reference ∈ kind.references, s.Reaches record reference)
      (hfirst : IsFirst (s.KeyTaken kind own) (kind.keysOf (kind.completed record)) key) :
      Objects s kind record own (.keyTaken kind key)

/-! ### What the checks find -/

theorem isUnknown_iff : (!kind.isField field) = true ↔ field ∉ kind.fields := by
  unfold Kind.isField
  simp

theorem isMissing_iff : ∀ field ∈ kind.required,
    ((kind.completed record).value field).isNull = true ↔ ¬ Filled record field := by
  intro field hf
  rw [Kind.value_completed hf]
  unfold Record.value Filled
  cases record.get? field <;> simp

/-- Fields that refer to items are required, so the check need not care about null. -/
theorem isDangling_iff (hfilled : ∀ field ∈ kind.required, Filled record field) :
    ∀ e ∈ kind.references,
      (!s.isReference e.2 ((kind.completed record).value e.1)) = true ↔ ¬ s.Reaches record e := by
  intro e he
  have hrequired := kind.referenceFields_subset_required e.1 (Kind.mem_referenceFields he)
  obtain ⟨v, hv, hnull⟩ := hfilled e.1 hrequired
  rw [Kind.value_completed hrequired]
  unfold Reaches Record.value isReference
  rw [hv]
  cases v <;> simp_all

/-- With exact indices, the holder of a key is the live item that has it. -/
theorem isTaken_iff (hs : s.Lawful I) (hk : s.KeysExact) :
    (((s.table kind).keys.holder? key).any fun id => some id ≠ own) = true ↔
      s.KeyTaken kind own key := by
  rw [Option.any_eq_true]
  constructor
  · rintro ⟨id, hid, hne⟩
    obtain ⟨item, hitem, hkey⟩ := (hk kind).sound hid
    obtain ⟨hlive, hkey⟩ := Table.mem_keysOf_iff.1 hkey
    rw [hs.kind_eq] at hkey
    exact ⟨id, item, (item?_eq ..).trans hitem, hlive, of_decide_eq_true hne, hkey⟩
  · rintro ⟨id, item, hitem, hlive, hne, hkey⟩
    rw [item?_eq] at hitem
    refine ⟨id, (hk kind).complete id hitem key (Table.mem_keysOf_iff.2 ⟨hlive, ?_⟩), decide_eq_true hne⟩
    rw [hs.kind_eq]
    exact hkey

theorem unknownField?_eq_some_iff :
    unknownField? kind record = some field ↔ IsFirst (· ∉ kind.fields) record.keys field :=
  find?_eq_some_iff_isFirst fun _ _ => isUnknown_iff

theorem unknownField?_eq_none_iff : unknownField? kind record = none ↔ Known kind record := by
  unfold unknownField? Known
  rw [find?_eq_none_iff_forall fun _ _ => isUnknown_iff]
  exact forall₂_congr fun _ _ => not_not

theorem missingField?_eq_some_iff : missingField? kind (kind.completed record) = some field ↔
    IsFirst (¬ Filled record ·) kind.required field :=
  find?_eq_some_iff_isFirst isMissing_iff

theorem missingField?_eq_none_iff :
    missingField? kind (kind.completed record) = none ↔ ∀ field ∈ kind.required, Filled record field := by
  unfold missingField?
  rw [find?_eq_none_iff_forall isMissing_iff]
  exact forall₂_congr fun _ _ => not_not

theorem danglingField?_eq_some_iff (hfilled : ∀ field ∈ kind.required, Filled record field) :
    s.danglingField? kind (kind.completed record) = some field ↔
      ∃ target, IsFirst (¬ s.Reaches record ·) kind.references (field, target) := by
  unfold danglingField?
  rw [Option.map_eq_some_iff]
  constructor
  · rintro ⟨⟨_, target⟩, hfind, rfl⟩
    exact ⟨target, (find?_eq_some_iff_isFirst (isDangling_iff hfilled)).1 hfind⟩
  · rintro ⟨target, hfirst⟩
    exact ⟨(field, target), (find?_eq_some_iff_isFirst (isDangling_iff hfilled)).2 hfirst, rfl⟩

theorem danglingField?_eq_none_iff (hfilled : ∀ field ∈ kind.required, Filled record field) :
    s.danglingField? kind (kind.completed record) = none ↔
      ∀ reference ∈ kind.references, s.Reaches record reference := by
  unfold danglingField?
  rw [Option.map_eq_none_iff, find?_eq_none_iff_forall (isDangling_iff hfilled)]
  exact forall₂_congr fun _ _ => not_not

section

variable (hs : s.Lawful I) (hk : s.KeysExact)

include hs hk

theorem collision?_eq_some_iff : s.collision? kind record own = some key ↔
    IsFirst (s.KeyTaken kind own) (kind.keysOf record) key := by
  rw [collision?_eq, Table.collision?, hs.kind_eq]
  exact find?_eq_some_iff_isFirst fun _ _ => isTaken_iff hs hk

theorem collision?_eq_none_iff : s.collision? kind record own = none ↔
    ∀ key ∈ kind.keysOf record, ¬ s.KeyTaken kind own key := by
  rw [collision?_eq, Table.collision?, hs.kind_eq]
  exact find?_eq_none_iff_forall fun _ _ => isTaken_iff hs hk

end

/-- What the checks have to say about a record. -/
def recordFault? (s : Session) (kind : Kind) (record : Record) (own : Option ItemId) : Option Error :=
  ((unknownField? kind record).map (Error.unknownField kind)).or
    (s.contentFault? kind (kind.completed record) own)

section

variable (hs : s.Lawful I) (hk : s.KeysExact)

include hs hk

/-- The checks go through exactly for the records that are to be accepted. -/
theorem recordFault?_eq_none_iff :
    s.recordFault? kind record own = none ↔ s.Accepts kind record own := by
  unfold recordFault? contentFault?
  simp only [Option.or_eq_none_iff, Option.map_eq_none_iff]
  rw [unknownField?_eq_none_iff, missingField?_eq_none_iff, collision?_eq_none_iff hs hk]
  constructor
  · rintro ⟨hknown, hfilled, hreaches, hfree⟩
    exact ⟨hknown, hfilled, (danglingField?_eq_none_iff hfilled).1 hreaches, hfree⟩
  · rintro ⟨hknown, hfilled, hreaches, hfree⟩
    exact ⟨hknown, hfilled, (danglingField?_eq_none_iff hfilled).2 hreaches, hfree⟩

/-- The checks report the first thing that is wrong. -/
theorem recordFault?_eq_some_iff :
    s.recordFault? kind record own = some e ↔ s.Objects kind record own e := by
  unfold recordFault? contentFault?
  constructor
  · intro h
    rcases Option.or_eq_some_iff.1 h with h | ⟨hnone, h⟩
    · obtain ⟨field, hfield, rfl⟩ := Option.map_eq_some_iff.1 h
      exact .unknownField (unknownField?_eq_some_iff.1 hfield)
    have hknown := unknownField?_eq_none_iff.1 (Option.map_eq_none_iff.1 hnone)
    rcases Option.or_eq_some_iff.1 h with h | ⟨hnone, h⟩
    · obtain ⟨field, hfield, rfl⟩ := Option.map_eq_some_iff.1 h
      exact .missingField hknown (missingField?_eq_some_iff.1 hfield)
    have hfilled := missingField?_eq_none_iff.1 (Option.map_eq_none_iff.1 hnone)
    rcases Option.or_eq_some_iff.1 h with h | ⟨hnone, h⟩
    · obtain ⟨field, hfield, rfl⟩ := Option.map_eq_some_iff.1 h
      obtain ⟨target, hfirst⟩ := (danglingField?_eq_some_iff hfilled).1 hfield
      exact .danglingReference hknown hfilled hfirst
    have hreaches := (danglingField?_eq_none_iff hfilled).1 (Option.map_eq_none_iff.1 hnone)
    obtain ⟨key, hkey, rfl⟩ := Option.map_eq_some_iff.1 h
    exact .keyTaken hknown hfilled hreaches ((collision?_eq_some_iff hs hk).1 hkey)
  · intro h
    cases h with
    | unknownField hfirst =>
      rw [unknownField?_eq_some_iff.2 hfirst]
      rfl
    | missingField hknown hfirst =>
      rw [unknownField?_eq_none_iff.2 hknown, missingField?_eq_some_iff.2 hfirst]
      rfl
    | danglingReference hknown hfilled hfirst =>
      rw [unknownField?_eq_none_iff.2 hknown, missingField?_eq_none_iff.2 hfilled,
        (danglingField?_eq_some_iff hfilled).2 ⟨_, hfirst⟩]
      rfl
    | keyTaken hknown hfilled hreaches hfirst =>
      rw [unknownField?_eq_none_iff.2 hknown, missingField?_eq_none_iff.2 hfilled,
        (danglingField?_eq_none_iff hfilled).2 hreaches, (collision?_eq_some_iff hs hk).2 hfirst]
      rfl

end

/-! ### Merged records -/

theorem unknownField?_eq_head? (kind : Kind) (record : Record) :
    unknownField? kind record = (record.filter fun field _ => !kind.isField field).keys.head? := by
  unfold unknownField? SortedMap.keys SortedMap.filter
  rw [List.find?_map, List.head?_map, List.head?_filter]
  rfl

/-- A merged record has an unknown field only if the changes have it. -/
theorem unknownField?_insertAll {content changes : Record} (hc : kind.Complete content) :
    unknownField? kind (content.insertAll changes) = unknownField? kind changes := by
  rw [unknownField?_eq_head?, unknownField?_eq_head?]
  congr 2
  refine SortedMap.ext_get? fun field => ?_
  rw [SortedMap.get?_filter, SortedMap.get?_filter, SortedMap.get?_insertAll]
  by_cases hf : field ∈ kind.fields
  · have hnot : ∀ o : Option Value, o.filter (fun _ => !kind.isField field) = none := fun o => by
      have hfield : kind.isField field = true := decide_eq_true hf
      cases o <;> simp [hfield]
    rw [hnot, hnot]
  · have hnone : content.get? field = none :=
      Option.eq_none_iff_forall_not_mem.2 fun v hv => hf ((hc field).1 ⟨v, hv⟩)
    rw [hnone, Option.or_none]

/-- An update is checked with the merged record. -/
theorem recordFault?_insertAll {content changes : Record} (hc : kind.Complete content) :
    s.recordFault? kind (content.insertAll changes) own =
      ((unknownField? kind changes).map (Error.unknownField kind)).or
        (s.contentFault? kind (content.insertAll changes) own) := by
  unfold recordFault?
  rw [unknownField?_insertAll hc]
  cases hknown : unknownField? kind changes with
  | some field => rfl
  | none => rw [(hc.insertAll hknown).completed_eq]

end Session

namespace Workspace

variable {σ : Type} [Store σ] {Good : σ → Prop} {w : Workspace σ} {name : String} {s : Session}

/-- A command succeeds if a record is accepted, and otherwise fails with the first thing that is wrong with
the record and changes nothing. -/
structure Judges (w : Workspace σ) (name : String) (s : Session) (command : Command) (kind : Kind)
    (record : Record) (own : Option ItemId) : Prop where
  ok_iff : (∃ reply, (w.perform name s command).1 = .ok reply) ↔ s.Accepts kind record own
  error_iff : ∀ e, (w.perform name s command).1 = .error e ↔ s.Objects kind record own e
  unchanged : ∀ e, (w.perform name s command).1 = .error e → (w.perform name s command).2.2 = w

omit [Store σ] in
/-- Putting a session back as it is changes nothing. -/
theorem insert_session (hs : w.session? name = some s) :
    { w with sessions := w.sessions.insert name s } = w := by
  rw [SortedMap.insert_eq_self hs]

theorem judges_of_recordFault? {I : Item → Prop} (hs : s.Lawful I) (hk : s.KeysExact) {command : Command}
    {kind : Kind} {record : Record} {own : Option ItemId} {reply : Reply} {w' : Workspace σ}
    (h : w.perform name s command = match s.recordFault? kind record own with
      | some e => (.error e, [], w)
      | none => (.ok reply, [], w')) : w.Judges name s command kind record own := by
  constructor
  case ok_iff =>
    rw [← Session.recordFault?_eq_none_iff hs hk, h]
    cases s.recordFault? kind record own <;> simp
  case error_iff =>
    intro e
    rw [← Session.recordFault?_eq_some_iff hs hk, h]
    cases s.recordFault? kind record own <;> simp
  case unchanged =>
    intro e he
    rw [h] at he ⊢
    cases hfault : s.recordFault? kind record own with
    | none =>
      rw [hfault] at he
      cases he
    | some e => rfl

theorem perform_add (hs : w.session? name = some s) (kind : Kind) (given : Record) :
    w.perform name s (.add kind given) = match s.recordFault? kind given none with
      | some e => (.error e, [], w)
      | none => (.ok (.item s.nextId), [], { w with
          sessions := w.sessions.insert name ({ s with nextId := s.nextId.next }.put
            (.added s.nextId kind (kind.completed given))) }) := by
  have hadd : s.add kind given = match s.recordFault? kind given none with
      | some e => .error e
      | none => .ok (s.nextId, { s with nextId := s.nextId.next }.put
          (.added s.nextId kind (kind.completed given))) := rfl
  have hrun : (Command.add kind given).run ⟨s, w.store, []⟩ = _ :=
    ConnectionM.run_map Reply.item (.edit fun s => s.add kind given) _
  unfold perform
  rw [hrun]
  unfold ConnectionM.edit
  dsimp only
  rw [hadd]
  cases s.recordFault? kind given none with
  | some e => exact congrArg (Except.error e, [], ·) (insert_session hs)
  | none => rfl

theorem perform_update (hs : w.session? name = some s) {r : ItemRef} {item : Item}
    (hitem : s.item? r = some item) (hlive : item.removed = false) (hc : r.kind.Complete item.content)
    (changes : Record) :
    w.perform name s (.update r changes) =
      match s.recordFault? r.kind (item.content.insertAll changes) (some r.id) with
      | some e => (.error e, [], w)
      | none => (.ok .done, [], { w with
          sessions := w.sessions.insert name (s.modify r (·.edit changes)) }) := by
  have hupdate : s.update r changes =
      match s.recordFault? r.kind (item.content.insertAll changes) (some r.id) with
      | some e => .error e
      | none => .ok (s.modify r (·.edit changes)) := by
    rw [Session.recordFault?_insertAll hc]
    unfold Session.update
    rw [hitem]
    dsimp only
    rw [hlive]
    rfl
  have hrun : (Command.update r changes).run ⟨s, w.store, []⟩ =
      ConnectionM.edit (fun s => (s.update r changes).map (Reply.done, ·)) ⟨s, w.store, []⟩ := rfl
  unfold perform
  rw [hrun]
  unfold ConnectionM.edit
  dsimp only
  rw [hupdate]
  cases s.recordFault? r.kind (item.content.insertAll changes) (some r.id) with
  | some e => exact congrArg (Except.error e, [], ·) (insert_session hs)
  | none => rfl

/-- Additions and updates accept exactly the records that they should, in every session whose live items
never shared a key: on a store that gives rows distinct identities, whatever the sessions of a workspace
have done, with whatever resolvers, and whatever has become of the store in between.  A new item has the
record completed by defaults; an updated one has the merged record, and nothing else changes. -/
theorem accepts_exactly (hstore : Store.Keyed Good) (hw : w.KeptApart Good name)
    (hs : w.session? name = some s) :
    (∀ kind given, w.Judges name s (.add kind given) kind given none ∧
      (s.Accepts kind given none → ∃ s', w.perform name s (.add kind given) =
          (.ok (.item s.nextId), [], { w with sessions := w.sessions.insert name s' }) ∧
        s.SameFrame s' ∧ s'.nextId = s.nextId.next ∧ ∀ r, s'.item? r = if r = ⟨kind, s.nextId⟩ then
          some (.added s.nextId kind (kind.completed given)) else s.item? r)) ∧
    ∀ r item changes, s.item? r = some item → item.removed = false →
      w.Judges name s (.update r changes) r.kind (item.content.insertAll changes) (some r.id) ∧
      (s.Accepts r.kind (item.content.insertAll changes) (some r.id) → ∃ s' b,
        w.perform name s (.update r changes) =
          (.ok .done, [], { w with sessions := w.sessions.insert name s' }) ∧
        s.SameFrame s' ∧ s'.nextId = s.nextId ∧ b.content = item.content.insertAll changes ∧
        ∀ r', s'.item? r' = if r' = r then some b else s.item? r') := by
  have hlawful := hw.attained.lawful Item.law_tidy hs
  have hkeys := hw.keysExact hstore hs
  refine ⟨fun kind given => ⟨judges_of_recordFault? hlawful hkeys (perform_add hs kind given),
    fun haccepts => ?_⟩, fun r item changes hitem hlive => ?_⟩
  · have hrun := perform_add hs kind given
    rw [(Session.recordFault?_eq_none_iff hlawful hkeys).2 haccepts] at hrun
    exact ⟨_, hrun, ⟨rfl, rfl, rfl⟩, rfl, Session.item?_put _ _⟩
  · have hwhole := (hw.attained.lawful Item.law_whole hs).item hitem
    have hkind : item.kind = r.kind := hlawful.housed.item_kind hitem
    have hrun := perform_update hs hitem hlive (hkind ▸ hwhole.content) changes
    refine ⟨judges_of_recordFault? hlawful hkeys hrun, fun haccepts => ?_⟩
    rw [(Session.recordFault?_eq_none_iff hlawful hkeys).2 haccepts] at hrun
    have hknown : Session.unknownField? item.kind changes = none := by
      rw [← Session.unknownField?_insertAll hwhole.content, hkind]
      exact Session.unknownField?_eq_none_iff.2 haccepts.known
    have hmodify := hlawful.housed.modify_eq_put hitem (·.ref_edit changes)
    exact ⟨_, item.edit changes, hrun, hmodify ▸ Session.sameFrame_put .., hmodify ▸ rfl,
      hwhole.content_edit hknown, hlawful.housed.item?_modify hitem (·.ref_edit changes)⟩

/-- Two alternatives exchange their names in one session, by way of a third name, and another session
fetches them. -/
def exchangedNames : List Event :=
  [.connect "a" {}, .ask "a" (.add .alternative (.ofList [("name", .text "base")])),
    .ask "a" (.add .alternative (.ofList [("name", .text "low")])), .ask "a" (.commit "names"),
    .connect "b" {}, .ask "b" (.fetch .alternative none),
    .ask "b" (.update ⟨.alternative, ⟨1⟩⟩ (.ofList [("name", .text "x")])),
    .ask "b" (.update ⟨.alternative, ⟨2⟩⟩ (.ofList [("name", .text "base")])),
    .ask "b" (.update ⟨.alternative, ⟨1⟩⟩ (.ofList [("name", .text "low")])),
    .ask "b" (.commit "exchange"), .ask "a" (.fetch .alternative none)]

set_option maxRecDepth 4000 in
/-- Each alternative took the name of the other while that still had it, yet both names are taken, by the
alternative that has it now, and a third one is free. -/
theorem accepts_exactly_of_exchangedNames : ∃ (w : Workspace Database) (s : Session) (item : Item),
    w.KeptApart Database.Filed "a" ∧ w.session? "a" = some s ∧
      s.item? ⟨.alternative, ⟨1⟩⟩ = some item ∧ item.content.value "name" = .text "low" ∧
      (w.perform "a" s (.add .alternative (.ofList [("name", .text "base")]))).1 =
        .error (.keyTaken .alternative ⟨0, [.text "base"]⟩) ∧
      s.KeyTaken .alternative none ⟨0, [.text "base"]⟩ ∧
      (w.perform "a" s (.update ⟨.alternative, ⟨1⟩⟩ (.ofList [("name", .text "mid")]))).1 =
        .ok .done ∧
      ¬ s.KeyTaken .alternative (some ⟨1⟩) ⟨0, [.text "mid"]⟩ := by
  have hrun : Run (fun w e => ∀ s ∈ (w.act e).session? "a", s.KeysApart) (new .empty) exchangedNames := by
    decide +kernel
  have hw : ((new .empty).after exchangedNames).KeptApart Database.Filed "a" :=
    (KeptApart.new fun _ _ _ h => nomatch h).after hrun
  have hcheck : (((new .empty).after exchangedNames).session? "a").any (fun s =>
      (s.item? ⟨.alternative, ⟨1⟩⟩).any fun item =>
        decide (item.removed = false) && decide (item.content.value "name" = .text "low") &&
        decide ((((new .empty).after exchangedNames).perform "a" s
          (.add .alternative (.ofList [("name", .text "base")]))).1 =
            .error (.keyTaken .alternative ⟨0, [.text "base"]⟩)) &&
        decide ((((new .empty).after exchangedNames).perform "a" s
          (.update ⟨.alternative, ⟨1⟩⟩ (.ofList [("name", .text "mid")]))).1 = .ok .done) &&
        decide (⟨0, [.text "mid"]⟩ ∈ Kind.alternative.keysOf (Kind.alternative.completed
          (item.content.insertAll (.ofList [("name", .text "mid")]))))) = true := by decide +kernel
  obtain ⟨s, hs, hcheck⟩ := (Option.any_eq_true ..).1 hcheck
  obtain ⟨item, hitem, hcheck⟩ := (Option.any_eq_true ..).1 hcheck
  simp only [Bool.and_eq_true, decide_eq_true_eq] at hcheck
  obtain ⟨⟨⟨⟨hlive, hname⟩, hrefused⟩, hdone⟩, hkey⟩ := hcheck
  obtain ⟨hadd, hupdate⟩ := accepts_exactly Database.keyed hw hs
  refine ⟨_, s, item, hw, hs, hitem, hname, hrefused, ?_, hdone, ?_⟩
  · cases ((hadd _ _).1.error_iff _).1 hrefused with
    | keyTaken _ _ _ hfirst => exact hfirst.1
  · exact ((hupdate _ item _ hitem hlive).1.ok_iff.1 ⟨_, hdone⟩).free _ hkey

end Workspace

end StagedEdits
