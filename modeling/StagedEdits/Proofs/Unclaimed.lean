import StagedEdits.Proofs.Partition

/-!
# Rows that become new items

A row that stands for no item is looked at once, or again when its item has left it.  It tries one live item,
the first one that is found by its keys in order, and one removed item, the first that has a key of it.  If
these have gone to other rows or have rows of their own, the row becomes a new item, although an item that
could have been paired with it may stand behind them (`Pairing.Passed`).

* `Table.passed_of_unknown`: an item that a new row could have been paired with was passed over for another
  one that is found before it.
* `Table.new_though_takeable`: there are such items.
-/

namespace StagedEdits

namespace Kind

variable {k : Kind} {row : Record}

/-- The unique keys of a record come in the order of the schema. -/
theorem pairwise_index_keysOf (k : Kind) (r : Record) :
    (k.keysOf r).Pairwise fun key key' => key.index < key'.index := by
  have hidx : (k.uniqueKeys.zipIdx.map (·.2)).Pairwise (· < ·) := by
    rw [List.zipIdx_map_snd]
    exact List.pairwise_lt_range'
  unfold keysOf
  rw [List.pairwise_filterMap]
  refine (List.pairwise_map.1 hidx).imp ?_
  rintro ⟨fields, i⟩ ⟨fields', j⟩ hlt key hkey key' hkey'
  dsimp only at hkey hkey'
  split at hkey <;> split at hkey' <;> cases hkey <;> cases hkey'
  exact hlt

/-- An item is found before another one when one is looked for that has a key of a row. -/
inductive FoundBefore (k : Kind) (row : Record) (other item : Item) : Prop
  | live (hother : other.removed = false) (hitem : item.removed = false) (key : UniqueKey)
      (hrow : key ∈ k.keysOf row) (hkey : key ∈ k.keysOf other.content)
      (hfirst : ∀ key' ∈ k.keysOf row, key' ∈ k.keysOf item.content → key.index < key'.index)
  | removed (hother : other.removed = true) (hitem : item.removed = true)
      (hfirst : other.id.val < item.id.val)

end Kind

namespace Table

variable {t : Table} {row : Record} {id : ItemId} {item : Item}

/-- A live item with a key of a row is the one that is found, or it comes after that. -/
theorem KeysExact.foundBefore_of_liveMatch? (h : t.KeysExact) (hmatch : t.liveMatch? row = some id)
    (hitem : t.get? item.id = some item) (hlive : item.removed = false) (hne : id ≠ item.id) :
    ∃ other, t.get? id = some other ∧ t.kind.FoundBefore row other item := by
  unfold liveMatch? at hmatch
  obtain ⟨before, key, after, hsplit, hholder, hfree⟩ := List.findSome?_eq_some_iff.1 hmatch
  obtain ⟨other, hother, hkey⟩ := h.sound hholder
  obtain ⟨holive, hkey⟩ := mem_keysOf_iff.1 hkey
  have hrow : key ∈ t.kind.keysOf row :=
    hsplit ▸ List.mem_append_right before (List.mem_cons_self ..)
  refine ⟨other, hother, .live holive hlive key hrow hkey fun key' hrow' hkey' => ?_⟩
  have hholder' := h.complete item.id hitem key' (mem_keysOf_iff.2 ⟨hlive, hkey'⟩)
  -- the keys up to the one that is found are not keys of the item
  have hafter : key' ∈ after := by
    rw [hsplit, List.mem_append, List.mem_cons] at hrow'
    rcases hrow' with hmem | rfl | hmem
    · rw [hfree key' hmem] at hholder'
      cases hholder'
    · exact absurd (Option.some.inj (hholder.symm.trans hholder')) hne
    · exact hmem
  have hpair := t.kind.pairwise_index_keysOf row
  rw [hsplit, List.pairwise_append, List.pairwise_cons] at hpair
  exact hpair.2.1.1 key' hafter

/-- A row with a key of a removed item finds some removed item. -/
theorem exists_removedMatch? (hitem : t.get? item.id = some item) (hrem : item.removed = true)
    (hshares : t.kind.SharesKey item.content row) : ∃ id', t.removedMatch? row = some id' := by
  obtain ⟨key, hkey, hrow⟩ := hshares
  refine Option.ne_none_iff_exists'.1 fun hnone => ?_
  have hfail := List.find?_eq_none.1 (Option.map_eq_none_iff.1 hnone) item (mem_all_iff.2 hitem)
  rw [hrem, List.any_eq_true.2 ⟨key, hkey, decide_eq_true hrow⟩] at hfail
  exact hfail rfl

/-- A removed item with a key of a row is the one that is found, or it comes after that. -/
theorem foundBefore_of_removedMatch? (hmatch : t.removedMatch? row = some id)
    (hitem : t.get? item.id = some item) (hrem : item.removed = true)
    (hshares : t.kind.SharesKey item.content row) (hne : id ≠ item.id) :
    ∃ other, t.get? id = some other ∧ t.kind.FoundBefore row other item := by
  unfold removedMatch? at hmatch
  obtain ⟨other, hfind, rfl⟩ := Option.map_eq_some_iff.1 hmatch
  obtain ⟨htest, before, after, hsplit, hfail⟩ := List.find?_eq_some_iff_append.1 hfind
  obtain ⟨horem, -⟩ := Bool.and_eq_true_iff.1 htest
  refine ⟨other, mem_all_iff.1 (List.mem_of_find?_eq_some hfind), .removed horem hrem ?_⟩
  have hafter : item ∈ after := by
    have hmem := mem_all_iff.2 hitem
    rw [hsplit, List.mem_append, List.mem_cons] at hmem
    rcases hmem with hmem | rfl | hmem
    · obtain ⟨key, hkey, hkey'⟩ := hshares
      have := hfail item hmem
      rw [hrem, List.any_eq_true.2 ⟨key, hkey, decide_eq_true hkey'⟩] at this
      cases this
    · exact absurd rfl hne
    · exact hmem
  have hpair := t.pairwise_all
  rw [hsplit, List.pairwise_append, List.pairwise_cons] at hpair
  exact hpair.2.1.1 item hafter

end Table

/-! ### Items that are left over -/

namespace Pairing

variable {t : Table} {rows : List Record} {p p' : Pairing} {row : Record} {item : Item}

/-- An item is paired with no row, and no fetched row is its own. -/
def Available (p : Pairing) (item : Item) : Prop := p.rowOf? item.id = none ∧ p.isFree item = true

/-- The item was passed over: another one, which is found before it by a key of the row, is not to be
had. -/
def Passed (t : Table) (p : Pairing) (row : Record) (item : Item) : Prop :=
  ∃ other, t.get? other.id = some other ∧ t.kind.SharesKey other.content row ∧ ¬ p.Available other ∧
    t.kind.FoundBefore row other item

theorem Passed.mono (h : p.Passed t row item) (hless : ∀ x, p'.Available x → p.Available x) :
    p'.Passed t row item :=
  let ⟨other, hother, hshares, hnot, hbefore⟩ := h
  ⟨other, hother, hshares, fun havail => hnot (hless other havail), hbefore⟩

/-- An item that was claimed is paired. -/
theorem Justified.not_mem_claimed (h : p.Justified t rows) (havail : p.Available item) :
    item.id ∉ p.claimed := fun hmem =>
  let ⟨_, _, hi⟩ := h.claimed hmem
  rowOf?_eq_none havail.1 hi

/-- A row takes the live item that it finds if that is available. -/
theorem Justified.not_available_of_live (h : p.Justified t rows) {id : ItemId}
    (hmatch : t.liveMatch? row = some id) (hitem : t.get? id = some item)
    (hnone : p.liveClaimant? t row = none) : ¬ p.Available item := by
  intro havail
  obtain rfl := t.id_eq hitem
  rcases liveClaimant?_eq_none hmatch hitem hnone with hclaimed | ⟨-, d, hd, hmem⟩ | ⟨own, hown, -⟩
  · exact h.not_mem_claimed havail hclaimed
  · exact forall_of_isFree havail.2 d hd hmem
  · rw [havail.1] at hown
    cases hown

/-- So it does with the removed one. -/
theorem Justified.not_available_of_removed (h : p.Justified t rows) {id : ItemId}
    (hmatch : t.removedMatch? row = some id) (hitem : t.get? id = some item)
    (hnone : p.removedClaimant? t row = none) : ¬ p.Available item := by
  intro havail
  obtain rfl := t.id_eq hitem
  unfold removedClaimant? at hnone
  rw [hmatch, Option.filter_some, if_pos] at hnone
  · cases hnone
  · rw [havail.1, hitem, Option.any_some, havail.2, decide_eq_true (h.not_mem_claimed havail)]
    rfl

/-- If a row can take no item, each available item with a key of it was passed over. -/
theorem Justified.passed_of_claimant? (h : p.Justified t rows) (hk : t.KeysExact)
    (hnone : p.claimant? t row = none) (hitem : t.get? item.id = some item)
    (hshares : t.kind.SharesKey item.content row) (havail : p.Available item) :
    p.Passed t row item := by
  obtain ⟨hlive, hremoved⟩ := Option.or_eq_none_iff.1 hnone
  cases hrem : item.removed with
  | false =>
    obtain ⟨id, hmatch⟩ := hk.exists_liveMatch? hitem hrem hshares
    have hne : id ≠ item.id := fun he =>
      h.not_available_of_live (he ▸ hmatch) hitem hlive havail
    obtain ⟨first, hfirst, -, hfshares⟩ := Table.liveMatch?_spec hk.sound hmatch
    obtain ⟨other, hother, hbefore⟩ := hk.foundBefore_of_liveMatch? hmatch hitem hrem hne
    obtain rfl := Option.some.inj (hfirst.symm.trans hother)
    have hnot := h.not_available_of_live hmatch hfirst hlive
    obtain rfl := t.id_eq hfirst
    exact ⟨first, hfirst, hfshares, hnot, hbefore⟩
  | true =>
    obtain ⟨id, hmatch⟩ := t.exists_removedMatch? hitem hrem hshares
    have hne : id ≠ item.id := fun he =>
      h.not_available_of_removed (he ▸ hmatch) hitem (Option.map_eq_none_iff.1 hremoved) havail
    obtain ⟨first, hfirst, -, hfshares⟩ := Table.removedMatch?_spec hmatch
    obtain ⟨other, hother, hbefore⟩ := Table.foundBefore_of_removedMatch? hmatch hitem hrem hshares hne
    obtain rfl := Option.some.inj (hfirst.symm.trans hother)
    have hnot := h.not_available_of_removed hmatch hfirst (Option.map_eq_none_iff.1 hremoved)
    obtain rfl := t.id_eq hfirst
    exact ⟨first, hfirst, hfshares, hnot, hbefore⟩

/-- Rows have been paired with items for good reasons, and those that were given up could take none but
items that were passed over. -/
structure Spent (t : Table) (rows : List Record) (p : Pairing) : Prop extends Justified t rows p where
  passed : ∀ ⦃i : Nat⦄ ⦃row : Record⦄, p.slots[i]? = some (row, none) → i ∉ p.queue →
    ∀ ⦃item⦄, t.get? item.id = some item → t.kind.SharesKey item.content row → p.Available item →
      p.Passed t row item

theorem spent_start (hs : t.Sound) (hrows : (rows.filterMap Record.dbId?).Nodup) :
    (start t rows).Spent t rows := by
  refine ⟨justified_start hrows hs, fun i row hi hnot => absurd ?_ hnot⟩
  exact List.mem_map.2 ⟨((row, none), i),
    List.mem_filter.2 ⟨List.mem_zipIdx_iff_getElem?.2 hi, rfl⟩, rfl⟩

/-- No item becomes available. -/
theorem Valid.available_of_look (h : p.Valid t rows) {i : Nat} {rest : List Nat}
    (hqueue : p.queue = i :: rest)
    (havail : (Pairing.look t { p with queue := rest } i).Available item) : p.Available item := by
  have hids : p.rowIds = (Pairing.look t { p with queue := rest } i).rowIds :=
    (Table.rowIds_eq h).trans (Table.rowIds_eq (h.look hqueue)).symm
  obtain ⟨row, hrow⟩ := h.waiting i (hqueue ▸ List.mem_cons_self ..)
  obtain ⟨hnone, hfree⟩ := havail
  unfold isFree at hfree
  rw [← hids] at hfree
  refine ⟨?_, hfree⟩
  cases hown : p.rowOf? item.id with
  | none => rfl
  | some o =>
    exfalso
    obtain ⟨a, ha⟩ := rowOf?_eq_some hown
    rcases look_cases t p i rest with ⟨-, hlook⟩ | ⟨-, id, -, -, hlook⟩
      <;> rw [hlook] at hnone
    · exact rowOf?_eq_none hnone ha
    · obtain ⟨j, b, hj⟩ := exists_slot_claim hrow rest id ha
      exact rowOf?_eq_none hnone hj

theorem Spent.look (hk : t.KeysExact) (h : p.Spent t rows) {i : Nat} {rest : List Nat}
    (hqueue : p.queue = i :: rest) : (look t { p with queue := rest } i).Spent t rows := by
  have hless : ∀ x, (Pairing.look t { p with queue := rest } i).Available x → p.Available x :=
    fun _ => h.toValid.available_of_look hqueue
  refine ⟨h.toJustified.look hk.sound hqueue, fun j a hj hnot item hitem hshares havail => ?_⟩
  refine Passed.mono ?_ hless
  obtain ⟨hj, hbefore | hnone⟩ := h.toValid.unpaired_of_look hqueue hj hnot
  · exact h.passed hj hbefore hitem hshares (hless item havail)
  · exact h.toJustified.passed_of_claimant? hk hnone hitem hshares (hless item havail)

end Pairing

namespace Table

variable {t : Table} {rows : List Record} {row : Record} {item : Item}

/-- The plan pairs an item with no row, and no fetched row is its own. -/
structure Available (t : Table) (rows : List Record) (item : Item) : Prop where
  unpaired : ∀ f ∈ (t.findings rows).take rows.length, f.about? ≠ some item.id
  free : ∀ d, item.dbId = some d → d ∉ rows.filterMap Record.dbId?

theorem Available.of_plan (hp : (t.pair rows).Valid t rows) (h : t.Available rows item) :
    (t.pair rows).Available item := by
  constructor
  · cases hown : (t.pair rows).rowOf? item.id with
    | none => rfl
    | some i =>
      exfalso
      obtain ⟨row, hi⟩ := Pairing.rowOf?_eq_some hown
      rcases findingFor_cases hp hi with ⟨he, -⟩ | ⟨id, x, he, -, hid, hf⟩
      · cases he
      obtain rfl := Option.some.inj he
      have hlength : (t.pair rows).slots.length = rows.length := by
        rw [← congrArg List.length hp.rows_eq, List.length_map]
      have hmem : t.findingFor row (some item.id) ∈ (t.findings rows).take rows.length := by
        rw [findings_eq, List.take_left' (by rw [List.length_map, hlength])]
        exact List.mem_map.2 ⟨(row, some item.id), List.mem_of_getElem? hi, rfl⟩
      rw [hf] at hmem
      exact h.unpaired _ hmem ((x.about?_findingWith row).trans (congrArg some hid))
  · unfold Pairing.isFree
    rw [rowIds_eq hp]
    cases hdb : item.dbId with
    | none => rfl
    | some d => exact decide_eq_true (h.free d hdb)

/-- Fetching rows with different identities into a table with exact indices: a row becomes a new item only
if every item that has a key of it, and that could have been paired with it, was passed over for another one
that is found before it, but was not to be had. -/
theorem passed_of_unknown (hs : t.Sound) (hk : t.KeysExact)
    (hrows : (rows.filterMap Record.dbId?).Nodup) (hnew : Finding.unknown row ∈ t.findings rows)
    (hitem : t.get? item.id = some item) (hshares : t.kind.SharesKey item.content row)
    (havail : t.Available rows item) :
    ∃ other, t.get? other.id = some other ∧ t.kind.SharesKey other.content row ∧
      ¬ t.Available rows other ∧ t.kind.FoundBefore row other item := by
  obtain ⟨hp, hqueue⟩ := Pairing.run_induction (fun _ _ _ hqueue h => h.look hk hqueue)
    (Pairing.spent_start hs hrows)
  obtain ⟨i, hslot⟩ := exists_slot_of_unknown hp.toValid hnew
  have hdone : i ∉ (t.pair rows).queue := hqueue ▸ List.not_mem_nil
  obtain ⟨other, hother, hoshares, hnot, hbefore⟩ :=
    hp.passed hslot hdone hitem hshares (havail.of_plan hp.toValid)
  exact ⟨other, hother, hoshares, fun h => hnot (h.of_plan hp.toValid), hbefore⟩

/-- The row that gives an alternative a rank in a scenario, as a session reads it. -/
def partRow (d : Int) (scenario alternative : Nat) (rank : Int) : Record :=
  .ofList [("id", .integer d), ("commit_id", .integer 2), ("scenario_id", .ref ⟨scenario⟩),
    ("alternative_id", .ref ⟨alternative⟩), ("rank", .integer rank)]

/-- Alternatives 2 and 3 are going to have ranks 1 and 2 in scenario 1. -/
def pendingParts : Table :=
  ((empty .scenarioAlternative).insert (.added ⟨5⟩ .scenarioAlternative
    (Kind.contentOf .scenarioAlternative (partRow 0 1 2 1)))).insert
    (.added ⟨6⟩ .scenarioAlternative (Kind.contentOf .scenarioAlternative (partRow 0 1 3 2)))

/-- Someone else has given rank 1 to alternative 4 and rank 2 to alternative 2.  The second row becomes a new
item, as it finds item 5 by its alternative, which the first row has taken by its rank; item 6, which has its
rank, was passed over. -/
theorem passed_of_unknown_of_pendingParts :
    ∃ (rows : List Record) (row : Record) (item : Item), pendingParts.Sound ∧ pendingParts.KeysExact ∧
      (rows.filterMap Record.dbId?).Nodup ∧ Finding.unknown row ∈ pendingParts.findings rows ∧
      pendingParts.get? item.id = some item ∧ pendingParts.kind.SharesKey item.content row ∧
      pendingParts.Available rows item ∧
      ∃ other, pendingParts.get? other.id = some other ∧
        pendingParts.kind.SharesKey other.content row ∧ ¬ pendingParts.Available rows other ∧
        pendingParts.kind.FoundBefore row other item := by
  have hbuilt : Built .scenarioAlternative pendingParts := (Built.empty.insert _).insert _
  have hkeys : pendingParts.KeysExact := hbuilt.keysSound.exact (by decide +kernel)
  have hrows : (([partRow 1 1 4 1, partRow 2 1 2 2] : List Record).filterMap Record.dbId?).Nodup := by
    decide +kernel
  have hnew : Finding.unknown (partRow 2 1 2 2) ∈
      pendingParts.findings [partRow 1 1 4 1, partRow 2 1 2 2] := by decide +kernel
  have hitem : pendingParts.get? ⟨6⟩ = some (.added ⟨6⟩ .scenarioAlternative
      (Kind.contentOf .scenarioAlternative (partRow 0 1 3 2))) := by decide +kernel
  have hshares : pendingParts.kind.SharesKey
      (Kind.contentOf .scenarioAlternative (partRow 0 1 3 2)) (partRow 2 1 2 2) := by decide +kernel
  have havail : pendingParts.Available [partRow 1 1 4 1, partRow 2 1 2 2]
      (.added ⟨6⟩ .scenarioAlternative (Kind.contentOf .scenarioAlternative (partRow 0 1 3 2))) :=
    ⟨by decide +kernel, fun d hd => nomatch hd⟩
  exact ⟨_, _, _, hbuilt.sound, hkeys, hrows, hnew, hitem, hshares, havail,
    passed_of_unknown hbuilt.sound hkeys hrows hnew hitem hshares havail⟩

/-- An alternative "base" that was added and removed again. -/
def addedAndRemoved : Item :=
  (Item.added ⟨2⟩ .alternative (Kind.contentOf .alternative (alternativeRow 0 "base"))).markRemoved none

/-- It had taken the place of another one with that name, which had been removed before. -/
def removedTwice : Table :=
  ((empty .alternative).insert
    ((Item.loaded ⟨1⟩ .alternative (alternativeRow 1 "base")).markRemoved none)).insert addedAndRemoved

/-- The row of the first one was renamed, and another one has its name now.  That becomes a new item, though
the second one is left, has no row, and has its name: only the first one was tried, and that has its own
row. -/
theorem new_though_takeable :
    removedTwice.Exact ∧ removedTwice.KeysExact ∧
      (([alternativeRow 1 "low", alternativeRow 2 "base"] : List Record).filterMap
        Record.dbId?).Nodup ∧
      removedTwice.findings [alternativeRow 1 "low", alternativeRow 2 "base"] =
        [.conflict ⟨1⟩ (some (alternativeRow 1 "low")) .removedButUpdated,
          .unknown (alternativeRow 2 "base")] ∧
      removedTwice.get? addedAndRemoved.id = some addedAndRemoved ∧
      removedTwice.kind.SharesKey addedAndRemoved.content (alternativeRow 2 "base") ∧
      removedTwice.Available [alternativeRow 1 "low", alternativeRow 2 "base"] addedAndRemoved := by
  have hbuilt : Built .alternative removedTwice := (Built.empty.insert _).insert _
  have hrows : ∀ item ∈ removedTwice.all, ∀ d ∈ item.dbId,
      removedTwice.itemOfRow? d = some item.id := by decide +kernel
  refine ⟨⟨hbuilt.sound, fun id item d hitem hd => ?_⟩, hbuilt.keysSound.exact (by decide +kernel),
    by decide +kernel, by decide +kernel, by decide +kernel, by decide +kernel, by decide +kernel,
    fun d hd => ?_⟩
  · obtain rfl := removedTwice.id_eq hitem
    exact hrows item (mem_all_iff.2 hitem) d hd
  · have hnone : addedAndRemoved.dbId = none := by decide +kernel
    rw [hnone] at hd
    cases hd

end Table

end StagedEdits
