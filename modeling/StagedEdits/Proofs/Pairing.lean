import StagedEdits.Proofs.Table
import StagedEdits.Reconcile.Finding

/-!
# Rows and items are paired one to one

`Pairing.Valid` is the invariant of the pairing of rows with items: no item is paired twice, every
item whose own row was fetched stays paired with some row, and only rows without an item wait in
the queue.  It holds at the start and after each row that is looked at, hence in the end
(`Table.valid_pair`).
-/

namespace StagedEdits

/-- Members of a list with the same image under a function whose images do not repeat stand in the
same place. -/
theorem eq_of_nodup_filterMap {α β : Type} {f : α → Option β} {l : List α}
    (h : (l.filterMap f).Nodup) {i j : Nat} {a b : α} {c : β} (ha : l[i]? = some a)
    (hb : l[j]? = some b) (hfa : f a = some c) (hfb : f b = some c) : i = j := by
  have hpair : l.Pairwise fun x y => ∀ u, f x = some u → ∀ v, f y = some v → u ≠ v := by
    rw [List.Nodup, List.pairwise_filterMap] at h
    exact h.imp fun hxy u hu v hv => hxy u hu v hv
  rw [List.pairwise_iff_getElem] at hpair
  obtain ⟨hi, rfl⟩ := List.getElem?_eq_some_iff.1 ha
  obtain ⟨hj, rfl⟩ := List.getElem?_eq_some_iff.1 hb
  rcases Nat.lt_trichotomy i j with hlt | heq | hgt
  · exact absurd rfl (hpair i j hi hj hlt c hfa c hfb)
  · exact heq
  · exact absurd rfl (hpair j i hj hi hgt c hfb c hfa)

namespace Pairing

/-- The invariant of pairing the items of a table with rows. -/
structure Valid (t : Table) (rows : List Record) (p : Pairing) : Prop where
  rows_eq : p.slots.map (·.1) = rows
  unique : ∀ ⦃i j : Nat⦄ ⦃a b : Record⦄ ⦃id : ItemId⦄, p.slots[i]? = some (a, some id) →
    p.slots[j]? = some (b, some id) → i = j
  present : ∀ ⦃i : Nat⦄ ⦃row : Record⦄ ⦃id : ItemId⦄, p.slots[i]? = some (row, some id) →
    ∃ item, t.get? id = some item
  paired : ∀ ⦃d : DbId⦄ ⦃id : ItemId⦄, t.itemOfRow? d = some id →
    d ∈ rows.filterMap Record.dbId? → ∃ (i : Nat) (row : Record), p.slots[i]? = some (row, some id)
  waiting : ∀ i ∈ p.queue, ∃ row, p.slots[i]? = some (row, none)
  queue_nodup : p.queue.Nodup

variable {t : Table} {rows : List Record} {p : Pairing}

/-! ### The row of an item -/

theorem rowOf?_eq_some {id : ItemId} {o : Nat} (h : p.rowOf? id = some o) :
    ∃ row, p.slots[o]? = some (row, some id) := by
  unfold rowOf? at h
  obtain ⟨⟨⟨row, item⟩, o'⟩, hfind, rfl⟩ := Option.map_eq_some_iff.1 h
  have hitem : item = some id := by simpa using List.find?_some hfind
  have hmem := List.mem_reverse.1 (List.mem_of_find?_eq_some hfind)
  subst hitem
  exact ⟨row, List.mem_zipIdx_iff_getElem?.1 hmem⟩

theorem rowOf?_eq_none {id : ItemId} (h : p.rowOf? id = none) {i : Nat} {row : Record} :
    p.slots[i]? ≠ some (row, some id) := by
  intro hi
  unfold rowOf? at h
  rw [Option.map_eq_none_iff, List.find?_eq_none] at h
  have hmem := List.mem_reverse.2 (List.mem_zipIdx_iff_getElem?.2 hi :
    ((row, some id), i) ∈ p.slots.zipIdx)
  exact h _ hmem (by simp)

/-- A row claims an item of the table, which leaves the row it is paired with. -/
theorem claimant?_spec {row : Record} {id : ItemId} {own : Option Nat}
    (h : p.claimant? t row = some (id, own)) :
    (∃ item, t.get? id = some item) ∧ own = p.rowOf? id := by
  refine ⟨Table.mem_ids_iff.1 (claimant?_fresh h).1, ?_⟩
  unfold claimant? at h
  rcases Option.or_eq_some_iff.1 h with h | ⟨-, h⟩
  · unfold liveClaimant? at h
    split at h
    · cases h
    · split at h
      · cases h
      next hrow =>
        split at h
        · cases h; exact hrow.symm
        · cases h
      next hrow =>
        split at h
        · cases h; exact hrow.symm
        · cases h
  · obtain ⟨id', hid, he⟩ := Option.map_eq_some_iff.1 h
    cases he
    unfold removedClaimant? at hid
    rw [Option.filter_eq_some_iff] at hid
    simp only [Bool.and_eq_true, Option.isNone_iff_eq_none] at hid
    exact hid.2.1.1.symm

/-- To look at a row changes nothing, or the row claims an item, which leaves the row it is paired with. -/
theorem look_cases (t : Table) (p : Pairing) (i : Nat) (rest : List Nat) :
    ((∀ slot, p.slots[i]? = some slot → p.claimant? t slot.1 = none) ∧
        look t { p with queue := rest } i = { p with queue := rest }) ∨
      ∃ slot id, p.slots[i]? = some slot ∧ p.claimant? t slot.1 = some (id, p.rowOf? id) ∧
        look t { p with queue := rest } i =
          ({ p with queue := rest } : Pairing).claim i id (p.rowOf? id) := by
  unfold look
  split
  next hnone => exact .inl ⟨fun slot hslot => Option.bind_eq_none_iff.1 hnone slot hslot, rfl⟩
  next id own hclaim =>
    obtain ⟨slot, hslot, hclaim⟩ := Option.bind_eq_some_iff.1 hclaim
    obtain rfl := (claimant?_spec hclaim).2
    exact .inr ⟨slot, id, hslot, hclaim, rfl⟩

/-! ### The start -/

theorem map_slots_start (t : Table) (rows : List Record) : (start t rows).slots.map (·.1) = rows := by
  unfold start
  rw [List.map_map]
  exact List.map_id' rows

theorem slots_start (t : Table) (rows : List Record) (i : Nat) : (start t rows).slots[i]? =
    rows[i]?.map fun row : Record => (row, row.dbId?.bind t.itemOfRow?) := by
  unfold start
  exact List.getElem?_map ..

/-- A row that has an item from the start is bound to it. -/
theorem bound_of_start {i : Nat} {row : Record} {id : ItemId}
    (h : (start t rows).slots[i]? = some (row, some id)) :
    rows[i]? = some row ∧ ∃ d, row.dbId? = some d ∧ t.itemOfRow? d = some id := by
  rw [slots_start] at h
  obtain ⟨row', hrow, he⟩ := Option.map_eq_some_iff.1 h
  injection he with h1 h2
  subst h1
  exact ⟨hrow, Option.bind_eq_some_iff.1 h2⟩

/-- The rows that wait at the start have no item. -/
theorem waiting_start {i : Nat} (hi : i ∈ (start t rows).queue) :
    ∃ row, (start t rows).slots[i]? = some (row, none) := by
  obtain ⟨⟨⟨row, item⟩, i'⟩, hmem, rfl⟩ := List.mem_map.1 hi
  obtain ⟨hmem, hnone⟩ := List.mem_filter.1 hmem
  have hitem : item = none := by simpa using hnone
  subst hitem
  exact ⟨row, List.mem_zipIdx_iff_getElem?.1 hmem⟩

theorem nodup_queue_start (t : Table) (rows : List Record) : (start t rows).queue.Nodup := by
  have hidx : ((start t rows).slots.zipIdx.map (·.2)).Nodup := by
    rw [List.zipIdx_map_snd]
    exact List.nodup_range'
  exact hidx.sublist (List.filter_sublist.map _)

/-! ### The invariant -/

theorem valid_start (hrows : (rows.filterMap Record.dbId?).Nodup) (hpresent : t.Sound) :
    (start t rows).Valid t rows := by
  constructor
  case rows_eq => exact map_slots_start t rows
  case unique =>
    intro i j a b id ha hb
    obtain ⟨hia, d, hda, hd⟩ := bound_of_start ha
    obtain ⟨hjb, e, heb, he⟩ := bound_of_start hb
    obtain rfl : d = e := t.bindings.injective hd he
    exact eq_of_nodup_filterMap hrows hia hjb hda heb
  case present =>
    intro i row id h
    obtain ⟨-, d, -, hd⟩ := bound_of_start h
    obtain ⟨item, hitem, -⟩ := hpresent hd
    exact ⟨item, hitem⟩
  case paired =>
    intro d id hd hmem
    obtain ⟨row, hrow, hdb⟩ := List.mem_filterMap.1 hmem
    obtain ⟨i, hi⟩ := List.mem_iff_getElem?.1 hrow
    refine ⟨i, row, ?_⟩
    rw [slots_start, hi, Option.map_some, hdb, Option.bind_some, hd]
  case waiting => exact fun i hi => waiting_start hi
  case queue_nodup => exact nodup_queue_start t rows

/-- What claiming an item does to the slots. -/
theorem slots_claim (p : Pairing) (i : Nat) (id : ItemId) (own : Option Nat) (hown : own ≠ some i)
    (j : Nat) :
    (p.claim i id own).slots[j]? =
      if j = i then p.slots[j]?.map fun slot => (slot.1, some id)
      else if own = some j then p.slots[j]?.map fun slot => (slot.1, none)
      else p.slots[j]? := by
  unfold claim
  rw [List.getElem?_modify]
  cases own with
  | none =>
    by_cases hj : i = j
    · subst hj; simp
    · simp [hj, Ne.symm hj]
  | some o =>
    rw [Option.elim_some, List.getElem?_modify]
    have hoi : o ≠ i := fun h => hown (congrArg some h)
    by_cases hj : i = j
    · subst hj; simp [hoi]
    · by_cases ho : o = j
      · subst ho; simp [hj, Ne.symm hj]
      · simp [hj, Ne.symm hj, ho]

theorem map_slots_claim (p : Pairing) (i : Nat) (id : ItemId) (own : Option Nat) :
    (p.claim i id own).slots.map (·.1) = p.slots.map (·.1) := by
  have hmodify : ∀ (l : List (Record × Option ItemId)) (i : Nat) (x : Option ItemId),
      (l.modify i fun slot => (slot.1, x)).map (·.1) = l.map (·.1) := by
    intro l i x
    refine List.ext_getElem? fun j => ?_
    rw [List.getElem?_map, List.getElem?_modify, List.getElem?_map]
    cases l[j]? with
    | none => rfl
    | some slot => by_cases hj : i = j <;> simp [hj]
  unfold claim
  rw [hmodify]
  cases own with
  | none => rfl
  | some o => exact hmodify ..

/-- A waiting row is paired with no item. -/
theorem rowOf?_ne_of_waiting {i : Nat} {row : Record} (hi : p.slots[i]? = some (row, none))
    (id : ItemId) : p.rowOf? id ≠ some i := by
  intro he
  obtain ⟨row', hrow'⟩ := rowOf?_eq_some he
  rw [hi] at hrow'
  cases hrow'

theorem slot_self_of_claim {i : Nat} {slot : Record × Option ItemId} (hi : p.slots[i]? = some slot)
    {id : ItemId} {own : Option Nat} (hown : own ≠ some i) :
    (p.claim i id own).slots[i]? = some (slot.1, some id) := by
  rw [slots_claim p i id own hown, if_pos rfl]
  exact congrArg (Option.map _) hi

/-- Who is paired after a claim has claimed, or was paired before and has not been left. -/
theorem slot_of_claim {i : Nat} {id : ItemId} {own : Option Nat} (hown : own ≠ some i) {j : Nat}
    {a : Record} {id' : ItemId} (hj : (p.claim i id own).slots[j]? = some (a, some id')) :
    (j = i ∧ id' = id) ∨ (j ≠ i ∧ own ≠ some j ∧ p.slots[j]? = some (a, some id')) := by
  rw [slots_claim p i id own hown] at hj
  split at hj
  next hji =>
    obtain ⟨slot, -, he⟩ := Option.map_eq_some_iff.1 hj
    injection he with _ he
    exact .inl ⟨hji, (Option.some.inj he).symm⟩
  next hji =>
    split at hj
    next =>
      obtain ⟨slot, -, he⟩ := Option.map_eq_some_iff.1 hj
      cases he
    next hleft => exact .inr ⟨hji, hleft, hj⟩

/-- After a waiting row has claimed an item, it alone is paired with that, and the other items are
paired as they were. -/
theorem Valid.paired_of_claim (h : p.Valid t rows) {i : Nat} {row : Record} {id : ItemId}
    (hi : p.slots[i]? = some (row, none)) (queue : List Nat) {j : Nat} {a : Record} {id' : ItemId}
    (hj : (({ p with queue := queue } : Pairing).claim i id (p.rowOf? id)).slots[j]? =
      some (a, some id')) :
    (j = i ∧ id' = id) ∨ (j ≠ i ∧ id' ≠ id ∧ p.slots[j]? = some (a, some id')) := by
  refine (slot_of_claim (rowOf?_ne_of_waiting hi id) hj).imp_right ?_
  rintro ⟨hji, hleft, hslot⟩
  refine ⟨hji, ?_, hslot⟩
  rintro rfl
  cases hrow : p.rowOf? id' with
  | none => exact rowOf?_eq_none hrow hslot
  | some o =>
    obtain ⟨row', ho⟩ := rowOf?_eq_some hrow
    exact hleft (by rw [hrow, h.unique ho hslot])

/-- Items that are paired stay paired, if not with the same row. -/
theorem exists_slot_claim {i : Nat} {row : Record} (hi : p.slots[i]? = some (row, none))
    (queue : List Nat) (id : ItemId) {j : Nat} {a : Record} {id' : ItemId}
    (hj : p.slots[j]? = some (a, some id')) : ∃ (j : Nat) (a : Record),
      (({ p with queue := queue } : Pairing).claim i id (p.rowOf? id)).slots[j]? =
        some (a, some id') := by
  have hown := rowOf?_ne_of_waiting hi id
  have hslots := slots_claim { p with queue := queue } i id (p.rowOf? id) hown
  by_cases hne : id' = id
  · subst hne
    exact ⟨i, row, slot_self_of_claim hi hown⟩
  · refine ⟨j, a, ?_⟩
    have hji : j ≠ i := by
      rintro rfl
      rw [hi] at hj
      cases hj
    refine (hslots j).trans ((if_neg hji).trans ((if_neg fun hown => ?_).trans hj))
    -- the row that is left is the one of the claimed item
    obtain ⟨b, hb⟩ := rowOf?_eq_some hown
    obtain ⟨-, he⟩ := Prod.mk.inj (Option.some.inj (hj.symm.trans hb))
    exact hne (Option.some.inj he)

/-- Claiming an item for a waiting row keeps the invariant. -/
theorem Valid.claim (h : p.Valid t rows) {i : Nat} {row : Record} {rest : List Nat} {id : ItemId}
    (hqueue : p.queue = i :: rest) (hi : p.slots[i]? = some (row, none))
    (hid : ∃ item, t.get? id = some item) :
    (({ p with queue := rest } : Pairing).claim i id (p.rowOf? id)).Valid t rows := by
  have hown := rowOf?_ne_of_waiting hi id
  have hslots := slots_claim { p with queue := rest } i id (p.rowOf? id) hown
  obtain ⟨hirest, hrest⟩ := List.nodup_cons.1 (hqueue ▸ h.queue_nodup)
  constructor
  case rows_eq => rw [map_slots_claim]; exact h.rows_eq
  case unique =>
    intro j j' a b id' hj hj'
    rcases h.paired_of_claim hi rest hj with ⟨rfl, hid'⟩ | ⟨-, hne, hj⟩
    · rcases h.paired_of_claim hi rest hj' with ⟨rfl, -⟩ | ⟨-, hne', -⟩
      · rfl
      · exact absurd hid' hne'
    · rcases h.paired_of_claim hi rest hj' with ⟨-, hid''⟩ | ⟨-, -, hj'⟩
      · exact absurd hid'' hne
      · exact h.unique hj hj'
  case present =>
    intro j a id' hj
    rcases h.paired_of_claim hi rest hj with ⟨-, rfl⟩ | ⟨-, -, hj⟩
    · exact hid
    · exact h.present hj
  case paired =>
    intro d id' hd hmem
    obtain ⟨j, a, hj⟩ := h.paired hd hmem
    exact exists_slot_claim hi rest id hj
  case waiting =>
    intro j hj
    have hj : j ∈ rest ++ (p.rowOf? id).toList := hj
    rw [hslots]
    rcases List.mem_append.1 hj with hj | hj
    · rw [if_neg fun he : j = i => hirest (he ▸ hj)]
      obtain ⟨a, ha⟩ := h.waiting j (hqueue ▸ List.mem_cons_of_mem _ hj)
      split
      · exact ⟨a, congrArg (Option.map _) ha⟩
      · exact ⟨a, ha⟩
    · rw [Option.mem_toList] at hj
      obtain ⟨a, ha⟩ := rowOf?_eq_some hj
      rw [if_neg (fun he : j = i => hown (he ▸ hj)), if_pos hj]
      exact ⟨a, congrArg (Option.map _) ha⟩
  case queue_nodup =>
    refine List.nodup_append.2 ⟨hrest, ?_, ?_⟩
    · cases p.rowOf? id <;> simp
    · intro j hj j' hj'
      rintro rfl
      rw [Option.mem_toList] at hj'
      obtain ⟨a, ha⟩ := rowOf?_eq_some hj'
      obtain ⟨b, hb⟩ := h.waiting j (hqueue ▸ List.mem_cons_of_mem _ hj)
      rw [hb] at ha
      cases ha

theorem Valid.look (h : p.Valid t rows) {i : Nat} {rest : List Nat} (hqueue : p.queue = i :: rest) :
    (look t { p with queue := rest } i).Valid t rows := by
  obtain ⟨row, hrow⟩ := h.waiting i (hqueue ▸ List.mem_cons_self ..)
  rcases look_cases t p i rest with ⟨-, hlook⟩ | ⟨slot, id, -, hclaim, hlook⟩ <;> rw [hlook]
  · exact { h with
      waiting := fun j hj => h.waiting j (hqueue ▸ List.mem_cons_of_mem _ hj)
      queue_nodup := (List.nodup_cons.1 (hqueue ▸ h.queue_nodup)).2 }
  · exact h.claim hqueue hrow (claimant?_spec hclaim).1

/-- A row that is without an item and does not wait for one was so before, or has just been looked at in
vain. -/
theorem Valid.unpaired_of_look (h : p.Valid t rows) {i : Nat} {rest : List Nat} (hqueue : p.queue = i :: rest)
    {j : Nat} {a : Record}
    (hj : (Pairing.look t { p with queue := rest } i).slots[j]? = some (a, none))
    (hnot : j ∉ (Pairing.look t { p with queue := rest } i).queue) :
    p.slots[j]? = some (a, none) ∧ (j ∉ p.queue ∨ p.claimant? t a = none) := by
  obtain ⟨row, hrow⟩ := h.waiting i (hqueue ▸ List.mem_cons_self ..)
  have hbefore : j ≠ i → j ∉ rest → j ∉ p.queue := fun hji hrest hmem =>
    (List.mem_cons.1 (hqueue ▸ hmem)).elim hji hrest
  rcases look_cases t p i rest with ⟨hnone, hlook⟩ | ⟨slot, id, -, -, hlook⟩
    <;> rw [hlook] at hj hnot
  · refine ⟨hj, ?_⟩
    by_cases hji : j = i
    · subst hji
      exact .inr (hnone _ hj)
    · exact .inl (hbefore hji hnot)
  · rw [slots_claim _ i id _ (rowOf?_ne_of_waiting hrow id)] at hj
    split at hj
    next =>
      obtain ⟨slot, -, he⟩ := Option.map_eq_some_iff.1 hj
      cases he
    next hji =>
      split at hj
      next hown =>
        -- the row that the item leaves is queued again
        exact absurd (List.mem_append_right rest (Option.mem_toList.2 hown)) hnot
      next => exact ⟨hj, .inl (hbefore hji fun hmem => hnot (List.mem_append_left _ hmem))⟩

/-- What holds at the start of a run, and after every row that is taken from the queue and looked at,
holds in the end, when the queue is empty. -/
theorem run_induction {P : Pairing → Prop}
    (hlook : ∀ (p : Pairing) (i : Nat) (rest : List Nat), p.queue = i :: rest → P p →
      P (look t { p with queue := rest } i)) (h : P p) :
    P (p.run t) ∧ (p.run t).queue = [] := by
  induction p using Pairing.run.induct t with
  | case1 p hqueue =>
    rw [Pairing.run]
    split
    next => exact ⟨h, hqueue⟩
    next i rest hcons => rw [hqueue] at hcons; cases hcons
  | case2 p i rest hqueue ih =>
    rw [Pairing.run]
    split
    next hnil => rw [hqueue] at hnil; cases hnil
    next i' rest' hcons =>
      rw [hqueue] at hcons
      cases hcons
      exact ih (hlook p i rest hqueue h)

theorem Valid.run (h : p.Valid t rows) : (p.run t).Valid t rows :=
  (run_induction (fun _ _ _ hqueue h => h.look hqueue) h).1

end Pairing

/-- Rows that carry different identities are paired one to one with items. -/
theorem Table.valid_pair {t : Table} {rows : List Record} (ht : t.Sound)
    (hrows : (rows.filterMap Record.dbId?).Nodup) : (t.pair rows).Valid t rows :=
  (Pairing.valid_start hrows ht).run

end StagedEdits
