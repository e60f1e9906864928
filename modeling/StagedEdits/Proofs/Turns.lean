import Mathlib.Data.List.Perm.Subperm
import Mathlib.Logic.Function.Iterate
import StagedEdits.Proofs.Pairing

/-!
# Turns of the pairing

In each turn of the pairing one row is taken from the queue, and one may be put back: the row that an
updated item leaves when another row takes the item.  So the queue can grow while it is emptied, and its
length bounds nothing.  But a row that has entered the queue is never paired with an item that can still be
taken (`Pairing.QueuedOnce.claimed`), while a row that is put back was: it has not been in the queue
before.  None of this depends on the identities that the rows carry.

* `Pairing.queue_iterate_turn`: the queue is what has entered it, less one row for each turn.
* `Table.rows_queued_once`: no row enters the queue twice, and there are at most as many turns as rows.
-/

namespace StagedEdits

namespace Pairing

variable {t : Table} {rows : List Record} {p : Pairing}

/-- One turn: the first row of the queue is taken from it and looked at. -/
def turn (t : Table) (p : Pairing) : Pairing :=
  match p.queue with
  | [] => p
  | i :: rest => look t { p with queue := rest } i

/-- The row that is put back into the queue in a turn: the one that the item which is taken leaves. -/
def vacated? (t : Table) (p : Pairing) : Option Nat :=
  (p.queue.head?.bind fun i => (p.slots[i]?).bind fun slot => p.claimant? t slot.1).bind (·.2)

/-- The rows that enter the queue at the start or in the first `n` turns, in this order. -/
def entered (t : Table) (p : Pairing) : Nat → List Nat
  | 0 => p.queue
  | n + 1 => entered t p n ++ (vacated? t ((turn t)^[n] p)).toList

/-! ### One turn -/

/-- What can happen in a turn. -/
theorem turn_cases (t : Table) (p : Pairing) :
    (p.queue = [] ∧ p.vacated? t = none ∧ p.turn t = p) ∨ ∃ i rest, p.queue = i :: rest ∧
      ((p.vacated? t = none ∧ p.turn t = { p with queue := rest }) ∨
        ∃ id, id ∉ p.claimed ∧ p.vacated? t = p.rowOf? id ∧
          p.turn t = ({ p with queue := rest } : Pairing).claim i id (p.rowOf? id)) := by
  unfold turn vacated?
  cases hqueue : p.queue with
  | nil => exact .inl ⟨rfl, rfl, rfl⟩
  | cons i rest =>
    refine .inr ⟨i, rest, rfl, ?_⟩
    rw [List.head?_cons, Option.bind_some]
    rcases look_cases t p i rest with
      ⟨hnone, hlook⟩ | ⟨slot, id, hslot, hclaim, hlook⟩
    · refine .inl ⟨?_, hlook⟩
      rw [Option.bind_eq_none_iff.2 hnone, Option.bind_none]
    · refine .inr ⟨id, (claimant?_fresh hclaim).2, ?_, hlook⟩
      rw [hslot, Option.bind_some, hclaim, Option.bind_some]

theorem queue_turn (t : Table) (p : Pairing) :
    (p.turn t).queue = p.queue.tail ++ (p.vacated? t).toList := by
  rcases p.turn_cases t with ⟨hqueue, hvac, hturn⟩ | ⟨i, rest, hqueue, ⟨hvac, hturn⟩ | ⟨id, -, hvac, hturn⟩⟩
    <;> rw [hturn, hvac, hqueue]
  · rfl
  · exact (List.append_nil _).symm
  · rfl

/-! ### What enters the queue -/

/-- The rows that have entered the queue have done so once, and none of them is paired with an item that
can still be taken. -/
structure QueuedOnce (rows : List Record) (entered : List Nat) (p : Pairing) : Prop where
  rows_eq : p.slots.map (·.1) = rows
  nodup : entered.Nodup
  lt : ∀ i ∈ entered, i < rows.length
  queued : p.queue ⊆ entered
  claimed : ∀ ⦃i row id⦄, i ∈ entered → p.slots[i]? = some (row, some id) → id ∈ p.claimed

theorem lt_of_slot (hrows : p.slots.map (·.1) = rows) {i : Nat} {slot : Record × Option ItemId}
    (hi : p.slots[i]? = some slot) : i < rows.length := by
  rw [← hrows, List.length_map]
  exact (List.getElem?_eq_some_iff.1 hi).1

theorem queuedOnce_start (t : Table) (rows : List Record) :
    (start t rows).QueuedOnce rows (start t rows).queue where
  rows_eq := map_slots_start t rows
  nodup := nodup_queue_start t rows
  lt i hi := by
    obtain ⟨row, hrow⟩ := waiting_start hi
    exact lt_of_slot (map_slots_start t rows) hrow
  queued := List.Subset.refl _
  claimed i row id hi hrow := by
    obtain ⟨row', hrow'⟩ := waiting_start hi
    rw [hrow'] at hrow
    cases hrow

/-- The row of an item that was not taken before has not been in the queue. -/
theorem QueuedOnce.not_mem_of_rowOf? {entered : List Nat} (h : p.QueuedOnce rows entered)
    {id : ItemId} (hfresh : id ∉ p.claimed) {o : Nat} (ho : p.rowOf? id = some o) : o ∉ entered := by
  obtain ⟨row, hrow⟩ := rowOf?_eq_some ho
  exact fun hmem => hfresh (h.claimed hmem hrow)

/-- There are at most as many rows that have entered the queue as there are rows. -/
theorem QueuedOnce.length_le {entered : List Nat} (h : p.QueuedOnce rows entered) :
    entered.length ≤ rows.length := by
  have hsub : entered ⊆ List.range rows.length := fun i hi => List.mem_range.2 (h.lt i hi)
  simpa using (List.subperm_of_subset h.nodup hsub).length_le

/-- The row that a claimed item leaves enters the queue for the first time. -/
theorem QueuedOnce.claim {entered : List Nat} (h : p.QueuedOnce rows entered) {i : Nat}
    {rest : List Nat} (hi : p.queue = i :: rest) {id : ItemId} (hfresh : id ∉ p.claimed) :
    (({ p with queue := rest } : Pairing).claim i id (p.rowOf? id)).QueuedOnce rows
      (entered ++ (p.rowOf? id).toList) := by
  have hnew : ∀ o, p.rowOf? id = some o → o ∉ entered := fun o => h.not_mem_of_rowOf? hfresh
  have hown : p.rowOf? id ≠ some i := fun ho => hnew i ho (h.queued (hi ▸ List.mem_cons_self ..))
  constructor
  case rows_eq => rw [map_slots_claim]; exact h.rows_eq
  case nodup =>
    refine List.nodup_append.2 ⟨h.nodup, ?_, ?_⟩
    · cases p.rowOf? id <;> simp
    · rintro j hj o ho rfl
      exact hnew j (Option.mem_toList.1 ho) hj
  case lt =>
    intro j hj
    rcases List.mem_append.1 hj with hj | hj
    · exact h.lt j hj
    · obtain ⟨row, hrow⟩ := rowOf?_eq_some (Option.mem_toList.1 hj)
      exact lt_of_slot h.rows_eq hrow
  case queued =>
    intro j hj
    rcases List.mem_append.1 hj with hj | hj
    · exact List.mem_append_left _ (h.queued (hi ▸ List.mem_cons_of_mem _ hj))
    · exact List.mem_append_right _ hj
  case claimed =>
    intro j row id' hj hslot
    rcases slot_of_claim hown hslot with ⟨-, rfl⟩ | ⟨-, hleft, hslot⟩
    · exact List.mem_cons_self ..
    · -- the row that was left is without an item
      refine List.mem_cons_of_mem _ (h.claimed ((List.mem_append.1 hj).resolve_right ?_) hslot)
      exact fun hj => hleft (Option.mem_toList.1 hj)

theorem QueuedOnce.turn {entered : List Nat} (h : p.QueuedOnce rows entered) (t : Table) :
    (p.turn t).QueuedOnce rows (entered ++ (p.vacated? t).toList) := by
  rcases p.turn_cases t with ⟨-, hvac, hturn⟩ | ⟨i, rest, hi, ⟨hvac, hturn⟩ | ⟨id, hfresh, hvac, hturn⟩⟩
    <;> rw [hvac, hturn]
  · rw [Option.toList_none, List.append_nil]
    exact h
  · rw [Option.toList_none, List.append_nil]
    exact { h with queued := fun j hj => h.queued (hi ▸ List.mem_cons_of_mem _ hj) }
  · exact h.claim hi hfresh

theorem queuedOnce_iterate_turn (t : Table) (rows : List Record) (n : Nat) :
    ((turn t)^[n] (start t rows)).QueuedOnce rows (entered t (start t rows) n) := by
  induction n with
  | zero => exact queuedOnce_start t rows
  | succ n ih =>
    rw [Function.iterate_succ_apply']
    exact ih.turn t

/-- The queue holds what has entered it, in the same order, less one row for each turn. -/
theorem queue_iterate_turn (t : Table) (p : Pairing) (n : Nat) :
    ((turn t)^[n] p).queue = (entered t p n).drop n := by
  induction n with
  | zero => rfl
  | succ n ih =>
    rw [Function.iterate_succ_apply', queue_turn, ih, List.tail_drop, entered]
    rcases turn_cases t ((turn t)^[n] p) with ⟨hqueue, hvac, -⟩ | ⟨i, rest, hqueue, -⟩
    · rw [hvac, Option.toList_none, List.append_nil, List.append_nil]
    · have hlt := List.length_lt_of_drop_ne_nil (ih ▸ hqueue ▸ List.cons_ne_nil i rest)
      exact (List.drop_append_of_le_length hlt).symm

/-- Pairing takes turns until the queue is empty. -/
theorem run_eq_iterate_turn (t : Table) (p : Pairing) :
    (p.run t).queue = [] ∧ ∃ n, p.run t = (turn t)^[n] p ∧ ∀ m < n, ((turn t)^[m] p).queue ≠ [] := by
  refine (run_induction (P := fun q => ∃ n, q = (turn t)^[n] p ∧ ∀ m < n, ((turn t)^[m] p).queue ≠ [])
    ?_ ⟨0, rfl, fun m hm => absurd hm (Nat.not_lt_zero m)⟩).symm
  rintro q i rest hqueue ⟨n, rfl, hbefore⟩
  refine ⟨n + 1, ?_, fun m hm => ?_⟩
  · rw [Function.iterate_succ_apply', turn, hqueue]
  · rcases Nat.lt_succ_iff_lt_or_eq.1 hm with hm | rfl
    · exact hbefore m hm
    · rw [hqueue]
      exact List.cons_ne_nil i rest

end Pairing

/-- Whatever rows a table is paired with, none of them enters the queue twice.  The queue loses a row in
every turn, so it is empty after at most as many turns as there are rows, and then the pairing ends. -/
theorem Table.rows_queued_once (t : Table) (rows : List Record) :
    (∀ n, ((Pairing.start t rows).entered t n).Nodup ∧
      (∀ i ∈ (Pairing.start t rows).entered t n, i < rows.length) ∧
      ((Pairing.turn t)^[n] (Pairing.start t rows)).queue = ((Pairing.start t rows).entered t n).drop n) ∧
    ∃ n ≤ rows.length, t.pair rows = (Pairing.turn t)^[n] (Pairing.start t rows) ∧
      (t.pair rows).queue = [] ∧ ∀ m < n, ((Pairing.turn t)^[m] (Pairing.start t rows)).queue ≠ [] := by
  have honce := Pairing.queuedOnce_iterate_turn t rows
  have hqueue := Pairing.queue_iterate_turn t (Pairing.start t rows)
  refine ⟨fun n => ⟨(honce n).nodup, (honce n).lt, hqueue n⟩, ?_⟩
  obtain ⟨hempty, n, hrun, hbefore⟩ := Pairing.run_eq_iterate_turn t (Pairing.start t rows)
  refine ⟨n, ?_, hrun, hempty, hbefore⟩
  cases n with
  | zero => exact Nat.zero_le _
  | succ m =>
    -- in the last turn there was a row in the queue
    have hlast : ((Pairing.start t rows).entered t m).drop m ≠ [] := hqueue m ▸ hbefore m m.lt_succ_self
    exact Nat.lt_of_lt_of_le (List.length_lt_of_drop_ne_nil hlast) (honce m).length_le

end StagedEdits
