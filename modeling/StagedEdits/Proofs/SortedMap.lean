import Mathlib.Data.List.Nodup
import StagedEdits.SortedMap

/-!
# Look-ups in maps built from lists

What `keys`, `values`, `ofList` and `insertAll` are in terms of `get?`.  All maps that the program
builds from a list of entries give the entries of a key one value, so the order of the entries never
matters (`get?_foldl_insert`).
-/

namespace StagedEdits.SortedMap

variable {α β γ : Type} [Ord α]

section Lookup

variable [DecidableEq α] [Std.LawfulEqOrd α] {m : SortedMap α β}

theorem mem_values_iff {v : β} : v ∈ m.values ↔ ∃ k, m.get? k = some v := by
  unfold values
  rw [List.mem_map]
  constructor
  · rintro ⟨⟨k, v'⟩, h, rfl⟩
    exact ⟨k, mem_entries_iff.1 h⟩
  · rintro ⟨k, h⟩
    exact ⟨(k, v), mem_entries_iff.2 h, rfl⟩

theorem mem_keys_iff {k : α} : k ∈ m.keys ↔ ∃ v, m.get? k = some v := by
  unfold keys
  rw [List.mem_map]
  constructor
  · rintro ⟨⟨k', v⟩, h, rfl⟩
    exact ⟨v, mem_entries_iff.1 h⟩
  · rintro ⟨v, h⟩
    exact ⟨(k, v), mem_entries_iff.2 h, rfl⟩

omit [Std.LawfulEqOrd α] in
theorem contains_iff {k : α} : m.contains k = true ↔ ∃ v, m.get? k = some v :=
  Option.isSome_iff_exists

omit [DecidableEq α] [Std.LawfulEqOrd α] in
theorem pairwise_keys (m : SortedMap α β) : m.keys.Pairwise fun k k' => compare k k' = .lt := by
  unfold keys
  rw [List.pairwise_map]
  exact m.sorted

omit [DecidableEq α] in
theorem nodup_keys (m : SortedMap α β) : m.keys.Nodup := m.pairwise_keys.imp ne_of_compare_lt

/-- Values that determine their key come in the order of the keys. -/
theorem pairwise_values {f : β → α} (h : ∀ k v, m.get? k = some v → f v = k) :
    m.values.Pairwise fun v w => compare (f v) (f w) = .lt := by
  have hkey : ∀ e ∈ m.entries, f e.2 = e.1 := fun e he => h e.1 e.2 (mem_entries_iff.1 he)
  unfold values
  rw [List.pairwise_map]
  refine m.sorted.imp_of_mem fun he he' hlt => ?_
  rw [hkey _ he, hkey _ he']
  exact hlt

/-- So they do not repeat. -/
theorem nodup_values {f : β → α} (h : ∀ k v, m.get? k = some v → f v = k) : m.values.Nodup :=
  (pairwise_values h).imp fun hlt he => ne_of_compare_lt hlt (congrArg f he)

end Lookup

section Build

variable [DecidableEq α] [Std.TransOrd α] [Std.LawfulEqOrd α]

/-- Storing entries one after the other, where every entry of a key has the value `g` says. -/
theorem get?_foldl_insert {g : α → Option β} {l : List (α × β)} (h : ∀ e ∈ l, g e.1 = some e.2)
    (m : SortedMap α β) (k : α) :
    (l.foldl (fun m e => m.insert e.1 e.2) m).get? k =
      if k ∈ l.map (·.1) then g k else m.get? k := by
  induction l generalizing m with
  | nil => simp
  | cons e l ih =>
    rw [List.foldl_cons, ih (fun e' he' => h e' (List.mem_cons_of_mem _ he')), get?_insert,
      List.map_cons]
    by_cases hl : k ∈ l.map (·.1)
    · rw [if_pos hl, if_pos (List.mem_cons_of_mem _ hl)]
    · rw [if_neg hl]
      by_cases hk : k = e.1
      · subst hk
        rw [if_pos rfl, if_pos (List.mem_cons_self ..), h e (List.mem_cons_self ..)]
      · rw [if_neg hk, if_neg (by simp only [List.mem_cons, not_or]; exact ⟨hk, hl⟩)]

@[simp] theorem get?_insertAll (m n : SortedMap α β) (k : α) :
    (m.insertAll n).get? k = (n.get? k).or (m.get? k) := by
  unfold insertAll
  rw [get?_foldl_insert (g := n.get?) (fun e he => mem_entries_iff.1 he)]
  change (if k ∈ n.keys then _ else _) = _
  by_cases hk : k ∈ n.keys
  · obtain ⟨v, hv⟩ := mem_keys_iff.1 hk
    rw [if_pos hk, hv, Option.some_or]
  · have hnone : n.get? k = none := by
      cases hv : n.get? k with
      | none => rfl
      | some v => exact absurd (mem_keys_iff.2 ⟨v, hv⟩) hk
    rw [if_neg hk, hnone, Option.none_or]

/-- The map that gives each listed key its value under `f`. -/
theorem get?_ofList_map (ks : List α) (f : α → β) (k : α) :
    (ofList (ks.map fun k => (k, f k))).get? k = if k ∈ ks then some (f k) else none := by
  unfold ofList
  rw [get?_foldl_insert (g := fun k => some (f k))]
  · simp [Function.comp_def]
  · rintro e he
    obtain ⟨k', -, rfl⟩ := List.mem_map.1 he
    rfl

/-- Inserting what is there already changes nothing. -/
theorem insert_eq_self {m : SortedMap α β} {k : α} {v : β} (h : m.get? k = some v) :
    m.insert k v = m := by
  refine ext_get? fun k' => ?_
  rw [get?_insert]
  split
  next hk => rw [hk, h]
  next => rfl

end Build

end StagedEdits.SortedMap
