/-!
# Finite maps sorted by key

`SortedMap α β` holds each key at most once, as a list of entries in strictly increasing key
order.  Two maps with the same look-ups are equal (`SortedMap.ext_get?`), and listing the entries
lists them in key order.

* `get?_insert`, `get?_erase`: what the two updates do to a look-up.
* `mem_entries_iff`: the entries are exactly the look-ups that succeed.
-/

namespace StagedEdits

/-- A finite map, kept as its entries in strictly increasing key order. -/
@[ext]
structure SortedMap (α β : Type) [Ord α] where
  entries : List (α × β)
  sorted : entries.Pairwise fun p q => compare p.1 q.1 = .lt

namespace SortedMap

variable {α β γ : Type} [Ord α]

instance [DecidableEq α] [DecidableEq β] : DecidableEq (SortedMap α β) := fun m n =>
  decidable_of_iff (m.entries = n.entries) SortedMap.ext_iff.symm

/-- The map without entries. -/
def empty : SortedMap α β := ⟨[], .nil⟩

instance : EmptyCollection (SortedMap α β) := ⟨empty⟩

instance : Inhabited (SortedMap α β) := ⟨empty⟩

def size (m : SortedMap α β) : Nat := m.entries.length

def isEmpty (m : SortedMap α β) : Bool := m.entries.isEmpty

/-- The keys in increasing order. -/
def keys (m : SortedMap α β) : List α := m.entries.map (·.1)

/-- The values in the order of their keys. -/
def values (m : SortedMap α β) : List β := m.entries.map (·.2)

/-- The entries that pass a test. -/
def filter (p : α → β → Bool) (m : SortedMap α β) : SortedMap α β :=
  ⟨m.entries.filter fun e => p e.1 e.2, m.sorted.filter _⟩

/-- The map with every value replaced by its image. -/
def map (f : β → γ) (m : SortedMap α β) : SortedMap α γ :=
  ⟨m.entries.map fun e => (e.1, f e.2), List.pairwise_map.2 m.sorted⟩

/-- The sum of what the elements of a list weigh. -/
def total (f : γ → Nat) : List γ → Nat
  | [] => 0
  | a :: l => f a + total f l

/-- The sum of what the values weigh. -/
def weight (f : β → Nat) (m : SortedMap α β) : Nat := total f m.values

section Lookup

variable [DecidableEq α]

/-- The value of the first entry with key `k`. -/
def lookupEntry (k : α) : List (α × β) → Option β
  | [] => none
  | (k', v) :: rest => if k = k' then some v else lookupEntry k rest

/-- The value stored under `k`. -/
def get? (m : SortedMap α β) (k : α) : Option β := lookupEntry k m.entries

def contains (m : SortedMap α β) (k : α) : Bool := (m.get? k).isSome

/-- Removes the entry of `k`, if there is one. -/
def erase (m : SortedMap α β) (k : α) : SortedMap α β := m.filter fun k' _ => k' ≠ k

/-- The entries of `new` that `old` does not have. -/
def changes [DecidableEq β] (old new : SortedMap α β) : List (α × β) :=
  new.entries.filter fun e => old.get? e.1 ≠ some e.2

/-- The keys of `old` that `new` does not have. -/
def dropped (old new : SortedMap α β) : List α :=
  old.keys.filter fun k => !new.contains k

end Lookup

/-- Puts an entry into its place in a list sorted by key, over an entry with the same key. -/
def insertEntry (k : α) (v : β) : List (α × β) → List (α × β)
  | [] => [(k, v)]
  | (k', v') :: rest =>
    match compare k k' with
    | .lt => (k, v) :: (k', v') :: rest
    | .eq => (k, v) :: rest
    | .gt => (k', v') :: insertEntry k v rest

theorem fst_of_mem_insertEntry {k : α} {v : β} {e : α × β} :
    ∀ {l : List (α × β)}, e ∈ insertEntry k v l → e.1 = k ∨ e ∈ l
  | [], h => by simp_all [insertEntry]
  | (k', v') :: rest, h => by
    rw [insertEntry] at h
    split at h
    · exact (List.mem_cons.1 h).imp (fun he => congrArg Prod.fst he) id
    · exact (List.mem_cons.1 h).imp (fun he => congrArg Prod.fst he) (List.mem_cons_of_mem _)
    · rcases List.mem_cons.1 h with rfl | h
      · exact .inr (List.mem_cons_self ..)
      · exact (fst_of_mem_insertEntry h).imp id (List.mem_cons_of_mem _)

section Ordered

variable [Std.TransOrd α] [Std.LawfulEqOrd α]

theorem sorted_insertEntry (k : α) (v : β) :
    ∀ {l : List (α × β)}, (l.Pairwise fun p q => compare p.1 q.1 = .lt) →
      (insertEntry k v l).Pairwise fun p q => compare p.1 q.1 = .lt
  | [], _ => .cons (fun _ h => nomatch h) .nil
  | (k', v') :: rest, h => by
    have hrest := List.pairwise_cons.1 h
    rw [insertEntry]
    split
    next hlt =>
      refine .cons (fun e he => ?_) h
      rcases List.mem_cons.1 he with rfl | he
      · exact hlt
      · exact Std.TransCmp.lt_trans hlt (hrest.1 e he)
    next heq =>
      have hk := Std.LawfulEqCmp.compare_eq_iff_eq.1 heq
      exact .cons (fun e he => hk ▸ hrest.1 e he) hrest.2
    next hgt =>
      refine .cons (fun e he => ?_) (sorted_insertEntry k v hrest.2)
      rcases fst_of_mem_insertEntry he with he | he
      · exact he ▸ Std.OrientedCmp.lt_of_gt hgt
      · exact hrest.1 e he

/-- Stores `v` under `k`, over what was stored there. -/
def insert (m : SortedMap α β) (k : α) (v : β) : SortedMap α β :=
  ⟨insertEntry k v m.entries, sorted_insertEntry k v m.sorted⟩

/-- The map of a list of pairs; of pairs with the same key the last one counts. -/
def ofList (pairs : List (α × β)) : SortedMap α β :=
  pairs.foldl (fun m e => m.insert e.1 e.2) empty

/-- Stores every entry of `n` over those of `m`. -/
def insertAll (m n : SortedMap α β) : SortedMap α β :=
  n.entries.foldl (fun m e => m.insert e.1 e.2) m

end Ordered

/-! ### Look-ups after an update -/

section Lemmas

theorem ne_of_compare_lt [Std.LawfulEqOrd α] {a b : α} (h : compare a b = .lt) : a ≠ b := by
  rintro rfl
  simp at h

variable [DecidableEq α]

@[simp] theorem get?_empty (k : α) : (empty : SortedMap α β).get? k = none := rfl

variable [Std.TransOrd α] [Std.LawfulEqOrd α]

theorem lookupEntry_insertEntry (k k' : α) (v : β) :
    ∀ {l : List (α × β)}, (l.Pairwise fun p q => compare p.1 q.1 = .lt) →
      lookupEntry k' (insertEntry k v l) = if k' = k then some v else lookupEntry k' l
  | [], _ => rfl
  | (a, b) :: rest, h => by
    have ih := lookupEntry_insertEntry k k' v (List.pairwise_cons.1 h).2
    rw [insertEntry]
    split
    · rfl
    next heq =>
      have hk := Std.LawfulEqCmp.compare_eq_iff_eq.1 heq
      subst hk
      by_cases hk' : k' = k <;> simp [lookupEntry, hk']
    next hgt =>
      have hne : a ≠ k := ne_of_compare_lt (Std.OrientedCmp.lt_of_gt hgt)
      by_cases hk' : k' = a
      · subst hk'; simp [lookupEntry, hne]
      · simp [lookupEntry, hk', ih]

@[simp] theorem get?_insert (m : SortedMap α β) (k k' : α) (v : β) :
    (m.insert k v).get? k' = if k' = k then some v else m.get? k' :=
  lookupEntry_insertEntry k k' v m.sorted

omit [Std.TransOrd α] in
theorem lookupEntry_eq_some_iff {k : α} {v : β} :
    ∀ {l : List (α × β)}, (l.Pairwise fun p q => compare p.1 q.1 = .lt) →
      (lookupEntry k l = some v ↔ (k, v) ∈ l)
  | [], _ => by simp [lookupEntry]
  | (a, b) :: rest, h => by
    have hrest := List.pairwise_cons.1 h
    rw [lookupEntry]
    split
    next hk =>
      subst hk
      constructor
      · rintro ⟨⟩; exact List.mem_cons_self ..
      · intro hm
        rcases List.mem_cons.1 hm with hm | hm
        · cases hm; rfl
        · exact absurd rfl (ne_of_compare_lt (hrest.1 (k, v) hm))
    next hk =>
      rw [lookupEntry_eq_some_iff hrest.2, List.mem_cons]
      exact ⟨.inr, fun hm => hm.resolve_left fun he => hk (congrArg Prod.fst he)⟩

omit [Std.TransOrd α] in
/-- The entries of a map are the look-ups that succeed. -/
theorem mem_entries_iff {m : SortedMap α β} {k : α} {v : β} :
    (k, v) ∈ m.entries ↔ m.get? k = some v :=
  (lookupEntry_eq_some_iff m.sorted).symm

omit [Std.TransOrd α] in
/-- Filtering a map filters each look-up. -/
@[simp] theorem get?_filter (m : SortedMap α β) (p : α → β → Bool) (k : α) :
    (m.filter p).get? k = (m.get? k).filter (p k) := by
  refine Option.ext fun v => ?_
  rw [← mem_entries_iff, Option.filter_eq_some_iff, ← mem_entries_iff]
  exact List.mem_filter

omit [Std.TransOrd α] in
@[simp] theorem get?_erase (m : SortedMap α β) (k k' : α) :
    (m.erase k).get? k' = if k' = k then none else m.get? k' := by
  rw [erase, get?_filter]
  by_cases h : k' = k <;> cases m.get? k' <;> simp_all

omit [Std.TransOrd α] [Std.LawfulEqOrd α] in
@[simp] theorem get?_map (f : β → γ) (m : SortedMap α β) (k : α) :
    (m.map f).get? k = (m.get? k).map f := by
  obtain ⟨l, h⟩ := m
  simp only [get?, map]
  clear h
  induction l with
  | nil => rfl
  | cons e l ih =>
    obtain ⟨a, b⟩ := e
    by_cases hk : k = a <;> simp [lookupEntry, hk, ih]

omit [DecidableEq α] in
/-- A list in strictly increasing key order is determined by its members. -/
theorem eq_of_mem_iff :
    ∀ {l l' : List (α × β)}, (l.Pairwise fun p q => compare p.1 q.1 = .lt) →
      (l'.Pairwise fun p q => compare p.1 q.1 = .lt) → (∀ e, e ∈ l ↔ e ∈ l') → l = l'
  | [], [], _, _, _ => rfl
  | [], e :: _, _, _, h => absurd ((h e).2 (List.mem_cons_self ..)) (List.not_mem_nil)
  | e :: _, [], _, _, h => absurd ((h e).1 (List.mem_cons_self ..)) (List.not_mem_nil)
  | e :: l, e' :: l', hl, hl', h => by
    have hl := List.pairwise_cons.1 hl
    have hl' := List.pairwise_cons.1 hl'
    have irrefl : ∀ x : α, compare x x ≠ .lt := fun x hx => ne_of_compare_lt hx rfl
    have he : e = e' := by
      rcases List.mem_cons.1 ((h e).1 (List.mem_cons_self ..)) with he | he
      · exact he
      rcases List.mem_cons.1 ((h e').2 (List.mem_cons_self ..)) with he' | he'
      · exact he'.symm
      exact absurd (Std.TransCmp.lt_trans (hl.1 _ he') (hl'.1 _ he)) (irrefl _)
    subst he
    refine congrArg (e :: ·) (eq_of_mem_iff hl.2 hl'.2 fun x => ?_)
    have hx := h x
    rw [List.mem_cons, List.mem_cons] at hx
    constructor <;> intro hm
    · exact (hx.1 (.inr hm)).resolve_left fun hxe => irrefl _ (hxe ▸ hl.1 x hm)
    · exact (hx.2 (.inr hm)).resolve_left fun hxe => irrefl _ (hxe ▸ hl'.1 x hm)

/-- Maps with the same look-ups are equal. -/
theorem ext_get? {m n : SortedMap α β} (h : ∀ k, m.get? k = n.get? k) : m = n :=
  SortedMap.ext (eq_of_mem_iff m.sorted n.sorted fun (k, v) => by
    rw [mem_entries_iff, mem_entries_iff, h])

/-! ### Weights -/

theorem total_map {f : γ → Nat} {g : β → γ} :
    ∀ {l : List β}, total f (l.map g) = total (fun b => f (g b)) l
  | [] => rfl
  | b :: l => congrArg (f (g b) + ·) (total_map (l := l))

theorem total_mono {f g : γ → Nat} :
    ∀ {l : List γ}, (∀ a ∈ l, f a ≤ g a) → total f l ≤ total g l
  | [], _ => Nat.le_refl _
  | a :: _, h => Nat.add_le_add (h a (List.mem_cons_self ..))
      (total_mono fun b hb => h b (List.mem_cons_of_mem _ hb))

theorem total_congr {f g : γ → Nat} {l : List γ} (h : ∀ a ∈ l, f a = g a) : total f l = total g l :=
  Nat.le_antisymm (total_mono fun a ha => Nat.le_of_eq (h a ha))
    (total_mono fun a ha => Nat.le_of_eq (h a ha).symm)

theorem length_flatMap {f : β → List γ} :
    ∀ {l : List β}, (l.flatMap f).length = total (fun b => (f b).length) l
  | [] => rfl
  | b :: l => by
    rw [List.flatMap_cons, List.length_append, length_flatMap (l := l), total]

theorem total_insertEntry {f : β → Nat} {k : α} {v : β} :
    ∀ {l : List (α × β)}, (l.Pairwise fun p q => compare p.1 q.1 = .lt) →
      total (fun e => f e.2) (insertEntry k v l) + (lookupEntry k l).elim 0 f =
        total (fun e => f e.2) l + f v
  | [], _ => Nat.add_comm ..
  | (a, b) :: rest, hs => by
    have hrest := List.pairwise_cons.1 hs
    have ih := total_insertEntry hrest.2 (f := f) (k := k) (v := v)
    rw [insertEntry]
    split
    next hlt =>
      -- the key comes before all that are there
      have hnone : lookupEntry k ((a, b) :: rest) = none := by
        refine Option.eq_none_iff_forall_ne_some.2 fun w hw => ?_
        rcases List.mem_cons.1 ((lookupEntry_eq_some_iff hs).1 hw) with he | he
        · exact ne_of_compare_lt hlt (congrArg Prod.fst he)
        · exact ne_of_compare_lt (Std.TransCmp.lt_trans hlt (hrest.1 _ he)) rfl
      rw [hnone]
      simp only [Option.elim_none, total]
      omega
    next heq =>
      obtain rfl := Std.LawfulEqCmp.compare_eq_iff_eq.1 heq
      rw [lookupEntry, if_pos rfl]
      simp only [Option.elim_some, total]
      omega
    next hgt =>
      have hne : k ≠ a := (ne_of_compare_lt (Std.OrientedCmp.lt_of_gt hgt)).symm
      rw [lookupEntry, if_neg hne]
      simp only [total]
      omega

/-- Storing a value adds its weight, and takes away that of the value it is stored over. -/
theorem weight_insert (m : SortedMap α β) (k : α) (f : β → Nat) (v : β) :
    (m.insert k v).weight f + (m.get? k).elim 0 f = m.weight f + f v := by
  simp only [weight, values, total_map]
  exact total_insertEntry m.sorted

omit [Std.TransOrd α] in
theorem total_filter_ne {f : β → Nat} {k : α} :
    ∀ {l : List (α × β)}, (l.Pairwise fun p q => compare p.1 q.1 = .lt) →
      total (fun e => f e.2) (l.filter fun e => e.1 ≠ k) + (lookupEntry k l).elim 0 f =
        total (fun e => f e.2) l
  | [], _ => rfl
  | (a, b) :: rest, h => by
    have hs := List.pairwise_cons.1 h
    have ih := total_filter_ne hs.2 (f := f) (k := k)
    by_cases hk : a = k
    · subst hk
      have hfilter : rest.filter (fun e => e.1 ≠ a) = rest :=
        List.filter_eq_self.2 fun e he => by simpa using (ne_of_compare_lt (hs.1 e he)).symm
      rw [List.filter_cons_of_neg (by simp), hfilter, lookupEntry, if_pos rfl]
      simp only [Option.elim_some, total]
      omega
    · rw [List.filter_cons_of_pos (by simpa using hk), lookupEntry, if_neg (Ne.symm hk)]
      simp only [total]
      omega

omit [Std.TransOrd α] in
/-- Erasing a key takes its weight away. -/
theorem weight_erase (m : SortedMap α β) (k : α) (f : β → Nat) :
    (m.erase k).weight f + (m.get? k).elim 0 f = m.weight f := by
  simp only [weight, values, total_map]
  exact total_filter_ne m.sorted

omit [Std.TransOrd α] in
/-- What is stored under different keys weighs no more than the whole map. -/
theorem total_get?_le_weight (f : β → Nat) {ks : List α} (h : ks.Nodup) (m : SortedMap α β) :
    total (fun k => (m.get? k).elim 0 f) ks ≤ m.weight f := by
  induction ks generalizing m with
  | nil => exact Nat.zero_le _
  | cons k ks ih =>
    obtain ⟨hk, hks⟩ := List.nodup_cons.1 h
    have hsame : total (fun k' => ((m.erase k).get? k').elim 0 f) ks =
        total (fun k' => (m.get? k').elim 0 f) ks :=
      total_congr fun k' hk' => by
        rw [get?_erase, if_neg fun he : k' = k => hk (he ▸ hk')]
    have hle := ih hks (m.erase k)
    have hw := weight_erase m k f
    rw [hsame] at hle
    rw [total]
    omega

end Lemmas

end SortedMap

end StagedEdits
