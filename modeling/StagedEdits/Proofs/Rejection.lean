import StagedEdits.Proofs.Lawful

/-!
# Rejected resolutions

A resolver whose answers break the contract fails a fetch in the middle: the other findings about the
table are carried out, and the items in conflict are still aside.  Each of them is then put back as it
was, and its row leads to it again (`Session.rejects_reconcile`).  Yet an item that was updated can be
paired with the row that has its new key, and its own row then goes to another item; when the first one is
put back, two items have that row.  They do not exactly if the rows of the items in conflict were aside
as well (`RowsAside`); then a fetch with honest answers gives every row one item.

* `Workspace.restored_of_rejection`: what a rejected resolution leaves, after any run.
* `Workspace.row_shared_after_rejection`: an item that has moved, put back next to the one that got its
  row.
-/

namespace StagedEdits

/-- The rows that the items of conflicts have, as far as they are among the given ones, are rows of the
conflicts. -/
def RowsAside (conflicts : List Conflict) (rows : List Record) : Prop :=
  ∀ c ∈ conflicts, ∀ d ∈ c.item.dbId, d ∈ rows.filterMap Record.dbId? →
    d ∈ (conflicts.filterMap (·.row)).filterMap Record.dbId?

instance (conflicts : List Conflict) (rows : List Record) : Decidable (RowsAside conflicts rows) :=
  inferInstanceAs (Decidable (∀ c ∈ conflicts, ∀ d ∈ c.item.dbId, _))

namespace Session

variable {s s' s'' : Session} {kind : Kind} {rows : List Record} {conflicts : List Conflict}

/-! ### The other tables -/

/-- Session `s'` is `s` with another table of a kind.  Of the tables that depend on it, items were taken
out at most. -/
structure Confined (kind : Kind) (s s' : Session) : Prop where
  frame : SameFrame s s'
  table_eq : ∀ ⦃k⦄, k ≠ kind → kind ∉ k.dependencies → s'.table k = s.table k
  item? : ∀ ⦃r item⦄, r.kind ≠ kind → s'.item? r = some item → s.item? r = some item
  exact : ∀ ⦃k⦄, k ≠ kind → (s.table k).Exact → (s'.table k).Exact

theorem Confined.refl (kind : Kind) (s : Session) : Confined kind s s :=
  ⟨.refl s, fun _ _ _ => rfl, fun _ _ _ h => h, fun _ _ h => h⟩

theorem Confined.trans (h : Confined kind s s') (h' : Confined kind s' s'') : Confined kind s s'' where
  frame := h.frame.trans h'.frame
  table_eq _ hk hdep := (h'.table_eq hk hdep).trans (h.table_eq hk hdep)
  item? _ _ hr hi := h.item? hr (h'.item? hr hi)
  exact _ hk ht := h'.exact hk (h.exact hk ht)

theorem confined_put (s : Session) {item : Item} (hkind : item.kind = kind) :
    Confined kind s (s.put item) := by
  have htable : ∀ {k}, k ≠ kind → (s.put item).table k = s.table k := fun hk => by
    rw [table_put, if_neg fun he => hk (he.trans hkind)]
  refine ⟨sameFrame_put s item, fun k hk _ => htable hk, fun r x hr hi => ?_, fun k hk ht => ?_⟩
  · rwa [item?_eq, htable hr, ← item?_eq] at hi
  · rwa [htable hk]

theorem Evicts.confined (h : Evicts kind s s') : Confined kind s s' :=
  ⟨h.frame, fun _ _ hdep => h.table_eq hdep, fun _ _ _ hi => h.item? hi, fun _ _ ht => h.exact ht⟩

theorem Underway.confined {s₀ : Session} {items : List ItemId} {pending : List Record}
    (h : Underway s₀ kind rows items pending s) : Confined kind s₀ s :=
  ⟨h.frame, h.table_eq, h.item?, h.exact⟩

theorem Confined.foldl {α : Type} {f : Session → α → Session} {l : List α}
    (h : ∀ a ∈ l, ∀ s, Confined kind s (f s a)) (s : Session) : Confined kind s (l.foldl f s) := by
  induction l generalizing s with
  | nil => exact .refl kind s
  | cons a l ih =>
    exact (h a (List.mem_cons_self ..) s).trans (ih (fun a' h' => h a' (List.mem_cons_of_mem _ h')) _)

/-- Settling conflicts about a table changes no other, whatever the answers. -/
theorem confined_settle (s : Session) (hkind : ∀ c ∈ conflicts, c.item.kind = kind)
    (answers : List Resolved) : Confined kind s (s.settle conflicts answers).2 := by
  cases hfault : contractFault? conflicts answers with
  | some fault =>
    rw [settle_eq_error s hfault]
    exact .foldl (fun c hc s => confined_put s (hkind c hc)) s
  | none =>
    obtain ⟨ordered, hperm, heq⟩ := exists_settle_eq s hfault
    have hitem : ∀ r ∈ ordered, r.item.kind = kind := by
      intro r hr
      obtain ⟨c, hc, hsame⟩ := item_mem_of_contractFault? hfault r (hperm.mem_iff.1 hr)
      exact hsame ▸ hkind c hc
    have hanswered : Confined kind s (ordered.foldl answered s) := by
      refine .foldl (fun r hr s => ?_) s
      rw [answered_eq]
      split
      next b hb =>
        exact confined_put s ((congrArg ItemRef.kind (Resolved.ref_outcome? hb)).trans (hitem r hr))
      next => exact .refl kind s
    rw [heq]
    refine hanswered.trans (evicts_evictReferrers fun ref href => ?_).confined
    obtain ⟨r, hr, rfl⟩ := List.mem_map.1 href
    exact hitem r (List.mem_filter.1 hr).1

/-- Fetching a table changes no other, whatever the resolver answers. -/
theorem confined_reconcile (hs : s.Coherent) (ht : (s.table kind).Exact)
    (hrows : (rows.filterMap Record.dbId?).Nodup) (answer : List Conflict → List Resolved) :
    Confined kind (s.markFetched kind) (s.reconcile kind rows answer).2.1 := by
  have habsorb := absorbing_absorb kind hs ht hrows
  have hmark := hs.congr (table_markFetched s kind) (Nat.le_refl _)
  have hkind : ∀ c ∈ (s.absorb kind rows).conflicts, c.item.kind = kind := fun c hc =>
    hmark.item_kind (r := ⟨kind, c.item.id⟩) (habsorb.conflicts c hc).item
  have hsettle := confined_settle (s.absorb kind rows).session hkind
    (answer (s.absorb kind rows).conflicts)
  have hunder := habsorb.underway.confined
  rcases s.session_reconcile kind rows answer with h | h <;> rw [h]
  · exact hunder
  · exact hunder.trans hsettle

/-! ### Putting items back -/

/-- Items that are put back do not get in the way of others. -/
theorem item?_putBack_of_not_mem {r : ItemRef} (h : r ∉ conflicts.map (·.item.ref)) (s : Session) :
    (s.putBack conflicts).item? r = s.item? r := by
  induction conflicts generalizing s with
  | nil => rfl
  | cons c conflicts ih =>
    rw [List.map_cons, List.mem_cons, not_or] at h
    exact (ih h.2 _).trans ((item?_put ..).trans (if_neg h.1))

theorem item?_putBack_of_mem (hids : (conflicts.map (·.item.ref)).Nodup) {c : Conflict}
    (hc : c ∈ conflicts) (s : Session) : (s.putBack conflicts).item? c.item.ref = some c.item := by
  induction conflicts generalizing s with
  | nil => exact absurd hc List.not_mem_nil
  | cons c' conflicts ih =>
    obtain ⟨hnot, hids⟩ := List.nodup_cons.1 hids
    rcases List.mem_cons.1 hc with rfl | hc
    · exact (item?_putBack_of_not_mem hnot _).trans ((item?_put ..).trans (if_pos rfl))
    · exact ih hids hc _

/-- The items of conflicts are different ones, and have different rows. -/
def Apart (conflicts : List Conflict) : Prop :=
  conflicts.Pairwise fun c c' =>
    c.item.id ≠ c'.item.id ∧ ∀ d, c.item.dbId = some d → c'.item.dbId ≠ some d

theorem sound_put (hs : (s.table kind).Sound) {item : Item} (hkind : item.kind = kind) :
    ((s.put item).table kind).Sound := by
  rw [table_put, if_pos hkind.symm]
  exact hs.insert item

/-- A row stays with its item while others, with other rows, are put back. -/
theorem itemOfRow?_putBack_of_ne (hs : (s.table kind).Sound)
    (hkind : ∀ c ∈ conflicts, c.item.kind = kind) {d : DbId} {id : ItemId}
    (hd : s.itemOfRow? kind d = some id)
    (hne : ∀ c ∈ conflicts, id ≠ c.item.id ∧ c.item.dbId ≠ some d) :
    (s.putBack conflicts).itemOfRow? kind d = some id := by
  induction conflicts generalizing s with
  | nil => exact hd
  | cons c conflicts ih =>
    have hk := hkind c (List.mem_cons_self ..)
    obtain ⟨hid, hrow⟩ := hne c (List.mem_cons_self ..)
    refine ih (sound_put hs hk) (fun c' h => hkind c' (List.mem_cons_of_mem _ h)) ?_
      (fun c' h => hne c' (List.mem_cons_of_mem _ h))
    rw [itemOfRow?_put hs hk, if_neg hrow, hd, Option.filter_some, if_pos (by simpa using hid)]

/-- The row of an item that was put back leads to it. -/
theorem itemOfRow?_putBack (hs : (s.table kind).Sound) (hkind : ∀ c ∈ conflicts, c.item.kind = kind)
    (hapart : Apart conflicts) {c : Conflict} (hc : c ∈ conflicts) {d : DbId}
    (hd : c.item.dbId = some d) : (s.putBack conflicts).itemOfRow? kind d = some c.item.id := by
  induction conflicts generalizing s with
  | nil => exact absurd hc List.not_mem_nil
  | cons c' conflicts ih =>
    have hk := hkind c' (List.mem_cons_self ..)
    have hkind' := fun x h => hkind x (List.mem_cons_of_mem c' h)
    obtain ⟨hfirst, hapart⟩ := List.pairwise_cons.1 hapart
    rcases List.mem_cons.1 hc with rfl | hc
    · refine itemOfRow?_putBack_of_ne (sound_put hs hk) hkind' ?_
        (fun x h => ⟨(hfirst x h).1, (hfirst x h).2 d hd⟩)
      rw [itemOfRow?_put hs hk, if_pos hd]
    · exact ih (sound_put hs hk) hkind' hapart hc

/-- Items can be put back into a table in which no item has one of their rows. -/
theorem exact_putBack (ht : (s.table kind).Exact) (hkind : ∀ c ∈ conflicts, c.item.kind = kind)
    (hapart : Apart conflicts)
    (hfree : ∀ c ∈ conflicts, ∀ d, c.item.dbId = some d → s.itemOfRow? kind d = none) :
    ((s.putBack conflicts).table kind).Exact := by
  induction conflicts generalizing s with
  | nil => exact ht
  | cons c conflicts ih =>
    have hk := hkind c (List.mem_cons_self ..)
    obtain ⟨hfirst, hapart⟩ := List.pairwise_cons.1 hapart
    refine ih ?_ (fun x h => hkind x (List.mem_cons_of_mem c h)) hapart fun x hx d hd => ?_
    · rw [table_put, if_pos hk.symm]
      refine ht.insert fun id d hd hrow => ?_
      rw [← itemOfRow?_eq, hfree c (List.mem_cons_self ..) d hd] at hrow
      cases hrow
    · rw [itemOfRow?_put ht.sound hk, if_neg fun he => (hfirst x hx).2 d he hd,
        hfree x (List.mem_cons_of_mem c hx) d hd, Option.filter_none]

/-! ### A rejected pass -/

/-- No two items of a table have the same row. -/
def RowsUnshared (s : Session) (kind : Kind) : Prop :=
  ∀ ⦃i j a b d⦄, s.item? ⟨kind, i⟩ = some a → s.item? ⟨kind, j⟩ = some b → a.dbId = some d →
    b.dbId = some d → i = j

theorem rowsUnshared_of_exact (ht : (s.table kind).Exact) : s.RowsUnshared kind := by
  intro i j a b d ha hb hda hdb
  rw [item?_eq] at ha hb
  exact Option.some.inj ((ht.complete ha hda).symm.trans (ht.complete hb hdb))

/-- Session `s'` is what is left of `s` once the given rows were fetched and the answers to the conflicts
were rejected. -/
structure Rejects (s : Session) (kind : Kind) (rows : List Record) (conflicts : List Conflict)
    (s' : Session) : Prop where
  item : ∀ c ∈ conflicts, c.item.kind = kind ∧ s.item? c.item.ref = some c.item
  back : ∀ c ∈ conflicts, s'.item? c.item.ref = some c.item
  bound : ∀ c ∈ conflicts, ∀ d, c.item.dbId = some d → s'.itemOfRow? kind d = some c.item.id
  exact : RowsAside conflicts (s'.readable kind rows) → (s'.table kind).Exact
  aside : s'.RowsUnshared kind → RowsAside conflicts (s'.readable kind rows)

theorem reconcile_eq_error {answer : List Conflict → List Resolved} {e : Error}
    (h : s.reconcile kind rows answer = (.error e, s', conflicts)) :
    conflicts ≠ [] ∧ conflicts = (s.absorb kind rows).conflicts ∧
      s' = (s.absorb kind rows).session.putBack conflicts := by
  rcases s.reconcile_cases kind rows answer with ⟨-, hrec⟩ | ⟨hne, _, -, hrec⟩ | ⟨-, -, _, -, hrec⟩
  · cases hrec.symm.trans h
  · cases hrec.symm.trans h
    exact ⟨hne, rfl, rfl⟩
  · cases hrec.symm.trans h

namespace Absorbing

variable {s₀ : Session} {a : Absorption}

/-- While the items in conflict are aside together with their rows, no other item has one of these. -/
theorem itemOfRow?_eq_none (hs : s₀.Coherent) (ht : (s₀.table kind).Exact)
    (h : Absorbing s₀ kind rows [] a) (haside : RowsAside a.conflicts rows) {c : Conflict}
    (hc : c ∈ a.conflicts) {d : DbId} (hd : c.item.dbId = some d) :
    a.session.itemOfRow? kind d = none := by
  by_contra hsome
  obtain ⟨id, hid⟩ := Option.ne_none_iff_exists'.1 hsome
  obtain ⟨item, hitem, hdb⟩ := h.underway.coherent.itemOfRow? hid
  obtain ⟨-, hpending⟩ := h.underway.complete hitem hdb List.not_mem_nil
  rcases (h.underway.origin hitem List.not_mem_nil).row_mem hs hdb with ⟨row, hrow, hsync⟩ | ⟨-, hold⟩
  · -- a row that was fetched is that of a conflict, and so it is still to come
    refine hpending (haside c hc d hd (List.mem_filterMap.2 ⟨row, hrow, ?_⟩))
    rw [(h.underway.coherent.consistent hitem).dbId_eq, hsync] at hdb
    exact hdb
  · -- an item that had the row before is that of the conflict, which is aside
    have hown := (h.conflicts c hc).item
    rw [item?_eq] at hold hown
    have hsame : item.id = c.item.id :=
      Option.some.inj ((ht.complete hold hdb).symm.trans (ht.complete hown hd))
    have hid : id = c.item.id := (item_id hitem).symm.trans hsame
    cases (h.absent c hc).symm.trans (hid ▸ hitem)

/-- The items in conflict are those of the session, and have different rows as they had there. -/
theorem apart (ht : (s₀.table kind).Exact) (h : Absorbing s₀ kind rows [] a) : Apart a.conflicts := by
  refine (List.pairwise_map.1 h.conflicts_nodup).imp_of_mem fun {c c'} hc hc' hne => ?_
  refine ⟨hne, fun d hd hd' => hne ?_⟩
  have hrow := ht.complete ((item?_eq ..).symm.trans (h.conflicts c hc).item) hd
  exact Option.some.inj (hrow.symm.trans
    (ht.complete ((item?_eq ..).symm.trans (h.conflicts c' hc').item) hd'))

theorem refs_nodup (h : Absorbing s₀ kind rows [] a) : (a.conflicts.map (·.item.ref)).Nodup := by
  refine List.Nodup.of_map ItemRef.id ?_
  rw [List.map_map]
  exact h.conflicts_nodup

/-- Of rows that no item in conflict was set aside with, each has an item. -/
theorem mem_rows_or_item (h : Absorbing s₀ kind rows [] a) {d : DbId}
    (hd : d ∈ rows.filterMap Record.dbId?) :
    d ∈ (a.conflicts.filterMap (·.row)).filterMap Record.dbId? ∨
      ∃ id item, a.session.item? ⟨kind, id⟩ = some item ∧ item.dbId = some d := by
  obtain ⟨row, hrow, hdr⟩ := List.mem_filterMap.1 hd
  rcases h.underway.covered row hrow with hmem | ⟨id, item, hi, hsync, -⟩
  · exact .inl (List.mem_filterMap.2 ⟨row, hmem, hdr⟩)
  · refine .inr ⟨id, item, hi, ?_⟩
    rw [(h.underway.coherent.consistent hi).dbId_eq, hsync]
    exact hdr

/-- If no item shares its row with an item that was put back, the row was aside with the latter. -/
theorem rowsAside (hs : s₀.Coherent) (h : Absorbing s₀ kind rows [] a)
    (hun : (a.session.putBack a.conflicts).RowsUnshared kind) : RowsAside a.conflicts rows := by
  intro c hc d hd hmem
  refine (h.mem_rows_or_item hmem).resolve_right ?_
  rintro ⟨id, item, hi, hdb⟩
  have hne : ∀ c' ∈ a.conflicts, c'.item.id ≠ id := by
    rintro c' hc' rfl
    cases (h.absent c' hc').symm.trans hi
  have hitem : (a.session.putBack a.conflicts).item? ⟨kind, id⟩ = some item := by
    refine (item?_putBack_of_not_mem (fun hmem => ?_) _).trans hi
    obtain ⟨c', hc', href⟩ := List.mem_map.1 hmem
    exact hne c' hc' (congrArg ItemRef.id href)
  have hback := item?_putBack_of_mem h.refs_nodup hc a.session
  rw [hs.item_ref (h.conflicts c hc).item] at hback
  exact hne c hc (hun hback hitem hd hdb)

end Absorbing

/-- After a fetch whose answers were rejected, the items in conflict are there as they were. -/
theorem rejects_reconcile (hs : s.Coherent) (ht : (s.table kind).Exact)
    (hrows : (rows.filterMap Record.dbId?).Nodup) {answer : List Conflict → List Resolved} {e : Error}
    (h : s.reconcile kind rows answer = (.error e, s', conflicts)) :
    s.Rejects kind rows conflicts s' := by
  have hconfined := confined_reconcile hs ht hrows answer
  rw [h] at hconfined
  have hread : s'.readable kind rows = s.readable kind rows := by
    have hlocal := localRow?_of_table_eq hconfined.table_eq kind.not_mem_dependencies_self
    unfold readable
    rw [funext fun row => (hlocal row).trans (localRow?_markFetched s kind kind row)]
  obtain ⟨-, rfl, rfl⟩ := reconcile_eq_error h
  have habsorb := absorbing_absorb kind hs ht hrows
  have hmark := hs.congr (table_markFetched s kind) (Nat.le_refl _)
  have htable : ((s.markFetched kind).table kind).Exact := table_markFetched s kind kind ▸ ht
  have hapart := habsorb.apart htable
  have href : ∀ c ∈ (s.absorb kind rows).conflicts, c.item.ref = ⟨kind, c.item.id⟩ :=
    fun c hc => hmark.item_ref (habsorb.conflicts c hc).item
  have hkind := fun c hc => congrArg ItemRef.kind (href c hc)
  constructor
  case item =>
    intro c hc
    rw [href c hc]
    exact ⟨hkind c hc, (item?_markFetched ..).symm.trans (habsorb.conflicts c hc).item⟩
  case back => exact fun c hc => item?_putBack_of_mem habsorb.refs_nodup hc _
  case bound =>
    exact fun c hc d hd =>
      itemOfRow?_putBack (habsorb.underway.coherent.sound kind) hkind hapart hc hd
  case exact =>
    rw [hread]
    exact fun haside => exact_putBack habsorb.underway.exact_kind hkind hapart fun c hc d hd =>
      habsorb.itemOfRow?_eq_none hmark htable haside hc hd
  case aside =>
    rw [hread]
    exact habsorb.rowsAside hmark

/-! ### Tables fetched one after the other -/

/-- Session `s'` is `s` after the tables of the given kinds were fetched, whatever was answered.  Of the
other tables, items were taken out at most. -/
structure Visits (kinds : List Kind) (s s' : Session) : Prop where
  lawful : s'.Lawful Item.Tidy
  config : s'.config = s.config
  mem_fetched : ∀ k, k ∈ s'.fetched ↔ k ∈ kinds ∨ k ∈ s.fetched
  item? : ∀ ⦃r item⦄, r.kind ∉ kinds → s'.item? r = some item → s.item? r = some item
  exact : ∀ ⦃k⦄, k ∉ kinds → (s.table k).Exact → (s'.table k).Exact

theorem Visits.nil (hs : s.Lawful Item.Tidy) : s.Visits [] s :=
  ⟨hs, rfl, fun _ => by simp, fun _ _ _ hi => hi, fun _ _ ht => ht⟩

theorem Visits.append {kinds kinds' : List Kind} (h : s.Visits kinds s') (h' : s'.Visits kinds' s'') :
    s.Visits (kinds ++ kinds') s'' where
  lawful := h'.lawful
  config := h'.config.trans h.config
  mem_fetched k := by
    rw [h'.mem_fetched, h.mem_fetched, List.mem_append]
    exact or_left_comm.trans or_assoc.symm
  item? r item hr hi := by
    rw [List.mem_append, not_or] at hr
    exact h.item? hr.1 (h'.item? hr.2 hi)
  exact k hk ht := by
    rw [List.mem_append, not_or] at hk
    exact h'.exact hk.2 (h.exact hk.1 ht)

theorem visits_reconcile (hs : s.Lawful Item.Tidy) (ht : (s.table kind).Exact)
    (hrows : (rows.filterMap Record.dbId?).Nodup) (answer : List Conflict → List Resolved) :
    s.Visits [kind] (s.reconcile kind rows answer).2.1 := by
  have h := confined_reconcile hs.tidy ht hrows answer
  refine ⟨hs.reconcile Item.law_tidy kind rows answer, h.frame.config, fun k => ?_,
    fun r item hr hi => ?_, fun k hk hexact => ?_⟩
  · rw [h.frame.fetched, List.mem_singleton]
    exact List.mem_insert_iff
  · rw [List.mem_singleton] at hr
    exact (item?_markFetched ..).symm.trans (h.item? hr hi)
  · rw [List.mem_singleton] at hk
    exact h.exact hk (table_markFetched s kind k ▸ hexact)

/-- Every row that the session can read has exactly one item. -/
def OneEach (s : Session) (db : Database) (kind : Kind) : Prop :=
  ∀ ⦃d row r⦄, db.row? kind d = some row → s.localRow? kind row = some r →
    ∃! id, ∃ item, s.item? ⟨kind, id⟩ = some item ∧ item.dbId = some d

theorem Underway.oneEach {db : Database} (hdb : db.Filed)
    (h : Underway (s.markFetched kind) kind (s.readable kind (db.rows kind)) [] [] s') :
    s'.OneEach db kind := by
  intro d row r hrow hr
  have hread := localRow?_of_table_eq h.table_eq kind.not_mem_dependencies_self row
  rw [localRow?_markFetched] at hread
  have hdr : r.dbId? = some d := (same_of_localRow? hr).dbId?.symm.trans (hdb hrow)
  rcases h.covered r (mem_readable_of_row? hrow (hread ▸ hr)) with
    hmem | ⟨id, item, hi, hsync, -⟩
  · exact absurd hmem List.not_mem_nil
  have hd : item.dbId = some d := by rw [(h.coherent.consistent hi).dbId_eq, hsync]; exact hdr
  refine ⟨id, ⟨item, hi, hd⟩, ?_⟩
  rintro id' ⟨item', hi', hd'⟩
  rw [item?_eq] at hi hi'
  exact Option.some.inj ((h.exact_kind.complete hi' hd').symm.trans (h.exact_kind.complete hi hd))

theorem OneEach.congr {db : Database} (h : s.OneEach db kind) (htable : s'.table kind = s.table kind)
    (hread : ∀ row, s'.localRow? kind row = s.localRow? kind row) : s'.OneEach db kind := by
  intro d row r hrow hr
  simpa only [item?_eq, htable] using h hrow ((hread row).symm.trans hr)

end Session

namespace ConnectionM

/-- Where one of several steps fails, those before it have succeeded. -/
theorem mapM_eq_error {σ α β : Type} {f : α → ConnectionM σ β} {l : List α} {c c' : Connection σ}
    {e : Error} (h : l.mapM f c = (.error e, c')) :
    ∃ before a after results mid, l = before ++ a :: after ∧
      before.mapM f c = (.ok results, mid) ∧ f a mid = (.error e, c') := by
  induction l generalizing c with
  | nil => cases h
  | cons a l ih =>
    rw [List.mapM_cons, run_bind] at h
    rcases hf : f a c with ⟨e' | b, c₁⟩ <;> rw [hf] at h
    · cases h
      exact ⟨[], a, l, [], c, rfl, rfl, hf⟩
    · dsimp only at h
      rw [run_bind] at h
      rcases hl : l.mapM f c₁ with ⟨e' | bs, c₂⟩ <;> rw [hl] at h
      · cases h
        obtain ⟨before, a', after, results, mid, heq, hbefore, hfail⟩ := ih hl
        refine ⟨a :: before, a', after, b :: results, mid, congrArg (a :: ·) heq, ?_, hfail⟩
        rw [List.mapM_cons, run_bind, hf]
        dsimp only
        rw [run_bind, hbefore]
        rfl
      · cases h

end ConnectionM

namespace Connection

open ConnectionM

variable {s : Session} {db : Database} {resolver : Resolver}

/-- Fetching tables one after the other, whatever the resolver answers. -/
theorem visits_mapM (hs : s.Lawful Item.Tidy) (hdb : db.Filed) {kinds : List Kind} (hn : kinds.Nodup)
    (ht : ∀ k ∈ kinds, (s.table k).Exact) {passes : List (List Conflict)} {reports : List FetchReport}
    {c : Connection Database}
    (h : kinds.mapM (fetchTable resolver) ⟨s, db, passes⟩ = (.ok reports, c)) :
    s.Visits kinds c.session ∧ c.store = db := by
  induction kinds generalizing s passes reports with
  | nil =>
    cases h
    exact ⟨.nil hs, rfl⟩
  | cons kind kinds ih =>
    obtain ⟨hnot, hn⟩ := List.nodup_cons.1 hn
    have hfirst := Session.visits_reconcile hs (ht kind (List.mem_cons_self ..)) (hdb.nodup_rows kind)
      (resolver passes)
    obtain ⟨report, rest, c₁, hrun, hrest, -⟩ := mapM_cons_eq_ok h
    rw [fetchTable_eq] at hrun
    rcases hrec : s.reconcile kind (db.rows kind) (resolver passes) with ⟨result, s₁, conflicts⟩
    rw [hrec] at hrun hfirst
    cases hrun
    obtain ⟨hvisits, hstore⟩ := ih hfirst.lawful hn (fun k hk => hfirst.exact
      (fun hmem => hnot (List.mem_singleton.1 hmem ▸ hk)) (ht k (List.mem_cons_of_mem _ hk))) hrest
    exact ⟨hfirst.append hvisits, hstore⟩

/-- The tables of a fetch are the one asked for, and others that it depends on and that were not fetched
yet. -/
theorem mem_fetchOrder {kind k : Kind} (h : k ∈ s.fetchOrder kind) :
    k = kind ∨ (k.rank < kind.rank ∧ k ∉ s.fetched) := by
  unfold Session.fetchOrder at h
  rcases List.mem_append.1 h with h | h
  · split at h
    next =>
      obtain ⟨hdep, hmem⟩ := List.mem_filter.1 h
      exact .inr ⟨Kind.rank_lt_of_mem_dependencies hdep, of_decide_eq_true hmem⟩
    next => exact absurd h List.not_mem_nil
  · exact .inl (List.mem_singleton.1 h)

/-- A fetch fails where the answers to the conflicts of one of its tables are rejected. -/
theorem fetch_of_error (hs : s.Lawful Item.Tidy) (ht : ∀ k, (s.table k).Exact) (hdb : db.Filed)
    {kind : Kind} {passes : List (List Conflict)} {e : Error} {c : Connection Database}
    (h : fetch resolver kind ⟨s, db, passes⟩ = (.error e, c)) :
    ∃ before k after conflicts s₁, s.fetchOrder kind = before ++ k :: after ∧ c.store = db ∧
      c.passes.getLast? = some conflicts ∧ s.Visits before s₁ ∧ s₁.Visits [k] c.session ∧
      s₁.Rejects k (db.rows k) conflicts c.session := by
  rw [fetch_eq] at h
  dsimp only at h
  rcases hrun : (s.fetchOrder kind).mapM (fetchTable resolver) ⟨s, db, passes⟩ with ⟨e' | reports, c'⟩ <;>
    rw [hrun] at h
  · cases h
    obtain ⟨before, k, after, reports, ⟨s₁, db', passes₁⟩, horder, hbefore, hfail⟩ := mapM_eq_error hrun
    have hnodup : (before ++ k :: after).Nodup := by
      rw [← horder]
      exact (s.pairwise_rank_fetchOrder kind).imp fun {a b} hlt (heq : a = b) =>
        Nat.lt_irrefl _ (heq ▸ hlt)
    obtain ⟨hvisits, rfl⟩ := visits_mapM hs hdb (List.nodup_append.1 hnodup).1 (fun k _ => ht k) hbefore
    have hk : k ∉ before := fun hmem =>
      (List.nodup_append.1 hnodup).2.2 k hmem k (List.mem_cons_self ..) rfl
    have hexact := hvisits.exact hk (ht k)
    have hlast := Session.visits_reconcile hvisits.lawful hexact (hdb.nodup_rows k) (resolver passes₁)
    rw [fetchTable_eq] at hfail
    rcases hrec : s₁.reconcile k (db'.rows k) (resolver passes₁) with ⟨_ | _, s', conflicts⟩ <;>
      rw [hrec] at hfail hlast
    · cases hfail
      have hrejects := Session.rejects_reconcile hvisits.lawful.tidy hexact (hdb.nodup_rows k) hrec
      refine ⟨before, k, after, conflicts, s₁, horder, rfl, ?_, hvisits, hlast, hrejects⟩
      have hne := (Session.reconcile_eq_error hrec).1
      dsimp only
      rw [if_neg hne, List.getLast?_concat]
    · cases hfail
  · cases h

/-- After a fetch with honest answers every row that can be read has one item, in each table that was
taken in. -/
theorem mapM_fetchTable_oneEach (hs : s.Coherent) (hdb : db.Filed) (hr : resolver.Honest)
    {kinds : List Kind} (hsorted : kinds.Pairwise fun a b => a.rank < b.rank)
    (ht : ∀ k ∈ kinds, (s.table k).Exact) (passes : List (List Conflict)) :
    ∃ reports s' passes', kinds.mapM (fetchTable resolver) ⟨s, db, passes⟩ =
        (.ok reports, ⟨s', db, passes'⟩) ∧
      (∀ k ∈ kinds, s'.OneEach db k) ∧
      ∀ k, (∀ j ∈ kinds, k.rank < j.rank) →
        s'.table k = s.table k ∧ ∀ row, s'.localRow? k row = s.localRow? k row := by
  induction kinds generalizing s passes with
  | nil =>
    exact ⟨[], s, passes, rfl, fun k hk => absurd hk List.not_mem_nil,
      fun k _ => ⟨rfl, fun _ => rfl⟩⟩
  | cons kind kinds ih =>
    obtain ⟨hfirst, hsorted⟩ := List.pairwise_cons.1 hsorted
    obtain ⟨report, s₁, conflicts, hrec, hunder, -⟩ := Session.reconcile_spec kind hs
      (ht kind (List.mem_cons_self ..)) (hdb.nodup_rows kind) (hr passes)
    have hne : ∀ {k}, kind.rank < k.rank → k ≠ kind := fun hlt heq => Nat.lt_irrefl _ (heq ▸ hlt)
    obtain ⟨reports, s', passes', hrest, heach, hsame⟩ := ih hunder.coherent hsorted
      (fun k hk => hunder.exact (hne (hfirst k hk))
        (Session.table_markFetched s kind k ▸ ht k (List.mem_cons_of_mem _ hk)))
      (if conflicts = [] then passes else passes ++ [conflicts])
    refine ⟨report :: reports, s', passes', ?_, fun k hk => ?_, fun k hk => ?_⟩
    · rw [List.mapM_cons, run_bind, fetchTable_eq, hrec]
      dsimp only
      rw [run_bind, hrest]
      rfl
    · rcases List.mem_cons.1 hk with rfl | hk
      · obtain ⟨htable, hread⟩ := hsame k hfirst
        exact (hunder.oneEach hdb).congr htable hread
      · exact heach k hk
    · obtain ⟨htable, hread⟩ :=
        Session.undisturbed_of_rank_lt hunder.table_eq (hk kind (List.mem_cons_self ..))
      obtain ⟨htable', hread'⟩ := hsame k fun j hj => hk j (List.mem_cons_of_mem _ hj)
      exact ⟨htable'.trans (htable.trans (Session.table_markFetched s kind k)), fun row =>
        (hread' row).trans ((hread row).trans (Session.localRow?_markFetched s kind k row))⟩

theorem fetch_oneEach (hs : s.Coherent) (hdb : db.Filed) (hr : resolver.Honest) {kind : Kind}
    (ht : ∀ k ∈ s.fetchOrder kind, (s.table k).Exact) (passes : List (List Conflict)) :
    ∃ report s' passes', fetch resolver kind ⟨s, db, passes⟩ = (.ok report, ⟨s', db, passes'⟩) ∧
      ∀ k ∈ s.fetchOrder kind, s'.OneEach db k := by
  obtain ⟨reports, s', passes', hrun, heach, -⟩ :=
    mapM_fetchTable_oneEach hs hdb hr (s.pairwise_rank_fetchOrder kind) ht passes
  refine ⟨.total reports, s', passes', ?_, heach⟩
  rw [fetch_eq, hrun]

end Connection

namespace Workspace

variable {w w' : Workspace Database} {events : List Event} {name : String} {s : Session}

/-- After any run the rows of the database are stored under their identities. -/
theorem filed_after (events : List Event) : ((new .empty).after events).store.Filed := by
  have hact : ∀ (w : Workspace Database) (e : Event), w.store.Filed → (w.act e).store.Filed := by
    intro w e h
    cases e with
    | connect => exact h
    | ask name command =>
      unfold act
      dsimp only
      split
      next => exact h
      next s _ => exact command.respects_run Database.respects_filed ⟨s, w.store, []⟩ h
  have hrun : ∀ (events : List Event) (w : Workspace Database), w.store.Filed →
      (w.after events).store.Filed := by
    intro events
    induction events with
    | nil => exact fun w h => h
    | cons e events ih => exact fun w h => ih _ (hact w e h)
  exact hrun events _ fun _ _ _ h => nomatch h

/-- What a fetch does to the workspace is what it does to the connection. -/
theorem perform_fetch {kind : Kind} {resolver : Resolver} {result : Except Error FetchReport}
    {c : Connection Database} (h : Connection.fetch resolver kind ⟨s, w.store, []⟩ = (result, c)) :
    w.perform name s (.fetch kind (some resolver)) =
      (result.map .report, c.passes, ⟨c.store, w.sessions.insert name c.session⟩) := by
  have hresolver : (Command.fetch kind (some resolver)).resolver s = resolver := rfl
  unfold perform
  rw [Command.run_fetch, hresolver, h]

/-- All or nothing.  A fetch fails over a database because a resolver broke its contract, after any run
and in any session in which every item that has a row is the one that its row leads to.  Then the items
of the conflicts are in their table again, just as they were, and their rows lead to them.  No two items of
the table have the same row if and only if the rows of these items, as far as they can be read, were aside
with them; and then a fetch with honest answers, of any table that the failed one had not taken in before,
succeeds and gives each row that can be read exactly one item. -/
theorem restored_of_rejection {kind : Kind} {resolver : Resolver} {fault : ContractFault}
    {passes : List (List Conflict)} (hw : (new .empty).after events = w)
    (hs : w.session? name = some s) (hwf : s.WellFormed)
    (hfail : w.perform name s (.fetch kind (some resolver)) =
      (.error (.contractBroken fault), passes, w')) :
    ∃ before k after conflicts s', s.fetchOrder kind = before ++ k :: after ∧ kind ∉ before ∧
      w'.store = w.store ∧ w'.session? name = some s' ∧ passes.getLast? = some conflicts ∧
      (∀ c ∈ conflicts, c.item.kind = k ∧ s.item? c.item.ref = some c.item ∧
        s'.item? c.item.ref = some c.item ∧
        ∀ d, c.item.dbId = some d → s'.itemOfRow? k d = some c.item.id) ∧
      (s'.RowsUnshared k ↔ RowsAside conflicts (s'.readable k (w.store.rows k))) ∧
      (RowsAside conflicts (s'.readable k (w.store.rows k)) →
        ∀ kind' ∉ before, ∀ again : Resolver, again.Honest → ∃ report passes' w'' s'',
          w'.perform name s' (.fetch kind' (some again)) = (.ok (.report report), passes', w'') ∧
          w''.session? name = some s'' ∧ ∀ k' ∈ s'.fetchOrder kind', s''.OneEach w.store k') := by
  have hdb : w.store.Filed := hw ▸ filed_after events
  have hlawful : s.Lawful Item.Tidy :=
    (hw ▸ (Attained.new Database.empty).after events).lawful Item.law_tidy hs
  rcases hfetch : Connection.fetch resolver kind ⟨s, w.store, []⟩ with ⟨result, s', store, passes₁⟩
  rw [perform_fetch hfetch] at hfail
  rcases result with e | report
  case ok => cases hfail
  cases hfail
  obtain ⟨before, k, after, conflicts, s₁, horder, hstore, hlast, hbefore, hvisits, hrejects⟩ :=
    Connection.fetch_of_error hlawful hwf.exact hdb hfetch
  obtain rfl : store = w.store := hstore
  have hsorted := s.pairwise_rank_fetchOrder kind
  rw [horder] at hsorted
  have hbelow : ∀ j ∈ before, j.rank < k.rank := fun j hj =>
    (List.pairwise_append.1 hsorted).2.2 j hj k (List.mem_cons_self ..)
  have hle : k.rank ≤ kind.rank := by
    rcases Connection.mem_fetchOrder (horder ▸ List.mem_append_right _ (List.mem_cons_self ..)) with
      rfl | ⟨hlt, -⟩
    · exact Nat.le_refl _
    · exact Nat.le_of_lt hlt
  refine ⟨before, k, after, conflicts, s', horder, fun hmem => ?_, rfl,
    (SortedMap.get?_insert ..).trans (if_pos rfl), hlast, fun c hc => ?_,
    ⟨hrejects.aside, fun haside => Session.rowsUnshared_of_exact (hrejects.exact haside)⟩,
    fun haside kind' hkind' again hagain => ?_⟩
  · exact Nat.lt_irrefl _ (Nat.lt_of_lt_of_le (hbelow kind hmem) hle)
  · obtain ⟨hkind, hitem⟩ := hrejects.item c hc
    refine ⟨hkind, hbefore.item? (fun hmem => ?_) hitem, hrejects.back c hc, hrejects.bound c hc⟩
    exact Nat.lt_irrefl _ (hkind ▸ hbelow _ hmem)
  · have htables : ∀ k' ∈ s'.fetchOrder kind', (s'.table k').Exact := by
      intro k' hk'
      by_cases hsame : k' = k
      · exact hsame ▸ hrejects.exact haside
      refine hvisits.exact (fun hmem => hsame (List.mem_singleton.1 hmem))
        (hbefore.exact (fun hmem => ?_) (hwf.exact k'))
      rcases Connection.mem_fetchOrder hk' with rfl | ⟨-, hnot⟩
      · exact hkind' hmem
      · exact hnot ((hvisits.mem_fetched k').2 (.inr ((hbefore.mem_fetched k').2 (.inl hmem))))
    obtain ⟨report, s'', passes'', hrun, heach⟩ :=
      Connection.fetch_oneEach hvisits.lawful.tidy hdb hagain htables []
    exact ⟨report, passes'', ⟨w.store, (w.sessions.insert name s').insert name s''⟩, s'',
      perform_fetch (w := ⟨w.store, w.sessions.insert name s'⟩) hrun,
      (SortedMap.get?_insert ..).trans (if_pos rfl), heach⟩

set_option maxRecDepth 4000 in
/-- The first alternative is in conflict, and a resolver has no answer.  When the fetch is repeated, both
rows have one item each. -/
theorem restored_of_rejection_of_editedMeanwhile : ∃ (w w' : Workspace Database) (s s' : Session)
    (fault : ContractFault) (passes : List (List Conflict)) (conflicts : List Conflict),
    (new .empty).after editedMeanwhile = w ∧ w.session? "a" = some s ∧ s.WellFormed ∧
      w.perform "a" s (.fetch .alternative (some fun _ _ => [])) =
        (.error (.contractBroken fault), passes, w') ∧
      w'.session? "a" = some s' ∧ passes.getLast? = some conflicts ∧ conflicts.length = 1 ∧
      (∀ c ∈ conflicts, s'.item? c.item.ref = some c.item) ∧ s'.RowsUnshared .alternative ∧
      ∃ report passes' w'' s'', w'.perform "a" s'
          (.fetch .alternative (some Choice.keepLocal.resolver)) = (.ok (.report report), passes', w'') ∧
        w''.session? "a" = some s'' ∧ s''.OneEach w.store .alternative := by
  have hrun : Run Plain (new .empty) editedMeanwhile := by decide +kernel
  have hcheck : (((new .empty).after editedMeanwhile).session? "a").any (fun s =>
      let (reply, passes, w') := ((new .empty).after editedMeanwhile).perform "a" s
        (.fetch .alternative (some fun _ _ => []))
      decide (reply = .error (.contractBroken (.miscounted 1 0))) &&
        (w'.session? "a").all fun s' => passes.getLast?.all fun conflicts =>
          decide (conflicts.length = 1) && decide (RowsAside conflicts (s'.readable .alternative
            (((new .empty).after editedMeanwhile).store.rows .alternative)))) = true := by
    decide +kernel
  obtain ⟨s, hs, hcheck⟩ := (Option.any_eq_true ..).1 hcheck
  rcases hfail : ((new .empty).after editedMeanwhile).perform "a" s
    (.fetch .alternative (some fun _ _ => [])) with ⟨reply, passes, w'⟩
  rw [hfail] at hcheck
  dsimp only at hcheck
  obtain ⟨hreply, hfound⟩ := Bool.and_eq_true_iff.1 hcheck
  obtain rfl := of_decide_eq_true hreply
  have hreach := hrun.reachable
  have hwf := ((informed_of_reachable hreach).session hs).toWellFormed
  obtain ⟨before, k, after, conflicts, s', horder, hnot, -, hs', hlast, hback, hunshared, hsound⟩ :=
    restored_of_rejection rfl hs hwf hfail
  rw [hs', hlast] at hfound
  obtain ⟨hlength, haside⟩ := Bool.and_eq_true_iff.1 hfound
  have haside := of_decide_eq_true haside
  -- no other table is fetched before
  rw [Session.fetchOrder_eq_singleton fun _ k hk => absurd hk (by revert k; decide)] at horder
  obtain ⟨rfl, rfl⟩ : before = [] ∧ k = .alternative := by
    cases before with
    | nil => exact ⟨rfl, (List.cons.inj horder).1.symm⟩
    | cons => simp at horder
  obtain ⟨report, passes', w'', s'', hagain, hs'', heach⟩ :=
    hsound haside .alternative hnot _ Choice.keepLocal.honest_resolver
  exact ⟨_, w', s, s', _, passes, conflicts, rfl, hs, hwf, hfail, hs', hlast,
    of_decide_eq_true hlength, fun c hc => (hback c hc).2.2.1, hunshared.2 haside, report, passes', w'',
    s'', hagain, hs'', heach _ (List.mem_append_right _ (List.mem_singleton.2 rfl))⟩

/-- A session renames its alternative, and another one has stored an alternative of that name. -/
def movedAlternative : List Event :=
  [.connect "a" {}, .ask "a" (.add .alternative (.ofList [("name", .text "base")])),
    .ask "a" (.commit "add"), .connect "b" {},
    .ask "b" (.add .alternative (.ofList [("name", .text "low")])), .ask "b" (.commit "low"),
    .ask "a" (.update ⟨.alternative, .first⟩ (.ofList [("name", .text "low")]))]

/-- The workspace once the session has fetched the alternatives with a resolver that has no answer. -/
def afterNoAnswer : Workspace Database :=
  ((new .empty).after movedAlternative).act
    (.ask "a" (.fetch .alternative (some fun _ _ => [])))

/-- The workspace once it has fetched them again. -/
def afterHonestAnswer : Workspace Database :=
  afterNoAnswer.act (.ask "a" (.fetch .alternative (some Choice.keepLocal.resolver)))

/-- The fetch pairs the alternative with the row of the other name and makes a new item of its own row.
The rejection puts it back with that row, and the next fetch makes one more item of the row. -/
theorem row_shared_after_rejection :
    ∃ (s s' s'' : Session) (fault : ContractFault) (d : DbId) (a b : Item),
      Run Plain (new .empty) movedAlternative ∧
      ((new .empty).after movedAlternative).session? "a" = some s ∧ s.WellFormed ∧
      (((new .empty).after movedAlternative).perform "a" s
        (.fetch .alternative (some fun _ _ => []))).1 = .error (.contractBroken fault) ∧
      afterNoAnswer.session? "a" = some s' ∧
      s'.item? ⟨.alternative, ⟨1⟩⟩ = some a ∧ s'.item? ⟨.alternative, ⟨2⟩⟩ = some b ∧
      a.dbId = some d ∧ b.dbId = some d ∧
      afterHonestAnswer.session? "a" = some s'' ∧
      ¬ s''.OneEach afterHonestAnswer.store .alternative := by
  have hrun : Run Plain (new .empty) movedAlternative := by decide +kernel
  have hreach := hrun.reachable
  have hfail : (((new .empty).after movedAlternative).session? "a").any (fun s =>
      decide ((((new .empty).after movedAlternative).perform "a" s
        (.fetch .alternative (some fun _ _ => []))).1 = .error (.contractBroken (.miscounted 1 0)))) =
      true := by
    decide +kernel
  have hback : (afterNoAnswer.session? "a").any (fun s' =>
      (s'.item? ⟨.alternative, ⟨1⟩⟩).any (fun a => decide (a.dbId = some ⟨1⟩)) &&
        (s'.item? ⟨.alternative, ⟨2⟩⟩).any fun b => decide (b.dbId = some ⟨1⟩)) = true := by
    decide +kernel
  have hagain : (afterHonestAnswer.session? "a").any (fun s'' =>
      (afterHonestAnswer.store.row? .alternative ⟨1⟩).any (fun row =>
        (s''.localRow? .alternative row).isSome) &&
      (s''.item? ⟨.alternative, ⟨2⟩⟩).any (fun a => decide (a.dbId = some ⟨1⟩)) &&
        (s''.item? ⟨.alternative, ⟨3⟩⟩).any fun b => decide (b.dbId = some ⟨1⟩)) = true := by
    decide +kernel
  simp only [Option.any_eq_true, Bool.and_eq_true, decide_eq_true_eq] at hfail hback hagain
  obtain ⟨s, hs, hreply⟩ := hfail
  obtain ⟨s', hs', ⟨a, ha, hda⟩, b, hb, hdb⟩ := hback
  obtain ⟨s'', hs'', ⟨⟨row, hrow, hread⟩, a', ha', hda'⟩, b', hb', hdb'⟩ := hagain
  obtain ⟨r, hr⟩ := Option.isSome_iff_exists.1 hread
  refine ⟨s, s', s'', _, _, a, b, hrun, hs, ((informed_of_reachable hreach).session hs).toWellFormed,
    hreply, hs', ha, hb, hda, hdb, hs'', fun heach => ?_⟩
  cases (heach hrow hr).unique ⟨a', ha', hda'⟩ ⟨b', hb', hdb'⟩

end Workspace

end StagedEdits
