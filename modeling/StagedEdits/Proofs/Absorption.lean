import Mathlib.Tactic.ByContra
import StagedEdits.Proofs.Eviction
import StagedEdits.Proofs.Finding
import StagedEdits.Proofs.Rows

/-!
# Taking the findings of a fetch into a session

While the findings are carried out one by one, items may carry the row that another item is about to
take over.  `Session.Underway` is what holds nevertheless: it names the items and the rows whose turn
is still to come.  When nothing is left to come the session is well formed again, every item of the
fetched kind has an `Origin`, and every row an item.
-/

namespace StagedEdits

/-- Where an item of a table comes from once the given rows were fetched into it. -/
inductive Origin (s : Session) (kind : Kind) (rows : List Record) : Item → Prop
  | kept {item : Item} (hitem : s.item? ⟨kind, item.id⟩ = some item)
      (hrow : ∀ d, item.dbId = some d →
        (∃ row ∈ rows, item.synced = some row ∧ item.status ≠ .toAdd) ∨
          (item.status = .toAdd ∧ d ∉ rows.filterMap Record.dbId?)) : Origin s kind rows item
  | loaded {id : ItemId} {row : Record} (hid : s.nextId.val ≤ id.val) (hrow : row ∈ rows) :
      Origin s kind rows (.loaded id kind row)
  | changed {item : Item} {row : Record} (hitem : s.item? ⟨kind, item.id⟩ = some item)
      (hstatus : item.status = .committed) (hrow : row ∈ rows) : Origin s kind rows (item.adopt row)
  | twin {item : Item} {row : Record} (hitem : s.item? ⟨kind, item.id⟩ = some item)
      (hstatus : item.status = .toAdd) (hrow : row ∈ rows) : Origin s kind rows (item.claim row)
  | settled {r : Resolved} {item : Item} {d : Divergence}
      (hitem : s.item? ⟨kind, r.item.id⟩ = some r.item)
      (hdivergence : r.item.divergence? r.row = some d) (hrow : ∀ row, r.row = some row → row ∈ rows)
      (houtcome : r.outcome? = some item) : Origin s kind rows item

namespace Origin

variable {s : Session} {kind : Kind} {rows : List Record} {item : Item}

/-- An item that has a row after a fetch has a row that was fetched, unless it is one to add and was
so before. -/
theorem row_mem (hs : s.Coherent) (h : Origin s kind rows item) {d : DbId}
    (hd : item.dbId = some d) : (∃ row ∈ rows, item.synced = some row) ∨
      (item.status = .toAdd ∧ s.item? ⟨kind, item.id⟩ = some item) := by
  cases h with
  | kept hitem hrow =>
    exact (hrow d hd).imp (fun ⟨row, hr, hsync, _⟩ => ⟨row, hr, hsync⟩) fun hst => ⟨hst.1, hitem⟩
  | loaded _ hrow => exact .inl ⟨_, hrow, rfl⟩
  | changed hitem _ hrow => exact .inl ⟨_, hrow, (Item.takes_adopt (hs.consistent hitem) _).synced_eq⟩
  | twin _ _ hrow => exact .inl ⟨_, hrow, (Item.takes_claim _ _).synced_eq⟩
  | settled hitem _ hrow houtcome =>
    have ht := Resolved.takes_outcome? (hs.consistent hitem) houtcome
    rw [ht.dbId_eq, Option.bind_eq_some_iff] at hd
    obtain ⟨row, hr, -⟩ := hd
    exact .inl ⟨row, hrow row hr, ht.synced_eq.trans hr⟩

end Origin

namespace Session

/-! ### Tables that do not depend on the one fetched -/

section OtherTables

variable {s s' : Session} {kind : Kind}

/-- Where only the table of a kind and those that depend on it differ, the rows of every other kind are
read alike. -/
theorem localRow?_of_table_eq
    (h : ∀ ⦃k⦄, k ≠ kind → kind ∉ k.dependencies → s'.table k = s.table k) {k : Kind}
    (hdep : kind ∉ k.dependencies) (row : Record) : s'.localRow? k row = s.localRow? k row := by
  refine localRow?_congr (fun target ht d => ?_) row
  rw [itemOfRow?_eq, h (fun he => hdep ?_) (fun hin => hdep ?_), itemOfRow?_eq]
  · exact Kind.mem_dependencies_of_referenced ht (.inl he)
  · exact Kind.mem_dependencies_of_referenced ht (.inr hin)

/-- In particular the tables that come before it are the same. -/
theorem undisturbed_of_rank_lt
    (h : ∀ ⦃k⦄, k ≠ kind → kind ∉ k.dependencies → s'.table k = s.table k) {k : Kind}
    (hlt : k.rank < kind.rank) :
    s'.table k = s.table k ∧ ∀ row, s'.localRow? k row = s.localRow? k row := by
  have hdep : kind ∉ k.dependencies := fun hdep =>
    Nat.lt_asymm hlt (Kind.rank_lt_of_mem_dependencies hdep)
  exact ⟨h (fun heq => Nat.ne_of_lt hlt (congrArg Kind.rank heq)) hdep, localRow?_of_table_eq h hdep⟩

end OtherTables

/-- Session `s`, on the way from `s₀`, while the given rows are fetched.  The fate of some items is
still open, and so is which items will have the rows that are pending. -/
structure Underway (s₀ : Session) (kind : Kind) (rows : List Record) (items : List ItemId)
    (pending : List Record) (s : Session) : Prop where
  frame : SameFrame s₀ s
  nextId_le : s₀.nextId.val ≤ s.nextId.val
  coherent : s.Coherent
  exact : ∀ ⦃k⦄, k ≠ kind → (s₀.table k).Exact → (s.table k).Exact
  table_eq : ∀ ⦃k⦄, k ≠ kind → kind ∉ k.dependencies → s.table k = s₀.table k
  item? : ∀ ⦃r item⦄, r.kind ≠ kind → s.item? r = some item → s₀.item? r = some item
  complete : ∀ ⦃id item d⦄, s.item? ⟨kind, id⟩ = some item → item.dbId = some d → id ∉ items →
    s.itemOfRow? kind d = some id ∧ d ∉ pending.filterMap Record.dbId?
  origin : ∀ ⦃id item⦄, s.item? ⟨kind, id⟩ = some item → id ∉ items → Origin s₀ kind rows item
  rows_nodup : (pending.filterMap Record.dbId?).Nodup
  covered : ∀ row ∈ rows, row ∈ pending ∨
    ∃ id item, s.item? ⟨kind, id⟩ = some item ∧ item.synced = some row ∧ id ∉ items

namespace Underway

variable {s₀ s : Session} {kind : Kind} {rows : List Record} {items items' : List ItemId}
  {pending pending' : List Record}

theorem perm (h : Underway s₀ kind rows items pending s) (hp : pending.Perm pending') :
    Underway s₀ kind rows items pending' s :=
  { h with
    complete := fun _ _ _ hi hd hid => by
      obtain ⟨hrow, hmem⟩ := h.complete hi hd hid
      exact ⟨hrow, fun hm => hmem ((hp.filterMap _).mem_iff.2 hm)⟩
    rows_nodup := (hp.filterMap _).nodup_iff.1 h.rows_nodup
    covered := fun row hr => (h.covered row hr).imp (fun hm => hp.mem_iff.1 hm) id }

/-- An item whose fate was open, or a new one, gets a pending row or none. -/
theorem put (h : Underway s₀ kind rows items pending s) {b : Item} (hkind : b.kind = kind)
    (hcons : b.Consistent) (hgiven : b.id.val < s.nextId.val)
    (honly : ∀ k a, s.item? ⟨k, b.id⟩ = some a → k = kind) (horigin : Origin s₀ kind rows b)
    (hopen : ∀ a, s.item? ⟨kind, b.id⟩ = some a → b.id ∈ items)
    (hitems : ∀ id, id ∈ items ↔ id ∈ items' ∨ (id = b.id ∧ b.id ∈ items)) (hnot : b.id ∉ items')
    (hpending : pending.Perm (b.synced.toList ++ pending')) :
    Underway s₀ kind rows items' pending' (s.put b) := by
  have hb : b.ref = ⟨kind, b.id⟩ := by unfold Item.ref; rw [hkind]
  have hrows := (hpending.filterMap Record.dbId?).nodup_iff.1 h.rows_nodup
  rw [List.filterMap_append] at hrows
  have hown : ∀ d, b.dbId = some d → d ∈ b.synced.toList.filterMap Record.dbId? := by
    intro d hd
    rw [hcons.dbId_eq, Option.bind_eq_some_iff] at hd
    obtain ⟨row, hsync, hd⟩ := hd
    exact List.mem_filterMap.2 ⟨row, by rw [hsync]; exact List.mem_singleton.2 rfl, hd⟩
  have hcoherent := h.coherent.put hgiven (fun k a hk => (honly k a hk).trans hkind.symm) hcons
  have hother : ∀ {id}, id ≠ b.id → (s.put b).item? ⟨kind, id⟩ = s.item? ⟨kind, id⟩ := by
    intro id hne
    rw [item?_put, if_neg (by rw [hb]; simpa using hne)]
  have hself : (s.put b).item? ⟨kind, b.id⟩ = some b := by rw [item?_put, if_pos hb.symm]
  have hleft : ∀ {id}, id ≠ b.id → id ∉ items' → id ∉ items := by
    intro id hne hid hmem
    rcases (hitems id).1 hmem with hm | ⟨he, -⟩
    · exact hid hm
    · exact hne he
  have hrowof := itemOfRow?_put (h.coherent.sound _) hkind
  constructor
  case frame => exact h.frame.trans (sameFrame_put s b)
  case nextId_le => exact h.nextId_le
  case coherent => exact hcoherent
  case exact =>
    intro k hk hexact
    rw [table_put, if_neg fun he => hk (he.trans hkind)]
    exact h.exact hk hexact
  case table_eq =>
    intro k hk hdep
    rw [table_put, if_neg fun he => hk (he.trans hkind)]
    exact h.table_eq hk hdep
  case item? =>
    intro r item hr hi
    rw [item?_put, if_neg (by rintro rfl; exact hr hkind)] at hi
    exact h.item? hr hi
  case complete =>
    intro id item d hi hd hid
    by_cases hne : id = b.id
    · subst hne
      rw [hself] at hi
      obtain rfl := Option.some.inj hi
      refine ⟨by rw [hrowof, if_pos hd], fun hmem => ?_⟩
      exact (List.nodup_append.1 hrows).2.2 d (hown d hd) d hmem rfl
    · rw [hother hne] at hi
      obtain ⟨hrow, hmem⟩ := h.complete hi hd (hleft hne hid)
      have hmem' : d ∉ (b.synced.toList ++ pending').filterMap Record.dbId? := fun hm =>
        hmem ((hpending.filterMap _).mem_iff.2 hm)
      rw [List.filterMap_append, List.mem_append, not_or] at hmem'
      refine ⟨?_, hmem'.2⟩
      rw [hrowof, if_neg fun he => hmem'.1 (hown d he), hrow, Option.filter_some,
        if_pos (by simpa using hne)]
  case origin =>
    intro id item hi hid
    by_cases hne : id = b.id
    · subst hne
      rw [hself] at hi
      exact Option.some.inj hi ▸ horigin
    · rw [hother hne] at hi
      exact h.origin hi (hleft hne hid)
  case rows_nodup => exact (List.nodup_append.1 hrows).2.1
  case covered =>
    intro row hrow
    rcases h.covered row hrow with hmem | ⟨id, item, hi, hsync, hid⟩
    · rcases List.mem_append.1 (hpending.mem_iff.1 hmem) with hmem | hmem
      · exact .inr ⟨b.id, b, hself, Option.mem_toList.1 hmem, hnot⟩
      · exact .inl hmem
    · have hne : id ≠ b.id := fun he => hid (he ▸ hopen item (he ▸ hi))
      refine .inr ⟨id, item, (hother hne).trans hi, hsync, fun hm => hid ((hitems id).2 (.inl hm))⟩

/-- An item whose fate was open is taken out. -/
theorem drop (h : Underway s₀ kind rows items pending s) {id : ItemId}
    (hitems : ∀ id', id' ∈ items ↔ id' = id ∨ id' ∈ items') :
    Underway s₀ kind rows items' pending (s.drop ⟨kind, id⟩) := by
  have hcases : ∀ {r item}, (s.drop ⟨kind, id⟩).item? r = some item →
      r ≠ ⟨kind, id⟩ ∧ s.item? r = some item := item?_drop_eq_some_iff.1
  have hleft : ∀ {id'}, id' ≠ id → id' ∉ items' → id' ∉ items := by
    intro id' hne hid hmem
    exact ((hitems id').1 hmem).elim hne hid
  have hne_of : ∀ {id'}, (⟨kind, id'⟩ : ItemRef) ≠ ⟨kind, id⟩ → id' ≠ id := by
    rintro id' hne rfl
    exact hne rfl
  constructor
  case frame => exact h.frame.trans (sameFrame_drop s _)
  case nextId_le => rw [nextId_drop]; exact h.nextId_le
  case coherent => exact h.coherent.drop _
  case exact => intro k hk hexact; rw [table_drop, if_neg hk]; exact h.exact hk hexact
  case table_eq => intro k hk hdep; rw [table_drop, if_neg hk]; exact h.table_eq hk hdep
  case item? => intro r item hr hi; exact h.item? hr (hcases hi).2
  case complete =>
    intro id' item d hi hd hid
    obtain ⟨hne, hi⟩ := hcases hi
    obtain ⟨hrow, hmem⟩ := h.complete hi hd (hleft (hne_of hne) hid)
    refine ⟨?_, hmem⟩
    rw [itemOfRow?_drop (h.coherent.sound _), hrow, Option.filter_some,
      if_pos (by simpa using hne_of hne)]
  case origin =>
    intro id' item hi hid
    obtain ⟨hne, hi⟩ := hcases hi
    exact h.origin hi (hleft (hne_of hne) hid)
  case rows_nodup => exact h.rows_nodup
  case covered =>
    intro row hrow
    refine (h.covered row hrow).imp (fun hm => hm) ?_
    rintro ⟨id', item, hi, hsync, hid⟩
    have hne : id' ≠ id := fun he => hid ((hitems id').2 (.inl he))
    refine ⟨id', item, ?_, hsync, fun hm => hid ((hitems id').2 (.inr hm))⟩
    rw [item?_drop, if_neg (by simpa using hne)]
    exact hi

/-- Giving out an identity changes nothing else. -/
theorem advance (h : Underway s₀ kind rows items pending s) :
    Underway s₀ kind rows items pending { s with nextId := s.nextId.next } :=
  { h with
    frame := ⟨h.frame.config, h.frame.fetched, h.frame.knownCommits⟩
    nextId_le := Nat.le_succ_of_le h.nextId_le
    coherent := h.coherent.congr (fun _ => rfl) (Nat.le_succ _) }

/-- The identity of an item of the fetched table was given to no item of another kind. -/
theorem only_kind (hs : s₀.Coherent) (h : Underway s₀ kind rows items pending s) {id : ItemId}
    {x : Item} (hx : s₀.item? ⟨kind, id⟩ = some x) :
    ∀ k a, s.item? ⟨k, id⟩ = some a → k = kind := by
  intro k a ha
  by_contra hk
  exact hk (hs.one_kind (h.item? (r := ⟨k, id⟩) hk ha) hx)

theorem evicts {s' : Session} (h : Underway s₀ kind rows items pending s) (he : Evicts kind s s') :
    Underway s₀ kind rows items pending s' := by
  have htable : s'.table kind = s.table kind := he.table_eq kind.not_mem_dependencies_self
  have hitem : ∀ id, s'.item? ⟨kind, id⟩ = s.item? ⟨kind, id⟩ := fun id => by
    rw [item?_eq, htable, item?_eq]
  have hrow : ∀ d, s'.itemOfRow? kind d = s.itemOfRow? kind d := fun d => by
    rw [itemOfRow?_eq, htable, itemOfRow?_eq]
  constructor
  case frame => exact h.frame.trans he.frame
  case nextId_le => rw [he.nextId]; exact h.nextId_le
  case coherent => exact he.coherent h.coherent
  case exact => intro k hk hexact; exact he.exact (h.exact hk hexact)
  case table_eq => intro k hk hdep; exact (he.table_eq hdep).trans (h.table_eq hk hdep)
  case item? => intro r item hr hi; exact h.item? hr (he.item? hi)
  case complete => intro id item d hi hd hid; rw [hrow]; exact h.complete (hitem id ▸ hi) hd hid
  case origin => intro id item hi hid; exact h.origin (hitem id ▸ hi) hid
  case rows_nodup => exact h.rows_nodup
  case covered =>
    intro row hr
    refine (h.covered row hr).imp (fun hm => hm) ?_
    rintro ⟨id, item, hi, hrest⟩
    exact ⟨id, item, (hitem id).trans hi, hrest⟩

end Underway

/-- A conflict that a fetch of the given rows can come upon. -/
structure Conflicts (s₀ : Session) (kind : Kind) (rows : List Record) (c : Conflict) : Prop where
  item : s₀.item? ⟨kind, c.item.id⟩ = some c.item
  divergence : ∃ d, c.item.divergence? c.row = some d
  row_mem : ∀ row, c.row = some row → row ∈ rows

/-- A fetch with some findings left to be taken in. -/
structure Absorbing (s₀ : Session) (kind : Kind) (rows : List Record) (todo : List Finding)
    (a : Absorption) : Prop where
  underway : Underway s₀ kind rows (todo.filterMap Finding.item?)
    (todo.filterMap Finding.row? ++ a.conflicts.filterMap (·.row)) a.session
  fits : ∀ f ∈ todo, f.Fits (s₀.table kind)
  items_nodup : (todo.filterMap Finding.item?).Nodup
  rows_mem : ∀ row ∈ todo.filterMap Finding.row?, row ∈ rows
  same : ∀ id ∈ todo.filterMap Finding.item?, a.session.item? ⟨kind, id⟩ = s₀.item? ⟨kind, id⟩
  conflicts : ∀ c ∈ a.conflicts, Conflicts s₀ kind rows c
  conflicts_nodup : (a.conflicts.map (·.item.id)).Nodup
  absent : ∀ c ∈ a.conflicts, a.session.item? ⟨kind, c.item.id⟩ = none

namespace Absorbing

variable {s₀ : Session} {kind : Kind} {rows : List Record} {f : Finding} {todo : List Finding}
  {a a' : Absorption}

/-- A finding about an item is about one that is there. -/
theorem item_of_mem (h : Absorbing s₀ kind rows todo a) {id : ItemId}
    (hid : id ∈ todo.filterMap Finding.item?) : ∃ item, s₀.item? ⟨kind, id⟩ = some item := by
  obtain ⟨f, hf, hitem⟩ := List.mem_filterMap.1 hid
  have hfits := h.fits f hf
  cases f with
  | unknown | same => cases hitem
  | changed | twin | conflict | gone =>
    obtain rfl := Option.some.inj hitem
    obtain ⟨item, hi, -⟩ := hfits
    exact ⟨item, by rw [item?_eq]; exact hi⟩

theorem given (hs : s₀.Coherent) (h : Absorbing s₀ kind rows todo a) {id : ItemId}
    (hid : id ∈ todo.filterMap Finding.item? ∨ ∃ c ∈ a.conflicts, c.item.id = id) :
    id.val < a.session.nextId.val := by
  refine Nat.lt_of_lt_of_le ?_ h.underway.nextId_le
  rcases hid with hid | ⟨c, hc, rfl⟩
  · obtain ⟨item, hi⟩ := h.item_of_mem hid
    exact hs.given hi
  · exact hs.given (h.conflicts c hc).item

/-- An item in conflict has no other finding. -/
theorem not_conflict (h : Absorbing s₀ kind rows todo a) {id : ItemId}
    (hid : id ∈ todo.filterMap Finding.item?) : ∀ c ∈ a.conflicts, c.item.id ≠ id := by
  rintro c hc rfl
  have hsame := h.same _ hid
  rw [h.absent c hc, (h.conflicts c hc).item] at hsame
  cases hsame

/-- Taking in a finding that is not a conflict. -/
theorem proceed (h : Absorbing s₀ kind rows (f :: todo) a)
    (hunder : Underway s₀ kind rows (todo.filterMap Finding.item?)
      (todo.filterMap Finding.row? ++ a.conflicts.filterMap (·.row)) a'.session)
    (hconf : a'.conflicts = a.conflicts)
    (hsame : ∀ id, (id ∈ todo.filterMap Finding.item? ∨ ∃ c ∈ a.conflicts, c.item.id = id) →
      a'.session.item? ⟨kind, id⟩ = a.session.item? ⟨kind, id⟩) :
    Absorbing s₀ kind rows todo a' := by
  have hsub := (List.sublist_cons_self f todo).filterMap Finding.item?
  have hsubrow := (List.sublist_cons_self f todo).filterMap Finding.row?
  constructor
  case underway => rw [hconf]; exact hunder
  case fits => exact fun f' hf' => h.fits f' (List.mem_cons_of_mem _ hf')
  case items_nodup => exact h.items_nodup.sublist hsub
  case rows_mem => exact fun row hr => h.rows_mem row (hsubrow.subset hr)
  case same => exact fun id hid => (hsame id (.inl hid)).trans (h.same id (hsub.subset hid))
  case conflicts => rw [hconf]; exact h.conflicts
  case conflicts_nodup => rw [hconf]; exact h.conflicts_nodup
  case absent =>
    rw [hconf]
    exact fun c hc => (hsame c.item.id (.inr ⟨c, hc, rfl⟩)).trans (h.absent c hc)

theorem unknown (hs : s₀.Coherent) {row : Record}
    (h : Absorbing s₀ kind rows (.unknown row :: todo) a) :
    Absorbing s₀ kind rows todo (a.step kind (.unknown row)) := by
  have hitems : (Finding.unknown row :: todo).filterMap Finding.item? =
      todo.filterMap Finding.item? := rfl
  have hrows : (Finding.unknown row :: todo).filterMap Finding.row? =
      row :: todo.filterMap Finding.row? := rfl
  have hfresh : ∀ r x, a.session.item? r = some x → r.id ≠ a.session.nextId := by
    intro r x hx he
    have hlt := h.underway.coherent.given hx
    rw [he] at hlt
    exact Nat.lt_irrefl _ hlt
  have hnot : ∀ {id}, (id ∈ todo.filterMap Finding.item? ∨ ∃ c ∈ a.conflicts, c.item.id = id) →
      id ≠ a.session.nextId := by
    intro id hid he
    have hlt := h.given hs (hid.imp_left fun hid => hitems ▸ hid)
    rw [he] at hlt
    exact Nat.lt_irrefl _ hlt
  refine h.proceed ?_ rfl ?_
  · refine h.underway.advance.put (b := .loaded a.session.nextId kind row) rfl
      (Item.takes_loaded ..).consistent (Nat.lt_succ_self _) ?_ ?_ ?_ ?_ ?_ ?_
    · exact fun k x hx => absurd rfl (hfresh ⟨k, _⟩ x hx)
    · exact .loaded h.underway.nextId_le (h.rows_mem row (hrows ▸ List.mem_cons_self ..))
    · exact fun x hx => absurd rfl (hfresh ⟨kind, _⟩ x hx)
    · intro id
      rw [hitems]
      exact ⟨.inl, fun hor => hor.elim (fun hid => hid) fun ⟨he, hid⟩ => he ▸ hid⟩
    · exact fun hid => hnot (.inl hid) rfl
    · rw [hrows]; exact .refl _
  · intro id hid
    refine (item?_put _ _ _).trans (if_neg ?_)
    intro he
    exact hnot hid (congrArg ItemRef.id he)

/-- Taking in a finding that gives a row to an item. -/
theorem replace (hs : s₀.Coherent) {id : ItemId} {row : Record} {x b : Item}
    (h : Absorbing s₀ kind rows (f :: todo) a) (hid : f.item? = some id) (hrow : f.row? = some row)
    (hx : s₀.item? ⟨kind, id⟩ = some x) (hb : x.Takes (some row) b)
    (horigin : Origin s₀ kind rows b) (hsession : a'.session = a.session.put b)
    (hconf : a'.conflicts = a.conflicts) : Absorbing s₀ kind rows todo a' := by
  have hitems : (f :: todo).filterMap Finding.item? = id :: todo.filterMap Finding.item? :=
    List.filterMap_cons_some hid
  have hrows : (f :: todo).filterMap Finding.row? = row :: todo.filterMap Finding.row? :=
    List.filterMap_cons_some hrow
  have hbid : b.id = id := hb.id_eq.trans (item_id hx)
  have hbkind : b.kind = kind := hb.kind_eq.trans (hs.item_kind hx)
  have hmem : id ∈ (f :: todo).filterMap Finding.item? := hitems ▸ List.mem_cons_self ..
  have hnot : id ∉ todo.filterMap Finding.item? := (List.nodup_cons.1 (hitems ▸ h.items_nodup)).1
  refine h.proceed ?_ hconf ?_
  · rw [hsession]
    refine h.underway.put hbkind hb.consistent ?_ ?_ horigin ?_ ?_ ?_ ?_
    · rw [hbid]; exact h.given hs (.inl hmem)
    · rw [hbid]; exact h.underway.only_kind hs hx
    · intro _ _; rw [hbid]; exact hmem
    · intro id'
      rw [hbid, hitems, List.mem_cons]
      constructor
      · rintro (rfl | hid')
        · exact .inr ⟨rfl, List.mem_cons_self ..⟩
        · exact .inl hid'
      · rintro (hid' | ⟨rfl, -⟩)
        · exact .inr hid'
        · exact .inl rfl
    · rw [hbid]; exact hnot
    · rw [hrows, hb.synced_eq]; exact .refl _
  · intro id' hid'
    rw [hsession, item?_put, if_neg]
    intro he
    have heid : id' = id := (congrArg ItemRef.id he).trans hbid
    subst heid
    rcases hid' with hid' | ⟨c, hc, hcid⟩
    · exact hnot hid'
    · exact h.not_conflict hmem c hc hcid

/-- Setting an item in conflict aside. -/
theorem setAside {id : ItemId} {row : Option Record} {d : Divergence} {x : Item}
    (h : Absorbing s₀ kind rows (.conflict id row d :: todo) a)
    (hx : s₀.item? ⟨kind, id⟩ = some x) (hd : x.divergence? row = some d)
    (hsession : a'.session = a.session.drop ⟨kind, id⟩)
    (hconf : a'.conflicts = a.conflicts ++ [⟨x, row⟩]) : Absorbing s₀ kind rows todo a' := by
  have hitems : (Finding.conflict id row d :: todo).filterMap Finding.item? =
      id :: todo.filterMap Finding.item? := rfl
  have hrows : (Finding.conflict id row d :: todo).filterMap Finding.row? =
      row.toList ++ todo.filterMap Finding.row? := by cases row <;> rfl
  have hxid : x.id = id := item_id hx
  have hmem : id ∈ (Finding.conflict id row d :: todo).filterMap Finding.item? :=
    List.mem_cons_self ..
  obtain ⟨hnot, hnodup⟩ := List.nodup_cons.1 h.items_nodup
  have hother : ∀ {id'}, id' ≠ id →
      a'.session.item? ⟨kind, id'⟩ = a.session.item? ⟨kind, id'⟩ := by
    intro id' hne
    rw [hsession, item?_drop, if_neg (by simpa using hne)]
  have hperm : ((Finding.conflict id row d :: todo).filterMap Finding.row? ++
      a.conflicts.filterMap (·.row)).Perm
        (todo.filterMap Finding.row? ++ a'.conflicts.filterMap (·.row)) := by
    have hlast : [(⟨x, row⟩ : Conflict)].filterMap (·.row) = row.toList := by cases row <;> rfl
    rw [hconf, List.filterMap_append, hlast, hrows, List.append_assoc]
    exact List.perm_append_comm.trans (.of_eq (List.append_assoc ..))
  constructor
  case underway =>
    rw [hsession]
    refine (h.underway.perm hperm).drop fun id' => ?_
    rw [hitems, List.mem_cons]
  case fits => exact fun f' hf' => h.fits f' (List.mem_cons_of_mem _ hf')
  case items_nodup => exact hnodup
  case rows_mem =>
    exact fun r hr => h.rows_mem r (hrows ▸ List.mem_append_right _ hr)
  case same =>
    intro id' hid'
    rw [hother fun he => hnot (he ▸ hid')]
    exact h.same id' (List.mem_cons_of_mem _ hid')
  case conflicts =>
    intro c hc
    rw [hconf] at hc
    rcases List.mem_append.1 hc with hc | hc
    · exact h.conflicts c hc
    · obtain rfl := List.mem_singleton.1 hc
      refine ⟨by rw [hxid]; exact hx, ⟨d, hd⟩, ?_⟩
      intro r hr
      refine h.rows_mem r (hrows ▸ List.mem_append_left _ ?_)
      rw [Option.mem_toList]
      exact hr
  case conflicts_nodup =>
    rw [hconf, List.map_append, List.nodup_append]
    refine ⟨h.conflicts_nodup, List.nodup_singleton _, ?_⟩
    intro i hi j hj he
    obtain ⟨c, hc, rfl⟩ := List.mem_map.1 hi
    rw [List.map_singleton, List.mem_singleton] at hj
    exact h.not_conflict hmem c hc (he.trans (hj.trans hxid))
  case absent =>
    intro c hc
    rw [hconf] at hc
    rcases List.mem_append.1 hc with hc | hc
    · rw [hother (h.not_conflict hmem c hc)]
      exact h.absent c hc
    · obtain rfl := List.mem_singleton.1 hc
      rw [hsession, item?_drop, if_pos (by rw [hxid])]

/-- Evicting an item whose row is gone. -/
theorem evict {id : ItemId} (h : Absorbing s₀ kind rows (.gone id :: todo) a)
    (hsession : a'.session =
      ((a.session.drop ⟨kind, id⟩).evictReferrers [⟨kind, id⟩]).session)
    (hconf : a'.conflicts = a.conflicts) : Absorbing s₀ kind rows todo a' := by
  have hmem : id ∈ (Finding.gone id :: todo).filterMap Finding.item? := List.mem_cons_self ..
  have hnot : id ∉ todo.filterMap Finding.item? := (List.nodup_cons.1 h.items_nodup).1
  have hevicts : Evicts kind (a.session.drop ⟨kind, id⟩) a'.session := by
    rw [hsession]
    exact evicts_evictReferrers fun r hr => by rw [List.mem_singleton.1 hr]
  refine h.proceed ?_ hconf ?_
  · refine Underway.evicts ?_ hevicts
    refine h.underway.drop fun id' => ?_
    exact List.mem_cons
  · intro id' hid'
    have hne : id' ≠ id := by
      rintro rfl
      rcases hid' with hid' | ⟨c, hc, hcid⟩
      · exact hnot hid'
      · exact h.not_conflict hmem c hc hcid
    rw [item?_eq, hevicts.table_eq kind.not_mem_dependencies_self, ← item?_eq (r := ⟨kind, id'⟩),
      item?_drop, if_neg (by simpa using hne)]

/-- What taking in one finding keeps. -/
theorem step (hs : s₀.Coherent) (h : Absorbing s₀ kind rows (f :: todo) a) :
    Absorbing s₀ kind rows todo (a.step kind f) := by
  have hfits := h.fits f (List.mem_cons_self ..)
  have hitem : ∀ {id x}, f.item? = some id → (s₀.table kind).get? id = some x →
      s₀.item? ⟨kind, id⟩ = some x ∧ a.session.item? ⟨kind, id⟩ = some x := by
    intro id x hid hx
    have hx : s₀.item? ⟨kind, id⟩ = some x := by rw [item?_eq]; exact hx
    refine ⟨hx, (h.same id ?_).trans hx⟩
    rw [List.filterMap_cons_some hid]
    exact List.mem_cons_self ..
  have hrow : ∀ {row}, f.row? = some row → row ∈ rows := by
    intro row hr
    refine h.rows_mem row ?_
    rw [List.filterMap_cons_some hr]
    exact List.mem_cons_self ..
  cases f with
  | unknown row => exact h.unknown hs
  | changed id row =>
    obtain ⟨x, hx, hst⟩ := hfits
    obtain ⟨hx, hax⟩ := hitem rfl hx
    obtain rfl := item_id hx
    refine h.replace hs rfl rfl hx (Item.takes_adopt (hs.consistent hx) row)
      (.changed hx hst (hrow rfl)) ?_ ?_ <;> simp only [Absorption.step, hax]
  | same id => exact h.proceed h.underway rfl fun _ _ => rfl
  | twin id row =>
    obtain ⟨x, hx, hst⟩ := hfits
    obtain ⟨hx, hax⟩ := hitem rfl hx
    obtain rfl := item_id hx
    refine h.replace hs rfl rfl hx (Item.takes_claim x row) (.twin hx hst (hrow rfl)) ?_ ?_ <;>
      simp only [Absorption.step, hax]
  | conflict id row d =>
    obtain ⟨x, hx, hd⟩ := hfits
    obtain ⟨hx, hax⟩ := hitem rfl hx
    refine h.setAside hx hd ?_ ?_ <;> simp only [Absorption.step, hax]
  | gone id =>
    obtain ⟨x, hx, -⟩ := hfits
    obtain ⟨hx, hax⟩ := hitem rfl hx
    refine h.evict ?_ ?_ <;> simp only [Absorption.step, Session.evict, hax]

end Absorbing

end Session

end StagedEdits
