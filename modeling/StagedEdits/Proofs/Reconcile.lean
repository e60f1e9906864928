import StagedEdits.Proofs.Losses

/-!
# What a fetch does to a session

`Session.Fetches` describes a session after a table was fetched.  Fetching leads there from every
well formed session, as long as the rows have different identities and the resolver answers each
conflict once and unchanged (`Session.fetches_reconcile`).
-/

namespace StagedEdits

/-- Answers that name each conflict once, with nothing changed but the choice added. -/
def Answers (conflicts : List Conflict) (answers : List Resolved) : Prop :=
  (answers.map Resolved.toConflict).Perm conflicts

/-- A resolver that keeps the contract. -/
def Resolver.Honest (resolver : Resolver) : Prop :=
  ∀ passes conflicts, Answers conflicts (resolver passes conflicts)

theorem Choice.honest_resolver (choice : Choice) : choice.resolver.Honest := by
  intro passes conflicts
  unfold Answers resolver forAll
  rw [List.map_map]
  exact .of_eq (List.map_id' conflicts)

/-- Honest answers have no fault. -/
theorem contractFault?_eq_none {conflicts : List Conflict} {answers : List Resolved}
    (h : Answers conflicts answers) (hn : (conflicts.map (·.item.id)).Nodup) :
    contractFault? conflicts answers = none := by
  have hids : (answers.map (·.item.id)).Nodup := by
    have hperm := h.map fun c => c.item.id
    rw [List.map_map] at hperm
    exact hperm.nodup_iff.2 hn
  have hgo : ∀ (rest : List Resolved) (seen : List ItemId), (rest.map (·.item.id)).Nodup →
      (∀ r ∈ rest, r.toConflict ∈ conflicts) → (∀ r ∈ rest, r.item.id ∉ seen) →
      contractFault?.go conflicts seen rest = none := by
    intro rest
    induction rest with
    | nil => exact fun _ _ _ _ => rfl
    | cons r rest ih =>
      intro seen hnodup hmem hseen
      obtain ⟨hr, hnodup⟩ := List.nodup_cons.1 hnodup
      have hany : conflicts.any (·.item = r.item) = true :=
        List.any_eq_true.2 ⟨r.toConflict, hmem r (List.mem_cons_self ..), by simp⟩
      rw [contractFault?.go, if_neg (hseen r (List.mem_cons_self ..)), if_pos hany]
      refine ih _ hnodup (fun r' hr' => hmem r' (List.mem_cons_of_mem _ hr')) ?_
      intro r' hr' hin
      rcases List.mem_cons.1 hin with he | hin
      · exact hr (List.mem_map.2 ⟨r', hr', he⟩)
      · exact hseen r' (List.mem_cons_of_mem _ hr') hin
  unfold contractFault?
  have hlen := h.length_eq
  rw [List.length_map] at hlen
  rw [if_neg (fun hne => hne hlen)]
  refine hgo answers [] hids (fun r hr => ?_) (fun _ _ => List.not_mem_nil)
  exact h.mem_iff.1 (List.mem_map.2 ⟨r, hr, rfl⟩)

/-- The actions of a pass belong to its answers, in another order. -/
theorem exists_settlements_eq (answers : List Resolved) :
    ∃ ordered : List Resolved, ordered.Perm answers ∧
      settlements answers = ordered.map fun r => (r.markedDirty, r.markedDirty.settlement) := by
  refine ⟨answers.filter (fun r => r.markedDirty.isResurrection) ++
    answers.filter (fun r => !r.markedDirty.isResurrection), List.filter_append_perm _ _, ?_⟩
  unfold settlements
  dsimp only
  rw [List.filter_map, List.filter_map, ← List.map_append, List.map_map]
  rfl

namespace Session

/-- A pass with some answers left to be carried out. -/
structure Settling (s₀ : Session) (kind : Kind) (rows : List Record) (left : List Resolved)
    (s : Session) : Prop where
  underway : Underway s₀ kind rows [] (left.filterMap (·.row)) s
  conflicts : ∀ r ∈ left, Conflicts s₀ kind rows r.toConflict
  ids_nodup : (left.map (·.item.id)).Nodup
  absent : ∀ r ∈ left, s.item? ⟨kind, r.item.id⟩ = none

variable {s₀ s : Session} {kind : Kind} {rows : List Record}

theorem Settling.perm {left left' : List Resolved} (h : Settling s₀ kind rows left s)
    (hperm : left'.Perm left) : Settling s₀ kind rows left' s :=
  ⟨h.underway.perm (hperm.symm.filterMap _), fun r hr => h.conflicts r (hperm.mem_iff.1 hr),
    (hperm.map _).nodup_iff.2 h.ids_nodup, fun r hr => h.absent r (hperm.mem_iff.1 hr)⟩

/-- Carries out the action that an answer calls for. -/
def answered (s : Session) (r : Resolved) : Session :=
  s.act r.markedDirty r.markedDirty.settlement

theorem answered_eq (s : Session) (r : Resolved) :
    s.answered r = match r.outcome? with
      | some item => s.put item
      | none => s :=
  rfl

/-- What carrying out one answer keeps. -/
theorem Settling.step (hs : s₀.Coherent) {r : Resolved} {left : List Resolved}
    (h : Settling s₀ kind rows (r :: left) s) :
    Settling s₀ kind rows left (s.answered r) := by
  rw [answered_eq]
  have hc := h.conflicts r (List.mem_cons_self ..)
  obtain ⟨hnot, hids⟩ := List.nodup_cons.1 h.ids_nodup
  have habsent := h.absent r (List.mem_cons_self ..)
  have hrows : (r :: left).filterMap (·.row) = r.row.toList ++ left.filterMap (·.row) := by
    rw [List.filterMap_cons]
    cases r.row <;> rfl
  cases hb : r.outcome? with
  | none =>
    refine ⟨?_, fun r' hr' => h.conflicts r' (List.mem_cons_of_mem _ hr'), hids,
      fun r' hr' => h.absent r' (List.mem_cons_of_mem _ hr')⟩
    have hunder := h.underway
    rw [hrows, Resolved.row_eq_none_of_outcome? hb] at hunder
    exact hunder
  | some b =>
    have ht := Resolved.takes_outcome? (hs.consistent hc.item) hb
    have hbid : b.id = r.item.id := ht.id_eq
    obtain ⟨d, hd⟩ := hc.divergence
    refine ⟨?_, fun r' hr' => h.conflicts r' (List.mem_cons_of_mem _ hr'), hids, ?_⟩
    · refine h.underway.put (ht.kind_eq.trans (hs.item_kind hc.item)) ht.consistent ?_ ?_
        (.settled hc.item hd hc.row_mem hb) ?_ ?_ ?_ ?_
      · rw [hbid]; exact Nat.lt_of_lt_of_le (hs.given hc.item) h.underway.nextId_le
      · rw [hbid]; exact h.underway.only_kind hs hc.item
      · intro a ha
        rw [hbid, habsent] at ha
        cases ha
      · intro id; simp
      · exact List.not_mem_nil
      · rw [hrows, ht.synced_eq]
    · intro r' hr'
      rw [item?_put, if_neg]
      · exact h.absent r' (List.mem_cons_of_mem _ hr')
      · intro he
        have he : r'.item.id = r.item.id := (congrArg ItemRef.id he).trans hbid
        exact hnot (List.mem_map.2 ⟨r', hr', he⟩)

/-- Carrying out all answers of a pass leaves nothing open. -/
theorem Settling.foldl (hs : s₀.Coherent) {left : List Resolved}
    (h : Settling s₀ kind rows left s) :
    Underway s₀ kind rows [] [] (left.foldl answered s) := by
  induction left generalizing s with
  | nil => exact h.underway
  | cons r left ih => exact ih (h.step hs)

/-- The items that are gone because the missing row was chosen. -/
def conceded (answers : List Resolved) : List ItemRef :=
  (answers.filter (·.outcome?.isNone)).map (·.item.ref)

theorem mem_conceded_iff {answers : List Resolved} {ref : ItemRef} :
    ref ∈ conceded answers ↔ ∃ r ∈ answers, r.outcome? = none ∧ r.item.ref = ref := by
  unfold conceded
  simp only [List.mem_map, List.mem_filter, Option.isNone_iff_eq_none, and_assoc]

theorem conceded_cons_of_none {answers : List Resolved} {r : Resolved} (h : r.outcome? = none) :
    conceded (r :: answers) = r.item.ref :: conceded answers := by
  unfold conceded
  rw [List.filter_cons_of_pos (by rw [h]; rfl), List.map_cons]

theorem conceded_cons_of_some {answers : List Resolved} {r : Resolved} {b : Item}
    (h : r.outcome? = some b) : conceded (r :: answers) = conceded answers := by
  unfold conceded
  rw [List.filter_cons_of_neg (by rw [h]; exact Bool.false_ne_true)]

/-- An item that an answer is about is put back, unless it is conceded. -/
theorem back_or_conceded {answers : List Resolved} {r : Resolved} (hr : r ∈ answers)
    (h : s.item? r.item.ref = r.outcome?) :
    (∃ x, s.item? r.item.ref = some x) ∨ r.item.ref ∈ conceded answers := by
  cases hb : r.outcome? with
  | some b => exact .inl ⟨b, h.trans hb⟩
  | none => exact .inr (mem_conceded_iff.2 ⟨r, hr, hb, rfl⟩)

/-- Carrying the actions of a pass out, with the parts of each of them named by projections. -/
theorem carryOut_eq (s : Session) (settled : List (Resolved × Action)) :
    s.carryOut settled =
      let sweep := (settled.foldl (fun s x => s.act x.1 x.2) s).evictReferrers
        ((settled.filter fun x => (x.2.result? x.1.toConflict).isNone).map fun x => x.1.item.ref)
      (sweep.session, ((settled.filter fun x => (x.2.result? x.1.toConflict).isNone).map
        fun x => x.1.item.ref).length + sweep.evicted) :=
  rfl

/-- Carrying out the actions of a pass is to carry out its answers, in another order, and to evict
what refers to the items that are gone. -/
theorem exists_carryOut_eq (s : Session) (answers : List Resolved) :
    ∃ ordered : List Resolved, ordered.Perm answers ∧ s.carryOut (settlements answers) =
      let sweep := (ordered.foldl answered s).evictReferrers (conceded ordered)
      (sweep.session, (conceded ordered).length + sweep.evicted) := by
  obtain ⟨ordered, hperm, heq⟩ := exists_settlements_eq answers
  refine ⟨ordered, hperm, ?_⟩
  have hgone : ((settlements answers).filter fun x =>
      (x.2.result? x.1.toConflict).isNone).map (fun x => x.1.item.ref) = conceded ordered := by
    unfold conceded
    rw [heq, List.filter_map, List.map_map]
    exact List.map_congr_left fun r _ => r.ref_markedDirty
  rw [carryOut_eq]
  dsimp only
  rw [hgone, heq, List.foldl_map]
  rfl

/-- Settling conflicts with answers that keep the contract is to carry the answers out. -/
theorem exists_settle_eq_ok (s : Session) {conflicts : List Conflict} {answers : List Resolved}
    (h : contractFault? conflicts answers = none) :
    ∃ ordered : List Resolved, ordered.Perm answers ∧ s.settle conflicts answers =
      (.ok ((conceded ordered).length +
          ((ordered.foldl answered s).evictReferrers (conceded ordered)).evicted),
        ((ordered.foldl answered s).evictReferrers (conceded ordered)).session) := by
  obtain ⟨ordered, hperm, heq⟩ := exists_carryOut_eq s answers
  refine ⟨ordered, hperm, ?_⟩
  unfold settle
  rw [h]
  dsimp only
  rw [heq]

theorem exists_settle_eq (s : Session) {conflicts : List Conflict} {answers : List Resolved}
    (h : contractFault? conflicts answers = none) :
    ∃ ordered : List Resolved, ordered.Perm answers ∧ (s.settle conflicts answers).2 =
      ((ordered.foldl answered s).evictReferrers (conceded ordered)).session := by
  obtain ⟨ordered, hperm, heq⟩ := exists_settle_eq_ok s h
  exact ⟨ordered, hperm, by rw [heq]⟩

/-- Settling conflicts with answers that break the contract is to put the items back. -/
theorem settle_eq_error (s : Session) {conflicts : List Conflict} {answers : List Resolved}
    {fault : ContractFault} (h : contractFault? conflicts answers = some fault) :
    s.settle conflicts answers = (.error (.contractBroken fault), s.putBack conflicts) := by
  unfold settle
  rw [h]

theorem Settling.evictReferrers (hs : s₀.Coherent) {answers : List Resolved}
    (h : Settling s₀ kind rows answers s) : Underway s₀ kind rows [] []
      ((answers.foldl answered s).evictReferrers (conceded answers)).session := by
  refine (h.foldl hs).evicts (evicts_evictReferrers fun ref href => ?_)
  obtain ⟨r, hr, rfl⟩ := List.mem_map.1 href
  exact hs.item_kind (h.conflicts r (List.mem_filter.1 hr).1).item

/-- What taking in rows comes to: there is no conflict; or the answers break the contract, and the items
that were set aside are put back; or they keep it, and are carried out. -/
theorem reconcile_cases (s : Session) (kind : Kind) (rows : List Record)
    (answer : List Conflict → List Resolved) :
    ((s.absorb kind rows).conflicts = [] ∧ s.reconcile kind rows answer =
        (.ok (s.absorb kind rows).report, (s.absorb kind rows).session, [])) ∨
      ((s.absorb kind rows).conflicts ≠ [] ∧ ∃ fault,
        contractFault? (s.absorb kind rows).conflicts (answer (s.absorb kind rows).conflicts) =
          some fault ∧
        s.reconcile kind rows answer = (.error (.contractBroken fault),
          (s.absorb kind rows).session.putBack (s.absorb kind rows).conflicts,
          (s.absorb kind rows).conflicts)) ∨
      ((s.absorb kind rows).conflicts ≠ [] ∧
        contractFault? (s.absorb kind rows).conflicts (answer (s.absorb kind rows).conflicts) =
          none ∧ ∃ evicted, ((s.absorb kind rows).session.settle (s.absorb kind rows).conflicts
            (answer (s.absorb kind rows).conflicts)).1 = .ok evicted ∧
        s.reconcile kind rows answer = (.ok { (s.absorb kind rows).report with
            conflicts := (s.absorb kind rows).conflicts.length
            evicted := (s.absorb kind rows).report.evicted + evicted },
          ((s.absorb kind rows).session.settle (s.absorb kind rows).conflicts
            (answer (s.absorb kind rows).conflicts)).2, (s.absorb kind rows).conflicts)) := by
  unfold reconcile
  dsimp only
  generalize s.absorb kind rows = a
  by_cases hnil : a.conflicts = []
  · exact .inl ⟨hnil, if_pos hnil⟩
  refine .inr ?_
  rw [if_neg hnil]
  cases hfault : contractFault? a.conflicts (answer a.conflicts) with
  | some fault =>
    rw [settle_eq_error _ hfault]
    exact .inl ⟨hnil, fault, rfl, rfl⟩
  | none =>
    unfold settle
    rw [hfault]
    dsimp only
    generalize a.session.carryOut (settlements (answer a.conflicts)) = carried
    exact .inr ⟨hnil, rfl, carried.2, rfl, rfl⟩

/-- The session that taking in rows leads to. -/
theorem session_reconcile (s : Session) (kind : Kind) (rows : List Record)
    (answer : List Conflict → List Resolved) :
    (s.reconcile kind rows answer).2.1 = (s.absorb kind rows).session ∨
      (s.reconcile kind rows answer).2.1 = ((s.absorb kind rows).session.settle
        (s.absorb kind rows).conflicts (answer (s.absorb kind rows).conflicts)).2 := by
  rcases s.reconcile_cases kind rows answer with ⟨-, h⟩ | ⟨-, fault, hfault, h⟩ | ⟨-, -, _, -, h⟩
  · exact .inl (by rw [h])
  · exact .inr (by rw [h, settle_eq_error _ hfault])
  · exact .inr (by rw [h])

/-- The items of a pass after its answers were carried out. -/
theorem item?_foldl_answered {answers : List Resolved}
    (hnodup : (answers.map (·.item.ref)).Nodup) (s : Session)
    (habsent : ∀ r ∈ answers, r.outcome? = none → s.item? r.item.ref = none) :
    (∀ r ∈ answers, (answers.foldl answered s).item? r.item.ref = r.outcome?) ∧
      ∀ ref ∉ answers.map (·.item.ref), (answers.foldl answered s).item? ref = s.item? ref := by
  induction answers generalizing s with
  | nil => exact ⟨fun r hr => absurd hr List.not_mem_nil, fun _ _ => rfl⟩
  | cons r answers ih =>
    obtain ⟨hr, hnodup⟩ := List.nodup_cons.1 hnodup
    have hput : ∀ ref, (s.answered r).item? ref =
        if ref = r.item.ref then r.outcome? else s.item? ref := by
      intro ref
      rw [answered_eq]
      cases hb : r.outcome? with
      | none =>
        dsimp only
        split
        next heq => rw [heq]; exact habsent r (List.mem_cons_self ..) hb
        next => rfl
      | some b => rw [item?_put, Resolved.ref_outcome? hb]
    have hne : ∀ r' ∈ answers, r'.item.ref ≠ r.item.ref := fun r' hr' heq =>
      hr (List.mem_map.2 ⟨r', hr', heq⟩)
    obtain ⟨hin, hout⟩ := ih hnodup (s.answered r) fun r' hr' hnone => by
        rw [hput, if_neg (hne r' hr')]
        exact habsent r' (List.mem_cons_of_mem _ hr') hnone
    rw [List.foldl_cons]
    refine ⟨fun r' hr' => ?_, fun ref href => ?_⟩
    · rcases List.mem_cons.1 hr' with rfl | hr'
      · rw [hout _ hr, hput, if_pos rfl]
      · exact hin r' hr'
    · rw [List.map_cons, List.mem_cons, not_or] at href
      rw [hout ref href.2, hput, if_neg href.1]

/-! ### A whole fetch -/

theorem table_markFetched (s : Session) (kind k : Kind) :
    (s.markFetched kind).table k = s.table k := by
  have h : (s.markFetched kind).table k = (s.setTable kind (s.table kind)).table k := rfl
  rw [h, table_setTable]
  split
  next hk => rw [hk]
  next => rfl

theorem item?_markFetched (s : Session) (kind : Kind) (r : ItemRef) :
    (s.markFetched kind).item? r = s.item? r := by
  rw [item?_eq, table_markFetched, item?_eq]

theorem localRow?_markFetched (s : Session) (kind k : Kind) (row : Record) :
    (s.markFetched kind).localRow? k row = s.localRow? k row :=
  localRow?_congr (fun target _ d => by rw [itemOfRow?_eq, table_markFetched, itemOfRow?_eq]) row

/-- The findings of a fetch can be taken in. -/
theorem absorbing_start (hs : s.Coherent) (ht : (s.table kind).Exact)
    (hrows : (rows.filterMap Record.dbId?).Nodup) (report : FetchReport) :
    Absorbing (s.markFetched kind) kind rows ((s.table kind).findings rows)
      ⟨s.markFetched kind, report, []⟩ := by
  have hf : (s.table kind).Findings rows ((s.table kind).findings rows) :=
    Table.findings_spec ht
      (fun id item hi => hs.consistent (r := ⟨kind, id⟩) (by rw [item?_eq]; exact hi)) hrows
  have hget : ∀ {id item}, (s.markFetched kind).item? ⟨kind, id⟩ = some item →
      (s.table kind).get? id = some item := by
    intro id item hi
    rwa [item?_markFetched, item?_eq] at hi
  constructor
  case underway =>
    rw [List.filterMap_nil, List.append_nil]
    constructor
    case frame => exact .refl _
    case nextId_le => exact Nat.le_refl _
    case coherent => exact hs.congr (table_markFetched s kind) (Nat.le_refl _)
    case exact => exact fun _ _ h => h
    case table_eq => exact fun _ _ _ => rfl
    case item? => exact fun _ _ _ hi => hi
    case complete =>
      intro id item d hi hd hid
      refine ⟨?_, (hf.untouched (hget hi) hd hid).1⟩
      rw [itemOfRow?_eq, table_markFetched]
      exact ht.complete (hget hi) hd
    case origin =>
      intro id item hi hid
      obtain rfl := item_id hi
      exact .kept hi fun d hd => (hf.untouched (hget hi) hd hid).2
    case rows_nodup => exact (hf.rows_sublist.filterMap _).nodup hrows
    case covered =>
      intro row hrow
      refine (hf.covered row hrow).imp (fun hm => hm) ?_
      rintro ⟨id, item, hi, hrest⟩
      refine ⟨id, item, ?_, hrest⟩
      rw [item?_markFetched, item?_eq]
      exact hi
  case fits => rw [table_markFetched]; exact hf.fits
  case items_nodup => exact hf.items_nodup
  case rows_mem => exact fun row hrow => hf.rows_sublist.subset hrow
  case same => exact fun _ _ => rfl
  case conflicts => exact fun c hc => absurd hc List.not_mem_nil
  case conflicts_nodup => exact List.nodup_nil
  case absent => exact fun c hc => absurd hc List.not_mem_nil

/-- What holds when a fetch begins, and is kept whenever a finding is taken in, holds once all of them
are. -/
theorem absorb_induction (kind : Kind) (hs : s.Coherent) (ht : (s.table kind).Exact)
    (hrows : (rows.filterMap Record.dbId?).Nodup) {K : Absorption → Prop}
    (hstart : ∀ report, K ⟨s.markFetched kind, report, []⟩)
    (hstep : ∀ f todo a, f ∈ (s.table kind).findings (s.readable kind rows) →
      Absorbing (s.markFetched kind) kind (s.readable kind rows) (f :: todo) a → K a →
        K (a.step kind f)) :
    Absorbing (s.markFetched kind) kind (s.readable kind rows) [] (s.absorb kind rows) ∧
      K (s.absorb kind rows) := by
  have hmark := hs.congr (table_markFetched s kind) (Nat.le_refl _)
  have hfold : ∀ (todo : List Finding) (a : Absorption),
      (∀ f ∈ todo, f ∈ (s.table kind).findings (s.readable kind rows)) →
      Absorbing (s.markFetched kind) kind (s.readable kind rows) todo a → K a →
      Absorbing (s.markFetched kind) kind (s.readable kind rows) []
        (todo.foldl (Absorption.step kind) a) ∧ K (todo.foldl (Absorption.step kind) a) := by
    intro todo
    induction todo with
    | nil => exact fun a _ habs h => ⟨habs, h⟩
    | cons f todo ih =>
      intro a hmem habs h
      exact ih _ (fun f' hf' => hmem f' (List.mem_cons_of_mem _ hf')) (habs.step hmark)
        (hstep f todo a (hmem f (List.mem_cons_self ..)) habs h)
  exact hfold _ _ (fun f hf => hf) (absorbing_start hs ht (nodup_readable hrows) _) (hstart _)

/-- All findings of a fetch taken in. -/
theorem absorbing_absorb (kind : Kind) (hs : s.Coherent) (ht : (s.table kind).Exact)
    (hrows : (rows.filterMap Record.dbId?).Nodup) :
    Absorbing (s.markFetched kind) kind (s.readable kind rows) [] (s.absorb kind rows) :=
  (absorb_induction kind hs ht hrows (K := fun _ => True) (fun _ => trivial)
    fun _ _ _ _ _ _ => trivial).1

/-- What is missing once all findings of a fetch are taken in. -/
theorem accounts_absorb (kind : Kind) (hs : s.Coherent) (ht : (s.table kind).Exact)
    (hrows : (rows.filterMap Record.dbId?).Nodup) :
    Absorption.Accounts (s.markFetched kind) kind
      (((s.markFetched kind).table kind).findings (s.readable kind rows)) (s.absorb kind rows) := by
  have hmark := hs.congr (table_markFetched s kind) (Nat.le_refl _)
  rw [table_markFetched]
  refine (absorb_induction kind hs ht hrows ?_ fun f _ _ hf habs h => h.step hmark habs hf).2
  exact fun _ => {
    own := fun id x hx => .inl (.inl ⟨x, hx⟩)
    other := fun r x _ hx => .inl hx
    targets := fun r x _ _ target _ hy => .inl hy
    conflicts := fun c hc => absurd hc List.not_mem_nil }

/-- With nothing left to come but rows, every item of the table is bound to its row. -/
theorem Underway.exact_kind {pending : List Record} (h : Underway s₀ kind rows [] pending s) :
    (s.table kind).Exact := by
  refine ⟨h.coherent.sound kind, fun id item d hi hd => ?_⟩
  rw [← itemOfRow?_eq]
  exact (h.complete ((item?_eq ..).trans hi) hd List.not_mem_nil).1

/-- Honest answers can be carried out. -/
theorem Absorbing.settling {a : Absorption} (h : Absorbing s₀ kind rows [] a)
    {answers : List Resolved} (ha : Answers a.conflicts answers) :
    Settling s₀ kind rows answers a.session := by
  have hunder := h.underway
  rw [List.filterMap_nil, List.filterMap_nil, List.nil_append] at hunder
  have hmem : ∀ r ∈ answers, r.toConflict ∈ a.conflicts := fun r hr =>
    ha.mem_iff.1 (List.mem_map.2 ⟨r, hr, rfl⟩)
  refine ⟨hunder.perm ?_, fun r hr => h.conflicts _ (hmem r hr), ?_,
    fun r hr => h.absent _ (hmem r hr)⟩
  · have hp := ha.symm.filterMap fun c => c.row
    rwa [List.filterMap_map] at hp
  · have hp := ha.map fun c => c.item.id
    rw [List.map_map] at hp
    exact hp.nodup_iff.2 h.conflicts_nodup

/-- Carrying honest answers out brings back what was set aside, but for the items conceded. -/
theorem Settling.settles (hs : s₀.Coherent) {a : Absorption} {answers : List Resolved}
    (h : Settling s₀ kind rows answers a.session) (ha : Answers a.conflicts answers) :
    a.Settles (conceded answers) (answers.foldl answered a.session) := by
  have href : ∀ r ∈ answers, r.item.ref = ⟨kind, r.item.id⟩ := fun r hr =>
    hs.item_ref (h.conflicts r hr).item
  have hmem : ∀ {c}, c ∈ a.conflicts ↔ ∃ r ∈ answers, r.toConflict = c := fun {c} =>
    ha.mem_iff.symm.trans List.mem_map
  have hnodup : (answers.map (·.item.ref)).Nodup := by
    refine List.Nodup.of_map ItemRef.id ?_
    rw [List.map_map]
    exact h.ids_nodup
  obtain ⟨hin, hout⟩ := item?_foldl_answered hnodup a.session fun r hr _ => by
    rw [href r hr]
    exact h.absent r hr
  constructor
  case same =>
    intro q hq
    refine hout q fun hmap => ?_
    obtain ⟨r, hr, rfl⟩ := List.mem_map.1 hmap
    exact hq r.toConflict (hmem.2 ⟨r, hr, rfl⟩) rfl
  case back =>
    intro c hc
    obtain ⟨r, hr, rfl⟩ := hmem.1 hc
    exact back_or_conceded hr (hin r hr)
  case gone =>
    intro q hq
    obtain ⟨r, hr, hnone, rfl⟩ := mem_conceded_iff.1 hq
    exact ⟨(hin r hr).trans hnone, r.toConflict, hmem.2 ⟨r, hr, rfl⟩, rfl,
      Resolved.row_eq_none_of_outcome? hnone⟩

/-- A conflict that a fetch of the given rows comes upon: if it has no row, the item has one that was
not fetched. -/
structure Meets (s : Session) (kind : Kind) (rows : List Record) (c : Conflict) : Prop
    extends Conflicts s kind rows c where
  row_none : c.row = none → ∃ d, c.item.dbId = some d ∧ d ∉ rows.filterMap Record.dbId?

/-- With honest answers everything that a fetch finds is taken in. -/
theorem reconcile_spec (kind : Kind) (hs : s.Coherent) (ht : (s.table kind).Exact)
    (hrows : (rows.filterMap Record.dbId?).Nodup)
    {answer : List Conflict → List Resolved} (ha : ∀ cs, Answers cs (answer cs)) :
    ∃ report s' cs, s.reconcile kind rows answer = (.ok report, s', cs) ∧
      Underway (s.markFetched kind) kind (s.readable kind rows) [] [] s' ∧
      (s.markFetched kind).Loses kind (s.readable kind rows) s' ∧
      ∀ c ∈ cs, (s.markFetched kind).Meets kind (s.readable kind rows) c := by
  have hmark := hs.congr (table_markFetched s kind) (Nat.le_refl _)
  have hexact : ((s.markFetched kind).table kind).Exact := table_markFetched s kind kind ▸ ht
  have hread : ((s.readable kind rows).filterMap Record.dbId?).Nodup := nodup_readable hrows
  have h := absorbing_absorb kind hs ht hrows
  have haccounts := accounts_absorb kind hs ht hrows
  have hmeets : ∀ c ∈ (s.absorb kind rows).conflicts,
      (s.markFetched kind).Meets kind (s.readable kind rows) c := fun c hc =>
    ⟨h.conflicts c hc, haccounts.dbId_of_conflict hexact hread hc (h.conflicts c hc).item⟩
  have hsettling := h.settling (ha _)
  have hnone := contractFault?_eq_none (ha _) h.conflicts_nodup
  rcases s.reconcile_cases kind rows answer with
    ⟨hnil, hrec⟩ | ⟨-, fault, hfault, -⟩ | ⟨-, -, _, -, hrec⟩
  · have hans : Answers (s.absorb kind rows).conflicts [] := hnil ▸ List.Perm.nil
    have hunder := (h.settling hans).underway
    have hsame : (([].foldl answered (s.absorb kind rows).session).evictReferrers
        (conceded [])).session = (s.absorb kind rows).session := evictReferrers_nil _
    have hloses := haccounts.loses hmark h ((h.settling hans).settles hmark hans) hexact hread
      hunder.coherent.named (by rw [hsame]; exact hunder)
    rw [hsame] at hloses
    exact ⟨_, _, _, hrec, hunder, hloses, fun _ hc => absurd hc List.not_mem_nil⟩
  · rw [hnone] at hfault
    cases hfault
  · obtain ⟨ordered, hperm, heq⟩ := exists_settle_eq (s.absorb kind rows).session hnone
    have hordered := hsettling.perm hperm
    have hunder := hordered.evictReferrers hmark
    have hloses := haccounts.loses hmark h
      (hordered.settles hmark ((hperm.map _).trans (ha _))) hexact hread
      (hordered.foldl hmark).coherent.named hunder
    exact ⟨_, _, _, hrec, heq ▸ hunder, heq ▸ hloses, hmeets⟩

/-- Session `s'` is `s` after the given rows of a table were fetched. -/
structure Fetches (s : Session) (kind : Kind) (rows : List Record) (s' : Session) : Prop where
  wellFormed : s'.WellFormed
  config : s'.config = s.config
  fetched : s'.fetched = s.fetched.insert kind
  knownCommits : s'.knownCommits = s.knownCommits
  nextId_le : s.nextId.val ≤ s'.nextId.val
  /-- Tables that do not depend on the one that was fetched are as before. -/
  table_eq : ∀ ⦃k⦄, k ≠ kind → kind ∉ k.dependencies → s'.table k = s.table k
  /-- Of the other tables, items were taken out at most. -/
  item? : ∀ ⦃r item⦄, r.kind ≠ kind → s'.item? r = some item → s.item? r = some item
  origin : ∀ ⦃id item⦄, s'.item? ⟨kind, id⟩ = some item →
    Origin s kind (s.readable kind rows) item
  covered : ∀ row ∈ s.readable kind rows, ∃ id item, s'.item? ⟨kind, id⟩ = some item ∧
    item.synced = some row
  loses : s.Loses kind (s.readable kind rows) s'

theorem loses_markFetched {s' : Session}
    (h : (s.markFetched kind).Loses kind rows s') : s.Loses kind rows s' := by
  have hitem := item?_markFetched s kind
  refine ⟨fun id x hx => h.own ((hitem _).trans hx), fun r x hk hx => ?_, fun r x hx target ht hy => ?_⟩
  · refine (h.other hk ((hitem r).trans hx)).imp_right ?_
    rintro ⟨hr, target, htarget, ⟨y, hy⟩, hnone⟩
    exact ⟨hr, target, htarget, ⟨y, (hitem target).symm.trans hy⟩, hnone⟩
  · exact h.targets hx target ht (by rw [hitem]; exact hy)

theorem Underway.fetches {s s' : Session} (hs : s.WellFormed)
    (h : Underway (s.markFetched kind) kind (s.readable kind rows) [] [] s')
    (hloses : (s.markFetched kind).Loses kind (s.readable kind rows) s') :
    s.Fetches kind rows s' := by
  have hitem := item?_markFetched s kind
  constructor
  case wellFormed =>
    refine wellFormed_of_exact h.coherent fun k => ?_
    by_cases hk : k = kind
    · exact hk ▸ h.exact_kind
    · exact h.exact hk (table_markFetched s kind k ▸ hs.exact k)
  case config => exact h.frame.config
  case fetched => exact h.frame.fetched
  case knownCommits => exact h.frame.knownCommits
  case nextId_le => exact h.nextId_le
  case table_eq => exact fun k hk hdep => (h.table_eq hk hdep).trans (table_markFetched s kind k)
  case item? => exact fun r item hk hi => (hitem r).symm.trans (h.item? hk hi)
  case origin =>
    intro id item hi
    cases h.origin hi List.not_mem_nil with
    | kept hx hrow => exact .kept ((hitem _).symm.trans hx) hrow
    | loaded hid hrow => exact .loaded hid hrow
    | changed hx hst hrow => exact .changed ((hitem _).symm.trans hx) hst hrow
    | twin hx hst hrow => exact .twin ((hitem _).symm.trans hx) hst hrow
    | settled hx hd hrow hb => exact .settled ((hitem _).symm.trans hx) hd hrow hb
  case covered =>
    intro row hrow
    rcases h.covered row hrow with hmem | ⟨id, item, hi, hsync, -⟩
    · exact absurd hmem List.not_mem_nil
    · exact ⟨id, item, hi, hsync⟩
  case loses => exact loses_markFetched hloses

/-- With honest answers a fetch succeeds. -/
theorem fetches_reconcile (kind : Kind) (hs : s.WellFormed)
    (hrows : (rows.filterMap Record.dbId?).Nodup)
    {answer : List Conflict → List Resolved} (ha : ∀ cs, Answers cs (answer cs)) :
    ∃ report s' cs, s.reconcile kind rows answer = (.ok report, s', cs) ∧
      s.Fetches kind rows s' ∧ ∀ c ∈ cs, s.Meets kind (s.readable kind rows) c := by
  obtain ⟨report, s', cs, hrec, hunder, hloses, hmeets⟩ :=
    reconcile_spec kind hs.toCoherent (hs.exact kind) hrows ha
  refine ⟨report, s', cs, hrec, hunder.fetches hs hloses, fun c hc => ?_⟩
  have hmeet := hmeets c hc
  exact ⟨⟨(item?_markFetched ..).symm.trans hmeet.item, hmeet.divergence, hmeet.row_mem⟩,
    hmeet.row_none⟩

end Session

end StagedEdits
