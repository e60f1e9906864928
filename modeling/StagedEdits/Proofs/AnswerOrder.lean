import StagedEdits.Proofs.KeptApart
import StagedEdits.Proofs.Rejection

/-!
# The order of the answers

A resolver may answer the conflicts of a pass in any order.  The order decides in which order items are
put back, and so which of two live items with the same key holds it, and nothing else: the sessions that
two orders lead to have the same items under the same rows (`Session.AlikeFrom`).  A fetch reads the index
of the keys of a table only when it is the turn of that table, before any conflicts about it are settled.

* `Session.AlikeFrom.absorb`, `Session.AlikeFrom.settle`: the two parts of a pass.
* `Workspace.fetch_reordered`: resolvers that choose alike and answer in different orders.
-/

namespace StagedEdits

namespace Table

variable {t u : Table}

/-- Tables with the same items under the same rows.  The indices of their keys may differ. -/
structure Alike (t u : Table) : Prop where
  kind : u.kind = t.kind
  items : u.items = t.items
  bindings : u.bindings = t.bindings

theorem Alike.refl (t : Table) : t.Alike t := ⟨rfl, rfl, rfl⟩

theorem Alike.trans {v : Table} (h : t.Alike u) (h' : u.Alike v) : t.Alike v :=
  ⟨h'.kind.trans h.kind, h'.items.trans h.items, h'.bindings.trans h.bindings⟩

theorem Alike.get? (h : t.Alike u) (id : ItemId) : u.get? id = t.get? id :=
  congrArg (·.get? id) h.items

theorem Alike.erase (h : t.Alike u) (id : ItemId) : (t.erase id).Alike (u.erase id) := by
  unfold Table.erase
  rw [h.get?]
  cases t.get? id with
  | none => exact h
  | some item => exact ⟨h.kind, congrArg (·.erase id) h.items, congrArg (·.release id) h.bindings⟩

theorem Alike.insert (h : t.Alike u) (item : Item) : (t.insert item).Alike (u.insert item) := by
  have hrest := h.erase item.id
  exact ⟨hrest.kind, congrArg (·.insert item.id item) hrest.items,
    congrArg (fun b => item.dbId.elim b (Bindings.bind b item.id)) hrest.bindings⟩

/-- Items with different identities and different rows can be put in in any order. -/
theorem alike_insert_insert (h : t.Sound) {a b : Item} (hid : a.id ≠ b.id)
    (hrow : ∀ d, a.dbId = some d → b.dbId ≠ some d) :
    ((t.insert a).insert b).Alike ((t.insert b).insert a) := by
  refine ⟨?_, SortedMap.ext_get? fun id => ?_, Bindings.ext_item? fun d => ?_⟩
  · simp only [kind_insert]
  · have hget : ((t.insert b).insert a).get? id = ((t.insert a).insert b).get? id := by
      simp only [get?_insert]
      by_cases ha : id = a.id
      · rw [if_pos ha, if_neg fun hb => hid (ha.symm.trans hb), if_pos ha]
      · rw [if_neg ha, if_neg ha]
    exact hget
  · have hitem : ((t.insert b).insert a).itemOfRow? d = ((t.insert a).insert b).itemOfRow? d := by
      rw [itemOfRow?_insert (h.insert b), itemOfRow?_insert h, itemOfRow?_insert (h.insert a),
        itemOfRow?_insert h]
      by_cases ha : a.dbId = some d
      · have hother : (some a.id).filter (fun id => decide (id ≠ b.id)) = some a.id := by
          simp [hid]
        rw [if_pos ha, if_neg (hrow d ha), if_pos ha, hother]
      · rw [if_neg ha, if_neg ha]
        by_cases hb : b.dbId = some d
        · have hother : (some b.id).filter (fun id => decide (id ≠ a.id)) = some b.id := by
            simp [Ne.symm hid]
          rw [if_pos hb, if_pos hb, hother]
        · rw [if_neg hb, if_neg hb, Option.filter_filter, Option.filter_filter]
          simp only [Bool.and_comm]
    exact hitem

end Table

namespace Session

/-- Sessions with the same items under the same rows.  The tables of the kinds from rank `n` on are the same
altogether, with the indices of their keys. -/
structure AlikeFrom (n : Nat) (s t : Session) : Prop where
  frame : SameFrame s t
  nextId : t.nextId = s.nextId
  tables : ∀ k, (s.table k).Alike (t.table k)
  table_eq : ∀ ⦃k⦄, n ≤ k.rank → t.table k = s.table k

end Session

/-- Sweeps over such sessions that have found the same items. -/
structure Sweep.AlikeFrom (n : Nat) (v w : Sweep) : Prop where
  session : v.session.AlikeFrom n w.session
  gone : ∀ r, r ∈ w.gone ↔ r ∈ v.gone
  evicted : w.evicted = v.evicted

/-- Passes over such sessions that have found the same. -/
structure Absorption.AlikeFrom (n : Nat) (a b : Absorption) : Prop where
  session : a.session.AlikeFrom n b.session
  report : b.report = a.report
  conflicts : b.conflicts = a.conflicts

namespace Session

variable {s t : Session} {n : Nat} {kind : Kind} {rows : List Record}

namespace AlikeFrom

theorem refl (n : Nat) (s : Session) : AlikeFrom n s s :=
  ⟨.refl s, rfl, fun _ => .refl _, fun _ _ => rfl⟩

theorem mono {m : Nat} (h : AlikeFrom n s t) (hm : n ≤ m) : AlikeFrom m s t :=
  ⟨h.frame, h.nextId, h.tables, fun _ hk => h.table_eq (Nat.le_trans hm hk)⟩

/-! ### What is read off a session -/

theorem item? (h : AlikeFrom n s t) (r : ItemRef) : t.item? r = s.item? r := by
  rw [item?_eq, (h.tables r.kind).get?, item?_eq]

theorem all (h : AlikeFrom n s t) (k : Kind) : t.all k = s.all k := by
  rw [all_eq, all_eq]
  exact congrArg SortedMap.values (h.tables k).items

theorem readable (h : AlikeFrom n s t) (kind : Kind) (rows : List Record) :
    t.readable kind rows = s.readable kind rows := by
  unfold Session.readable
  refine List.filterMap_congr fun row _ => localRow?_congr (fun target _ d => ?_) row
  rw [itemOfRow?_eq, itemOfRow?_eq]
  exact congrArg (·.item? d) (h.tables target).bindings

/-! ### The same change in both -/

/-- The same change of the tables of both sessions, if it does not look at the indices. -/
theorem change {s' t' : Session} (h : AlikeFrom n s t) {f : Kind → Table → Table}
    (hf : ∀ k {a b : Table}, a.Alike b → (f k a).Alike (f k b)) (hframe : SameFrame s' t')
    (hnext : t'.nextId = s'.nextId) (hs : ∀ k, s'.table k = f k (s.table k))
    (ht : ∀ k, t'.table k = f k (t.table k)) : AlikeFrom n s' t' := by
  refine ⟨hframe, hnext, fun k => ?_, fun k hk => ?_⟩
  · rw [hs, ht]
    exact hf k (h.tables k)
  · rw [hs, ht, h.table_eq hk]

theorem put (h : AlikeFrom n s t) (item : Item) : AlikeFrom n (s.put item) (t.put item) := by
  refine h.change (f := fun k a => if k = item.kind then a.insert item else a) (fun k a b hab => ?_)
    ⟨h.frame.config, h.frame.fetched, h.frame.knownCommits⟩ h.nextId (table_put s item) (table_put t item)
  split
  · exact hab.insert item
  · exact hab

theorem drop (h : AlikeFrom n s t) (r : ItemRef) : AlikeFrom n (s.drop r) (t.drop r) := by
  have hs := sameFrame_drop s r
  have ht := sameFrame_drop t r
  refine h.change (f := fun k a => if k = r.kind then a.erase r.id else a) (fun k a b hab => ?_)
    ⟨?_, ?_, ?_⟩ ?_ (table_drop s r) (table_drop t r)
  · split
    · exact hab.erase r.id
    · exact hab
  · rw [ht.config, h.frame.config, hs.config]
  · rw [ht.fetched, h.frame.fetched, hs.fetched]
  · rw [ht.knownCommits, h.frame.knownCommits, hs.knownCommits]
  · rw [nextId_drop, nextId_drop, h.nextId]

theorem markFetched (h : AlikeFrom n s t) (kind : Kind) :
    AlikeFrom n (s.markFetched kind) (t.markFetched kind) :=
  h.change (f := fun _ a => a) (fun _ _ _ hab => hab)
    ⟨h.frame.config, congrArg (·.insert kind) h.frame.fetched, h.frame.knownCommits⟩ h.nextId
    (table_markFetched s kind) (table_markFetched t kind)

theorem advance (h : AlikeFrom n s t) :
    AlikeFrom n { s with nextId := s.nextId.next } { t with nextId := t.nextId.next } :=
  ⟨⟨h.frame.config, h.frame.fetched, h.frame.knownCommits⟩, congrArg ItemId.next h.nextId, h.tables,
    h.table_eq⟩

end AlikeFrom

end Session

/-! ### Evictions -/

theorem Sweep.AlikeFrom.step {n : Nat} {v w : Sweep} (h : v.AlikeFrom n w) (kind : Kind) :
    (v.step kind).AlikeFrom n (w.step kind) := by
  have horphans : w.orphans kind = v.orphans kind := by
    unfold Sweep.orphans
    rw [h.session.all]
    refine List.filter_congr fun item _ => ?_
    simp only [h.gone]
  unfold Sweep.step
  dsimp only
  rw [horphans, h.evicted]
  refine ⟨List.foldl_rel h.session fun item _ _ _ hs => hs.drop item.ref, fun r => ?_, rfl⟩
  rw [List.mem_append, List.mem_append, h.gone]

namespace Session.AlikeFrom

variable {s t : Session} {n : Nat} {kind : Kind} {rows : List Record}

/-- Which items are evicted does not depend on the order in which the missing ones are given. -/
theorem evictReferrers (h : AlikeFrom n s t) {gone gone' : List ItemRef}
    (hgone : ∀ r, r ∈ gone' ↔ r ∈ gone) :
    (s.evictReferrers gone).AlikeFrom n (t.evictReferrers gone') :=
  List.foldl_rel (r := Sweep.AlikeFrom n) ⟨h, hgone, rfl⟩ fun kind _ _ _ hsweep => hsweep.step kind

theorem evict (h : AlikeFrom n s t) (r : ItemRef) :
    AlikeFrom n (s.evict r).1 (t.evict r).1 ∧ (t.evict r).2 = (s.evict r).2 := by
  unfold Session.evict
  rw [h.item?]
  cases s.item? r with
  | none => exact ⟨h, rfl⟩
  | some item =>
    have hsweep : ((s.drop r).evictReferrers [r]).AlikeFrom n ((t.drop r).evictReferrers [r]) :=
      (h.drop r).evictReferrers fun _ => .rfl
    dsimp only
    rw [hsweep.evicted]
    exact ⟨hsweep.session, rfl⟩

end Session.AlikeFrom

/-! ### A pass -/

theorem Absorption.AlikeFrom.step {n : Nat} {a b : Absorption} (h : a.AlikeFrom n b) (kind : Kind)
    (f : Finding) : (a.step kind f).AlikeFrom n (b.step kind f) := by
  have hitem : ∀ id, b.session.item? ⟨kind, id⟩ = a.session.item? ⟨kind, id⟩ := fun id => h.session.item? _
  cases f with
  | unknown row =>
    have hput := h.session.advance.put (.loaded a.session.nextId kind row)
    refine ⟨?_, congrArg (fun r : FetchReport => { r with added := r.added + 1 }) h.report, h.conflicts⟩
    unfold Absorption.step
    dsimp only
    rwa [h.session.nextId] at hput ⊢
  | changed id row =>
    unfold Absorption.step
    dsimp only
    rw [hitem]
    cases a.session.item? ⟨kind, id⟩ with
    | none => exact h
    | some item =>
      exact ⟨h.session.put _, congrArg (fun r : FetchReport => { r with refreshed := r.refreshed + 1 })
        h.report, h.conflicts⟩
  | same id => exact h
  | twin id row =>
    unfold Absorption.step
    dsimp only
    rw [hitem]
    cases a.session.item? ⟨kind, id⟩ with
    | none => exact h
    | some item =>
      exact ⟨h.session.put _, congrArg (fun r : FetchReport => { r with adopted := r.adopted + 1 })
        h.report, h.conflicts⟩
  | conflict id row d =>
    unfold Absorption.step
    dsimp only
    rw [hitem]
    cases a.session.item? ⟨kind, id⟩ with
    | none => exact h
    | some item => exact ⟨h.session.drop _, h.report, congrArg (· ++ [⟨item, row⟩]) h.conflicts⟩
  | gone id =>
    obtain ⟨hsession, hevicted⟩ := h.session.evict ⟨kind, id⟩
    refine ⟨hsession, ?_, h.conflicts⟩
    unfold Absorption.step
    dsimp only
    rw [hevicted, h.report]

namespace Session.AlikeFrom

variable {s t : Session} {n : Nat} {kind : Kind} {rows : List Record}

/-- A fetch finds the same in both sessions, if it is the turn of a table that is the same in both. -/
theorem absorb (h : AlikeFrom n s t) (hn : n ≤ kind.rank) (rows : List Record) :
    (s.absorb kind rows).AlikeFrom n (t.absorb kind rows) := by
  unfold Session.absorb
  dsimp only
  rw [h.readable, h.table_eq hn]
  exact List.foldl_rel (r := Absorption.AlikeFrom n) ⟨h.markFetched kind, rfl, rfl⟩
    fun f _ _ _ hstep => hstep.step kind f

end Session.AlikeFrom

/-! ### Answers -/

/-- The resolvers choose the same side for each conflict. -/
def Resolver.ChoosesLike (first second : Resolver) : Prop :=
  ∀ passes conflicts, ∀ r ∈ first passes conflicts, ∀ r' ∈ second passes conflicts,
    r.toConflict = r'.toConflict → r.choice = r'.choice

/-- Answers to the same conflicts that choose alike are the same, in another order. -/
theorem Answers.perm {conflicts : List Conflict} {first second : List Resolved}
    (hfirst : Answers conflicts first) (hsecond : Answers conflicts second) (hn : conflicts.Nodup)
    (h : ∀ r ∈ first, ∀ r' ∈ second, r.toConflict = r'.toConflict → r.choice = r'.choice) :
    first.Perm second := by
  have hnodup : ∀ {answers}, Answers conflicts answers → answers.Nodup := fun ha =>
    .of_map Resolved.toConflict (ha.nodup_iff.2 hn)
  have hsub : ∀ {a b : List Resolved}, Answers conflicts a → Answers conflicts b →
      (∀ r ∈ a, ∀ r' ∈ b, r.toConflict = r'.toConflict → r.choice = r'.choice) → ∀ r ∈ a, r ∈ b := by
    intro a b ha hb hab r hr
    obtain ⟨r', hr', heq⟩ := List.mem_map.1 (hb.mem_iff.2 (ha.mem_iff.1 (List.mem_map.2 ⟨r, hr, rfl⟩)))
    have hchoice := hab r hr r' hr' heq.symm
    obtain ⟨c, choice⟩ := r
    obtain ⟨c', choice'⟩ := r'
    cases heq
    cases hchoice
    exact hr'
  have hback : ∀ r ∈ second, ∀ r' ∈ first, r.toConflict = r'.toConflict → r.choice = r'.choice :=
    fun r hr r' hr' heq => (h r' hr' r hr heq.symm).symm
  exact (List.perm_ext_iff_of_nodup (hnodup hfirst) (hnodup hsecond)).2 fun r =>
    ⟨hsub hfirst hsecond h r, hsub hsecond hfirst hback r⟩

/-- Answers that come to items with different identities and different rows. -/
def Resolved.Apart (r r' : Resolved) : Prop :=
  ∀ b b', r.outcome? = some b → r'.outcome? = some b' →
    b.id ≠ b'.id ∧ ∀ d, b.dbId = some d → b'.dbId ≠ some d

theorem Resolved.Apart.symm {r r' : Resolved} (h : r.Apart r') : r'.Apart r := by
  intro b b' hb hb'
  obtain ⟨hid, hrow⟩ := h b' b hb' hb
  exact ⟨hid.symm, fun d hd hd' => hrow d hd' hd⟩

/-- Answers about different items and different rows. -/
theorem Resolved.pairwise_apart {answers : List Resolved} (hcons : ∀ r ∈ answers, r.item.Consistent)
    (hids : (answers.map (·.item.id)).Nodup)
    (hrows : ((answers.filterMap (·.row)).filterMap Record.dbId?).Nodup) :
    answers.Pairwise Resolved.Apart := by
  rw [List.filterMap_filterMap] at hrows
  have hid := List.pairwise_map.1 hids
  have hrow := List.pairwise_filterMap.1 hrows
  refine (hid.and hrow).imp_of_mem fun hr hr' h b b' hb hb' => ?_
  have htakes := takes_outcome? (hcons _ hr) hb
  have htakes' := takes_outcome? (hcons _ hr') hb'
  rw [htakes.id_eq, htakes'.id_eq, htakes.dbId_eq, htakes'.dbId_eq]
  exact ⟨h.1, fun d hd hd' => h.2 d hd d hd' rfl⟩

namespace Session

variable {s t : Session} {n : Nat} {kind : Kind} {rows : List Record}

theorem sound_answered (h : ∀ k, (s.table k).Sound) (r : Resolved) (k : Kind) :
    ((s.answered r).table k).Sound := by
  rw [answered_eq]
  split
  next b _ =>
    rw [table_put]
    split
    · exact (h k).insert b
    · exact h k
  next => exact h k

theorem AlikeFrom.answered (h : AlikeFrom n s t) (r : Resolved) :
    AlikeFrom n (s.answered r) (t.answered r) := by
  rw [answered_eq, answered_eq]
  cases r.outcome? with
  | none => exact h
  | some b => exact h.put b

theorem AlikeFrom.trans {u : Session} (h : AlikeFrom n s t) (h' : AlikeFrom n t u) : AlikeFrom n s u :=
  ⟨h.frame.trans h'.frame, h'.nextId.trans h.nextId, fun k => (h.tables k).trans (h'.tables k),
    fun _ hk => (h'.table_eq hk).trans (h.table_eq hk)⟩

/-- Two answers about items of one kind can be carried out in any order.  Only the index of their table
can come to be another one. -/
theorem alikeFrom_answered_answered (hs : ∀ k, (s.table k).Sound) {r r' : Resolved}
    (hr : r.item.kind = kind) (hr' : r'.item.kind = kind) (hapart : r.Apart r') (hn : kind.rank < n) :
    AlikeFrom n ((s.answered r).answered r') ((s.answered r').answered r) := by
  simp only [answered_eq]
  cases hb : r.outcome? with
  | none => exact .refl n _
  | some b =>
    cases hb' : r'.outcome? with
    | none => exact .refl n _
    | some b' =>
      obtain ⟨hid, hrow⟩ := hapart b b' hb hb'
      have hkind : b.kind = kind := (congrArg ItemRef.kind (Resolved.ref_outcome? hb)).trans hr
      have hkind' : b'.kind = kind := (congrArg ItemRef.kind (Resolved.ref_outcome? hb')).trans hr'
      refine ⟨⟨rfl, rfl, rfl⟩, rfl, fun k => ?_, fun k hk => ?_⟩
      · simp only [table_put, hkind, hkind']
        split
        · exact Table.alike_insert_insert (hs k) hid hrow
        · exact .refl _
      · have hne : k ≠ kind := fun he => Nat.not_lt_of_le hk (he ▸ hn)
        simp only [table_put, hkind, hkind', if_neg hne]

/-- Carrying out answers about items of one kind, in two orders. -/
theorem AlikeFrom.foldl_answered {first second : List Resolved} (hperm : first.Perm second)
    (hkind : ∀ r ∈ first, r.item.kind = kind) (hapart : first.Pairwise Resolved.Apart) (hn : kind.rank < n)
    (ht : ∀ k, (t.table k).Sound) (h : AlikeFrom n s t) :
    AlikeFrom n (first.foldl Session.answered s) (second.foldl Session.answered t) := by
  induction hperm generalizing s t with
  | nil => exact h
  | cons r _ ih =>
    exact ih (fun r' hr' => hkind r' (List.mem_cons_of_mem _ hr')) (List.pairwise_cons.1 hapart).2
      (sound_answered ht r) (h.answered r)
  | swap r r' answers =>
    have hswap := alikeFrom_answered_answered ht (hkind r' (List.mem_cons_self ..))
      (hkind r (List.mem_cons_of_mem _ (List.mem_cons_self ..)))
      ((List.pairwise_cons.1 hapart).1 r (List.mem_cons_self ..)) hn
    exact List.foldl_rel (((h.answered r').answered r).trans hswap) fun r'' _ _ _ hs => hs.answered r''
  | trans hfirst _ ih ih' =>
    refine (ih hkind hapart ht h).trans (ih' (fun r hr => hkind r (hfirst.mem_iff.2 hr)) ?_ ht (.refl n t))
    exact (hfirst.pairwise_iff fun h => h.symm).1 hapart

/-- Settling the conflicts of a pass with the same answers in two orders. -/
theorem AlikeFrom.settle (h : AlikeFrom n s t) (hn : kind.rank < n) (ht : ∀ k, (t.table k).Sound)
    {conflicts : List Conflict} (hitem : ∀ c ∈ conflicts, c.item.kind = kind ∧ c.item.Consistent)
    (hids : (conflicts.map (·.item.id)).Nodup)
    (hrows : ((conflicts.filterMap (·.row)).filterMap Record.dbId?).Nodup) {first second : List Resolved}
    (hfirst : Answers conflicts first) (hperm : first.Perm second) :
    ∃ evicted s' t', s.settle conflicts first = (.ok evicted, s') ∧
      t.settle conflicts second = (.ok evicted, t') ∧ s'.AlikeFrom n t' := by
  have hsecond : Answers conflicts second := (hperm.symm.map _).trans hfirst
  obtain ⟨ordered, hordered, hsettle⟩ := s.exists_settle_eq_ok (contractFault?_eq_none hfirst hids)
  obtain ⟨ordered', hordered', hsettle'⟩ := t.exists_settle_eq_ok (contractFault?_eq_none hsecond hids)
  have hboth : ordered.Perm ordered' := (hordered.trans hperm).trans hordered'.symm
  have hconceded : (conceded ordered).Perm (conceded ordered') := (hboth.filter _).map _
  have hmem : ∀ r ∈ ordered, r.item.kind = kind ∧ r.item.Consistent := fun r hr =>
    hitem r.toConflict (hfirst.mem_iff.1 (List.mem_map.2 ⟨r, hordered.mem_iff.1 hr, rfl⟩))
  have hapart : ordered.Pairwise Resolved.Apart := by
    have hto : (ordered.map Resolved.toConflict).Perm conflicts := (hordered.map _).trans hfirst
    refine Resolved.pairwise_apart (fun r hr => (hmem r hr).2) ?_ ?_
    · have hmap := (hto.map fun c => c.item.id).nodup_iff.2 hids
      rwa [List.map_map] at hmap
    · have hmap := ((hto.filterMap fun c => c.row).filterMap Record.dbId?).nodup_iff.2 hrows
      rwa [List.filterMap_map] at hmap
  have hanswered := h.foldl_answered hboth (fun r hr => (hmem r hr).1) hapart hn ht
  have hsweep := hanswered.evictReferrers fun r => (hconceded.mem_iff (a := r)).symm
  rw [hsweep.evicted, ← hconceded.length_eq] at hsettle'
  exact ⟨_, _, _, hsettle, hsettle', hsweep.session⟩

/-- Taking the same rows into both sessions, with the same answers in two orders. -/
theorem AlikeFrom.reconcile (h : AlikeFrom n s t) (hn : n ≤ kind.rank) (hs : s.Lawful Item.Tidy)
    (ht : t.Lawful Item.Tidy) (hrows : (rows.filterMap Record.dbId?).Nodup)
    {first second : List Conflict → List Resolved} (hfirst : ∀ cs, Answers cs (first cs))
    (hperm : ∀ cs, cs.Nodup → (first cs).Perm (second cs)) :
    ∃ report s' t' conflicts, s.reconcile kind rows first = (.ok report, s', conflicts) ∧
      t.reconcile kind rows second = (.ok report, t', conflicts) ∧ AlikeFrom (kind.rank + 1) s' t' := by
  have habsorb := h.absorb hn rows
  have hsession := habsorb.session.mono (Nat.le_succ_of_le hn)
  have hlawful := hs.absorb Item.law_tidy kind rows
  have hlawful' := ht.absorb Item.law_tidy kind rows
  obtain ⟨hids, hrow⟩ : ((s.absorb kind rows).conflicts.map (·.item.id)).Nodup ∧ _ :=
    nodup_conflicts_absorb (hs.coherent fun h => h.consistent) hrows
  obtain ⟨evicted, s', t', hsettle, hsettle', halike⟩ := hsession.settle (Nat.lt_succ_self _)
    (fun k => (hlawful'.session.table k).sound)
    (fun c hc => ⟨(hlawful.aside c hc).1, (hlawful.aside c hc).2.1.consistent⟩) hids hrow
    (hfirst _) (hperm _ (hids.of_map _))
  unfold Session.reconcile
  dsimp only
  rw [habsorb.conflicts, hsettle, hsettle', habsorb.report]
  by_cases hnil : (s.absorb kind rows).conflicts = []
  · rw [if_pos hnil, if_pos hnil]
    exact ⟨_, _, _, _, rfl, rfl, hsession⟩
  · rw [if_neg hnil, if_neg hnil]
    exact ⟨_, _, _, _, rfl, rfl, halike⟩

end Session

/-! ### A fetch -/

namespace Connection

open ConnectionM

variable {σ : Type} [Store σ] {Good : σ → Prop} {c d : Connection σ} {first second : Resolver} {n : Nat}

/-- Connections to the same store, with such sessions, after the same conflicts. -/
structure AlikeFrom (n : Nat) (c d : Connection σ) : Prop where
  session : c.session.AlikeFrom n d.session
  store : d.store = c.store
  passes : d.passes = c.passes

/-- In some good state the store fails with this error to show a table. -/
def FetchFails (Good : σ → Prop) (e : Error) : Prop :=
  ∃ (kind : Kind) (a : σ), Good a ∧ ((Store.fetch kind : StoreM σ (List Record)) a).1 = .error e

/-- Steps that come to the same, and fail only as the store does. -/
structure SameOutcome {α : Type} (Good : σ → Prop) (n : Nat) (x y : Except Error α × Connection σ) :
    Prop where
  result : y.1 = x.1
  alike : x.2.AlikeFrom n y.2
  error : ∀ e, x.1 = .error e → FetchFails Good e

section

variable (hstore : Store.Keyed Good) (hfirst : first.Honest) (hsecond : second.Honest)
  (hlike : first.ChoosesLike second)

include hstore hfirst hsecond hlike

theorem AlikeFrom.fetchTable {kind : Kind} (h : c.AlikeFrom n d) (hn : n ≤ kind.rank) (hc : c.Fit Good)
    (hd : d.Fit Good) :
    SameOutcome Good (kind.rank + 1) (fetchTable first kind c) (fetchTable second kind d) := by
  obtain ⟨hsession, hsame, hpasses⟩ := h
  rcases hfetch : (Store.fetch kind : StoreM σ (List Record)) c.store with ⟨e | rows, store⟩
  · rw [fetchTable_of_error hfetch, fetchTable_of_error (hsame ▸ hfetch)]
    refine ⟨rfl, ⟨hsession.mono (Nat.le_succ_of_le hn), rfl, hpasses⟩, fun e' he => ?_⟩
    obtain rfl := Except.error.inj he
    exact ⟨kind, c.store, hc.good, congrArg Prod.fst hfetch⟩
  · have hrows := hstore.nodup hc.good (congrArg Prod.fst hfetch)
    have hperm : ∀ cs, cs.Nodup → (first c.passes cs).Perm (second c.passes cs) := fun cs hcs =>
      (hfirst c.passes cs).perm (hsecond c.passes cs) hcs (hlike c.passes cs)
    obtain ⟨report, s, t, conflicts, hrec, hrec', halike⟩ :=
      hsession.reconcile hn hc.lawful hd.lawful hrows (hfirst c.passes) hperm
    rw [← hpasses] at hrec'
    rw [fetchTable_of_fetch hfetch hrec, fetchTable_of_fetch (hsame ▸ hfetch) hrec', hpasses]
    exact ⟨rfl, ⟨halike, rfl, rfl⟩, fun e he => nomatch he⟩

/-- Fetching tables one after the other in the order of their kinds, with resolvers that choose alike. -/
theorem AlikeFrom.mapM {kinds : List Kind} (h : c.AlikeFrom n d)
    (hsorted : kinds.Pairwise fun a b => a.rank < b.rank) (hn : ∀ k ∈ kinds, n ≤ k.rank)
    (hc : c.Fit Good) (hd : d.Fit Good) : ∃ m, SameOutcome Good m
      (kinds.mapM (Connection.fetchTable first) c) (kinds.mapM (Connection.fetchTable second) d) := by
  induction kinds generalizing c d n with
  | nil => exact ⟨n, rfl, h, fun e he => nomatch he⟩
  | cons kind kinds ih =>
    obtain ⟨hrest, hsorted⟩ := List.pairwise_cons.1 hsorted
    have hkind := h.fetchTable hstore hfirst hsecond hlike (hn kind (List.mem_cons_self ..)) hc hd
    have hc' := hc.fetchTable hstore first kind
    have hd' := hd.fetchTable hstore second kind
    rw [List.mapM_cons, List.mapM_cons, run_bind, run_bind]
    rcases hrun : Connection.fetchTable first kind c with ⟨result, c'⟩
    rcases hrun' : Connection.fetchTable second kind d with ⟨result', d'⟩
    rw [hrun] at hkind hc'
    rw [hrun'] at hkind hd'
    obtain ⟨hresult, halike, herror⟩ := hkind
    obtain rfl : result' = result := hresult
    cases result' with
    | error e =>
      refine ⟨_, rfl, halike, fun e' he => ?_⟩
      cases he
      exact herror e rfl
    | ok report =>
      obtain ⟨m, hlast⟩ := ih halike hsorted hrest hc' hd'
      dsimp only
      rw [run_bind, run_bind]
      rcases hmap : kinds.mapM (Connection.fetchTable first) c' with ⟨results, c''⟩
      rcases hmap' : kinds.mapM (Connection.fetchTable second) d' with ⟨results', d''⟩
      rw [hmap, hmap'] at hlast
      obtain ⟨hresults, halike', herror'⟩ := hlast
      obtain rfl : results' = results := hresults
      cases results' with
      | error e =>
        refine ⟨m, rfl, halike', fun e' he => ?_⟩
        cases he
        exact herror' e rfl
      | ok reports => exact ⟨m, rfl, halike', fun e he => nomatch he⟩

end

end Connection

namespace Workspace

variable {σ : Type} [Store σ] {Good : σ → Prop} {w : Workspace σ} {name : String} {s : Session}

/-- The order of the answers does not matter.  Whatever the sessions of a workspace have done, with whatever
resolvers, and whatever has become of the store in between, a fetch comes to the same with two honest
resolvers that choose the same side for each conflict, in whatever orders they answer: it gives the same
report, or the error of the store that could not show a table; it comes upon the same conflicts, and leaves
the same items behind. -/
theorem fetch_reordered (hstore : Store.Keyed Good) (hw : w.Attained) (hgood : Good w.store)
    (hs : w.session? name = some s) {first second : Resolver} (hfirst : first.Honest)
    (hsecond : second.Honest) (hlike : first.ChoosesLike second) (kind : Kind) :
    ∃ result passes store s₁ s₂,
      w.perform name s (.fetch kind (some first)) = (result, passes, ⟨store, w.sessions.insert name s₁⟩) ∧
      w.perform name s (.fetch kind (some second)) = (result, passes, ⟨store, w.sessions.insert name s₂⟩) ∧
      (∀ r, s₂.item? r = s₁.item? r) ∧
      ((∃ report, result = .ok (.report report)) ∨
        ∃ e, result = .error e ∧ Connection.FetchFails Good e) := by
  have hfit : (⟨s, w.store, []⟩ : Connection σ).Fit Good := ⟨hw.lawful Item.law_tidy hs, hgood⟩
  obtain ⟨m, hsame⟩ := Connection.AlikeFrom.mapM hstore hfirst hsecond hlike ⟨.refl 0 s, rfl, rfl⟩
    (s.pairwise_rank_fetchOrder kind) (fun _ _ => Nat.zero_le _) hfit hfit
  have hfetch : ∀ {resolver : Resolver} {result : Except Error (List FetchReport)} {c : Connection σ},
      (s.fetchOrder kind).mapM (Connection.fetchTable resolver) ⟨s, w.store, []⟩ = (result, c) →
      w.perform name s (.fetch kind (some resolver)) =
        (result.map (.report <| .total ·), c.passes, ⟨c.store, w.sessions.insert name c.session⟩) := by
    intro resolver result c hrun
    have hresolver : (Command.fetch kind (some resolver)).resolver s = resolver := rfl
    unfold perform
    rw [Command.run_fetch, hresolver, Connection.fetch_eq, hrun]
    cases result <;> rfl
  rcases hrun : (s.fetchOrder kind).mapM (Connection.fetchTable first) ⟨s, w.store, []⟩ with ⟨result, c⟩
  rcases hrun' : (s.fetchOrder kind).mapM (Connection.fetchTable second) ⟨s, w.store, []⟩ with ⟨result', d⟩
  rw [hrun, hrun'] at hsame
  obtain ⟨hresult, ⟨halike, hst, hpasses⟩, herror⟩ := hsame
  obtain rfl : result' = result := hresult
  obtain ⟨t₁, st₁, passes₁⟩ := c
  obtain ⟨t₂, st₂, passes₂⟩ := d
  obtain rfl : st₂ = st₁ := hst
  obtain rfl : passes₂ = passes₁ := hpasses
  refine ⟨_, _, _, t₁, t₂, hfetch hrun, hfetch hrun', halike.item?, ?_⟩
  cases result' with
  | error e => exact .inr ⟨e, rfl, herror e rfl⟩
  | ok reports => exact .inl ⟨.total reports, rfl⟩

end Workspace

namespace Resolver

/-- The resolver that gives each conflict to the side that `side` says, in the order of the conflicts. -/
def inOrder (side : Conflict → Choice) : Resolver := fun _ conflicts =>
  conflicts.map fun c => c.resolve (side c)

/-- The resolver that does so from the last conflict to the first. -/
def inReverse (side : Conflict → Choice) : Resolver := fun passes conflicts =>
  (inOrder side passes conflicts).reverse

theorem honest_inOrder (side : Conflict → Choice) : (inOrder side).Honest := by
  intro passes conflicts
  unfold Answers inOrder
  rw [List.map_map]
  exact .of_eq (List.map_id' conflicts)

theorem honest_inReverse (side : Conflict → Choice) : (inReverse side).Honest :=
  fun passes conflicts => ((List.reverse_perm _).map _).trans (honest_inOrder side passes conflicts)

theorem choosesLike_inReverse (side : Conflict → Choice) :
    (inOrder side).ChoosesLike (inReverse side) := by
  intro passes conflicts r hr r' hr' heq
  obtain ⟨c, -, rfl⟩ := List.mem_map.1 hr
  obtain ⟨c', -, rfl⟩ := List.mem_map.1 (List.mem_reverse.1 hr')
  exact congrArg side heq

end Resolver

namespace Workspace

/-- A session has two alternatives with new descriptions; another one has renamed both, the first to what
the second was called. -/
def renamedInTurn : List Event :=
  [.connect "a" {}, .ask "a" (.add .alternative (.ofList [("name", .text "base")])),
    .ask "a" (.add .alternative (.ofList [("name", .text "low")])), .ask "a" (.commit "names"),
    .ask "a" (.update ⟨.alternative, ⟨1⟩⟩ (.ofList [("description", .text "mine")])),
    .ask "a" (.update ⟨.alternative, ⟨2⟩⟩ (.ofList [("description", .text "mine")])),
    .connect "b" {}, .ask "b" (.fetch .alternative none),
    .ask "b" (.update ⟨.alternative, ⟨2⟩⟩ (.ofList [("name", .text "high")])),
    .ask "b" (.update ⟨.alternative, ⟨1⟩⟩ (.ofList [("name", .text "low")])), .ask "b" (.commit "turn")]

/-- The first alternative is to be as it is stored, the other one as it is. -/
def firstStored (c : Conflict) : Choice := if c.item.id = ⟨1⟩ then .takeStored else .keepLocal

set_option maxRecDepth 4000 in
/-- Both alternatives are called "low" then.  The order of the answers says which of them is found by that
name, and nothing else. -/
theorem fetch_reordered_of_renamedInTurn : ∃ (w : Workspace Database) (s s₁ s₂ : Session)
    (passes : List (List Conflict)) (store : Database),
    w.Attained ∧ w.store.Filed ∧ w.session? "a" = some s ∧
      w.perform "a" s (.fetch .alternative (some (.inOrder firstStored))) =
        (.ok (.report { conflicts := 2 }), passes, ⟨store, w.sessions.insert "a" s₁⟩) ∧
      w.perform "a" s (.fetch .alternative (some (.inReverse firstStored))) =
        (.ok (.report { conflicts := 2 }), passes, ⟨store, w.sessions.insert "a" s₂⟩) ∧
      (∀ r, s₂.item? r = s₁.item? r) ∧
      s₂.find? .alternative [.text "low"] ≠ s₁.find? .alternative [.text "low"] := by
  have hw := (Attained.new Database.empty).after renamedInTurn
  have hdb := filed_after renamedInTurn
  have hcheck : (((new .empty).after renamedInTurn).session? "a").any (fun s =>
      let first := ((new .empty).after renamedInTurn).perform "a" s
        (.fetch .alternative (some (.inOrder firstStored)))
      let second := ((new .empty).after renamedInTurn).perform "a" s
        (.fetch .alternative (some (.inReverse firstStored)))
      decide (first.1 = .ok (.report { conflicts := 2 })) &&
        decide ((second.2.2.session? "a").bind (·.find? .alternative [.text "low"]) ≠
          (first.2.2.session? "a").bind (·.find? .alternative [.text "low"]))) = true := by
    decide +kernel
  obtain ⟨s, hs, hcheck⟩ := (Option.any_eq_true ..).1 hcheck
  obtain ⟨result, passes, store, s₁, s₂, hrun, hrun', hitem, -⟩ := fetch_reordered Database.keyed hw hdb hs
    (Resolver.honest_inOrder firstStored) (Resolver.honest_inReverse firstStored)
    (Resolver.choosesLike_inReverse firstStored) .alternative
  dsimp only at hcheck
  rw [hrun, hrun'] at hcheck
  simp only [Bool.and_eq_true, decide_eq_true_eq] at hcheck
  obtain ⟨rfl, hfound⟩ := hcheck
  have hsession : ∀ s', (⟨store, ((new .empty).after renamedInTurn).sessions.insert "a" s'⟩ :
      Workspace Database).session? "a" = some s' := fun s' => (SortedMap.get?_insert ..).trans (if_pos rfl)
  rw [hsession, hsession] at hfound
  exact ⟨_, s, s₁, s₂, passes, store, hw, hdb, hs, hrun, hrun', hitem, hfound⟩

end Workspace

end StagedEdits
