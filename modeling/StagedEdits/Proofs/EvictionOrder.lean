import StagedEdits.Proofs.Eviction
import StagedEdits.Proofs.Keys

/-!
# Evictions depth first

A session evicts in one sweep over the kinds.  It could as well go from item to item: take one out, look
up what refers to it, and evict these one after another in the same way.  The two take out the same
items, since the references alone decide which these are (`Session.TakesOut.eq`), and in which order
items are taken out does not matter (`Session.drop_comm`).  All that is asked of the session is that its
items are found under their own names, and no command breaks that (`Session.Lawful.named`).

* `Session.evict_eq_evictDepthFirst`: evicting one item gives the same session and the same number.
* `Session.evictReferrers_eq_inTurn`: so does evicting what refers to several items that are gone.
-/

namespace StagedEdits

/-! ### Taking out two items -/

theorem KeyIndex.drop_comm (ix : KeyIndex) (key key' : UniqueKey) :
    (ix.drop key).drop key' = (ix.drop key').drop key :=
  congrArg KeyIndex.mk (List.filter_comm ..)

/-- Two items give up their keys in any order: none has a key of the other. -/
theorem KeyIndex.release_comm (ix : KeyIndex) {i j : ItemId} (hij : i ≠ j) (key key' : UniqueKey) :
    (ix.release i key).release j key' = (ix.release j key').release i key := by
  have hother : ∀ {i j : ItemId} {key key' : UniqueKey}, i ≠ j → ix.holder? key = some i →
      ((ix.drop key).holder? key' = some j ↔ ix.holder? key' = some j) := by
    intro i j key key' hij hi
    rw [holder?_drop]
    split
    next hkey =>
      subst hkey
      rw [hi]
      exact ⟨nofun, fun hj => absurd (Option.some.inj hj) hij⟩
    next => exact Iff.rfl
  unfold release
  by_cases hi : ix.holder? key = some i <;> by_cases hj : ix.holder? key' = some j
  · rw [if_pos hi, if_pos hj, if_pos ((hother hij hi).2 hj), if_pos ((hother hij.symm hj).2 hi)]
    exact ix.drop_comm key key'
  · rw [if_pos hi, if_neg hj, if_pos hi, if_neg (mt (hother hij hi).1 hj)]
  · rw [if_neg hi, if_pos hj, if_neg (mt (hother hij.symm hj).1 hi)]
  · rw [if_neg hi, if_neg hj, if_neg hi]

theorem KeyIndex.foldl_release_comm (ix : KeyIndex) {i j : ItemId} (hij : i ≠ j)
    (keys keys' : List UniqueKey) :
    keys'.foldl (fun ix key => ix.release j key) (keys.foldl (fun ix key => ix.release i key) ix) =
      keys.foldl (fun ix key => ix.release i key) (keys'.foldl (fun ix key => ix.release j key) ix) := by
  refine List.foldl_hom (fun ix : KeyIndex => keys.foldl (fun ix key => ix.release i key) ix)
    fun ix key' => ?_
  exact (List.foldl_hom (fun ix : KeyIndex => ix.release j key')
    fun ix key => (ix.release_comm hij key key').symm).symm

theorem Bindings.release_comm (b : Bindings) (i j : ItemId) :
    (b.release i).release j = (b.release j).release i := by
  refine ext_item? fun d => ?_
  simp only [item?_release, Option.filter_filter, Bool.and_comm]

namespace Table

theorem erase_of_none {t : Table} {id : ItemId} (h : t.get? id = none) : t.erase id = t := by
  unfold erase
  rw [h]

theorem keys_erase {t : Table} {id : ItemId} {item : Item} (h : t.get? id = some item) :
    (t.erase id).keys = (t.keysOf item).foldl (fun ix key => ix.release id key) t.keys := by
  unfold erase
  rw [h]

theorem bindings_erase {t : Table} {id : ItemId} {item : Item} (h : t.get? id = some item) :
    (t.erase id).bindings = t.bindings.release id := by
  unfold erase
  rw [h]

/-- Tables of one kind with the same items, the same bindings and the same index are the same. -/
theorem eq_of_parts {t t' : Table} (hkind : t.kind = t'.kind) (hitem : ∀ id, t.get? id = t'.get? id)
    (hbindings : t.bindings = t'.bindings) (hkeys : t.keys = t'.keys) : t = t' := by
  obtain ⟨kind, items, bindings, keys, hid⟩ := t
  obtain ⟨kind', items', bindings', keys', hid'⟩ := t'
  cases hkind
  cases hbindings
  cases hkeys
  obtain rfl : items = items' := SortedMap.ext_get? hitem
  rfl

theorem erase_comm (t : Table) (i j : ItemId) : (t.erase i).erase j = (t.erase j).erase i := by
  by_cases hij : i = j
  · rw [hij]
  cases hi : t.get? i with
  | none => rw [erase_of_none hi, erase_of_none ((get?_erase ..).trans (by rw [hi, ite_self]))]
  | some a =>
    cases hj : t.get? j with
    | none => rw [erase_of_none hj, erase_of_none ((get?_erase ..).trans (by rw [hj, ite_self]))]
    | some b =>
      have hi' : (t.erase j).get? i = some a := (get?_erase ..).trans ((if_neg hij).trans hi)
      have hj' : (t.erase i).get? j = some b := (get?_erase ..).trans ((if_neg (Ne.symm hij)).trans hj)
      refine eq_of_parts ?_ (fun id => ?_) ?_ ?_
      · simp only [kind_erase]
      · simp only [get?_erase]
        split <;> split <;> rfl
      · rw [bindings_erase hj', bindings_erase hi, bindings_erase hi', bindings_erase hj]
        exact t.bindings.release_comm i j
      · rw [keys_erase hj', keys_erase hi, keys_erase hi', keys_erase hj, keysOf_erase, keysOf_erase]
        exact t.keys.foldl_release_comm hij _ _

end Table

namespace Session

variable {s : Session}

theorem table?_drop (s : Session) (r : ItemRef) (kind : Kind) :
    (s.drop r).table? kind =
      if kind = r.kind then (s.table? kind).map (·.erase r.id) else s.table? kind := by
  unfold drop
  cases ht : s.table? r.kind with
  | none =>
    dsimp only
    split
    next hk => rw [hk, ht, Option.map_none]
    next => rfl
  | some t =>
    dsimp only
    unfold setTable table?
    rw [SortedMap.get?_insert]
    split
    next hk =>
      rw [hk]
      unfold table? at ht
      rw [ht, Option.map_some]
    next => rfl

/-- Sessions of one frame with the same tables are the same. -/
theorem SameFrame.eq {t : Session} (h : s.SameFrame t) (hnext : t.nextId = s.nextId)
    (htable : ∀ kind, t.table? kind = s.table? kind) : t = s := by
  obtain ⟨config, nextId, tables, fetched, known⟩ := s
  obtain ⟨config', nextId', tables', fetched', known'⟩ := t
  obtain ⟨hconfig, hfetched, hknown⟩ := h
  cases hconfig
  cases hfetched
  cases hknown
  cases hnext
  obtain rfl : tables' = tables := SortedMap.ext_get? htable
  rfl

/-- It does not matter which of two items is taken out first. -/
theorem drop_comm (s : Session) (a b : ItemRef) : (s.drop a).drop b = (s.drop b).drop a := by
  have hab := (s.sameFrame_drop a).trans ((s.drop a).sameFrame_drop b)
  have hba := (s.sameFrame_drop b).trans ((s.drop b).sameFrame_drop a)
  refine SameFrame.eq ⟨hab.config.trans hba.config.symm, hab.fetched.trans hba.fetched.symm,
    hab.knownCommits.trans hba.knownCommits.symm⟩ (by simp only [nextId_drop]) fun kind => ?_
  simp only [table?_drop]
  by_cases ha : kind = a.kind <;> by_cases hb : kind = b.kind
  · simp only [if_pos ha, if_pos hb, Option.map_map, Function.comp_def, Table.erase_comm]
  · simp only [if_pos ha, if_neg hb]
  · simp only [if_neg ha, if_pos hb]
  · simp only [if_neg ha, if_neg hb]

theorem Named.foldl_drop (hs : s.Named) (l : List ItemRef) : (l.foldl Session.drop s).Named :=
  List.foldlRecOn (motive := Named) l Session.drop hs fun _ h r _ => h.drop r

/-! ### Depth first -/

theorem rank_lt_of_mem_referrers {r d : ItemRef} {p : Item → Bool} (h : d ∈ s.referrers r p) :
    r.kind.rank < d.kind.rank := by
  unfold referrers at h
  obtain ⟨kind, -, hmem⟩ := List.mem_flatMap.1 h
  obtain ⟨item, hitem, rfl⟩ := List.mem_map.1 hmem
  obtain ⟨-, hrefers⟩ := Bool.and_eq_true_iff.1 (List.mem_filter.1 hitem).2
  exact Item.rank_lt_of_mem_references (of_decide_eq_true hrefers)

/-- Takes something out for each member of a list in turn, and adds up how many items that was. -/
def inTurn {α : Type} (f : Session → α → Session × Nat) (s : Session) (l : List α) : Session × Nat :=
  l.foldl (fun (s, taken) a =>
    let (s', more) := f s a
    (s', taken + more)) (s, 0)

mutual

/-- Takes an item out, if it is there, and then what refers to it.  Gives the session and the number of
items taken out. -/
def evictDepthFirst (s : Session) (r : ItemRef) : Session × Nat :=
  match s.item? r with
  | none => (s, 0)
  | some _ =>
    let (s', taken) := (s.drop r).evictReferrersDepthFirst r
    (s', 1 + taken)
termination_by (Kind.all.length - r.kind.rank, 1)

/-- Looks up what refers to an item, and evicts these items one after another. -/
def evictReferrersDepthFirst (s : Session) (r : ItemRef) : Session × Nat :=
  s.inTurn (fun s d => s.evictDepthFirst d.1) (s.referrers r fun _ => true).attach
termination_by (Kind.all.length - r.kind.rank, 0)
decreasing_by
  have hrank := rank_lt_of_mem_referrers d.2
  have hlast : d.1.kind.rank < Kind.all.length := by cases d.1.kind <;> decide
  exact Prod.Lex.left _ _ (by omega)

end

/-! ### What is taken out -/

/-- The outcome is the session without the items `l`, and their number.  These are the items with
property `P` and, from one to the next, those that refer to one of them. -/
structure TakesOut (s : Session) (P : ItemRef → Item → Prop) (outcome : Session × Nat)
    (l : List ItemRef) : Prop where
  session : outcome.1 = l.foldl drop s
  count : outcome.2 = l.length
  nodup : l.Nodup
  mem_iff : ∀ r, r ∈ l ↔
    ∃ x, s.item? r = some x ∧ (P r x ∨ ∃ target ∈ x.references, target ∈ l)

variable {P P' : ItemRef → Item → Prop} {p p' : Session × Nat} {l l' : List ItemRef}

theorem TakesOut.congr (h : TakesOut s P p l) (hP : ∀ r x, s.item? r = some x → (P r x ↔ P' r x)) :
    TakesOut s P' p l := by
  refine ⟨h.session, h.count, h.nodup, fun r => (h.mem_iff r).trans ?_⟩
  exact exists_congr fun x => and_congr_right fun hx => or_congr_left (hP r x hx)

/-- The references decide what is taken out: an item refers only to items of kinds before its own. -/
theorem TakesOut.mem_congr (hs : s.Named) (h : TakesOut s P p l) (h' : TakesOut s P p' l')
    (r : ItemRef) : r ∈ l ↔ r ∈ l' := by
  have hbelow : ∀ n (r : ItemRef), r.kind.rank < n → (r ∈ l ↔ r ∈ l') := by
    intro n
    induction n with
    | zero => exact fun r hr => absurd hr (Nat.not_lt_zero _)
    | succ n ih =>
      intro r hr
      rw [h.mem_iff, h'.mem_iff]
      refine exists_congr fun x => and_congr_right fun hx => or_congr_right ?_
      refine exists_congr fun target => and_congr_right fun htarget => ih target ?_
      have hlt := Item.rank_lt_of_mem_references htarget
      have hkind : x.kind = r.kind := congrArg ItemRef.kind (hs hx)
      rw [hkind] at hlt
      omega
  exact hbelow (r.kind.rank + 1) r (Nat.lt_succ_self _)

/-- So it decides the outcome. -/
theorem TakesOut.eq (hs : s.Named) (h : TakesOut s P p l) (h' : TakesOut s P p' l') : p = p' := by
  have hperm : l.Perm l' :=
    (List.perm_ext_iff_of_nodup h.nodup h'.nodup).2 (h.mem_congr hs h')
  refine Prod.ext ?_ ?_
  · rw [h.session, h'.session]
    exact hperm.foldl_eq' (fun a _ b _ s => s.drop_comm a b) s
  · rw [h.count, h'.count, hperm.length_eq]

/-- Nothing is taken out where nothing has the property. -/
theorem takesOut_nil (hP : ∀ r x, s.item? r = some x → ¬P r x) : TakesOut s P (s, 0) [] := by
  refine ⟨rfl, rfl, .nil, fun r => ⟨fun h => absurd h List.not_mem_nil, ?_⟩⟩
  rintro ⟨x, hx, hp | ⟨target, -, h⟩⟩
  · exact absurd hp (hP r x hx)
  · exact absurd h List.not_mem_nil

theorem takesOut_of_none {r : ItemRef} (h : s.item? r = none) :
    TakesOut s (fun q _ => q = r) (s, 0) [] := by
  refine takesOut_nil fun q x hx hq => ?_
  rw [hq, h] at hx
  cases hx

/-- One outcome after the other. -/
theorem TakesOut.append (h : TakesOut s P p l) (h' : TakesOut p.1 P' p' l') :
    TakesOut s (fun r x => P r x ∨ P' r x) (p'.1, p.2 + p'.2) (l ++ l') := by
  have hitem : ∀ {r x}, p.1.item? r = some x ↔ r ∉ l ∧ s.item? r = some x := by
    intro r x
    rw [h.session, item?_foldl_drop, Option.ite_none_left_eq_some]
  refine ⟨?_, ?_, List.nodup_append'.2 ⟨h.nodup, h'.nodup, fun r hr hr' => ?_⟩, fun r => ⟨?_, ?_⟩⟩
  · rw [h'.session, h.session, List.foldl_append]
  · rw [h.count, h'.count, List.length_append]
  · obtain ⟨x, hx, -⟩ := (h'.mem_iff r).1 hr'
    exact (hitem.1 hx).1 hr
  · intro hr
    rcases List.mem_append.1 hr with hr | hr
    · obtain ⟨x, hx, hp | ⟨target, htarget, hl⟩⟩ := (h.mem_iff r).1 hr
      · exact ⟨x, hx, .inl (.inl hp)⟩
      · exact ⟨x, hx, .inr ⟨target, htarget, List.mem_append_left _ hl⟩⟩
    · obtain ⟨x, hx, hp | ⟨target, htarget, hl⟩⟩ := (h'.mem_iff r).1 hr
      · exact ⟨x, (hitem.1 hx).2, .inl (.inr hp)⟩
      · exact ⟨x, (hitem.1 hx).2, .inr ⟨target, htarget, List.mem_append_right _ hl⟩⟩
  · rintro ⟨x, hx, hcause⟩
    by_cases hr : r ∈ l
    · exact List.mem_append_left _ hr
    have hfirst : ¬(P r x ∨ ∃ target ∈ x.references, target ∈ l) := fun hc =>
      hr ((h.mem_iff r).2 ⟨x, hx, hc⟩)
    refine List.mem_append_right _ ((h'.mem_iff r).2 ⟨x, hitem.2 ⟨hr, hx⟩, ?_⟩)
    rcases hcause with (hp | hp) | ⟨target, htarget, hl⟩
    · exact absurd (.inl hp) hfirst
    · exact .inl hp
    · rcases List.mem_append.1 hl with hl | hl
      · exact absurd (.inr ⟨target, htarget, hl⟩) hfirst
      · exact .inr ⟨target, htarget, hl⟩

/-- An item, and then what refers to it. -/
theorem TakesOut.cons {r : ItemRef} {a : Item} (ha : s.item? r = some a)
    (h : TakesOut (s.drop r) (fun _ x => r ∈ x.references) p l) :
    TakesOut s (fun q _ => q = r) (p.1, 1 + p.2) (r :: l) := by
  refine ⟨h.session, ?_, List.nodup_cons.2 ⟨fun hr => ?_, h.nodup⟩, fun q => ⟨fun hq => ?_, ?_⟩⟩
  · rw [h.count, List.length_cons, Nat.add_comm]
  · obtain ⟨x, hx, -⟩ := (h.mem_iff r).1 hr
    exact (item?_drop_eq_some_iff.1 hx).1 rfl
  · rcases List.mem_cons.1 hq with rfl | hq
    · exact ⟨a, ha, .inl rfl⟩
    · obtain ⟨x, hx, hrefers | ⟨target, htarget, hl⟩⟩ := (h.mem_iff q).1 hq
      · exact ⟨x, item?_of_drop hx, .inr ⟨r, hrefers, List.mem_cons_self ..⟩⟩
      · exact ⟨x, item?_of_drop hx, .inr ⟨target, htarget, List.mem_cons_of_mem _ hl⟩⟩
  · rintro ⟨x, hx, hcause⟩
    by_cases hq : q = r
    · exact List.mem_cons.2 (.inl hq)
    refine List.mem_cons_of_mem _ ((h.mem_iff q).2 ⟨x, item?_drop_eq_some_iff.2 ⟨hq, hx⟩, ?_⟩)
    obtain ⟨target, htarget, hl⟩ := hcause.resolve_left hq
    rcases List.mem_cons.1 hl with rfl | hl
    · exact .inl htarget
    · exact .inr ⟨target, htarget, hl⟩

/-! ### The two ways to evict -/

theorem inTurn_concat {α : Type} (f : Session → α → Session × Nat) (s : Session) (l : List α) (a : α) :
    s.inTurn f (l ++ [a]) =
      ((f (s.inTurn f l).1 a).1, (s.inTurn f l).2 + (f (s.inTurn f l).1 a).2) := by
  unfold inTurn
  rw [List.foldl_append]
  rfl

/-- What each visit takes out, taken out in turn. -/
theorem takesOut_inTurn {α : Type} {f : Session → α → Session × Nat} {P : α → ItemRef → Item → Prop}
    (hs : s.Named) (l : List α) (hf : ∀ s : Session, s.Named → ∀ a ∈ l,
      ∃ taken, TakesOut s (P a) (f s a) taken) :
    ∃ taken, TakesOut s (fun r x => ∃ a ∈ l, P a r x) (s.inTurn f l) taken := by
  induction l using List.reverseRecOn with
  | nil => exact ⟨[], takesOut_nil fun _ _ _ ⟨_, ha, _⟩ => absurd ha List.not_mem_nil⟩
  | append_singleton l a ih =>
    obtain ⟨taken, h⟩ := ih fun s hs b hb => hf s hs b (List.mem_append_left _ hb)
    have hmid : (s.inTurn f l).1.Named := h.session ▸ hs.foldl_drop taken
    obtain ⟨more, h'⟩ := hf _ hmid a (List.mem_append_right _ (List.mem_singleton_self a))
    rw [inTurn_concat]
    refine ⟨taken ++ more, (h.append h').congr fun r x _ => ?_⟩
    simp only [List.mem_append, List.mem_singleton, or_and_right, exists_or, exists_eq_left]

theorem mem_referrers_of_item? (hs : s.Named) {q r : ItemRef} {x : Item} (hx : s.item? q = some x) :
    q ∈ s.referrers r (fun _ => true) ↔ r ∈ x.references := by
  rw [mem_referrers_iff hs]
  constructor
  · rintro ⟨y, hy, -, href⟩
    exact Option.some.inj (hy.symm.trans hx) ▸ href
  · exact fun href => ⟨x, hx, rfl, href⟩

/-- What either function of the recursion takes out. -/
theorem takesOut_depthFirst :
    (∀ (s : Session) (r : ItemRef), s.Named →
      ∃ l, TakesOut s (fun q _ => q = r) (s.evictDepthFirst r) l) ∧
    ∀ (s : Session) (r : ItemRef), s.Named →
      ∃ l, TakesOut s (fun _ x => r ∈ x.references) (s.evictReferrersDepthFirst r) l := by
  apply evictDepthFirst.mutual_induct
    (fun s r => s.Named → ∃ l, TakesOut s (fun q _ => q = r) (s.evictDepthFirst r) l)
    (fun s r => s.Named →
      ∃ l, TakesOut s (fun _ x => r ∈ x.references) (s.evictReferrersDepthFirst r) l)
  case case1 =>
    intro s r hnone _
    rw [evictDepthFirst, hnone]
    exact ⟨[], takesOut_of_none hnone⟩
  case case2 =>
    intro s r a ha s' taken heq ih hs
    obtain ⟨l, h⟩ := ih (hs.drop r)
    rw [evictDepthFirst, ha]
    exact ⟨r :: l, h.cons ha⟩
  case case3 =>
    intro s r ih hs
    rw [evictReferrersDepthFirst]
    obtain ⟨l, h⟩ := takesOut_inTurn (P := fun d q _ => q = d.1) hs
      (s.referrers r fun _ => true).attach fun s hs d _ => ih s d hs
    refine ⟨l, h.congr fun q x hx => ?_⟩
    rw [← mem_referrers_of_item? hs hx]
    exact ⟨fun ⟨d, _, hq⟩ => hq ▸ d.2, fun hq => ⟨⟨q, hq⟩, List.mem_attach .., rfl⟩⟩

/-- A sweep on its way from `s` and the items `gone`, after it has taken out the items `l`. -/
structure Sweeps (s : Session) (gone l : List ItemRef) (w : Sweep) : Prop where
  session : w.session = l.foldl drop s
  gone : w.gone = gone ++ l
  evicted : w.evicted = l.length
  nodup : l.Nodup
  there : ∀ r ∈ l, ∃ x, s.item? r = some x

theorem Sweeps.step (hs : s.Named) {gone : List ItemRef} {w : Sweep} (h : Sweeps s gone l w)
    (kind : Kind) : Sweeps s gone (l ++ (w.orphans kind).map Item.ref) (w.step kind) := by
  have hitem : ∀ {r x}, w.session.item? r = some x → r ∉ l ∧ s.item? r = some x := by
    intro r x hx
    rwa [h.session, item?_foldl_drop, Option.ite_none_left_eq_some] at hx
  have horphan : ∀ r ∈ (w.orphans kind).map Item.ref, ∃ x, r ∉ l ∧ s.item? r = some x := by
    intro r hr
    obtain ⟨-, x, hx, -⟩ := (mem_orphans_iff fun _ _ hx => hs (hitem hx).2).1 hr
    exact ⟨x, hitem hx⟩
  refine ⟨?_, ?_, ?_, ?_, fun r hr => ?_⟩
  · rw [List.foldl_append, ← h.session, session_step]
  · show w.gone ++ (w.orphans kind).map Item.ref = _
    rw [h.gone, List.append_assoc]
  · show w.evicted + (w.orphans kind).length = _
    rw [h.evicted, List.length_append, List.length_map]
  · refine List.nodup_append'.2 ⟨h.nodup, nodup_orphans w kind, fun r hr hmem => ?_⟩
    obtain ⟨x, hnot, -⟩ := horphan r hmem
    exact hnot hr
  · rcases List.mem_append.1 hr with hr | hr
    · exact h.there r hr
    · obtain ⟨x, -, hx⟩ := horphan r hr
      exact ⟨x, hx⟩

/-- A sweep that has gone through all kinds has taken out what refers to something that is gone. -/
theorem Sweeps.takesOut {gone : List ItemRef} {w : Sweep} (h : Sweeps s gone l w)
    (hswept : Swept s gone Kind.all w) :
    TakesOut s (fun _ x => ∃ target ∈ x.references, target ∈ gone) (w.session, w.evicted) l := by
  have hgone : ∀ {target}, target ∈ w.gone ↔ target ∈ gone ∨ target ∈ l := by
    intro target
    rw [h.gone, List.mem_append]
  refine ⟨h.session, h.evicted, h.nodup, fun r => ⟨fun hr => ?_, ?_⟩⟩
  · obtain ⟨x, hx⟩ := h.there r hr
    have hnone : w.session.item? r = none := by
      rw [h.session, item?_foldl_drop, if_pos hr]
    obtain ⟨target, htarget, hlost⟩ := hswept.cause hx hnone
    exact ⟨x, hx, (hgone.1 hlost).imp (fun hg => ⟨target, htarget, hg⟩) fun hl =>
      ⟨target, htarget, hl⟩⟩
  · rintro ⟨x, hx, hcause⟩
    obtain ⟨target, htarget, hlost⟩ : ∃ target ∈ x.references, target ∈ w.gone :=
      hcause.elim (fun ⟨target, htarget, hg⟩ => ⟨target, htarget, hgone.2 (.inl hg)⟩)
        fun ⟨target, htarget, hl⟩ => ⟨target, htarget, hgone.2 (.inr hl)⟩
    -- an item that is left refers to nothing that is gone
    by_contra hr
    have hleft : w.session.item? r = some x := by
      rw [h.session, item?_foldl_drop, if_neg hr, hx]
    exact hswept.severed hleft (Kind.mem_all _) target htarget hlost

theorem takesOut_evictReferrers (hs : s.Named) (gone : List ItemRef) :
    ∃ l, TakesOut s (fun _ x => ∃ target ∈ x.references, target ∈ gone)
      ((s.evictReferrers gone).session, (s.evictReferrers gone).evicted) l := by
  obtain ⟨l, h⟩ : ∃ l, Sweeps s gone l (s.evictReferrers gone) :=
    evictReferrers_induction (K := fun w => ∃ l, Sweeps s gone l w)
      ⟨[], rfl, (List.append_nil gone).symm, rfl, .nil, fun _ h => absurd h List.not_mem_nil⟩
      fun w kind ⟨l, h⟩ => ⟨_, h.step hs kind⟩
  exact ⟨l, h.takesOut (swept_evictReferrers hs gone)⟩

/-- Evicting an item: the sweep gives the session and the number that the recursion gives. -/
theorem evict_eq_evictDepthFirst (hs : s.Named) (r : ItemRef) : s.evict r = s.evictDepthFirst r := by
  obtain ⟨l, h⟩ := takesOut_depthFirst.1 s r hs
  unfold evict
  split
  next hnone => exact (takesOut_of_none hnone).eq hs h
  next a ha =>
    obtain ⟨l', h'⟩ := takesOut_evictReferrers (hs.drop r) [r]
    generalize (s.drop r).evictReferrers [r] = w at h' ⊢
    show (w.session, w.evicted + 1) = _
    rw [Nat.add_comm]
    refine (TakesOut.cons ha (h'.congr fun q x _ => ?_)).eq hs h
    simp only [List.mem_singleton, exists_eq_right]

/-- Evicting what refers to items that are gone: one sweep for all of them gives the session and the
number that the recursion gives, done for one of them after the other. -/
theorem evictReferrers_eq_inTurn (hs : s.Named) (gone : List ItemRef) :
    ((s.evictReferrers gone).session, (s.evictReferrers gone).evicted) =
      s.inTurn evictReferrersDepthFirst gone := by
  obtain ⟨l, h⟩ := takesOut_evictReferrers hs gone
  obtain ⟨l', h'⟩ := takesOut_inTurn (P := fun r _ x => r ∈ x.references) hs gone
    fun s hs r _ => takesOut_depthFirst.2 s r hs
  refine (h.congr fun _ x _ => ?_).eq hs h'
  exact exists_congr fun target => and_comm

end Session

end StagedEdits
