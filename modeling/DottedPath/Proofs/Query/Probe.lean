import DottedPath.Proofs.Evaluate.FullDescent
import DottedPath.Proofs.Query.FindUpdated
import DottedPath.Proofs.Query.SinglePlace
import DottedPath.Query.Write

/-!
# Asking whether an update edits its root

Whether an update would edit its root in place can be asked beforehand (`Context.mutable`).  Along
keys, attributes and slots the answer no can be relied on: what the path goes through has the same
parts wherever the store has grown to, each write goes into a copy, and what is missing is built
anew.  In front of a group or a descent the answer is that of the value alone, although the update
goes on behind it.

## Main statements

- `Context.updatePath_of_not_mutable`: where the answer is no, all that was there is as it was after
  the update.
- `Context.editsInPlace_of_isCompound`, `Context.update_branch`: the answer does not look into a group,
  even if it has one branch and is written as this branch is.
-/

namespace DottedPath

variable {base s t : Store} {node v : Value}

/-! ### Writes that go into copies -/

/-- The computation edits only what has been added to the first store, and its answer is no container
that could be edited there. -/
def StoreM.CopiesOld (base : Store) (x : StoreM Value) (s : Store) : Prop :=
  base.GrowsTo (x s).2 ∧ base.isMutable (x s).1 = false

section

open StoreM (CopiesOld)

theorem StoreM.CopiesOld.get_bind {f : Store → StoreM Value} (hf : CopiesOld base (f s) s) :
    CopiesOld base (get >>= f) s := hf

theorem alloc_copiesOld (hs : base.GrowsTo s) (c : Container) : CopiesOld base (alloc c) s :=
  ⟨hs.trans (.push s c), hs.isMutable_next⟩

theorem withElements_copiesOld (hs : base.GrowsTo s) (like : Value) (items : List Value) :
    CopiesOld base (withElements like items) s := by
  unfold CopiesOld withElements
  split
  · exact ⟨hs, rfl⟩
  · exact ⟨hs, rfl⟩
  all_goals exact alloc_copiesOld hs _

theorem replaceElements_copiesOld (hs : base.GrowsTo s) (hnode : base.isMutable node = false)
    (items : List Value) : CopiesOld base (replaceElements node items) s := by
  refine CopiesOld.get_bind ?_
  split
  · rename_i h xs hc
    exact ⟨hs.set_new (hs.get?_eq_none hc rfl hnode) _, hnode⟩
  · exact withElements_copiesOld hs _ items

theorem replaceAttrs_copiesOld (hs : base.GrowsTo s) (hnode : base.isMutable node = false)
    (edit : List (String × Value) → List (String × Value)) :
    CopiesOld base (replaceAttrs node edit) s := by
  refine CopiesOld.get_bind ?_
  split
  · rename_i h name attrs frozen hc
    split
    · exact alloc_copiesOld hs _
    · rename_i hfrozen
      have hmutable : (Container.object name attrs frozen).isMutable = true := by
        simpa [Container.isMutable] using hfrozen
      exact ⟨hs.set_new (hs.get?_eq_none hc hmutable hnode) _, hnode⟩
  · exact ⟨hs, hnode⟩

theorem editEntries_copiesOld (hs : base.GrowsTo s) (hnode : base.isMutable node = false)
    (edit : List (Value × Value) → List (Value × Value)) :
    CopiesOld base (editEntries node edit) s := by
  refine CopiesOld.get_bind ?_
  split
  · rename_i h entries hc
    exact ⟨hs.set_new (hs.get?_eq_none hc rfl hnode) _, hnode⟩
  · exact ⟨hs, hnode⟩

theorem setIndexed_copiesOld (hs : base.GrowsTo s) (hnode : base.isMutable node = false)
    (index : Int) (v : Value) : CopiesOld base (setIndexed node index v) s := by
  refine CopiesOld.get_bind ?_
  split
  · dsimp only
    split
    · exact replaceElements_copiesOld hs hnode _
    · split
      · exact replaceElements_copiesOld hs hnode _
      · exact ⟨hs, hnode⟩
  · exact ⟨hs, hnode⟩

theorem setKeyed_copiesOld (hs : base.GrowsTo s) (hnode : base.isMutable node = false)
    (key v : Value) : CopiesOld base (setKeyed node key v) s := by
  refine CopiesOld.get_bind ?_
  split
  · exact editEntries_copiesOld hs hnode _
  · split
    · split
      · exact setIndexed_copiesOld hs hnode _ v
      · exact ⟨hs, hnode⟩
    · exact ⟨hs, hnode⟩

/-- **A write at what an access selects goes into a copy**, unless the container is a new one. -/
theorem setChild_copiesOld (hs : base.GrowsTo s) (hnode : base.isMutable node = false)
    (accessor : Accessor) (r : Store) (key v : Value) :
    CopiesOld base (setChild node (accessor.step r key) v) s := by
  cases accessor with
  | key => exact setKeyed_copiesOld hs hnode key v
  | slot => exact setKeyed_copiesOld hs hnode key v
  | attr => exact replaceAttrs_copiesOld hs hnode _

end

/-! ### What is selected while the store grows -/

namespace Store

/-- A pattern sees the same in a scalar key, whatever the store. -/
theorem keyMatches_scalar {key : KeyPattern} (hkey : key.isPattern = true) (s t : Store) (x : Scalar) :
    s.keyMatches key (.scalar x) = t.keyMatches key (.scalar x) := by
  cases key with
  | literal l => cases hkey
  | wildcard => rfl
  | regex re => rfl

/-- The elements of a text are scalars. -/
theorem elements_scalar (s : Store) (a : Scalar) : ∀ x ∈ s.elements (.scalar a), ∃ b, x = .scalar b := by
  intro x hx
  cases a with
  | str text =>
    obtain ⟨c, -, rfl⟩ := List.mem_map.mp hx
    exact ⟨_, rfl⟩
  | bytes bs =>
    obtain ⟨b, -, rfl⟩ := List.mem_map.mp hx
    exact ⟨_, rfl⟩
  | _ => cases hx

end Store

section

variable {accessor : Accessor} {key : KeyPattern} {part : Value × Value}

/-- All containers that a candidate reaches were there, if all were that its container reaches. -/
theorem Candidate.holdsGraph (hs : base.GrowsTo s) (hgraph : base.HoldsGraph node)
    (h : Candidate s node accessor key part) : base.HoldsGraph part.2 := by
  cases node with
  | ref g =>
    have htext : s.isText (.ref g) = false := by
      rw [Store.isText, Store.kind]
      cases s.get? g with
      | none => rfl
      | some c => cases c <;> rfl
    have hpart := (hs.part_iff hgraph.holds).mp (Context.part_of_candidate htext h)
    exact hgraph.of_reaches hpart.reaches
  | scalar a =>
    cases h with
    | element _ he =>
      obtain ⟨b, rfl⟩ := s.elements_scalar a _ (Store.mem_elements_of_elementAt? he)
      exact fun y hy => hy.eq_of_scalar ▸ base.holds_scalar b
    | entry _ hc _ => cases hc
    | found _ hc _ _ => cases hc
    | attr hc _ => cases hc

theorem attrCandidates_of_grows (hs : base.GrowsTo s) (hholds : base.Holds node) (key : KeyPattern) :
    (attrCandidates key node s).1 = (attrCandidates key node base).1 := by
  have hattributed : s.isAttributed node = base.isAttributed node := by
    rw [Store.isAttributed, Store.isAttributed, (Store.SameSequence.of_grows hs hholds).kind]
  by_cases hbase : base.isAttributed node = true
  · rw [hbase] at hattributed
    cases hpattern : key.isPattern with
    | true =>
      rw [attrCandidates_pattern hpattern, attrCandidates_pattern hpattern, if_pos hattributed,
        if_pos hbase, hs.entries_eq hholds]
      refine List.filter_congr fun e he => ?_
      -- the keys of the entries are the names of the attributes
      obtain ⟨name, hname⟩ : ∃ name, e.1 = .str name := by
        rw [Store.entries] at he
        rcases Store.object_of_isAttributed hbase with ⟨_, attrs, _, hc⟩ | hc
        · rw [hc] at he
          obtain ⟨a, -, rfl⟩ := List.mem_map.mp he
          exact ⟨a.1, rfl⟩
        · rw [hc] at he
          cases he
      rw [hname]
      exact Store.keyMatches_scalar hpattern s base _
    | false =>
      obtain ⟨l, rfl⟩ := KeyPattern.exists_literal hpattern
      have hget (name : String) : s.attrGet? node name = base.attrGet? node name := by
        rw [Store.attrGet?, Store.attrGet?, hs.container?_eq hholds]
      rw [attrCandidates_literal hattributed, attrCandidates_literal hbase,
        Literal.text_of_shows (l.toValue_shows s).2 (l.toValue_shows base).2]
      dsimp only
      rw [hget]
  · rw [Bool.not_eq_true] at hbase
    rw [attrCandidates_nothing key hbase, attrCandidates_nothing key (hattributed.trans hbase)]

/-- What can be selected in a value that is no dict stays as it is while the store grows. -/
theorem candidates_of_grows (hs : base.GrowsTo s) (hholds : base.Holds node)
    (hkeyed : base.isKeyed node = false) (accessor : Accessor) (key : KeyPattern) :
    (candidates accessor key node s).1 = (candidates accessor key node base).1 := by
  have hsame := Store.SameSequence.of_grows hs hholds
  have hkeyed' : s.isKeyed node = false := by
    rw [Store.isKeyed, ← hsame.kind]
    exact hkeyed
  by_cases haccessor : accessor = .attr
  · rw [haccessor]
    exact attrCandidates_of_grows hs hholds key
  -- nothing is selected in a value of another kind, and a sequence keeps its elements
  cases hindexed : base.isIndexed node with
  | false =>
    have hnothing {r : Store} (hk : r.isKeyed node = false) (hi : r.isIndexed node = false) :
        candidates accessor key node r = ([], r) := by
      cases accessor with
      | attr => exact absurd rfl haccessor
      | key => exact keyedCandidates_nothing key hk hi
      | slot =>
        show slotCandidates key node r = ([], r)
        rw [slotCandidates_of_isIndexed_eq_false key hi, keyedCandidates_nothing key hk hi]
    rw [hnothing hkeyed hindexed, hnothing hkeyed' (hsame.isIndexed ▸ hindexed)]
  | true =>
    have hindexed' : s.isIndexed node = true := hsame.isIndexed ▸ hindexed
    cases hpattern : key.isPattern with
    | false =>
      obtain ⟨l, rfl⟩ := KeyPattern.exists_literal hpattern
      by_cases hint : ∃ i, l = .int i
      · obtain ⟨i, rfl⟩ := hint
        rw [candidates_int haccessor hindexed, candidates_int haccessor hindexed',
          hsame.elementAt?]
      · have hother : ∀ i, l ≠ .int i := fun i hi => hint ⟨i, hi⟩
        rw [candidates_of_no_index haccessor hkeyed hindexed hother,
          candidates_of_no_index haccessor hkeyed' hindexed' hother]
    | true =>
      cases accessor with
      | attr => exact absurd rfl haccessor
      | key =>
        show (keyedCandidates key node s).1 = (keyedCandidates key node base).1
        rw [keyedCandidates_pattern hpattern, keyedCandidates_pattern hpattern, hkeyed, hkeyed']
        rfl
      | slot =>
        show (slotCandidates key node s).1 = (slotCandidates key node base).1
        rw [slotCandidates_pattern hpattern, slotCandidates_pattern hpattern, if_pos hindexed,
          if_pos hindexed', Store.numbered, Store.numbered, hsame.elements]
        refine List.filter_congr fun e he => ?_
        obtain ⟨⟨x, i⟩, -, rfl⟩ := List.mem_map.mp he
        exact Store.keyMatches_scalar hpattern s base _

end

/-! ### Evaluations that edit nothing old -/

namespace Eval

variable {α : Type}

/-- The evaluation succeeds, and it edits only what has been added to the first store. -/
def KeepsOld (base : Store) (x : Eval α) (s : Store) : Prop :=
  ∃ a t, x s = (.ok a, t) ∧ base.GrowsTo t

theorem KeepsOld.bind {β : Type} {x : Eval α} {f : α → Eval β} (hx : KeepsOld base x s)
    (hf : ∀ a t, base.GrowsTo t → KeepsOld base (f a) t) : KeepsOld base (x >>= f) s := by
  obtain ⟨a, t, ha, ht⟩ := hx
  obtain ⟨b, u, hb, hu⟩ := hf a t ht
  exact ⟨b, u, by rw [run_bind_of_ok ha, hb], hu⟩

/-- If the answer is that there is none, then each of them has been tried. -/
theorem anyM_eq_false {p : α → Eval Bool} (hp : ∀ x, Grows (p x)) : ∀ {xs : List α} {s : Store},
    base.GrowsTo s → (xs.anyM p s).1 = .ok false →
    ∀ x ∈ xs, ∃ t, base.GrowsTo t ∧ (p x t).1 = .ok false
  | [], _, _, _ => nofun
  | x :: xs, s, hs, hnone => by
    obtain ⟨r, t, hrun⟩ : ∃ r t, p x s = (r, t) := ⟨_, _, rfl⟩
    have hst : s.GrowsTo t := by
      have hgrows := (hp x s).grows
      rwa [hrun] at hgrows
    rw [List.anyM] at hnone
    cases r with
    | error e =>
      rw [run_bind_of_error hrun] at hnone
      cases hnone
    | ok hit =>
      rw [run_bind_of_ok hrun] at hnone
      cases hit with
      | true => cases hnone
      | false =>
        exact List.forall_mem_cons.mpr ⟨⟨s, hs, by rw [hrun]⟩, anyM_eq_false hp (hs.trans hst) hnone⟩

end Eval

namespace Context

open Eval (Grows KeepsOld)

variable (ctx : Context) {seg : Segment} {segs : List Segment}

/-! ### The probe -/

/-- Without a filter a segment selects the same values in what is no dict, wherever the store has
grown to. -/
theorem items_of_grows (hseg : seg.Unfiltered) (hgraph : base.HoldsGraph node)
    (hkeyed : base.isKeyed node = false) :
    ∃ (accessor : Accessor) (found : List (Value × Value)), (∀ e ∈ found, base.HoldsGraph e.2) ∧
      ∀ s, base.GrowsTo s → ∃ t, base.GrowsTo t ∧
        ctx.items seg node s = (.ok (found.map fun e => (accessor.step t e.1, e.2)), t) := by
  obtain @⟨accessor, key, first, -⟩ := hseg
  refine ⟨accessor, firstOnly first (candidates accessor key node base).1, fun e he => ?_,
    fun s hs => ?_⟩
  · have hmem := (firstOnly_sublist first _).subset he
    obtain ⟨r, hr, -, hcandidate⟩ := candidates_cases accessor key base node e hmem
    exact hcandidate.holdsGraph hr hgraph
  · have hgrows := candidates_grows accessor key node s
    have hsame := candidates_of_grows hs hgraph.holds hkeyed accessor key
    obtain ⟨raw, t, hrun⟩ : ∃ raw t, candidates accessor key node s = (raw, t) := ⟨_, _, rfl⟩
    rw [hrun] at hgrows hsame
    exact ⟨t, hs.trans hgrows, by rw [ctx.items_of_candidates hrun, ← hsame]⟩

theorem items_unfiltered_grows (hseg : seg.Unfiltered) (node : Value) :
    Grows (ctx.items seg node) := by
  obtain @⟨accessor, key, first, -⟩ := hseg
  intro s
  have hgrows := candidates_grows accessor key node s
  obtain ⟨raw, t, hrun⟩ : ∃ raw t, candidates accessor key node s = (raw, t) := ⟨_, _, rfl⟩
  rw [hrun] at hgrows
  exact ⟨by rwa [ctx.items_of_candidates hrun], fun _ _ => trivial⟩

/-- The probe itself edits nothing. -/
theorem editsInPlace_grows : ∀ {segs : List Segment}, (∀ seg ∈ segs, seg.Unfiltered) →
    ∀ node, Grows (ctx.editsInPlace segs node)
  | [], _, _ => .pure false
  | seg :: segs, hall, node => by
    obtain ⟨hseg, hsegs⟩ := List.forall_mem_cons.mp hall
    rw [editsInPlace]
    refine Grows.store.bind fun s => ?_
    split
    · exact .pure true
    · split
      · exact .pure false
      · exact (ctx.items_unfiltered_grows hseg node).bind fun parts =>
          .anyM (fun p => editsInPlace_grows hsegs p.2) parts

/-- What the answer no says: the value cannot be edited, and it is the answer for all that is selected
in it. -/
theorem not_editsInPlace_cons (hseg : seg.Unfiltered) (hsegs : ∀ seg ∈ segs, seg.Unfiltered)
    (hs : base.GrowsTo s) (hgraph : base.HoldsGraph node)
    (hno : (ctx.editsInPlace (seg :: segs) node s).1 = .ok false) :
    base.isMutable node = false ∧ (segs ≠ [] → ∃ (accessor : Accessor) (found : List (Value × Value)),
      (∀ e ∈ found, base.HoldsGraph e.2 ∧
        ∃ t, base.GrowsTo t ∧ (ctx.editsInPlace segs e.2 t).1 = .ok false) ∧
      ∀ r, base.GrowsTo r → ∃ t, base.GrowsTo t ∧
        ctx.items seg node r = (.ok (found.map fun e => (accessor.step t e.1, e.2)), t)) := by
  have hmutable : base.isMutable node = false := by
    by_contra h
    rw [Bool.not_eq_false] at h
    rw [editsInPlace, Eval.run_bind_of_ok (Eval.run_store s), hs.isMutable_eq hgraph.holds,
      if_pos h] at hno
    cases hno
  refine ⟨hmutable, fun hne => ?_⟩
  have hkeyed := Store.isKeyed_of_not_isMutable hmutable
  obtain ⟨accessor, found, hfound, hitems⟩ := ctx.items_of_grows hseg hgraph hkeyed
  refine ⟨accessor, found, fun e he => ⟨hfound e he, ?_⟩, hitems⟩
  obtain ⟨t, ht, hrun⟩ := hitems s hs
  have hrest : segs.isEmpty ≠ true := by simpa using hne
  rw [editsInPlace, Eval.run_bind_of_ok (Eval.run_store s), hs.isMutable_eq hgraph.holds,
    hmutable, if_neg Bool.false_ne_true, if_neg hrest, Eval.run_bind_of_ok hrun] at hno
  exact Eval.anyM_eq_false (fun p : Step × Value => ctx.editsInPlace_grows hsegs p.2) ht hno _
    (List.mem_map_of_mem he)

/-! ### The update -/

/-- What is selected in a value that cannot be edited is edited and written into copies of it. -/
theorem editItems_keepsOld (accessor : Accessor) (r : Store) (edit : Value → Eval Value) :
    ∀ {found : List (Value × Value)},
    (∀ e ∈ found, ∀ s, base.GrowsTo s → KeepsOld base (edit e.2) s) →
    ∀ {now : Value} {s : Store}, base.isMutable now = false → base.GrowsTo s →
    KeepsOld base ((found.map fun e => (accessor.step r e.1, e.2)).foldlM (fun node (step, child) => do
      let child ← edit child
      (setChild node step child : StoreM Value)) now) s
  | [], _, now, s, _, hs => ⟨now, s, rfl, hs⟩
  | e :: found, hedit, now, s, hnow, hs => by
    obtain ⟨hhead, htail⟩ := List.forall_mem_cons.mp hedit
    rw [List.map_cons, List.foldlM_cons, bind_assoc]
    refine (hhead s hs).bind fun x t ht => ?_
    -- what takes the place of the value is either a copy or the value itself
    obtain ⟨hgrows, hnext⟩ := setChild_copiesOld ht hnow accessor r e.1 x
    obtain ⟨w, u, hrun, hu⟩ := editItems_keepsOld accessor r edit htail hnext hgrows
    exact ⟨w, u, by rw [Eval.run_bind_of_ok (Eval.run_lift _ t), hrun], hu⟩

/-- So is the value at the end of a path. -/
theorem upsert_keepsOld (hseg : seg.Unfiltered) (hgraph : base.HoldsGraph node)
    (hnode : base.isMutable node = false) (v : Value) (hs : base.GrowsTo s) :
    KeepsOld base (ctx.upsert seg node v) s := by
  have hkeyed := Store.isKeyed_of_not_isMutable hnode
  obtain ⟨accessor', found, -, hitems⟩ := ctx.items_of_grows hseg hgraph hkeyed
  obtain @⟨accessor, key, first, -⟩ := hseg
  cases hpattern : key.isPattern with
  | true =>
    obtain ⟨t, ht, hrun⟩ := hitems s hs
    have hv : ∀ e ∈ found, ∀ s, base.GrowsTo s → KeepsOld base (pure v : Eval Value) s :=
      fun _ _ s hs => ⟨v, s, rfl, hs⟩
    obtain ⟨w, u, hfold, hu⟩ := editItems_keepsOld accessor' t (fun _ => pure v) hv hnode ht
    refine ⟨w, u, ?_, hu⟩
    simp only [pure_bind] at hfold
    rw [ctx.upsert_of_isPattern hpattern, overwriteItems, Eval.run_bind_of_ok hrun]
    exact hfold
  | false =>
    obtain ⟨l, rfl⟩ := KeyPattern.exists_literal hpattern
    obtain ⟨hgrows, -⟩ := setChild_copiesOld (hs.trans (l.toValue_grows s)) hnode accessor
      (l.toValue s).2 (l.toValue s).1 v
    exact ⟨_, _, rfl, hgrows⟩

/-- What is built for the rest of a path is written where it is, in new containers. -/
theorem updateBuilt_keepsOld (hsegs : ∀ seg ∈ segs, seg.Unfiltered) (built : Bool) (v : Value)
    (hs : base.GrowsTo s) :
    KeepsOld base (ctx.buildDefault segs >>=
      (ctx.pathEdit segs .done).update built false (.value v)) s := by
  obtain ⟨d, r, hbuild, hnew, hd⟩ := ctx.buildDefault_tree hsegs s
  obtain ⟨u, t, hrun, hturns, -⟩ : ∃ u t,
      (ctx.pathEdit segs .done).update built false (.value v) d.value r = (.ok u.value, t) ∧
        Forest.Turns r [d] t [u] ∧ u.Settled t v segs := ctx.update_settled hsegs built hnew.lies hd
  refine ⟨u.value, t, ?_, hs.trans (hnew.trans hturns).grows⟩
  rw [Eval.run_bind_of_ok hbuild, hrun]

/-- **Where the answer is no, an update edits nothing that was there.**  It goes on from the parts of
the value, which were there before it and for which the answer is no as well, or from what it has
built. -/
theorem update_keepsOld : ∀ {segs : List Segment}, (∀ seg ∈ segs, seg.Unfiltered) →
    ∀ {node : Value}, base.HoldsGraph node → ∀ {r : Store}, base.GrowsTo r →
    (ctx.editsInPlace segs node r).1 = .ok false → ∀ (v : Value) {s : Store}, base.GrowsTo s →
    KeepsOld base ((ctx.pathEdit segs .done).update false false (.value v) node) s
  | [], _, _, _, _, _, _, v, s, hs => ⟨v, s, rfl, hs⟩
  | seg :: segs, hall, node, hgraph, r, hr, hno, v, s, hs => by
    obtain ⟨hseg, hsegs⟩ := List.forall_mem_cons.mp hall
    obtain ⟨hnode, hparts⟩ := ctx.not_editsInPlace_cons hseg hsegs hr hgraph hno
    rw [ctx.update_unfiltered hseg]
    by_cases henter : s.isEnterable node = true
    · cases segs with
      | nil =>
        obtain ⟨w, t, hrun, ht⟩ := ctx.upsert_keepsOld hseg hgraph hnode v hs
        refine ⟨w, t, ?_, ht⟩
        rw [updateParts, Eval.run_bind_of_ok (Eval.run_store s), henter]
        exact hrun
      | cons next segs =>
        obtain ⟨accessor, found, hfound, hitems⟩ := hparts (List.cons_ne_nil next segs)
        obtain ⟨t, ht, hrun⟩ := hitems s hs
        obtain ⟨hend, hstarts, hsegments⟩ :=
          ctx.rest_unfiltered (hsegs next (List.mem_cons_self ..)) segs
        rw [KeepsOld, ctx.updateParts_rest henter hend hstarts
          (ctx.selectsNothing_unfiltered hseg hrun)]
        split
        · -- Nothing is selected: the rest is built, written and put into a copy.
          rw [hsegments, ← bind_assoc]
          exact (ctx.updateBuilt_keepsOld hsegs true v ht).bind fun x u hu =>
            ctx.upsert_keepsOld hseg hgraph hnode x hu
        · obtain ⟨t', ht', hrun'⟩ := hitems t ht
          rw [Eval.run_bind_of_ok hrun']
          refine editItems_keepsOld accessor t' _ (fun e he s hs => ?_) hnode ht'
          obtain ⟨hpart, q, hq, hdenied⟩ := hfound e he
          by_cases hnull : e.2 = .null
          · rw [hnull, editPart_null]
            exact ctx.updateBuilt_keepsOld hsegs false v hs
          · rw [ctx.editPart_of_ne_null _ _ _ hnull]
            exact update_keepsOld hsegs hpart hq hdenied v hs
    · rw [Bool.not_eq_true] at henter
      refine ⟨node, s, ?_, hs⟩
      rw [updateParts, Eval.run_bind_of_ok (Eval.run_store s), henter]
      rfl

/-- **If the answer is no, an update succeeds, and all that was there is as it was.** -/
theorem update_of_not_editsInPlace (hsegs : ∀ seg ∈ segs, seg.Unfiltered) (hgraph : s.HoldsGraph node)
    (hno : (ctx.editsInPlace segs node s).1 = .ok false) (v : Value) :
    ∃ w t, ctx.update segs node (.value v) s = (.ok w, t) ∧ s.GrowsTo t :=
  ctx.update_keepsOld hsegs hgraph (.refl s) hno v (.refl s)

/-- **The answer no can be relied on along keys, attributes and slots**: an update of the path leaves
the root and all else that was there as it was, whatever comes of its transforms. -/
theorem updatePath_of_not_mutable (hreg : ctx.registry.Grows) {path : String} {e : PathExpression}
    (hparse : PathExpression.parse path = .ok e) (hsegs : ∀ seg ∈ e.segments, seg.Unfiltered)
    {root : Value} (hgraph : s.HoldsGraph root) (hno : (ctx.mutable root path s).1 = .ok false)
    (v : Value) : s.GrowsTo (ctx.updatePath (.value root) path (.value v) s).2 := by
  have hread : readPath path s = (.ok e, s) := by
    rw [readPath, hparse]
    rfl
  have hnames : e.segments.filter (fun seg => !seg.isRoot) = e.segments := by
    refine List.filter_eq_self.mpr fun seg hseg => ?_
    obtain ⟨-⟩ := hsegs seg hseg
    rfl
  rw [mutable, Eval.run_bind_of_ok hread, hnames] at hno
  have hgrows := (transform_grows hreg v e.transforms s).grows
  obtain ⟨r, t, htransform⟩ : ∃ r t, ctx.transform v e.transforms s = (r, t) := ⟨_, _, rfl⟩
  rw [htransform] at hgrows
  show s.GrowsTo ((readPath path >>= fun e => (Operand.value <$> ctx.transform v e.transforms) >>=
    fun val => (pure root : Eval Value) >>= fun node => ctx.update e.segments node val) s).2
  rw [Eval.run_bind_of_ok hread]
  cases r with
  | error err =>
    rw [map_eq_pure_bind, bind_assoc, Eval.run_bind_of_error htransform]
    exact hgrows
  | ok x =>
    obtain ⟨w, u, hrun, hu⟩ := ctx.update_keepsOld hsegs hgraph (.refl s) hno x hgrows
    rw [Eval.run_bind_of_ok (Eval.run_map_of_ok htransform), pure_bind, update, hrun]
    exact hu

/-! ### Groups and descents -/

/-- What is a path of its own selects nothing. -/
theorem items_of_isCompound : ∀ (seg : Segment), seg.isCompound = true → ∀ node s,
    ctx.items seg node s = (.ok [], s)
  | .recursive .., _, _, _ => rfl
  | .group .., _, _, _ => rfl
  | .nop inner, h, node, s => by
    rw [items]
    exact items_of_isCompound inner h node s
  | .guard inner test, h, node, s => by
    rw [items, Eval.run_bind_of_ok (items_of_isCompound inner h node s)]
    rfl
  | .restrict inner kinds, h, node, s => by
    rw [items, Eval.run_bind_of_ok (Eval.run_store s)]
    split
    · exact items_of_isCompound inner h node s
    · rfl

/-- **In front of a group or a descent the answer is that of the value alone**: the probe does not go
into them. -/
theorem editsInPlace_of_isCompound (hcompound : seg.isCompound = true) (segs : List Segment)
    (node : Value) (s : Store) :
    ctx.editsInPlace (seg :: segs) node s = (.ok (s.isMutable node), s) := by
  rw [editsInPlace, Eval.run_bind_of_ok (Eval.run_store s)]
  cases s.isMutable node with
  | true => rfl
  | false =>
    rw [if_neg Bool.false_ne_true]
    split
    · rfl
    · rw [Eval.run_bind_of_ok (ctx.items_of_isCompound seg hcompound node s)]
      rfl

/-- Yet the one branch of a group is written as the path that goes through it, for which the probe may
answer yes. -/
theorem update_branch {rest : List Segment} (hsegs : ∀ seg ∈ segs, seg.Unfiltered) {found : List Found}
    (hfind : ctx.find (segs ++ rest) node s = (.ok found, t)) (hne : found ≠ []) (val : Operand) :
    ctx.update (.group .or [.mk segs .none] false :: rest) node val s =
      ctx.update (segs ++ rest) node val t := by
  let branch : Branch × Edit := (.mk segs .none, ctx.pathEdit (segs ++ rest) .done)
  have hgroup : ctx.segmentEdit (.group .or [.mk segs .none] false) (ctx.pathEdit rest .done) =
      ctx.disjunctionEdit [branch] false := by
    have hbranch : branch = (.mk segs .none, ctx.pathEdit segs (ctx.pathEdit rest .done)) := by
      rw [← pathEdit_append]
    rw [hbranch]
    cases segs with
    | nil => rfl
    | cons seg segs =>
      obtain ⟨-⟩ := hsegs seg (List.mem_cons_self ..)
      rfl
  have hlocations : ctx.locationsOutside [] (segs ++ rest) node s = (.ok (found.map Prod.fst), t) := by
    rw [locationsOutside, locations, bind_assoc, Eval.run_bind_of_ok hfind]
    show (Except.ok ((found.map Prod.fst).filter fun _ => true), t) = _
    rw [List.filter_true]
  have hsome : (found.map Prod.fst).isEmpty = false := by simpa using hne
  have hmatching : ctx.updateMatching (.ofPath false false) val [branch] [] node s =
      (do
        let node ← ctx.update (segs ++ rest) node val
        pure (node, true) : Eval (Value × Bool)) t := by
    rw [updateMatching, ctx.segments_pathEdit_done, Eval.run_bind_of_ok hlocations, hsome]
    rfl
  show (ctx.segmentEdit (.group .or [.mk segs .none] false) (ctx.pathEdit rest .done)).update
    (.ofPath false false) val node s = _
  rw [hgroup]
  show (ctx.updateMatching (.ofPath false false) val [branch] [] node >>= fun p =>
    if p.2 then pure p.1 else updateFallback [branch] (.ofPath false false) val p.1) s = _
  rw [Eval.run_bind_congr hmatching, bind_assoc]
  simp only [pure_bind, if_true, bind_pure]

end Context

end DottedPath
