import DottedPath.Proofs.Evaluate.Projection
import DottedPath.Proofs.Query.GroupCreation

/-!
# Soft cuts between branches that are apart

Behind a soft cut a branch is not written along its own path, but along literal paths to the places
where it was found outside of what is cut.  For paths that pin down one place, and that are written
there as its literal path is, this makes no difference if the places are apart.  An append is no
such path: it is found at the last element.

## Main statements

- `Context.find_pins`: a path that pins down a place finds nothing, or just this place.
- `Context.update_of_found`: where it finds its place it writes what the literal path writes.
- `Context.update_soft_cuts`: soft cuts change nothing between branches that are apart.
- `Context.update_soft_cuts_of_keys`: alternatives of text keys are updated alike with soft cuts and
  without.
- `Context.update_append_behind_cut`: behind a soft cut an append writes over the last element.
-/

namespace DottedPath

namespace Step

/-- Named by a scalar or a text, or a slice of a part of a sequence. -/
def Named : Step → Prop
  | .key (.scalar _) => True
  | .slot (.scalar _) => True
  | .attr _ => True
  | .slice range => range ≠ .full
  | _ => False

variable {st : Step}

/-- The segment of such a step is the same in every store. -/
theorem Named.segment_eq (h : st.Named) (s t : Store) : st.segment t = st.segment s := by
  cases st with
  | key k =>
    cases k with
    | scalar x => rfl
    | ref g => cases h
  | slot k =>
    cases k with
    | scalar x => rfl
    | ref g => cases h
  | attr name => rfl
  | slice range => rfl
  | root => rfl
  | invert => rfl

theorem Named.not_fullSlice (h : st.Named) : st.isFullSlice = false := by
  cases st with
  | slice range => exact beq_eq_false_iff_ne.mpr h
  | _ => rfl

end Step

namespace Context

variable (ctx : Context)

/-- A scalar names one candidate at most, and nothing is created for it. -/
theorem keyedCandidates_scalar (x : Scalar) (node : Value) (s : Store) :
    ∃ o : Option Value, candidates .key (.literal (.scalar x)) node s =
      ((o.map fun v => (Value.scalar x, v)).toList, s) := by
  show ∃ o : Option Value, keyedCandidates (.literal (.scalar x)) node s = _
  rw [keyedCandidates, StoreM.run_bind, StoreM.run_get]
  dsimp only
  split
  · exact ⟨s.dictGet? node (.scalar x), rfl⟩
  · split
    · cases x with
      | int i => exact ⟨s.elementAt? node i, rfl⟩
      | _ => exact ⟨none, rfl⟩
    · exact ⟨none, rfl⟩

theorem slotCandidates_scalar (x : Scalar) (node : Value) (s : Store) :
    ∃ o : Option Value, candidates .slot (.literal (.scalar x)) node s =
      ((o.map fun v => (Value.scalar x, v)).toList, s) := by
  show ∃ o : Option Value, slotCandidates (.literal (.scalar x)) node s = _
  rw [slotCandidates, StoreM.run_bind, StoreM.run_get]
  dsimp only
  split
  · cases x with
    | int i => exact ⟨s.elementAt? node i, rfl⟩
    | _ => exact ⟨none, rfl⟩
  · exact keyedCandidates_scalar x node s

theorem attrCandidates_str (name : String) (node : Value) (s : Store) :
    ∃ o : Option Value, candidates .attr (.literal (.str name)) node s =
      ((o.map fun v => (Value.str name, v)).toList, s) := by
  show ∃ o : Option Value, attrCandidates (.literal (.str name)) node s = _
  rw [attrCandidates, StoreM.run_bind, StoreM.run_get]
  dsimp only
  split
  · exact ⟨s.attrGet? node name, rfl⟩
  · exact ⟨none, rfl⟩

theorem items_of_scalar {accessor : Accessor} {x : Scalar} {st : Step} {node : Value} {s : Store}
    {o : Option Value} (ho : candidates accessor (.literal (.scalar x)) node s =
      ((o.map fun v => (Value.scalar x, v)).toList, s))
    (hstep : ∀ s : Store, accessor.step s (.scalar x) = st) :
    ctx.items (.literal accessor (.scalar x)) node s =
      (.ok (o.map fun v => (st, v)).toList, s) := by
  rw [Segment.literal, ctx.items_of_candidates ho]
  cases o with
  | none => rfl
  | some v =>
    show (Except.ok [(accessor.step s (.scalar x), v)], s) = _
    rw [hstep]
    rfl

/-- The segment of a step selects one part at most, by this step.  Only for a slice something is
created. -/
theorem items_named {st : Step} (h : st.Named) (s₀ : Store) (node : Value) (s : Store) :
    ∃ (o : Option Value) (t : Store),
      ctx.items (st.segment s₀) node s = (.ok (o.map fun v => (st, v)).toList, t) ∧
      (st.descends = true → t = s) := by
  cases st with
  | key k =>
    cases k with
    | ref g => cases h
    | scalar x =>
      obtain ⟨o, ho⟩ := keyedCandidates_scalar x node s
      exact ⟨o, s, ctx.items_of_scalar ho fun _ => rfl, fun _ => rfl⟩
  | slot k =>
    cases k with
    | ref g => cases h
    | scalar x =>
      obtain ⟨o, ho⟩ := slotCandidates_scalar x node s
      exact ⟨o, s, ctx.items_of_scalar ho fun _ => rfl, fun _ => rfl⟩
  | attr name =>
    obtain ⟨o, ho⟩ := attrCandidates_str name node s
    exact ⟨o, s, ctx.items_of_scalar ho fun _ => rfl, fun _ => rfl⟩
  | slice range =>
    show ∃ o t, ctx.items (.slice range) node s = _ ∧ _
    rw [items, Eval.run_bind_of_ok (Eval.run_store s)]
    split
    · exact ⟨some (sliceOf range node s).1, (sliceOf range node s).2,
        Eval.run_bind_of_ok (Eval.run_lift (sliceOf range node) s), fun h => by cases h⟩
    · exact ⟨none, s, rfl, fun _ => rfl⟩
  | root => cases h
  | invert => cases h

end Context

/-! ### Paths that pin down a place -/

/-- A segment that leads to one part at most, by a given step: that of the step itself, or with a
guard on the part that needs no transform. -/
inductive Segment.Pins : Segment → Step → Prop
  | step {st : Step} (s : Store) (h : st.Named) : Pins (st.segment s) st
  | guard {st : Step} {test : ValueTest} (s : Store) (h : st.Named) (hdescends : st.descends = true)
    (htransforms : test.transforms = []) : Pins (.guard (st.segment s) test) st

namespace Context

variable (ctx : Context) {seg : Segment} {segs : List Segment} {st : Step} {l : Location}

/-- A guard without transforms only looks at the value. -/
theorem guardHolds_plain {test : ValueTest} (h : test.transforms = []) (v : Value) (s : Store) :
    ∃ b, ctx.guardHolds test v s = (.ok b, s) := by
  refine ⟨s.compares test.comparison test.pattern v != (test.comparison == .ne), ?_⟩
  have htest : ctx.testHolds test v s =
      (.ok (s.compares test.comparison test.pattern v), s) := by
    rw [testHolds, h]
    rfl
  rw [guardHolds, Eval.run_bind_of_ok htest]
  rfl

/-- Behind a guard there is what is there without, or nothing. -/
theorem items_guard {test : ValueTest} {inner : Segment} {o : Option Value} {node : Value}
    {s : Store} (htransforms : test.transforms = [])
    (hitems : ctx.items inner node s = (.ok (o.map fun v => (st, v)).toList, s)) :
    ∃ o' : Option Value, ctx.items (.guard inner test) node s =
      (.ok (o'.map fun v => (st, v)).toList, s) ∧ ∀ v, o' = some v → o = some v := by
  rw [items, Eval.run_bind_of_ok hitems]
  cases o with
  | none => exact ⟨none, rfl, fun _ h => by cases h⟩
  | some v =>
    obtain ⟨b, hguard⟩ := ctx.guardHolds_plain htransforms v s
    rw [Option.map_some, Option.toList_some, Eval.filterM_cons, Eval.run_bind_of_ok hguard]
    cases b with
    | false => exact ⟨none, rfl, fun _ h => by cases h⟩
    | true => exact ⟨some v, rfl, fun _ h => h⟩

/-- Only one part is selected, by the step. -/
theorem items_pins (h : seg.Pins st) (node : Value) (s : Store) :
    ∃ (o : Option Value) (t : Store), ctx.items seg node s =
      (.ok (o.map fun v => (st, v)).toList, t) ∧ (st.descends = true → t = s) := by
  cases h with
  | step s₀ h => exact ctx.items_named h s₀ node s
  | guard s₀ h hdescends htransforms =>
    obtain ⟨o, t, hitems, ht⟩ := ctx.items_named h s₀ node s
    rw [ht hdescends] at hitems
    obtain ⟨o', hitems', -⟩ := ctx.items_guard htransforms hitems
    exact ⟨o', s, hitems', fun _ => rfl⟩

theorem walkSegment_pins (h : seg.Pins st) (next : Walk) (base : Location) (node : Value) :
    ctx.walkSegment seg next base node =
      (ctx.items seg node >>= fun parts => next.each base (placesOf parts)) := by
  have hcompound (s : Store) : (st.segment s).isCompound = false := by
    cases st <;> rfl
  cases h with
  | step s h => cases st <;> rfl
  | guard s h _ _ =>
    rw [walkSegment, hcompound]
    rfl

/-- Where the first segment selects nothing the path finds nothing. -/
theorem walkPath_cons_of_nothing {base : Location} {node : Value} {s t : Store} (h : seg.Pins st)
    (hitems : ctx.items seg node s = (.ok [], t)) :
    ctx.walkPath (seg :: segs) Walk.done base node s = (.ok .nothing, t) := by
  rw [walkPath, walkSegment_pins ctx h, Eval.run_bind_of_ok hitems]
  rfl

/-- Where it selects a part the path finds what the rest finds in it. -/
theorem walkPath_cons_of_part {base : Location} {node child : Value} {s t u : Store}
    {o : Option Value} (h : seg.Pins st) (hitems : ctx.items seg node s = (.ok [(st, child)], t))
    (hrest : ctx.walkPath segs Walk.done (base ++ [st]) child t =
      (.ok ⟨(o.map fun v => (base ++ [st] ++ l, v)).toList, false⟩, u)) :
    ctx.walkPath (seg :: segs) Walk.done base node s =
      (.ok ⟨(o.map fun v => (base ++ st :: l, v)).toList, false⟩, u) := by
  rw [walkPath, walkSegment_pins ctx h, Eval.run_bind_of_ok hitems]
  show (Walk.each _ base [([st], child)]) t = _
  rw [Walk.each, Eval.run_bind_of_ok hrest, if_neg Bool.false_ne_true]
  simp [Walk.each, Eval.run_bind_of_ok (Eval.run_pure _ u), Eval.run_pure, Visit.nothing]

/-- **A path that pins down a place finds nothing, or just this place.** -/
theorem walkPath_pins (h : List.Forall₂ Segment.Pins segs l) : ∀ (node : Value) (s : Store),
    ∃ (o : Option Value) (t : Store), (∀ base, ctx.walkPath segs Walk.done base node s =
      (.ok ⟨(o.map fun v => (base ++ l, v)).toList, false⟩, t)) ∧
      ((∀ st ∈ l, st.descends = true) → t = s) := by
  induction h with
  | nil =>
    intro node s
    exact ⟨some node, s, fun base => by rw [List.append_nil]; rfl, fun _ => rfl⟩
  | @cons seg st segs l hseg _ ih =>
    intro node s
    obtain ⟨o, t, hitems, ht⟩ := ctx.items_pins hseg node s
    cases o with
    | none =>
      exact ⟨none, t, fun base => ctx.walkPath_cons_of_nothing hseg hitems,
        fun hall => ht (hall st (List.mem_cons_self ..))⟩
    | some child =>
      obtain ⟨o', u, hrest, hu⟩ := ih child t
      refine ⟨o', u, fun base => ctx.walkPath_cons_of_part hseg hitems (hrest _), fun hall => ?_⟩
      obtain ⟨hhead, htail⟩ := List.forall_mem_cons.mp hall
      rw [hu htail, ht hhead]

theorem find_pins (h : List.Forall₂ Segment.Pins segs l) (node : Value) (s : Store) :
    ∃ (o : Option Value) (t : Store),
      ctx.find segs node s = (.ok (o.map fun v => (l, v)).toList, t) ∧
      ((∀ st ∈ l, st.descends = true) → t = s) := by
  obtain ⟨o, t, hwalk, ht⟩ := ctx.walkPath_pins h node s
  refine ⟨o, t, ?_, ht⟩
  rw [find, Eval.run_bind_of_ok (hwalk [])]
  rfl

/-! ### Writes at a place -/

/-- The segment of a step is written as it stands. -/
theorem segmentEdit_step (s : Store) (st : Step) (rest : Edit) :
    ctx.segmentEdit (st.segment s) rest = ctx.plainEdit (st.segment s) rest := by
  cases st <;> rfl

/-- The edit of a literal path is that of its segments. -/
theorem pathEdit_path (s : Store) (rest : Edit) : ∀ l : List Step,
    ctx.pathEdit (Location.path s l) rest = ctx.plainPathEdit (Location.path s l) rest
  | [] => rfl
  | st :: l => by
    show (ctx.pathEdit (Location.path s l) rest).cons (st.segment s)
      (ctx.segmentEdit (st.segment s) (ctx.pathEdit (Location.path s l) rest)) = _
    rw [segmentEdit_step, pathEdit_path s rest l]
    rfl

theorem upsert_named (h : st.Named) (s₀ : Store) (node v : Value) (s : Store) :
    ctx.upsert (st.segment s₀) node v s = (liftM (setChild node st v) : Eval Value) s := by
  cases st with
  | key k =>
    cases k with
    | scalar x => exact ctx.upsert_literal .key (.scalar x) false node v s
    | ref g => cases h
  | slot k =>
    cases k with
    | scalar x => exact ctx.upsert_literal .slot (.scalar x) false node v s
    | ref g => cases h
  | attr name => exact ctx.upsert_literal .attr (.str name) false node v s
  | slice range => rfl
  | root => cases h
  | invert => cases h

theorem selectsNothing_named {v : Value} (h : st.Named) (hdescends : st.descends = true)
    {s₀ : Store} {node : Value} {s : Store}
    (hitems : ctx.items (st.segment s₀) node s = (.ok [(st, v)], s)) :
    ctx.selectsNothing (st.segment s₀) node s = (.ok false, s) := by
  have haccess : ctx.selectsNothing (st.segment s₀) node =
      (do pure (← ctx.items (st.segment s₀) node).isEmpty) := by
    cases st with
    | key k => rfl
    | slot k => rfl
    | attr name => rfl
    | slice range => cases hdescends
    | root => cases h
    | invert => cases h
  rw [haccess, Eval.run_bind_of_ok hitems]
  rfl

/-- A segment selects one part, and a write of it goes to this part. -/
structure SelectsPart (seg : Segment) (st : Step) (child node : Value) (s : Store) : Prop where
  items : ctx.items seg node s = (.ok [(st, child)], s)
  selects : ctx.selectsNothing seg node s = (.ok false, s)
  upsert : ∀ v, ctx.upsert seg node v s = (liftM (setChild node st v) : Eval Value) s

/-- What a segment with a guard selects is selected without it. -/
theorem selectsPart_of_pins {child node : Value} {s : Store} (h : seg.Pins st)
    (hdescends : st.descends = true) (s₀ : Store)
    (hitems : ctx.items seg node s = (.ok [(st, child)], s)) :
    ctx.SelectsPart seg st child node s ∧ ctx.SelectsPart (st.segment s₀) st child node s := by
  have hstep {s₁ : Store} (hnamed : st.Named)
      (hitems : ctx.items (st.segment s₁) node s = (.ok [(st, child)], s)) :
      ctx.SelectsPart (st.segment s₁) st child node s :=
    ⟨hitems, ctx.selectsNothing_named hnamed hdescends hitems,
      fun v => ctx.upsert_named hnamed s₁ node v s⟩
  cases h with
  | step s₁ hnamed =>
    have hpart := hstep hnamed hitems
    refine ⟨hpart, ?_⟩
    rwa [hnamed.segment_eq s₁ s₀]
  | @guard _ test s₁ hnamed _ htransforms =>
    obtain ⟨o, t, hinner, ht⟩ := ctx.items_named hnamed s₁ node s
    rw [ht hdescends] at hinner
    obtain ⟨o', hguarded, hsome⟩ := ctx.items_guard htransforms hinner
    have ho' : o' = some child := by
      rw [hitems] at hguarded
      cases o' with
      | none => cases hguarded
      | some v =>
        cases hguarded
        rfl
    rw [hsome child ho'] at hinner
    have hpart := hstep hnamed hinner
    refine ⟨⟨hitems, hpart.selects, fun v => ?_⟩, ?_⟩
    · show ctx.overwriteItems (.guard (st.segment s₁) test) node v s = _
      rw [overwriteItems, Eval.run_bind_of_ok hitems, List.foldlM_cons]
      simp only [List.foldlM_nil, bind_pure]
    · rwa [hnamed.segment_eq s₁ s₀]

/-- A write through a segment that selects one part, step by step. -/
theorem SelectsPart.updateParts {child node : Value} {s : Store} {rest : Edit}
    (h : ctx.SelectsPart seg st child node s) (hnull : rest.isEnd = false → child ≠ .null)
    (mode : UpdateMode) (val : Operand) :
    ctx.updateParts seg rest mode val node s =
      if !s.isEnterable node then (.ok node, s)
      else if rest.isEnd then
        if mode.silent then (.ok node, s)
        else (liftM (setChild node st val.written) : Eval Value) s
      else (rest.update mode.built mode.restSilent val child >>= fun w =>
        (liftM (setChild node st w) : Eval Value)) s := by
  rw [Context.updateParts, Eval.run_bind_of_ok (Eval.run_store s)]
  split
  · rfl
  split
  · split
    · rfl
    · exact h.upsert _
  · next hend =>
    rw [Eval.run_bind_of_ok h.selects, Bool.and_false, if_neg Bool.false_ne_true,
      Eval.run_bind_of_ok h.items, List.foldlM_cons]
    simp only [List.foldlM_nil, bind_pure]
    split
    · exact absurd rfl (hnull (by simpa using hend))
    · rw [pure_bind]

theorem candidates_null (accessor : Accessor) (key : KeyPattern) (s : Store) :
    candidates accessor key .null s = ([], s) := by
  cases accessor <;> rfl

/-- Null has no parts. -/
theorem items_null (h : st.Named) (s₀ s : Store) :
    ctx.items (st.segment s₀) .null s = (.ok [], s) := by
  cases st with
  | key k =>
    cases k with
    | scalar x => exact ctx.items_of_candidates (candidates_null _ _ s)
    | ref g => cases h
  | slot k =>
    cases k with
    | scalar x => exact ctx.items_of_candidates (candidates_null _ _ s)
    | ref g => cases h
  | attr name => exact ctx.items_of_candidates (candidates_null _ _ s)
  | slice range => rfl
  | root => cases h
  | invert => cases h

/-- A value that a path finds something in is not null. -/
theorem ne_null_of_items {child node : Value} {s : Store} (h : seg.Pins st)
    (hitems : ctx.items seg node s = (.ok [(st, child)], s)) : node ≠ .null := by
  rintro rfl
  cases h with
  | step s₀ hnamed =>
    rw [ctx.items_null hnamed] at hitems
    cases hitems
  | guard s₀ hnamed _ _ =>
    rw [items, Eval.run_bind_of_ok (ctx.items_null hnamed s₀ s)] at hitems
    cases hitems

theorem segmentEdit_pins (h : seg.Pins st) (hdescends : st.descends = true) (rest : Edit) :
    ctx.segmentEdit seg rest = ctx.partsEdit seg rest := by
  cases h with
  | step s₀ hnamed =>
    rw [segmentEdit_step]
    cases st with
    | key k => rfl
    | slot k => rfl
    | attr name => rfl
    | slice range => cases hdescends
    | root => cases hnamed
    | invert => cases hnamed
  | guard s₀ _ _ _ => cases st <;> rfl

/-- What a path finds is found by its rest in the part that its first segment selects. -/
theorem find_cons_pins {node v : Value} {s : Store} (hseg : seg.Pins st)
    (hsegs : List.Forall₂ Segment.Pins segs l) (hdescends : ∀ st' ∈ st :: l, st'.descends = true)
    (hfind : ctx.find (seg :: segs) node s = (.ok [(st :: l, v)], s)) :
    ∃ child, ctx.items seg node s = (.ok [(st, child)], s) ∧
      ctx.find segs child s = (.ok [(l, v)], s) := by
  obtain ⟨hhead, hrest⟩ := List.forall_mem_cons.mp hdescends
  obtain ⟨o, t, hitems, ht⟩ := ctx.items_pins hseg node s
  rw [ht hhead] at hitems
  cases o with
  | none =>
    rw [find, Eval.run_bind_of_ok (ctx.walkPath_cons_of_nothing hseg hitems)] at hfind
    cases hfind
  | some child =>
    obtain ⟨o', u, hwalk, hu⟩ := ctx.walkPath_pins hsegs child s
    rw [hu hrest] at hwalk
    rw [find, Eval.run_bind_of_ok (ctx.walkPath_cons_of_part hseg hitems (hwalk _))] at hfind
    refine ⟨child, hitems, ?_⟩
    rw [find, Eval.run_bind_of_ok (hwalk [])]
    cases o' with
    | none => cases hfind
    | some w =>
      cases hfind
      rfl

/-- **Where a path without slices finds its place, it writes what the literal path writes.** -/
theorem update_of_found (h : List.Forall₂ Segment.Pins segs l)
    (hdescends : ∀ st ∈ l, st.descends = true) (s₀ : Store) (val : Operand) :
    ∀ {node v : Value} {s : Store} (built silent : Bool),
      ctx.find segs node s = (.ok [(l, v)], s) →
      (ctx.pathEdit segs .done).update built silent val node s =
        (ctx.pathEdit (Location.path s₀ l) .done).update built silent val node s := by
  induction h with
  | nil => exact fun _ _ _ => rfl
  | @cons seg st segs l hseg hsegs ih =>
    intro node v s built silent hfind
    obtain ⟨hhead, hrest⟩ := List.forall_mem_cons.mp hdescends
    obtain ⟨child, hitems, hchild⟩ := ctx.find_cons_pins hseg hsegs hdescends hfind
    obtain ⟨hpart, hpart'⟩ := ctx.selectsPart_of_pins hseg hhead s₀ hitems
    have hnamed : st.Named := by cases hseg <;> assumption
    have hend : (ctx.pathEdit segs .done).isEnd =
        (ctx.pathEdit (Location.path s₀ l) .done).isEnd := by
      cases hsegs <;> rfl
    -- nothing is found in null, so the child is not replaced by something built
    have hnull : (ctx.pathEdit segs .done).isEnd = false → child ≠ .null := by
      intro hmore
      cases hsegs with
      | nil => exact nomatch (show true = false from hmore)
      | cons hseg' hsegs' =>
        obtain ⟨child', hitems', -⟩ := ctx.find_cons_pins hseg' hsegs' hrest hchild
        exact ctx.ne_null_of_items hseg' hitems'
    show (ctx.segmentEdit seg (ctx.pathEdit segs .done)).update (.ofPath built silent) val node s =
      (ctx.segmentEdit (st.segment s₀) (ctx.pathEdit (Location.path s₀ l) .done)).update
        (.ofPath built silent) val node s
    rw [segmentEdit_pins ctx hseg hhead, segmentEdit_pins ctx (.step s₀ hnamed) hhead]
    show ctx.updateParts seg _ _ val node s = ctx.updateParts (st.segment s₀) _ _ val node s
    rw [hpart.updateParts ctx hnull, hpart'.updateParts ctx (hend ▸ hnull), hend]
    split
    · rfl
    · split
      · rfl
      · exact Eval.run_bind_congr (ih hrest built silent hchild) _

end Context

/-! ### Branches behind cuts -/

/-- A path that pins down a place and that is written there as the literal path is. -/
structure Pinpoints (segs : List Segment) (l : Location) : Prop where
  pins : List.Forall₂ Segment.Pins segs l
  simple : (∀ st ∈ l, st.descends = true) ∨ ∃ s, segs = Location.path s l

/-- In no store do the locations overlap. -/
def Location.Apart (l m : Location) : Prop :=
  ∀ s, Location.overlaps s l m = false

/-- The branch without its cut. -/
def Branch.uncut (b : Branch) : Branch :=
  .mk b.segments .none

theorem Segment.Pins.named {seg : Segment} {st : Step} (h : seg.Pins st) : st.Named := by
  cases h <;> assumption

theorem Segment.Pins.hasNop {seg : Segment} {st : Step} (h : seg.Pins st) : seg.hasNop = false := by
  cases h <;> cases st <;> rfl

namespace Pinpoints

variable {segs : List Segment} {l : Location}

theorem named (h : Pinpoints segs l) : ∀ st ∈ l, st.Named := by
  have hpins := h.pins
  clear h
  induction hpins with
  | nil => exact nofun
  | cons hseg _ ih => exact List.forall_mem_cons.mpr ⟨hseg.named, ih⟩

theorem path_eq (h : Pinpoints segs l) (s t : Store) : Location.path t l = Location.path s l :=
  List.map_congr_left fun st hst => (h.named st hst).segment_eq s t

theorem hasNop (h : Pinpoints segs l) : segs.any Segment.hasNop = false := by
  have hpins := h.pins
  clear h
  induction hpins with
  | nil => rfl
  | cons hseg _ ih => rw [List.any_cons, hseg.hasNop, ih, Bool.or_false]

end Pinpoints

namespace Context

variable (ctx : Context) {segs : List Segment} {l : Location}

/-- The edit of a place is that of its literal path. -/
theorem elementEdit_named (h : ∀ st ∈ l, st.Named) (s : Store) :
    ctx.elementEdit l .done s = (.ok (ctx.pathEdit (Location.path s l) .done), s) := by
  have hsteps : l.filter (fun step => !step.isFullSlice) = l :=
    List.filter_eq_self.mpr fun st hst => by rw [(h st hst).not_fullSlice, Bool.not_false]
  rw [elementEdit, hsteps, pathEdit_path]
  rfl

/-- **A path that finds its place writes there what the edit of the place does.** -/
theorem update_element (h : Pinpoints segs l) {node v : Value} {s t : Store}
    (hfind : ctx.find segs node s = (.ok [(l, v)], t)) (built silent : Bool) (val : Operand) :
    (ctx.elementEdit l .done >>= fun e => e.update built silent val node) t =
      (ctx.pathEdit segs .done).update built silent val node t := by
  rw [Eval.run_bind_of_ok (ctx.elementEdit_named h.named t)]
  rcases h.simple with hdescends | ⟨s₀, rfl⟩
  · obtain ⟨o, u, hfound, hu⟩ := ctx.find_pins h.pins node s
    have ht : t = s := by
      rw [hfind] at hfound
      exact (congrArg Prod.snd hfound).trans (hu hdescends)
    subst ht
    exact (ctx.update_of_found h.pins hdescends t val built silent hfind).symm
  · rw [h.path_eq s₀ t]

/-- A branch of a group in front of the rest of a path pins down a place, without a hard cut. -/
structure SoftBranch (more : List Segment) (b : Branch) (l : Location) : Prop where
  pinpoints : Pinpoints (b.segments ++ more) l
  cut : b.cut ≠ .hard

theorem SoftBranch.isSilent {more : List Segment} {b : Branch} (h : SoftBranch more b l) :
    b.isSilent = false := by
  have hnop := h.pinpoints.hasNop
  rw [List.any_append, Bool.or_eq_false_iff] at hnop
  exact hnop.1

/-- What is apart from all that is hidden is found as if nothing were. -/
theorem locationsOutside_of_apart (h : Pinpoints segs l) {hidden : List Location}
    (hhidden : ∀ m ∈ hidden, m.Apart l) (node : Value) (s : Store) :
    ∃ (o : Option Value) (t : Store),
      ctx.find segs node s = (.ok (o.map fun v => (l, v)).toList, t) ∧
      ctx.locationsOutside hidden segs node s = (.ok (o.map fun _ => l).toList, t) := by
  obtain ⟨o, t, hfind, -⟩ := ctx.find_pins h.pins node s
  refine ⟨o, t, hfind, ?_⟩
  have hlocations : ctx.locations segs node s = (.ok (o.map fun _ => l).toList, t) := by
    rw [locations, Eval.run_bind_of_ok hfind]
    cases o <;> rfl
  rw [locationsOutside, Eval.run_bind_of_ok hlocations, Eval.run_bind_of_ok (Eval.run_store t)]
  have hany : (hidden.any fun m => m.overlaps t l) = false := by
    rw [List.any_eq_false]
    intro m hm
    simp [hhidden m hm t]
  cases o with
  | none => rfl
  | some v =>
    rw [Option.map_some, Option.toList_some, List.filter_cons_of_pos (by simp [hany])]
    rfl

/-- What a branch that is found writes, and then the branches behind it. -/
theorem updateMatching_of_found {mode : UpdateMode} {val : Operand} {b : Branch} {e : Edit}
    {bs : List (Branch × Edit)} {hidden found : List Location} {node : Value} {s t : Store}
    {w : Eval Value} (hfound : found ≠ [])
    (houtside : ctx.locationsOutside hidden e.segments node s = (.ok found, t))
    (hcut : b.cut ≠ .hard)
    (hwrite : (if hidden.isEmpty then e.update mode.built mode.silent val node
      else found.foldlM (fun node l => do
        (← ctx.elementEdit l .done).update mode.built (mode.silent || b.isSilent) val node) node)
      t = w t) :
    ctx.updateMatching mode val ((b, e) :: bs) hidden node s = (w >>= fun node =>
      ctx.updateMatching mode val bs (if b.cut == .soft then hidden ++ found else hidden) node >>=
        fun p => pure (p.1, true)) t := by
  have hempty : ¬found.isEmpty = true := by simpa using hfound
  have hhard : ¬(b.cut == .hard) = true := by simpa using hcut
  rw [updateMatching, Eval.run_bind_of_ok houtside, if_neg hempty]
  simp only [if_neg hhard]
  split at hwrite
  · next hhidden =>
    rw [if_pos hhidden]
    exact Eval.run_bind_congr hwrite _
  · next hhidden =>
    rw [if_neg hhidden]
    exact Eval.run_bind_congr hwrite _

/-- **Soft cuts do not change what is written to the branches**, if their places are apart. -/
theorem updateMatching_soft (mode : UpdateMode) (val : Operand) (more : List Segment) :
    ∀ {bs : List Branch} {ls hidden : List Location}, List.Forall₂ (SoftBranch more) bs ls →
      ls.Pairwise Location.Apart → (∀ m ∈ hidden, ∀ l ∈ ls, m.Apart l) → ∀ node,
      ctx.updateMatching mode val (ctx.branchEdits bs (ctx.pathEdit more .done)) hidden node =
        ctx.updateMatching mode val
          (ctx.branchEdits (bs.map Branch.uncut) (ctx.pathEdit more .done)) [] node
  | [], _, _, _, _, _, _ => rfl
  | .mk segs cut :: bs, l :: ls, hidden, .cons hb hbs, hapart, hhidden, node => by
    obtain ⟨happly, hapart⟩ := List.pairwise_cons.mp hapart
    have hpinpoints : Pinpoints (segs ++ more) l := hb.pinpoints
    have hbehind : ∀ m ∈ hidden, ∀ l' ∈ ls, m.Apart l' := fun m hm l' hl' =>
      hhidden m hm l' (List.mem_cons_of_mem _ hl')
    have hsegments : (ctx.pathEdit (segs ++ more) .done).segments = segs ++ more := by
      rw [segments_pathEdit]
      exact List.append_nil _
    funext s
    show ctx.updateMatching mode val
        ((.mk segs cut, ctx.pathEdit segs (ctx.pathEdit more .done)) :: _) hidden node s =
      ctx.updateMatching mode val
        ((.mk segs .none, ctx.pathEdit segs (ctx.pathEdit more .done)) :: _) [] node s
    rw [← pathEdit_append]
    obtain ⟨o, t, hfind, houtside⟩ := ctx.locationsOutside_of_apart hpinpoints
      (fun m hm => hhidden m hm l (List.mem_cons_self ..)) node s
    obtain ⟨o', t', hfind', hinside⟩ := ctx.locationsOutside_of_apart hpinpoints
      (List.forall_mem_nil _) node s
    -- the branch finds the same with and without hidden places, as none of these is its own
    obtain ⟨rfl, rfl⟩ : o' = o ∧ t' = t := by
      rw [hfind] at hfind'
      cases o <;> cases o' <;> cases hfind' <;> exact ⟨rfl, rfl⟩
    rw [← hsegments] at houtside hinside
    cases o' with
    | none =>
      rw [updateMatching, updateMatching, Eval.run_bind_of_ok houtside,
        Eval.run_bind_of_ok hinside]
      exact congrFun (updateMatching_soft mode val more hbs hapart hbehind node) t'
    | some v =>
      have hwrite : (if hidden.isEmpty then
            (ctx.pathEdit (segs ++ more) .done).update mode.built mode.silent val node
          else [l].foldlM (fun node l => do
            (← ctx.elementEdit l .done).update mode.built
              (mode.silent || (Branch.mk segs cut).isSilent) val node) node) t' =
          (ctx.pathEdit (segs ++ more) .done).update mode.built mode.silent val node t' := by
        split
        · rfl
        · rw [hb.isSilent, Bool.or_false, List.foldlM_cons]
          simp only [List.foldlM_nil, bind_pure]
          exact ctx.update_element hpinpoints hfind mode.built mode.silent val
      rw [ctx.updateMatching_of_found (List.cons_ne_nil _ _) houtside hb.cut hwrite,
        ctx.updateMatching_of_found (b := .mk segs .none) (List.cons_ne_nil _ _) hinside
          (show Cut.none ≠ Cut.hard by decide) rfl]
      refine congrArg (fun k : Value → Eval (Value × Bool) =>
        ((ctx.pathEdit (segs ++ more) .done).update mode.built mode.silent val node >>= k) t')
        (funext fun w => congrArg
          (fun m : Eval (Value × Bool) => m >>= fun p => pure (p.1, true)) ?_)
      refine updateMatching_soft mode val more hbs hapart (fun m hm => ?_) w
      split at hm
      · rcases List.mem_append.mp hm with hm | hm
        · exact hbehind m hm
        · rw [List.mem_singleton.mp hm]
          exact happly
      · exact hbehind m hm

theorem branchEdits_uncut (rest : Edit) : ∀ bs : List Branch,
    ctx.branchEdits (bs.map Branch.uncut) rest =
      (ctx.branchEdits bs rest).map fun p => (p.1.uncut, p.2)
  | [] => rfl
  | .mk segs _ :: bs =>
    congrArg (List.cons (Branch.mk segs .none, ctx.pathEdit segs rest)) (branchEdits_uncut rest bs)

/-- Cuts do not matter for what is created. -/
theorem updateFallback_uncut (bs : List Branch) (rest : Edit) (mode : UpdateMode) (val : Operand)
    (node : Value) :
    updateFallback (ctx.branchEdits (bs.map Branch.uncut) rest) mode val node =
      updateFallback (ctx.branchEdits bs rest) mode val node := by
  have hconcrete : (fun p : Branch × Edit => p.1.isConcrete) ∘
      (fun p : Branch × Edit => (p.1.uncut, p.2)) = fun p => p.1.isConcrete := rfl
  rw [updateFallback, updateFallback, branchEdits_uncut, ← List.map_reverse, List.find?_map,
    hconcrete]
  cases (ctx.branchEdits bs rest).reverse.find? fun p => p.1.isConcrete <;> rfl

/-- A branch that pins down a place is no group. -/
theorem SoftBranch.segments_ne {more : List Segment} {b : Branch} (h : SoftBranch more b l)
    (kind : GroupKind) (bs : List Branch) (first : Bool) : b.segments ≠ [.group kind bs first] := by
  intro hsegments
  have hpins := h.pinpoints.pins
  rw [hsegments] at hpins
  cases hpins with
  | @cons _ st _ _ hseg _ =>
    generalize hgroup : Segment.group kind bs first = seg at hseg
    cases hseg with
    | step s _ => cases st <;> cases hgroup
    | guard s _ _ _ => cases hgroup

/-- **Soft cuts change nothing between branches that are apart**: neither the value and the store
after an update nor the error that it ends with. -/
theorem update_soft_cuts {more : List Segment} {bs : List Branch} {ls : List Location}
    (hbs : List.Forall₂ (SoftBranch more) bs ls) (hapart : ls.Pairwise Location.Apart)
    (root : Value) (val : Operand) :
    ctx.update (.group .or bs false :: more) root val =
      ctx.update (.group .or (bs.map Branch.uncut) false :: more) root val := by
  have hgroup : ∀ b ∈ bs, ∀ kind inner first, b.segments ≠ [.group kind inner first] := by
    intro b hb
    obtain ⟨i, hi, rfl⟩ := List.mem_iff_getElem.mp hb
    exact (hbs.get hi (hbs.length_eq ▸ hi)).segments_ne
  have hgroup' : ∀ b ∈ bs.map Branch.uncut, ∀ kind inner first,
      b.segments ≠ [.group kind inner first] := by
    intro b hb
    obtain ⟨c, hc, rfl⟩ := List.mem_map.mp hb
    exact hgroup c hc
  rw [ctx.update_or hgroup, ctx.update_or hgroup']
  rw [ctx.updateMatching_soft _ val more hbs hapart (List.forall_mem_nil _)]
  simp only [updateFallback_uncut]

/-! ### Cuts between paths of keys -/

theorem pins_keySegment (key : String) : (keySegment key).Pins (.key (.str key)) :=
  .step .empty (show (Step.key (.str key)).Named from trivial)

theorem pinpoints_keys (ks : List String) : Pinpoints (ks.map keySegment) (keyLocation ks) := by
  refine ⟨?_, .inl fun st hst => ?_⟩
  · rw [keyLocation, List.forall₂_map_left_iff, List.forall₂_map_right_iff]
    exact List.forall₂_same.mpr fun key _ => pins_keySegment key
  · obtain ⟨key, -, rfl⟩ := List.mem_map.mp hst
    rfl

/-- Locations of text keys are apart if neither leads on from the other. -/
theorem apart_keys : ∀ {ks js : List String}, Diverge ks js →
    (keyLocation ks).Apart (keyLocation js)
  | [], js, h => absurd (List.nil_prefix) h.1
  | k :: ks, [], h => absurd (List.nil_prefix) h.2
  | k :: ks, j :: js, h => by
    intro s
    have hequals : s.equals (.str k) (.str j) = (k == j) := s.equalsWithin_str _ _ _ _
    show (s.equals (.str k) (.str j) && (keyLocation ks).overlaps s (keyLocation js)) = false
    rw [hequals]
    by_cases hkj : k = j
    · subst hkj
      have hrest : Diverge ks js :=
        ⟨fun hp => h.1 ((List.prefix_cons_inj k).mpr hp),
          fun hp => h.2 ((List.prefix_cons_inj k).mpr hp)⟩
      rw [apart_keys hrest s, Bool.and_false]
    · rw [beq_false_of_ne hkj, Bool.false_and]

/-- **Alternatives of text keys are updated alike with soft cuts and without**, if no path leads on
from another. -/
theorem update_soft_cuts_of_keys {branches : List (List String × Cut)}
    (hcuts : ∀ b ∈ branches, b.2 ≠ .hard) (hapart : (branches.map Prod.fst).Pairwise Diverge)
    (root : Value) (val : Operand) :
    ctx.update [.group .or (branches.map fun b => .mk (b.1.map keySegment) b.2) false] root val =
      ctx.update [.anyKeys (branches.map Prod.fst)] root val := by
  have hsoft : List.Forall₂ (SoftBranch [])
      (branches.map fun b => .mk (b.1.map keySegment) b.2)
      ((branches.map Prod.fst).map keyLocation) := by
    rw [List.map_map, List.forall₂_map_left_iff, List.forall₂_map_right_iff]
    refine List.forall₂_same.mpr fun b hb => ⟨?_, hcuts b hb⟩
    rw [Branch.segments, List.append_nil]
    exact pinpoints_keys b.1
  have huncut : (branches.map fun b => Branch.mk (b.1.map keySegment) b.2).map Branch.uncut =
      keyBranches (branches.map Prod.fst) := by
    rw [keyBranches, List.map_map, List.map_map]
    rfl
  rw [ctx.update_soft_cuts hsoft (List.pairwise_map.mpr (hapart.imp fun h => apart_keys h)), huncut]
  rfl

/-! ### Appends behind cuts -/

variable {s : Store} {r g : Handle} {es : List (Value × Value)} {key list : String}
  {xs : List Value} {x : Value}

theorem ne_of_get? (hd : s.get? r = some (.dict es)) (hg : s.get? g = some (.list xs)) : r ≠ g := by
  rintro rfl
  rw [hd] at hg
  cases hg

/-- Below a text key only the value of the key is edited, if it stays the same container. -/
theorem update_below_key {seg : Segment} {val : Operand} {t : Store}
    (hd : s.get? r = some (.dict es)) (hlist : s.lookup? es (.str list) = some (.ref g))
    (hrest : (ctx.pathEdit [seg] .done).update false false val (.ref g) s = (.ok (.ref g), t))
    (hd' : t.get? r = some (.dict es)) :
    (ctx.pathEdit [keySegment list, seg] .done).update false false val (.ref r) s =
      (.ok (.ref r), t) := by
  have hitems := ctx.items_keySegment hd list
  rw [hlist] at hitems
  obtain ⟨hpart, -⟩ := ctx.selectsPart_of_pins (pins_keySegment list) rfl s hitems
  show ctx.updateParts (keySegment list) (ctx.pathEdit [seg] .done) ⟨false, false, false⟩ val
    (.ref r) s = _
  rw [hpart.updateParts ctx (fun _ => nofun), Store.isEnterable_of_get? hd]
  show ((ctx.pathEdit [seg] .done).update false false val (.ref g) >>= _) s = _
  rw [Eval.run_bind_of_ok hrest, Eval.run_lift, setChild_key hd',
    Store.insertEntry_of_lookup? _ ((Store.lookup?_str_congr s t es list).trans hlist),
    Store.set_of_get? hd']

/-- An append writes behind the last element. -/
theorem update_append (hg : s.get? g = some (.list xs)) (v : Value) :
    (ctx.pathEdit [.append false] .done).update false false (.value v) (.ref g) s =
      (.ok (.ref g), s.set g (.list (xs ++ [v]))) := by
  have hindexed : s.isIndexed (.ref g) = true := Store.isIndexed_of_get? (.inl hg)
  have happend : appendTo (.ref g) v false s = (.ref g, s.set g (.list (xs ++ [v]))) := by
    have hlist : s.container? (.ref g) = some (.list xs) := hg
    unfold appendTo
    rw [StoreM.run_bind, StoreM.run_get, Bool.false_and, if_neg Bool.false_ne_true, hlist]
    dsimp only
    rw [hindexed, Bool.true_or, if_pos rfl, Store.elements_of_get? (.inl hg)]
    exact replaceElements_fill (f := .list) hg (.inl rfl) _
  show ctx.updateParts (.append false) .done ⟨false, false, false⟩ (.value v) (.ref g) s = _
  rw [updateParts, Eval.run_bind_of_ok (Eval.run_store s), Store.isEnterable_of_get? hg]
  show (liftM (appendTo (.ref g) v false) : Eval Value) s = _
  rw [Eval.run_lift, happend]

/-- The place of the last element is written over. -/
theorem update_lastElement (hg : s.get? g = some (.list (xs ++ [x]))) (v : Value) :
    (ctx.pathEdit [(Step.slot (.int (-1))).segment s] .done).update false false (.value v) (.ref g)
      s = (.ok (.ref g), s.set g (.list (xs ++ [v]))) := by
  have hlast : resolveIndex? (xs ++ [x]).length (-1) = some xs.length := by
    simp [resolveIndex?, fromStart]
  show ctx.updateParts _ .done ⟨false, false, false⟩ (.value v) (.ref g) s = _
  rw [updateParts, Eval.run_bind_of_ok (Eval.run_store s), Store.isEnterable_of_get? hg]
  show ctx.upsert ((Step.slot (.int (-1))).segment s) (.ref g) v s = _
  have hnamed : (Step.slot (.int (-1))).Named := trivial
  rw [ctx.upsert_named hnamed, Eval.run_lift]
  show ((fun p : Value × Store => (Except.ok p.1, p.2)) (setKeyed (.ref g) (.int (-1)) v s)) = _
  rw [setKeyed_element (f := .list) hg (.inl rfl) hlast]
  simp [Form.rewrite, Form.fill, Form.isCopied]

/-- An append is found where the last element is. -/
theorem find_append (hd : s.get? r = some (.dict es))
    (hlist : s.lookup? es (.str list) = some (.ref g)) (hg : s.get? g = some (.list (xs ++ [x]))) :
    ctx.find [keySegment list, .append false] (.ref r) s =
      (.ok [([.key (.str list), .slot (.int (-1))], x)], s) := by
  obtain ⟨-, hindexed, helements, hlength⟩ := sequence_of_fill (f := .list) hg (.inl rfl)
  have helement : s.elementAt? (.ref g) (-1) = some x := by
    rw [Store.elementAt?, if_pos hindexed, Store.position?, hlength, helements]
    simp [resolveIndex?, fromStart]
  have hitems := ctx.items_keySegment hd list
  rw [hlist] at hitems
  have hrest : ctx.walkPath [.append false] Walk.done ([] ++ [.key (.str list)]) (.ref g) s =
      (.ok ⟨((some x).map fun v =>
        ([] ++ [Step.key (.str list)] ++ [.slot (.int (-1))], v)).toList, false⟩, s) := by
    have hitems : ctx.items (.append false) (.ref g) s =
        (.ok [(.slot (.int (-1)), x)], s) := by
      rw [items, Eval.run_bind_of_ok (Eval.run_store s), helement]
      rfl
    show (ctx.items (.append false) (.ref g) >>= _) s = _
    rw [Eval.run_bind_of_ok hitems]
    rfl
  rw [find, Eval.run_bind_of_ok (ctx.walkPath_cons_of_part (pins_keySegment list) hitems hrest)]
  rfl

/-- A text key of a dict is found where it is. -/
theorem locationsOutside_key (hd : s.get? r = some (.dict es)) {old : Value}
    (hkey : s.lookup? es (.str key) = some old) :
    ctx.locationsOutside [] [keySegment key] (.ref r) s = (.ok [[.key (.str key)]], s) := by
  have hfind : ctx.find [keySegment key] (.ref r) s = (.ok [([.key (.str key)], old)], s) := by
    refine (ctx.find_keys [key] (.ref r) s).trans ?_
    rw [Store.atKeys?_cons_of_get? hd, hkey]
    rfl
  have hlocations : ctx.locations [keySegment key] (.ref r) s = (.ok [[.key (.str key)]], s) := by
    rw [locations, Eval.run_bind_of_ok hfind]
    rfl
  rw [locationsOutside, Eval.run_bind_of_ok hlocations]
  rfl

/-- Another key does not hide where an append is found. -/
theorem locationsOutside_append (hd : s.get? r = some (.dict es)) (hne : list ≠ key)
    (hlist : s.lookup? es (.str list) = some (.ref g)) (hg : s.get? g = some (.list (xs ++ [x])))
    {hidden : List Location} (hhidden : ∀ l ∈ hidden, l = [.key (.str key)]) :
    ctx.locationsOutside hidden [keySegment list, .append false] (.ref r) s =
      (.ok [[.key (.str list), .slot (.int (-1))]], s) := by
  have hlocations : ctx.locations [keySegment list, .append false] (.ref r) s =
      (.ok [[.key (.str list), .slot (.int (-1))]], s) := by
    rw [locations, Eval.run_bind_of_ok (ctx.find_append hd hlist hg)]
    rfl
  have hapart : (hidden.any fun l => l.overlaps s [.key (.str list), .slot (.int (-1))]) = false := by
    refine List.any_eq_false.mpr fun l hl => ?_
    have hequals : s.equals (.str key) (.str list) = (key == list) := s.equalsWithin_str _ _ _ _
    rw [hhidden l hl]
    show ¬(s.equals (.str key) (.str list) && true) = true
    rw [hequals, beq_false_of_ne hne.symm]
    exact Bool.false_ne_true
  rw [locationsOutside, Eval.run_bind_of_ok hlocations, Eval.run_bind_of_ok (Eval.run_store s)]
  show (Except.ok (List.filter _ _), s) = _
  rw [List.filter_cons_of_pos (by rw [hapart, Bool.not_false]), List.filter_nil]

/-- At the end of a path a text key is written. -/
theorem update_textKey (hd : s.get? r = some (.dict es)) (key : String) (v : Value) :
    (ctx.pathEdit [keySegment key] .done).update false false (.value v) (.ref r) s =
      (.ok (.ref r), s.set r (.dict (s.insertEntry es (.str key) v))) := by
  show ctx.updateParts (keySegment key) .done ⟨false, false, false⟩ (.value v) (.ref r) s = _
  rw [updateParts, Eval.run_bind_of_ok (Eval.run_store s), Store.isEnterable_of_get? hd]
  show ctx.upsert (keySegment key) (.ref r) v s = _
  rw [ctx.upsert_keySegment hd]

/-- The last branch is written by its edit, or place by place where something is hidden. -/
theorem updateMatching_last {mode : UpdateMode} {val : Operand} {b : Branch} {e : Edit}
    {hidden : List Location} {l : Location} {node w : Value} {s t u : Store}
    (houtside : ctx.locationsOutside hidden e.segments node s = (.ok [l], t)) (hcut : b.cut ≠ .hard)
    {place : Edit} (hplace : ctx.elementEdit l .done t = (.ok place, t)) (hsilent : b.isSilent = false)
    (hwrite : (if hidden.isEmpty then e else place).update mode.built mode.silent val node t =
      (.ok w, u)) :
    ctx.updateMatching mode val [(b, e)] hidden node s = (.ok (w, true), u) := by
  refine (ctx.updateMatching_of_found (List.cons_ne_nil l []) houtside hcut
    (w := fun _ => (.ok w, u)) ?_).trans rfl
  split at hwrite
  · next hhidden =>
    rw [if_pos hhidden]
    exact hwrite
  · next hhidden =>
    rw [if_neg hhidden, hsilent, Bool.or_false, List.foldlM_cons]
    simp only [List.foldlM_nil, bind_pure]
    rw [Eval.run_bind_of_ok hplace]
    exact hwrite

/-- Alternatives of a key and of an append at another key: the key is written, and then the append
or, behind a soft cut, the place where it is found. -/
theorem update_key_or_append (hd : s.get? r = some (.dict es)) {old : Value}
    (hkey : s.lookup? es (.str key) = some old) (hne : list ≠ key)
    (hlist : s.lookup? es (.str list) = some (.ref g)) (hg : s.get? g = some (.list (xs ++ [x])))
    (v : Value) {cut : Cut} (hcut : cut ≠ .hard) :
    ∃ t : Store, t = s.set r (.dict (s.insertEntry es (.str key) v)) ∧
      t.get? r = some (.dict (s.insertEntry es (.str key) v)) ∧
      t.lookup? (s.insertEntry es (.str key) v) (.str list) = some (.ref g) ∧
      t.get? g = some (.list (xs ++ [x])) ∧ ∀ {u : Store},
      (if cut == .soft then ctx.pathEdit [keySegment list, (Step.slot (.int (-1))).segment t] .done
        else ctx.pathEdit [keySegment list, .append false] .done).update false false (.value v)
          (.ref r) t = (.ok (.ref r), u) →
      ctx.update [.group .or [.mk [keySegment key] cut, .mk [keySegment list, .append false] .none]
        false] (.ref r) (.value v) s = (.ok (.ref r), u) := by
  have hkeyed := ctx.update_textKey hd key v
  have hd' : (s.set r (.dict (s.insertEntry es (.str key) v))).get? r =
      some (.dict (s.insertEntry es (.str key) v)) :=
    Store.get?_set_self _ (Store.lt_size_of_get? hd)
  generalize ht : s.set r (.dict (s.insertEntry es (.str key) v)) = t at hd' hkeyed
  have hlist' : t.lookup? (s.insertEntry es (.str key) v) (.str list) = some (.ref g) := by
    rw [Store.lookup?_insertEntry_of_ne s t es v hne, Store.lookup?_str_congr s t, hlist]
  have hg' : t.get? g = some (.list (xs ++ [x])) := by
    rw [← ht, Store.get?_set_ne _ (ne_of_get? hd hg).symm, hg]
  refine ⟨t, rfl, hd', hlist', hg', fun {u} hwrite => ?_⟩
  -- the key hides its own place only, and that only if it is behind a soft cut
  let hidden : List Location := if cut == .soft then [[.key (.str key)]] else []
  have hhidden : ∀ l ∈ hidden, l = [.key (.str key)] := by
    intro l hl
    dsimp only [hidden] at hl
    split at hl
    · exact List.mem_singleton.mp hl
    · cases hl
  have hfirst := ctx.locationsOutside_key hd hkey
  have hsecond := ctx.locationsOutside_append hd' hne hlist' hg' hhidden
  have hplace : ctx.elementEdit [.key (.str list), .slot (.int (-1))] .done t =
      (.ok (ctx.pathEdit [keySegment list, (Step.slot (.int (-1))).segment t] .done), t) :=
    ctx.elementEdit_named (l := [.key (.str list), .slot (.int (-1))]) (by simp [Step.Named]) t
  rw [← ctx.segments_pathEdit_done [keySegment key]] at hfirst
  rw [← ctx.segments_pathEdit_done [keySegment list, .append false]] at hsecond
  have hbehind : ctx.updateMatching (.ofPath false false) (.value v)
      [(.mk [keySegment list, .append false] .none,
        ctx.pathEdit [keySegment list, .append false] .done)] hidden (.ref r) t =
      (.ok (.ref r, true), u) := by
    refine ctx.updateMatching_last hsecond (show Cut.none ≠ Cut.hard by decide) hplace rfl ?_
    cases cut with
    | soft => exact hwrite
    | none => exact hwrite
    | hard => exact absurd rfl hcut
  have hboth : ctx.updateMatching (.ofPath false false) (.value v)
      [(.mk [keySegment key] cut, ctx.pathEdit [keySegment key] .done),
        (.mk [keySegment list, .append false] .none,
          ctx.pathEdit [keySegment list, .append false] .done)] [] (.ref r) s =
      (.ok (.ref r, true), u) := by
    rw [ctx.updateMatching_of_found (b := .mk _ cut) (List.cons_ne_nil _ _) hfirst hcut rfl]
    exact (Eval.run_bind_of_ok hkeyed).trans (Eval.run_bind_of_ok hbehind)
  rw [ctx.update_or (by simp [Branch.segments, keySegment, Segment.literal])]
  exact Eval.run_bind_of_ok hboth

/-- **Behind a soft cut an append writes over the last element**, although it is found at another
key than what is cut.  Without the cut the element stays, and the value is added behind it. -/
theorem update_append_behind_cut (hd : s.get? r = some (.dict es)) {old : Value}
    (hkey : s.lookup? es (.str key) = some old) (hne : list ≠ key)
    (hlist : s.lookup? es (.str list) = some (.ref g)) (hg : s.get? g = some (.list (xs ++ [x])))
    (v : Value) :
    let t := s.set r (.dict (s.insertEntry es (.str key) v))
    let append : Branch := .mk [keySegment list, .append false] .none
    ctx.update [.group .or [.mk [keySegment key] .soft, append] false] (.ref r) (.value v) s =
        (.ok (.ref r), t.set g (.list (xs ++ [v]))) ∧
      ctx.update [.group .or [.mk [keySegment key] .none, append] false] (.ref r) (.value v) s =
        (.ok (.ref r), t.set g (.list (xs ++ [x, v]))) := by
  intro t append
  constructor
  · obtain ⟨t', rfl, hd', hlist', hg', hupdate⟩ :=
      ctx.update_key_or_append hd hkey hne hlist hg v (show Cut.soft ≠ .hard by decide)
    refine hupdate (ctx.update_below_key hd' hlist' (ctx.update_lastElement hg' v) ?_)
    rw [Store.get?_set_ne _ (ne_of_get? hd' hg'), hd']
  · obtain ⟨t', rfl, hd', hlist', hg', hupdate⟩ :=
      ctx.update_key_or_append hd hkey hne hlist hg v (show Cut.none ≠ .hard by decide)
    have happend := ctx.update_append hg' v
    rw [List.append_assoc] at happend
    refine hupdate (ctx.update_below_key hd' hlist' happend ?_)
    rw [Store.get?_set_ne _ (ne_of_get? hd' hg'), hd']

end Context

end DottedPath
