import DottedPath.Evaluate.Edit
import DottedPath.Proofs.Evaluate.Retake
import DottedPath.Proofs.Evaluate.SlotGroup
import DottedPath.Proofs.Evaluate.WriteBack

/-!
# Groups of slots, read and removed

What reading and removing a group of slots do to a list or a tuple.

## Main statements

- `Context.find_slotGroup`: reading reports the slots that `SlotGroup.located` tells.
- `Context.remove_slotGroup`: a removal leaves the elements that `SlotGroup.removed` tells, in the
  same list or in a new tuple.
- `Context.remove_descending`: from the last position to the first, a removal takes what reading
  reports.
- `Context.remove_shifted`: in another order it may take other elements.
-/

namespace DottedPath

namespace Store

variable {s t u : Store} {v w x : Value} {xs ys zs : List Value}

/-- A list or a tuple of some elements. -/
def Sequence (s : Store) (v : Value) (xs : List Value) : Prop :=
  ∃ h, v = .ref h ∧ (s.get? h = some (.list xs) ∨ s.get? h = some (.tuple xs))

/-- A sequence has been given other elements: a list in place, while a new tuple stands for a
tuple. -/
inductive Rewrites (s : Store) : Value → Store → Value → List Value → Prop
  | list {h : Handle} {xs ys : List Value} (hc : s.get? h = some (.list xs)) :
      Rewrites s (.ref h) (s.set h (.list ys)) (.ref h) ys
  | tuple {g h : Handle} {t : Store} {xs ys : List Value} (hc : s.get? h = some (.tuple xs))
      (hst : s.GrowsTo t) (hd : t.get? g = some (.tuple ys)) : Rewrites s (.ref h) t (.ref g) ys

theorem Sequence.elements (h : s.Sequence v xs) : s.elements v = xs := by
  obtain ⟨g, rfl, hc⟩ := h
  exact elements_of_get? hc

theorem Sequence.isIndexed (h : s.Sequence v xs) : s.isIndexed v = true := by
  obtain ⟨g, rfl, hc⟩ := h
  exact isIndexed_of_get? hc

theorem Sequence.position? (h : s.Sequence v xs) (i : Int) :
    s.position? v i = resolveIndex? xs.length i := by
  rw [Store.position?, length?_of_isIndexed h.isIndexed, h.elements]
  rfl

theorem Sequence.elementAt? (h : s.Sequence v xs) (i : Int) :
    s.elementAt? v i = (resolveIndex? xs.length i).bind fun p => xs[p]? := by
  rw [Store.elementAt?, if_pos h.isIndexed, h.position?, h.elements]

namespace Rewrites

protected theorem refl (h : s.Sequence v xs) : s.Rewrites v s v xs := by
  obtain ⟨g, rfl, hc | hc⟩ := h
  · have hlist : s.Rewrites (.ref g) (s.set g (.list xs)) (.ref g) xs := .list hc
    rwa [set_of_get? hc] at hlist
  · exact .tuple hc (.refl s) hc

theorem sequence (h : s.Rewrites v t w ys) : t.Sequence w ys := by
  cases h with
  | list hc => exact ⟨_, rfl, .inl (get?_set_self _ (lt_size_of_get? hc))⟩
  | tuple hc hst hd => exact ⟨_, rfl, .inr hd⟩

theorem trans (h : s.Rewrites v t w ys) (h' : t.Rewrites w u x zs) : s.Rewrites v u x zs := by
  cases h with
  | @list g xs _ hc =>
    have hlist : (s.set g (.list ys)).get? g = some (.list ys) :=
      get?_set_self _ (lt_size_of_get? hc)
    cases h' with
    | list hc' =>
      rw [set_set]
      exact .list hc
    | tuple hc' =>
      rw [hlist] at hc'
      cases hc'
  | tuple hc hst hd =>
    cases h' with
    | list hc' =>
      rw [hd] at hc'
      cases hc'
    | tuple hc' hst' hd' => exact .tuple hc (hst.trans hst') hd'

end Rewrites

end Store

/-! ### Edits of elements -/

/-- An edit gives a sequence other elements, as a function of those it has. -/
def StoreM.RewritesElements (f : Value → StoreM Value) (r : List Value → List Value) : Prop :=
  ∀ (s : Store) (v : Value) (xs : List Value), s.Sequence v xs →
    s.Rewrites v (f v s).2 (f v s).1 (r xs)

/-- An edit succeeds and gives a sequence other elements, as a function of those it has. -/
def Eval.RewritesElements (f : Value → Eval Value) (r : List Value → List Value) : Prop :=
  ∀ (s : Store) (v : Value) (xs : List Value), s.Sequence v xs →
    ∃ w t, f v s = (.ok w, t) ∧ s.Rewrites v t w (r xs)

theorem replaceElements_rewrites {s : Store} {v : Value} {xs : List Value} (h : s.Sequence v xs)
    (ys : List Value) :
    s.Rewrites v (replaceElements v ys s).2 (replaceElements v ys s).1 ys := by
  obtain ⟨g, rfl, hc | hc⟩ := h
  · rw [replaceElements_fill (f := .list) hc (.inl rfl)]
    exact .list hc
  · rw [replaceElements_fill (f := .tuple) hc (.inr rfl)]
    exact .tuple hc (.push s _) (Store.get?_push_next s _)

theorem StoreM.RewritesElements.foldlM {β : Type} {f : Value → β → StoreM Value}
    {r : List Value → β → List Value}
    (hf : ∀ b, StoreM.RewritesElements (f · b) (r · b)) : ∀ bs : List β,
    StoreM.RewritesElements (bs.foldlM f) (bs.foldl r)
  | [] => fun _ _ _ h => .refl h
  | b :: bs => fun s v xs h => by
    have hhead := hf b s v xs h
    exact hhead.trans (foldlM hf bs _ _ _ hhead.sequence)

/-- Removing positions leaves the elements at the others. -/
theorem removePositions_rewrites (positions : List Int) :
    StoreM.RewritesElements (removePositions · positions) (without positions) := by
  intro s v xs h
  have hrun : removePositions v positions s = if positions.isEmpty then (v, s)
      else replaceElements v (without positions xs) s := by
    unfold removePositions
    rw [StoreM.run_bind, StoreM.run_get, h.isIndexed, Bool.not_true, Bool.or_false, h.elements]
    split <;> rfl
  show s.Rewrites v (removePositions v positions s).2 (removePositions v positions s).1 _
  rw [hrun]
  split
  · rename_i hempty
    rw [List.isEmpty_iff.mp hempty, without_nil]
    exact .refl h
  · exact replaceElements_rewrites h _

/-- Removing at an index takes the element that it names. -/
theorem popChild_rewrites (i : Int) :
    StoreM.RewritesElements (popChild · (.slot (.int i))) (SlotGroup.index i).removed := by
  intro s v xs h
  have hrun : popChild v (.slot (.int i)) s = (resolveIndex? xs.length i).elim (v, s)
      fun p => removePositions v [(p : Int)] s := by
    show popKeyed v (.int i) s = _
    rw [popKeyed_index (Store.isKeyed_of_isIndexed h.isIndexed), h.position?]
  show s.Rewrites v (popChild v (.slot (.int i)) s).2 (popChild v (.slot (.int i)) s).1 _
  rw [hrun, SlotGroup.removed]
  cases hp : resolveIndex? xs.length i with
  | none => exact .refl h
  | some p =>
    have hremoved := removePositions_rewrites [(p : Int)] s v xs h
    rw [without_singleton (resolveIndex?_lt hp)] at hremoved
    exact hremoved

namespace Eval.RewritesElements

variable {f f' : Value → Eval Value} {r r' : List Value → List Value}

theorem lift {f : Value → StoreM Value} (hf : StoreM.RewritesElements f r) :
    Eval.RewritesElements (fun v => (liftM (f v) : Eval Value)) r :=
  fun s v xs h => ⟨_, _, run_lift (f v) s, hf s v xs h⟩

protected theorem pure : Eval.RewritesElements pure id :=
  fun _ v _ h => ⟨v, _, rfl, .refl h⟩

protected theorem bind (hf : Eval.RewritesElements f r) (hf' : Eval.RewritesElements f' r') :
    Eval.RewritesElements (fun v => f v >>= f') (r' ∘ r) := by
  intro s v xs h
  obtain ⟨w, t, hrun, hw⟩ := hf s v xs h
  obtain ⟨x, u, hrun', hx⟩ := hf' t w _ hw.sequence
  exact ⟨x, u, (run_bind_of_ok hrun).trans hrun', hw.trans hx⟩

end Eval.RewritesElements

/-! ### Reading -/

/-- The parts at some indexes of a sequence. -/
def slotParts (xs : List Value) (is : List Int) : List (Step × Value) :=
  is.map fun i =>
    (.slot (.int i), ((resolveIndex? xs.length i).bind fun p => xs[p]?).getD .null)

/-- The places at some indexes of a sequence. -/
def slotPlaces (xs : List Value) (is : List Int) : List Found :=
  Context.placesOf (slotParts xs is)

theorem slotPlaces_append (xs : List Value) (is js : List Int) :
    slotPlaces xs (is ++ js) = slotPlaces xs is ++ slotPlaces xs js := by
  rw [slotPlaces, slotParts, List.map_append, Context.placesOf, List.map_append]
  rfl

theorem isEmpty_slotPlaces (xs : List Value) (is : List Int) :
    (slotPlaces xs is).isEmpty = is.isEmpty := by
  rw [slotPlaces, Context.placesOf, List.isEmpty_map, slotParts, List.isEmpty_map]

theorem locations_slotPlaces (xs : List Value) (is : List Int) :
    (slotPlaces xs is).map Prod.fst = is.map fun i => [Step.slot (.int i)] := by
  rw [slotPlaces, Context.placesOf, slotParts, List.map_map, List.map_map]
  rfl

namespace Context

variable (ctx : Context) {s : Store} {v : Value} {xs : List Value}

theorem items_index (h : s.Sequence v xs) (i : Int) :
    ctx.items (SlotGroup.index i).segment v s =
      (.ok (slotParts xs ((SlotGroup.index i).located xs.length)), s) := by
  have hraw : candidates .slot (.literal (.int i)) v s =
      (((s.elementAt? v i).map (Value.int i, ·)).toList, s) :=
    candidates_int (by decide) h.isIndexed i
  rw [SlotGroup.segment, Segment.literal, ctx.items_of_candidates hraw, h.elementAt?,
    SlotGroup.located]
  cases hp : resolveIndex? xs.length i with
  | none => rfl
  | some p =>
    have hlt : p < xs.length := resolveIndex?_lt hp
    have hget : xs[p]? = some xs[p] := List.getElem?_eq_getElem hlt
    rw [slotParts]
    simp only [hp, hget, Option.bind_some, Option.map_some, Option.toList_some, Option.isSome_some,
      if_true, List.map_cons, List.map_nil, Option.getD_some]
    rfl

theorem items_every (h : s.Sequence v xs) :
    ctx.items SlotGroup.every.segment v s =
      (.ok (slotParts xs (SlotGroup.every.located xs.length)), s) := by
  have hraw : candidates .slot .wildcard v s = (s.numbered v, s) := by
    rw [candidates, slotCandidates, StoreM.run_bind, StoreM.run_get, h.isIndexed, if_pos rfl]
    show ((s.numbered v).filter (fun _ => true), s) = _
    rw [List.filter_true]
  rw [SlotGroup.segment, ctx.items_of_candidates hraw, SlotGroup.located, slotParts, Store.numbered,
    h.elements]
  show (Except.ok ((xs.zipIdx.map _).map _), s) = _
  congr 2
  refine List.ext_getElem (by simp) fun p hp _ => ?_
  have hlt : p < xs.length := by simpa using hp
  have hresolve : resolveIndex? xs.length (Int.ofNat p) = some p := resolveIndex?_natCast hlt
  have hget : xs[p]? = some xs[p] := List.getElem?_eq_getElem hlt
  simp only [List.getElem_map, List.getElem_zipIdx, List.getElem_range, hresolve, hget,
    Option.bind_some, Option.getD_some, Nat.zero_add]
  rfl

mutual

theorem walk_slotGroup (h : s.Sequence v xs) : ∀ g : SlotGroup,
    ctx.walkSegment g.segment Walk.done [] v s =
      (.ok ⟨slotPlaces xs (g.located xs.length), false⟩, s)
  | .index i => by
    show (ctx.items (SlotGroup.index i).segment v >>= fun parts =>
      Walk.each Walk.done [] (placesOf parts)) s = _
    rw [Eval.run_bind_of_ok (ctx.items_index h i), Walk.each_done, slotPlaces]
  | .every => by
    show (ctx.items SlotGroup.every.segment v >>= fun parts =>
      Walk.each Walk.done [] (placesOf parts)) s = _
    rw [Eval.run_bind_of_ok (ctx.items_every h), Walk.each_done, slotPlaces]
  | .any bs => by
    rw [SlotGroup.segment, walkSegment, SlotGroup.located]
    exact walk_anySlot h bs
  | .all ts => by
    rw [SlotGroup.segment, walkSegment, SlotGroup.located]
    show (Walk.conjunction _ _ _ >>= _) s = _
    rw [Eval.run_bind_of_ok (walk_allSlots h ts)]
    cases ts.blocked xs.length <;> rfl

theorem walk_anySlot (h : s.Sequence v xs) : ∀ bs : SlotBranches,
    Walk.alternatives false (ctx.walkBranches bs.branches Walk.done) [] [] v s =
      (.ok ⟨slotPlaces xs (bs.located xs.length), false⟩, s)
  | .nil => rfl
  | .cons g rest => by
    show (ctx.walkSegment g.segment Walk.done [] v >>= _) s = _
    rw [Eval.run_bind_of_ok (walk_slotGroup h g), Eval.run_bind_of_ok (Eval.run_store s)]
    -- nothing is hidden
    have hall : (slotPlaces xs (g.located xs.length)).filter (fun _ => true) =
        slotPlaces xs (g.located xs.length) := List.filter_true _
    simp only [List.any_nil, Bool.not_false, hall, isEmpty_slotPlaces, SlotBranches.located]
    by_cases hempty : (g.located xs.length).isEmpty
    · rw [if_pos hempty, List.isEmpty_iff.mp hempty, List.nil_append]
      exact walk_anySlot h rest
    · rw [if_neg hempty, slotPlaces_append]
      show (Walk.alternatives false (ctx.walkBranches rest.branches Walk.done) [] [] v >>= _) s = _
      rw [Eval.run_bind_of_ok (walk_anySlot h rest)]
      rfl

theorem walk_allSlots (h : s.Sequence v xs) : ∀ ts : SlotBranches,
    Walk.conjunction (ctx.walkBranches ts.branches Walk.done) [] v s =
      (.ok (if ts.blocked xs.length then none
        else some ⟨slotPlaces xs (ts.located xs.length), false⟩), s)
  | .nil => rfl
  | .cons g rest => by
    show (ctx.walkSegment g.segment Walk.done [] v >>= _) s = _
    rw [Eval.run_bind_of_ok (walk_slotGroup h g)]
    dsimp only
    rw [isEmpty_slotPlaces]
    by_cases hempty : (g.located xs.length).isEmpty
    · have hblocked : (SlotBranches.cons g rest).blocked xs.length = true := by
        rw [SlotBranches.blocked, hempty, Bool.true_or]
      rw [if_pos hempty, if_pos hblocked]
      rfl
    · have hblocked : (SlotBranches.cons g rest).blocked xs.length = rest.blocked xs.length := by
        rw [SlotBranches.blocked, Bool.eq_false_iff.mpr hempty, Bool.false_or]
      rw [if_neg hempty, Eval.run_bind_of_ok (walk_allSlots h rest), SlotBranches.located,
        slotPlaces_append]
      by_cases hrest : rest.blocked xs.length = true
      · rw [if_pos hrest, if_pos (hblocked.trans hrest)]
        rfl
      · rw [if_neg hrest, if_neg (hblocked ▸ hrest)]
        rfl

end

/-- **Reading a group of slots** reports the slots that `located` tells. -/
theorem find_slotGroup (h : s.Sequence v xs) (g : SlotGroup) :
    ctx.find [g.segment] v s = (.ok (slotPlaces xs (g.located xs.length)), s) :=
  Eval.run_bind_of_ok (ctx.walk_slotGroup h g)

/-! ### Removing -/

theorem popSteps_slots {is : List Int} (h : s.Sequence v xs)
    (hsorted : is.Pairwise fun i j =>
      positionLE (resolveIndex? xs.length i) (resolveIndex? xs.length j)) :
    popSteps v (is.map fun i => .slot (.int i)) s =
      is.reverse.foldlM (fun node i => popChild node (.slot (.int i))) v s := by
  have hnumbered : (is.map fun i => Step.slot (.int i)).map (fun step => (step.position? s v, step)) =
      is.map fun i => (resolveIndex? xs.length i, Step.slot (.int i)) := by
    rw [List.map_map]
    congr 1
    funext i
    show (s.position? v i, Step.slot (.int i)) = _
    rw [h.position?]
  have hordered : (is.map fun i => (resolveIndex? xs.length i, Step.slot (.int i))).Pairwise
      fun a b => positionLE a.1 b.1 := List.pairwise_map.mpr hsorted
  unfold popSteps
  rw [StoreM.run_bind, StoreM.run_get]
  dsimp only
  rw [hnumbered, List.mergeSort_of_pairwise hordered, ← List.map_reverse, List.foldlM_map]

/-- Removing every index of a sequence, from the last to the first, leaves nothing. -/
theorem foldl_removed_range : ∀ {n : Nat} {ys : List Value}, ys.length = n →
    ((List.range n).map Int.ofNat).reverse.foldl
      (fun zs i => (SlotGroup.index i).removed zs) ys = []
  | 0, ys, hn => List.eq_nil_of_length_eq_zero hn
  | n + 1, ys, hn => by
    rw [List.range_succ, List.map_append, List.reverse_append]
    show List.foldl _ ((SlotGroup.index (n : Int)).removed ys) _ = _
    refine foldl_removed_range ?_
    rw [SlotGroup.removed, resolveIndex?_natCast (by omega)]
    have herase := List.length_eraseIdx_add_one (show n < ys.length by omega)
    simp only [Option.map_some, Option.getD_some]
    omega

/-- Removing what a single slot selects leaves the elements that `removed` tells. -/
theorem remove_slot {g : SlotGroup} (hitems : ∀ {s v xs}, s.Sequence v xs →
      ctx.items g.segment v s = (.ok (slotParts xs (g.located xs.length)), s))
    (hsorted : ∀ n, (g.located n).Pairwise fun i j =>
      positionLE (resolveIndex? n i) (resolveIndex? n j))
    (hremoved : ∀ xs : List Value, (g.located xs.length).reverse.foldl
      (fun ys i => (SlotGroup.index i).removed ys) xs = g.removed xs) :
    Eval.RewritesElements (fun v => do removeParts (← ctx.items g.segment v) .any v)
      g.removed := by
  intro s v xs h
  have hsteps : (slotParts xs (g.located xs.length)).map Prod.fst =
      (g.located xs.length).map fun i => Step.slot (.int i) := by
    rw [slotParts, List.map_map]
    rfl
  have hrun : (do removeParts (← ctx.items g.segment v) .any v : Eval Value) s =
      (liftM (popSteps v ((g.located xs.length).map fun i => .slot (.int i))) : Eval Value) s := by
    rw [Eval.run_bind_of_ok (hitems h)]
    show (liftM (popSteps v (((slotParts xs (g.located xs.length)).filter fun _ => true).map
      Prod.fst)) : Eval Value) s = _
    rw [List.filter_true, hsteps]
  have hpop := StoreM.RewritesElements.foldlM (fun i => popChild_rewrites i)
    (g.located xs.length).reverse s v xs h
  dsimp only at hpop
  rw [hremoved, ← popSteps_slots h (hsorted _)] at hpop
  exact ⟨_, _, hrun.trans (Eval.run_lift _ s), hpop⟩

/-- A removal of a group of slots leaves the elements that `removed` tells. -/
def RemovesSlots (g : SlotGroup) : Prop :=
  Eval.RewritesElements (fun v => (ctx.segmentEdit g.segment .done).remove false .any v) g.removed

theorem removesSlots_index (i : Int) : ctx.RemovesSlots (.index i) := by
  refine ctx.remove_slot (fun h => ctx.items_index h i) (fun n => ?_) fun xs => ?_
  · rw [SlotGroup.located]
    split
    · exact List.pairwise_singleton ..
    · exact .nil
  · rw [SlotGroup.located]
    split
    · rfl
    · rename_i hnone
      rw [SlotGroup.removed, Option.not_isSome_iff_eq_none.mp hnone]
      rfl

theorem removesSlots_every : ctx.RemovesSlots .every := by
  refine ctx.remove_slot ctx.items_every (fun n => ?_) fun xs => foldl_removed_range rfl
  rw [SlotGroup.located, List.pairwise_map]
  refine (List.pairwise_lt_range (n := n)).imp_of_mem fun {i j} hi hj hij => ?_
  have hi' : resolveIndex? n (Int.ofNat i) = some i := resolveIndex?_natCast (List.mem_range.mp hi)
  have hj' : resolveIndex? n (Int.ofNat j) = some j := resolveIndex?_natCast (List.mem_range.mp hj)
  rw [hi', hj']
  exact decide_eq_true hij.le

theorem locations_slotGroup (h : s.Sequence v xs) (g : SlotGroup) :
    ctx.locations [g.segment] v s =
      (.ok ((g.located xs.length).map fun i => [Step.slot (.int i)]), s) := by
  rw [locations, Eval.run_bind_of_ok (ctx.find_slotGroup h g), Eval.run_pure, locations_slotPlaces]

/-- The branches are removed one after the other, each from what the ones before it have left. -/
theorem removeMatching_slots : ∀ bs : SlotBranches, (∀ g ∈ bs.groups, ctx.RemovesSlots g) →
    Eval.RewritesElements (fun v =>
      ctx.removeMatching false .any (ctx.branchEdits bs.branches .done) [] v) bs.removed
  | .nil, _ => .pure
  | .cons g rest, hg => by
    obtain ⟨hhead, hrest⟩ := List.forall_mem_cons.mp hg
    intro s v xs h
    have hnext := removeMatching_slots rest hrest
    have houtside : ctx.locationsOutside [] [g.segment] v s =
        (.ok ((g.located xs.length).map fun i => [Step.slot (.int i)]), s) := by
      rw [locationsOutside, Eval.run_bind_of_ok (ctx.locations_slotGroup h g),
        Eval.run_bind_of_ok (Eval.run_store s)]
      show (Except.ok (List.filter (fun _ => true) _), s) = _
      rw [List.filter_true]
    show ∃ w t, (ctx.locationsOutside [] [g.segment] v >>= _) s = (.ok w, t) ∧ _
    rw [Eval.run_bind_of_ok houtside, List.isEmpty_map]
    by_cases hempty : (g.located xs.length).isEmpty
    · rw [if_pos hempty, SlotBranches.removed,
        SlotGroup.removed_of_located_nil (List.isEmpty_iff.mp hempty)]
      exact hnext s v xs h
    · rw [if_neg hempty]
      exact (hhead.bind hnext) s v xs h

theorem blocked_slots (h : s.Sequence v xs) : ∀ ts : SlotBranches,
    ((ctx.branchEdits ts.branches .done).anyM fun ((_, e) : Branch × Edit) => do
      pure (← ctx.locations e.segments v).isEmpty) s = (.ok (ts.blocked xs.length), s)
  | .nil => rfl
  | .cons g rest => by
    have hhead : (do pure (← ctx.locations [g.segment] v).isEmpty : Eval Bool) s =
        (.ok (g.located xs.length).isEmpty, s) := by
      rw [Eval.run_bind_of_ok (ctx.locations_slotGroup h g), List.isEmpty_map]
      rfl
    show ((do pure (← ctx.locations [g.segment] v).isEmpty : Eval Bool) >>= _) s = _
    rw [Eval.run_bind_of_ok hhead, SlotBranches.blocked]
    cases (g.located xs.length).isEmpty with
    | true => rfl
    | false => exact blocked_slots h rest

theorem removeTerms_slots : ∀ ts : SlotBranches, (∀ g ∈ ts.groups, ctx.RemovesSlots g) →
    Eval.RewritesElements (fun v => (ctx.branchEdits ts.branches .done).foldlM
      (fun node ((_, e) : Branch × Edit) => e.remove false .any node) v) ts.removed
  | .nil, _ => .pure
  | .cons g rest, hg => by
    obtain ⟨hhead, hrest⟩ := List.forall_mem_cons.mp hg
    exact hhead.bind (removeTerms_slots rest hrest)

theorem removesSlots_all {ts : SlotBranches} (hg : ∀ g ∈ ts.groups, ctx.RemovesSlots g) :
    ctx.RemovesSlots (.all ts) := by
  intro s v xs h
  show ∃ w t, (ctx.removeAll (ctx.branchEdits ts.branches .done) false .any v) s = (.ok w, t) ∧ _
  rw [removeAll, Eval.run_bind_of_ok (ctx.blocked_slots h ts), SlotGroup.removed]
  split
  · exact Eval.RewritesElements.pure s v xs h
  · exact ctx.removeTerms_slots ts hg s v xs h

/-- The edit of alternatives is that of a disjunction, or of the one group that they consist of. -/
theorem segmentEdit_anySlot (bs : SlotBranches) (rest : Edit) :
    ctx.segmentEdit (SlotGroup.any bs).segment rest =
        ctx.disjunctionEdit (ctx.branchEdits bs.branches rest) false ∨
      ∃ g, bs = .cons g .nil ∧
        ctx.segmentEdit (SlotGroup.any bs).segment rest = ctx.segmentEdit g.segment rest := by
  match bs with
  | .nil => exact .inl rfl
  | .cons (.index _) .nil => exact .inl rfl
  | .cons .every .nil => exact .inl rfl
  | .cons (.any _) .nil => exact .inr ⟨_, rfl, segmentEdit.eq_2 ..⟩
  | .cons (.all _) .nil => exact .inr ⟨_, rfl, segmentEdit.eq_2 ..⟩
  | .cons g (.cons g' rest') =>
    left
    rw [SlotGroup.segment, segmentEdit]
    intro kind branches first _ hbranches _
    simp [SlotBranches.branches] at hbranches

theorem removesSlots_any {bs : SlotBranches} (hg : ∀ g ∈ bs.groups, ctx.RemovesSlots g) :
    ctx.RemovesSlots (.any bs) := by
  obtain hedit | ⟨g, rfl, hedit⟩ := ctx.segmentEdit_anySlot bs .done
  · rw [RemovesSlots, hedit]
    exact ctx.removeMatching_slots bs hg
  · -- the group is its only branch
    rw [RemovesSlots, hedit]
    exact hg g (List.mem_cons_self ..)

/-- Every group of slots is removed as `removed` tells. -/
theorem removesSlots (g : SlotGroup) : ctx.RemovesSlots g :=
  g.induction ctx.removesSlots_index ctx.removesSlots_every (fun _ => ctx.removesSlots_any)
    fun _ => ctx.removesSlots_all

/-- **A removal of a group of slots** succeeds and leaves the elements that `removed` tells, in the
same list or in a new tuple. -/
theorem remove_slotGroup (h : s.Sequence v xs) (g : SlotGroup) :
    ∃ w t, ctx.remove [g.segment] v .any s = (.ok w, t) ∧ s.Rewrites v t w (g.removed xs) :=
  ctx.removesSlots g s v xs h

/-- What a removal leaves is part of what was there, in its order, and misses no more elements than
reading reports. -/
theorem remove_bounded (h : s.Sequence v xs) (g : SlotGroup) {found : List Found} {u : Store}
    (hfind : ctx.find [g.segment] v s = (.ok found, u)) :
    ∃ w t ys, ctx.remove [g.segment] v .any u = (.ok w, t) ∧ u.Rewrites v t w ys ∧
      ys.Sublist xs ∧ xs.length ≤ ys.length + found.length := by
  rw [ctx.find_slotGroup h g] at hfind
  cases hfind
  obtain ⟨w, t, hrun, hw⟩ := ctx.remove_slotGroup h g
  refine ⟨w, t, _, hrun, hw, g.removed_sublist xs, ?_⟩
  rw [slotPlaces, placesOf, slotParts, List.length_map, List.length_map]
  exact g.length_le_removed xs

/-- **From the last position to the first, a removal takes what reading reports** and keeps all other
elements in their order. -/
theorem remove_descending (h : s.Sequence v xs) {g : SlotGroup} (hstart : g.FromStart)
    {found : List Found} {u : Store} (hfind : ctx.find [g.segment] v s = (.ok found, u))
    {positions : List Int} (hpositions : found.map Prod.fst =
      positions.map fun i => [Step.slot (.int i)])
    (hdesc : positions.Pairwise (· > ·)) :
    ∃ w t, ctx.remove [g.segment] v .any u = (.ok w, t) ∧
      u.Rewrites v t w (without positions xs) := by
  rw [ctx.find_slotGroup h g] at hfind
  cases hfind
  rw [locations_slotPlaces] at hpositions
  have hinjective : Function.Injective fun i : Int => [Step.slot (.int i)] := by
    rintro i j ⟨⟩
    rfl
  obtain rfl : g.located xs.length = positions :=
    List.map_injective_iff.mpr hinjective hpositions
  rw [← SlotGroup.removed_of_descending hstart hdesc]
  exact ctx.remove_slotGroup h g

/-- A list of three numbers. -/
def threeItems : Store :=
  ⟨#[.list [.int 1, .int 2, .int 3]]⟩

/-- Reading `([0],[1])` reports the first two elements; removing it takes the first one and, from
what is left, the second one. -/
theorem remove_shifted :
    let g : SlotGroup := .any (.cons (.index 0) (.cons (.index 1) .nil))
    ctx.find [g.segment] (.ref ⟨0⟩) threeItems =
        (.ok [([.slot (.int 0)], .int 1), ([.slot (.int 1)], .int 2)], threeItems) ∧
      ctx.remove [g.segment] (.ref ⟨0⟩) .any threeItems =
        (.ok (.ref ⟨0⟩), threeItems.set ⟨0⟩ (.list [.int 2])) := by
  intro g
  have hc : threeItems.get? ⟨0⟩ = some (.list [.int 1, .int 2, .int 3]) := rfl
  have hseq : threeItems.Sequence (.ref ⟨0⟩) [.int 1, .int 2, .int 3] := ⟨_, rfl, .inl hc⟩
  refine ⟨ctx.find_slotGroup hseq g, ?_⟩
  obtain ⟨w, t, hrun, hw⟩ := ctx.remove_slotGroup hseq g
  rw [hrun]
  cases hw with
  | list => rfl
  | tuple hc' =>
    rw [hc] at hc'
    cases hc'

end Context

end DottedPath
