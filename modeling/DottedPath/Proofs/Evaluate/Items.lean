import DottedPath.Proofs.Evaluate.Alike

/-!
# What segments select

Selecting parts only adds containers, and a filter only leaves items out.

## Main statements

- `Context.filterItems_sublist`: what passes a filter is part of what was there, in its order.
- `Context.items_grows`: selecting parts edits nothing.
- `Context.walkSegment_parts`: reading a segment that is no path of its own goes to the parts that it
  selects.
-/

namespace DottedPath

theorem firstOnly_sublist {α : Type} (first : Bool) (xs : List α) :
    (firstOnly first xs).Sublist xs := by
  cases first with
  | false => exact List.Sublist.refl xs
  | true => exact List.take_sublist 1 xs

theorem keyedCandidates_grows (key : KeyPattern) (node : Value) :
    StoreM.Grows (keyedCandidates key node) := by
  refine StoreM.Grows.get.bind fun s => ?_
  split
  · cases key with
    | literal l => exact l.toValue_grows.bind fun k => StoreM.Grows.get.bind fun _ => .pure _
    | wildcard => exact .pure _
    | regex re => exact .pure _
  · split
    · split
      · exact .pure _
      · exact .pure _
    · exact .pure _

theorem slotCandidates_grows (key : KeyPattern) (node : Value) :
    StoreM.Grows (slotCandidates key node) := by
  refine StoreM.Grows.get.bind fun s => ?_
  split
  · split
    · exact .pure _
    · exact .pure _
    · exact .pure _
  · exact keyedCandidates_grows key node

theorem attrCandidates_grows (key : KeyPattern) (node : Value) :
    StoreM.Grows (attrCandidates key node) := by
  refine StoreM.Grows.get.bind fun s => ?_
  split
  · cases key with
    | literal l => exact l.toValue_grows.bind fun k => StoreM.Grows.get.bind fun _ => .pure _
    | wildcard => exact .pure _
    | regex re => exact .pure _
  · exact .pure _

/-- A literal names the entry with its key. -/
theorem keyedCandidates_literal {s : Store} {node : Value} (hkeyed : s.isKeyed node = true)
    (l : Literal) :
    keyedCandidates (.literal l) node s =
      ((((l.toValue s).2.dictGet? node (l.toValue s).1).map ((l.toValue s).1, ·)).toList,
        (l.toValue s).2) := by
  unfold keyedCandidates
  rw [StoreM.run_bind, StoreM.run_get, hkeyed]
  rfl

/-- A literal names the attribute with its text. -/
theorem attrCandidates_literal {s : Store} {node : Value}
    (hattributed : s.isAttributed node = true) (l : Literal) :
    let name := (l.toValue s).2.text (l.toValue s).1
    attrCandidates (.literal l) node s =
      (((s.attrGet? node name).map (Value.str name, ·)).toList, (l.toValue s).2) := by
  intro name
  unfold attrCandidates
  rw [StoreM.run_bind, StoreM.run_get, if_pos hattributed]
  rfl

/-- Outside of sequences a slot is a key. -/
theorem slotCandidates_of_isIndexed_eq_false {s : Store} (key : KeyPattern) {node : Value}
    (hindexed : s.isIndexed node = false) :
    slotCandidates key node s = keyedCandidates key node s := by
  unfold slotCandidates
  rw [StoreM.run_bind, StoreM.run_get, hindexed]
  rfl

/-- An index names the element at its position, as a key or as a slot. -/
theorem candidates_int {s : Store} {node : Value} {accessor : Accessor} (haccessor : accessor ≠ .attr)
    (hindexed : s.isIndexed node = true) (i : Int) : candidates accessor (.literal (.int i)) node s =
      (((s.elementAt? node i).map (Value.int i, ·)).toList, s) := by
  have hkeyed := Store.isKeyed_of_isIndexed hindexed
  cases accessor with
  | attr => exact absurd rfl haccessor
  | key =>
    rw [candidates, keyedCandidates, StoreM.run_bind, StoreM.run_get, hkeyed, hindexed]
    rfl
  | slot =>
    rw [candidates, slotCandidates, StoreM.run_bind, StoreM.run_get, hindexed]
    rfl

theorem candidates_grows (accessor : Accessor) (key : KeyPattern) (node : Value) :
    StoreM.Grows (candidates accessor key node) := by
  cases accessor with
  | key => exact keyedCandidates_grows key node
  | slot => exact slotCandidates_grows key node
  | attr => exact attrCandidates_grows key node

namespace Context

open Eval (Grows Yields)

variable {α : Type} {ctx : Context}

/-- Without a filter all items are kept. -/
theorem filterItems_none (ctx : Context) (valueOf : α → Value) (xs : List α) (s : Store) :
    ctx.filterItems none valueOf xs s = (.ok xs, s) := by
  rw [filterItems]
  induction xs with
  | nil => rfl
  | cons x xs ih =>
    have hpass : ctx.passes none (valueOf x) s = (.ok true, s) := rfl
    rw [Eval.filterM_cons, Eval.run_bind_of_ok hpass, Eval.run_bind_of_ok ih]
    rfl

/-- Without a filter an access selects its candidates. -/
theorem items_of_candidates (ctx : Context) {accessor : Accessor} {key : KeyPattern} {first : Bool}
    {node : Value} {raw : List (Value × Value)} {s t : Store}
    (hrun : candidates accessor key node s = (raw, t)) :
    ctx.items (.access accessor key none first) node s =
      (.ok ((firstOnly first raw).map fun e => (accessor.step t e.1, e.2)), t) := by
  rw [items, Eval.run_bind_of_ok (Eval.run_lift _ s), hrun,
    Eval.run_bind_of_ok (ctx.filterItems_none _ _ t), Eval.run_bind_of_ok (Eval.run_store t)]
  rfl

/-- A filter keeps some of the items, in their order. -/
theorem filterItems_sublist (hreg : ctx.registry.Grows) (filter : Option Filter)
    (valueOf : α → Value) (xs : List α) (s : Store) :
    (ctx.filterItems filter valueOf xs).Yields s fun kept _ => kept.Sublist xs :=
  Yields.filterM (fun x => passes_grows hreg filter (valueOf x)) xs s

theorem filterItems_grows (hreg : ctx.registry.Grows) (filter : Option Filter)
    (valueOf : α → Value) (xs : List α) : Grows (ctx.filterItems filter valueOf xs) :=
  fun s => (filterItems_sublist hreg filter valueOf xs s).mono fun _ _ _ _ => trivial

/-- Selecting parts only adds containers. -/
theorem items_grows (hreg : ctx.registry.Grows) : ∀ (seg : Segment) (node : Value),
    Grows (ctx.items seg node)
  | .root, _ => .pure _
  | .invert, _ => .pure _
  | .recursive .., _ => .pure _
  | .group .., _ => .pure _
  | .append _, _ => Grows.store.bind fun _ => .pure _
  | .access accessor key filter first, node => by
    rw [items]
    refine (Grows.lift (candidates_grows accessor key node)).bind fun raw => ?_
    refine (filterItems_grows hreg filter _ raw).bind fun kept => ?_
    exact Grows.store.bind fun _ => .pure _
  | .slice range, node => by
    rw [items]
    refine Grows.store.bind fun s => ?_
    split
    · exact (Grows.lift (sliceOf_grows range node)).bind fun _ => .pure _
    · exact .pure _
  | .sliceFilter filter first, node => by
    rw [items]
    refine Grows.store.bind fun s => ?_
    split
    · refine (filterItems_grows hreg _ _ _).bind fun kept => ?_
      exact (Grows.lift (withElements_grows _ _)).bind fun _ => .pure _
    · exact .pure _
  | .nop inner, node => by
    rw [items]
    exact items_grows hreg inner node
  | .guard inner test, node => by
    rw [items]
    refine (items_grows hreg inner node).bind fun found s => ?_
    exact (Yields.filterM (fun p => guardHolds_grows hreg test p.2) found s).mono
      fun _ _ _ _ => trivial
  | .restrict inner kinds, node => by
    rw [items]
    refine Grows.store.bind fun s => ?_
    split
    · exact items_grows hreg inner node
    · exact .pure _

/-! ### Reading -/

/-- **Reading a segment that is no path of its own goes to the parts that it selects.** -/
theorem walkSegment_parts (ctx : Context) (next : Walk) (base : Location) (node : Value) :
    ∀ (seg : Segment), seg.isCompound = false → ∀ s, ctx.walkSegment seg next base node s =
      (do next.each base (placesOf (← ctx.items seg node)) : Eval Visit) s
  | .root, _, _ => rfl
  | .invert, _, _ => rfl
  | .access .., _, _ => rfl
  | .append _, _, _ => rfl
  | .slice _, _, _ => rfl
  | .sliceFilter .., _, _ => rfl
  | .nop inner, h, s => walkSegment_parts ctx next base node inner h s
  | .restrict inner kinds, h, s => by
    have hwalk : ctx.walkSegment (.restrict inner kinds) next base node s =
        (if kinds.admits (s.kind node) then ctx.walkSegment inner next base node
        else pure .nothing : Eval Visit) s := Eval.run_bind_of_ok (Eval.run_store s)
    rw [hwalk, items, bind_assoc, Eval.run_bind_of_ok (Eval.run_store s)]
    split
    · exact walkSegment_parts ctx next base node inner h s
    · rfl
  | .guard inner test, h, s => by
    have hinner : inner.isCompound = false := h
    rw [walkSegment, hinner]
    rfl

end Context

end DottedPath
