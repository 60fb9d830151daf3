import DottedPath.Evaluate.Walk
import DottedPath.Proofs.Evaluate.Descent

/-!
# Reading edits nothing

Reading along a path only adds containers to the store: the values of literals, and the sequences of
slices and slice filters (`Context.find_grows`).  This holds of every path and of every graph, also
where reading fails.

A walk only adds containers if the walk that comes after it does (`Walk.Adds`).
-/

namespace DottedPath

open Eval (Grows)

/-- Wherever it is done, the walk only adds containers. -/
def Walk.Adds (walk : Walk) : Prop :=
  ∀ base node, Grows (walk base node)

namespace Walk

variable {next : Walk}

theorem Adds.each (hnext : next.Adds) (base : Location) : ∀ places : List Found,
    Grows (next.each base places)
  | [] => .pure _
  | (l, v) :: rest => by
    rw [Walk.each]
    refine (hnext _ v).bind fun visit => ?_
    split
    · exact .pure _
    · exact (hnext.each base rest).bind fun more => .pure _

theorem Adds.eachPassing (hnext : next.Adds) {pass : Value → Eval Bool}
    (hpass : ∀ v, Grows (pass v)) (base : Location) : ∀ places : List Found,
    Grows (next.eachPassing pass base places)
  | [] => .pure _
  | (l, v) :: rest => by
    rw [Walk.eachPassing]
    refine (hpass v).bind fun hit => ?_
    have hrest (visit : Visit) : Grows (if visit.halted then pure visit
        else do
          let more ← next.eachPassing pass base rest
          pure ⟨visit.found ++ more.found, more.halted⟩ : Eval Visit) := by
      split
      · exact .pure _
      · exact (hnext.eachPassing hpass base rest).bind fun more => .pure _
    split
    · exact (hnext _ v).bind hrest
    · exact (Grows.pure Visit.nothing).bind hrest

theorem alternatives_grows (first : Bool) : ∀ (branches : List (Cut × Walk))
    (hidden : List Location), (∀ b ∈ branches, b.2.Adds) →
    Walk.Adds (alternatives first branches hidden)
  | [], _, _ => fun _ _ => .pure _
  | (cut, walk) :: rest, hidden, hbranches => fun base node => by
    obtain ⟨hwalk, hothers⟩ := List.forall_mem_cons.mp hbranches
    have hrest (hidden : List Location) := alternatives_grows first rest hidden hothers base node
    rw [alternatives]
    refine (hwalk base node).bind fun visit => Grows.store.bind fun s => ?_
    dsimp only
    split
    · exact hrest hidden
    · split
      · exact .pure _
      · split
        · exact .pure _
        · exact (hrest _).bind fun more => .pure _

theorem conjunction_grows : ∀ (branches : List (Cut × Walk)) (base : Location) (node : Value),
    (∀ b ∈ branches, b.2.Adds) → Grows (conjunction branches base node)
  | [], _, _, _ => .pure _
  | (cut, walk) :: rest, base, node, hbranches => by
    obtain ⟨hwalk, hothers⟩ := List.forall_mem_cons.mp hbranches
    rw [conjunction]
    refine (hwalk base node).bind fun visit => ?_
    split
    · exact .pure _
    · exact (conjunction_grows rest base node hothers).bind fun more => .pure _

end Walk

namespace Context

variable {ctx : Context}

theorem descendChild_grows (hreg : ctx.registry.Grows) {r : Recursion} {n : Nat}
    (hdescend : ∀ above base depth node found, Grows (ctx.descend r n above base depth node found))
    (above : List Handle) (base : Location) (depth : Nat) (found : List Found) (child : Child) :
    Grows (ctx.descendChild r n above base depth found child) := by
  have henter (found : List Found) : Grows (ctx.enterChild r n above base depth child found) := by
    unfold enterChild
    split
    · exact .pure _
    · exact hdescend _ _ _ _ _
  unfold descendChild
  split
  · exact .pure _
  · exact (reportsChild_grows hreg r depth child).bind fun hit => henter _

theorem descend_grows (hreg : ctx.registry.Grows) (r : Recursion) : ∀ (n : Nat)
    (above : List Handle) (base : Location) (depth : Nat) (node : Value) (found : List Found),
    Grows (ctx.descend r n above base depth node found)
  | 0, _, _, _, _, _ => .pure _
  | n + 1, above, base, depth, node, found => by
    rw [descend_succ]
    have hchild := descendChild_grows hreg (descend_grows hreg r n) above base depth
    exact (children_grows hreg r node).bind fun cs => Grows.foldlM hchild cs found

theorem collect_grows (hreg : ctx.registry.Grows) (r : Recursion) (node : Value) :
    Grows (ctx.collect r node) :=
  Grows.store.bind fun _ => (descend_grows hreg r _ _ _ _ _ _).bind fun _ => .pure _

theorem complement_grows (hreg : ctx.registry.Grows) (branches : List Branch) (node : Value) :
    Grows (ctx.complement branches node) := by
  unfold complement
  split
  · exact .pure _
  · rename_i leaf more _
    exact (Grows.mapM (fun seg => items_grows hreg seg node) (leaf :: more)).bind fun _ =>
      Grows.store.bind fun _ => .pure _

/-- Going on from the parts that a segment selects. -/
theorem parts_grows {next : Walk} (hnext : next.Adds)
    {select : Value → Eval (List (Step × Value))} (hselect : ∀ node, Grows (select node)) :
    Walk.Adds fun base node => (do next.each base (placesOf (← select node))) :=
  fun base node => (hselect node).bind fun parts => hnext.each base (placesOf parts)

mutual

theorem walkSegment_grows (hreg : ctx.registry.Grows) : ∀ (seg : Segment) (next : Walk),
    next.Adds → Walk.Adds (ctx.walkSegment seg next)
  | .group kind branches first, next, hnext => by
    intro base node
    have hbranches := walkBranches_grows hreg branches next hnext
    rw [walkSegment]
    cases kind with
    | or => exact Walk.alternatives_grows first _ _ hbranches base node
    | and => exact (Walk.conjunction_grows _ base node hbranches).bind fun visit => .pure _
    | not =>
      exact (complement_grows hreg branches node).bind fun parts =>
        (hnext.each base (placesOf parts)).bind fun visit => .pure _
  | .recursive key branches depth filter first, next, hnext => by
    intro base node
    rw [walkSegment]
    exact (collect_grows hreg _ node).bind fun places => hnext.each base places
  | .nop inner, next, hnext => by
    rw [walkSegment]
    exact walkSegment_grows hreg inner next hnext
  | .restrict inner kinds, next, hnext => by
    intro base node
    rw [walkSegment]
    refine Grows.store.bind fun s => ?_
    split
    · exact walkSegment_grows hreg inner next hnext base node
    · exact .pure _
  | .guard inner test, next, hnext => by
    intro base node
    rw [walkSegment]
    dsimp only
    split
    · have hdone : Walk.done.Adds := fun _ _ => .pure _
      exact (walkSegment_grows hreg inner Walk.done hdone [] node).bind fun reached =>
        (hnext.eachPassing (guardHolds_grows hreg test) base reached.found).bind fun _ => .pure _
    · exact parts_grows hnext (items_grows hreg (.guard inner test)) base node
  | .root, _, hnext => parts_grows hnext (items_grows hreg .root)
  | .invert, _, hnext => parts_grows hnext (items_grows hreg .invert)
  | .access accessor key filter first, _, hnext =>
    parts_grows hnext (items_grows hreg (.access accessor key filter first))
  | .append unique, _, hnext => parts_grows hnext (items_grows hreg (.append unique))
  | .slice range, _, hnext => parts_grows hnext (items_grows hreg (.slice range))
  | .sliceFilter filter first, _, hnext =>
    parts_grows hnext (items_grows hreg (.sliceFilter filter first))

theorem walkPath_grows (hreg : ctx.registry.Grows) : ∀ (segs : List Segment) (next : Walk),
    next.Adds → Walk.Adds (ctx.walkPath segs next)
  | [], next, hnext => by
    rw [walkPath]
    exact hnext
  | seg :: segs, next, hnext => by
    rw [walkPath]
    exact walkSegment_grows hreg seg _ (walkPath_grows hreg segs next hnext)

theorem walkBranches_grows (hreg : ctx.registry.Grows) : ∀ (bs : List Branch) (next : Walk),
    next.Adds → ∀ b ∈ ctx.walkBranches bs next, b.2.Adds
  | [], next, _ => by
    rw [walkBranches]
    exact fun b hb => by cases hb
  | .mk segs cut :: bs, next, hnext => by
    rw [walkBranches]
    exact List.forall_mem_cons.mpr
      ⟨walkPath_grows hreg segs next hnext, walkBranches_grows hreg bs next hnext⟩

end

/-- **Reading only adds containers.** -/
theorem find_grows (hreg : ctx.registry.Grows) (segs : List Segment) (node : Value) :
    Grows (ctx.find segs node) :=
  (walkPath_grows hreg segs Walk.done (fun _ _ => .pure _) [] node).bind fun _ => .pure _

end Context

end DottedPath
