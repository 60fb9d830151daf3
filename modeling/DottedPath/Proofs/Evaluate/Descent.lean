import DottedPath.Evaluate.Recursion
import DottedPath.Proofs.Evaluate.Graph

/-!
# What a descent reports

A descent goes from a value to its parts and on to theirs; every place that it reports is reached
in the real steps it has taken.  The proof follows the descent, whose invariant is that the place it
is at, and each one reported so far, is such a place.

## Main statements

- `Context.descend_places`: a descent from a place of a root only adds places of this root.
- `Context.collect_places`: what a recursive segment reports are places of the value.
-/

namespace DottedPath

/-- A location and a value of the graph that it leads to in real steps. -/
structure Context.Place (ctx : Context) (inside : Handle → Prop) (s : Store) (root : Value)
    (found : Found) : Prop where
  leads : ctx.Leads s root found.1 found.2
  tame : Tame inside s found.2

/-- The branches of a descent hold no slice filter. -/
def Recursion.hasSliceFilter (r : Recursion) : Bool :=
  Branch.haveSliceFilter r.branches

namespace Context

open Eval (Grows Yields)

variable {ctx : Context} {inside : Handle → Prop} {s t : Store} {root node : Value}

namespace Place

variable {found : Found}

theorem here (htame : Tame inside s node) : ctx.Place inside s node ([], node) :=
  ⟨.nil, htame⟩

theorem grows (hst : s.GrowsTo t) (h : ctx.Place inside s root found) :
    ctx.Place inside t root found :=
  ⟨h.leads.grows hst, h.tame.grows hst⟩

/-- A place of a value that is at a place is a place of the root. -/
theorem append {base : Location} (h : ctx.Place inside s root (base, node))
    (h' : ctx.Place inside s node found) : ctx.Place inside s root (base ++ found.1, found.2) :=
  ⟨h.leads.append h'.leads, h'.tame⟩

end Place

/-- One step leads to a place. -/
theorem Reaches.place {p : Step × Value} (h : ctx.Reaches inside s node p) :
    ctx.Place inside s node ([p.1], p.2) :=
  ⟨.single h.1, h.2⟩

/-! ### Where a descent goes -/

theorem branchChildren_grows (hreg : ctx.registry.Grows) : ∀ (bs : List Branch) (node : Value),
    Grows (ctx.branchChildren bs node)
  | [], _ => .pure _
  | .mk [] _ :: bs, node => branchChildren_grows hreg bs node
  | .mk (seg :: _) cut :: bs, node => by
    rw [branchChildren]
    refine (items_grows hreg seg node).bind fun found => ?_
    dsimp only
    split
    · exact .pure _
    · exact (branchChildren_grows hreg bs node).bind fun _ => .pure _

theorem children_grows (hreg : ctx.registry.Grows) (r : Recursion) (node : Value) :
    Grows (ctx.children r node) := by
  refine Grows.store.bind fun s => ?_
  split
  · exact .pure _
  · split
    · exact .pure _
    · exact branchChildren_grows hreg r.branches node

/-- The parts that a descent without branches goes to are reached in real steps. -/
theorem plainChildren_are_real (hg : s.ValueGraph inside) (htame : Tame inside s node)
    (key : KeyPattern) :
    ∀ c ∈ plainChildren s key node, ctx.Reaches inside s node (c.step, c.value) := by
  intro c hc
  unfold plainChildren at hc
  split at hc
  · rename_i hk
    obtain ⟨part, hpart, rfl⟩ := List.mem_map.mp hc
    have hmem := (List.mem_filter.mp hpart).1
    have hpart : Candidate s node .key key part := candidate_of_mem_entries (by decide) hk hmem
    exact reaches_of_candidate hg htame hpart
  · split at hc
    · rename_i hl
      obtain ⟨part, hpart, rfl⟩ := List.mem_map.mp hc
      have hi := Store.isIndexed_of_isListLike hl
      have hpart : Candidate s node .slot key part := candidate_of_mem_numbered (by decide) hi hpart
      exact reaches_of_candidate hg htame hpart
    · cases hc

theorem branchChildren_are_real (hreg : ctx.registry.Grows) : ∀ (bs : List Branch) (s : Store),
    Branch.haveSliceFilter bs = false → s.ValueGraph inside → Tame inside s node →
    (ctx.branchChildren bs node).Yields s fun cs t =>
      ∀ c ∈ cs, ctx.Reaches inside t node (c.step, c.value)
  | [], _, _, _, _ => .pure fun c hc => by cases hc
  | .mk [] _ :: bs, s, hfilter, hg, htame =>
    branchChildren_are_real hreg bs s (Bool.or_eq_false_iff.mp hfilter).2 hg htame
  | .mk (seg :: segs) cut :: bs, s, hfilter, hg, htame => by
    rw [Branch.haveSliceFilter, Segment.haveSliceFilter, Bool.or_eq_false_iff,
      Bool.or_eq_false_iff] at hfilter
    rw [branchChildren]
    refine (items_are_real hreg seg hfilter.1.1 hg htame).bind fun found t hst hfound => ?_
    have hhere : ∀ c ∈ found.map fun p => (⟨p.1, p.2, true⟩ : Child),
        ctx.Reaches inside t node (c.step, c.value) := by
      intro c hc
      obtain ⟨p, hp, rfl⟩ := List.mem_map.mp hc
      exact hfound p hp
    dsimp only
    split
    · exact .pure hhere
    · refine (branchChildren_are_real hreg bs t hfilter.2 (hg.grows hst) (htame.grows hst)).bind
        fun more u htu hmore => .pure fun c hc => ?_
      rcases List.mem_append.mp hc with hc | hc
      · exact (hhere c hc).grows htu
      · exact hmore c hc

/-- The parts that a descent goes to are reached in real steps. -/
theorem children_are_real (hreg : ctx.registry.Grows) {r : Recursion}
    (hfilter : r.hasSliceFilter = false) (hg : s.ValueGraph inside) (htame : Tame inside s node) :
    (ctx.children r node).Yields s fun cs t =>
      ∀ c ∈ cs, ctx.Reaches inside t node (c.step, c.value) := by
  refine (Yields.store rfl).bind (Q := fun r t => r = t) fun u t hst hu => ?_
  subst hu
  split
  · exact .pure fun c hc => by cases hc
  · split
    · exact .pure (plainChildren_are_real (hg.grows hst) (htame.grows hst) r.key)
    · exact branchChildren_are_real hreg r.branches u hfilter (hg.grows hst) (htame.grows hst)

/-! ### The descent -/

theorem leafDistanceWithin_grows (hreg : ctx.registry.Grows) (r : Recursion) : ∀ (n : Nat)
    (above : List Handle) (node : Value), Grows (ctx.leafDistanceWithin r n above node)
  | 0, _, _ => .pure _
  | n + 1, above, node => by
    rw [leafDistanceWithin]
    split
    · exact .pure _
    · refine (children_grows hreg r node).bind fun cs => ?_
      refine (Grows.mapM (fun child => ?_) cs).bind fun below => .pure _
      split
      · exact leafDistanceWithin_grows hreg r n _ child.value
      · exact .pure _

theorem reports_grows (hreg : ctx.registry.Grows) (r : Recursion) (v : Value) (depth : Nat) :
    Grows (ctx.reports r v depth) := by
  refine (passes_grows hreg r.filter v).bind fun pass => ?_
  cases pass with
  | false => exact .pure _
  | true =>
    rw [if_pos rfl]
    have hcontains (distance : Nat) :
        Grows (pure (r.depth.contains depth distance) : Eval Bool) := .pure _
    split
    · refine Grows.bind ?_ hcontains
      exact Grows.store.bind fun s => leafDistanceWithin_grows hreg r _ _ v
    · exact (Grows.pure _).bind hcontains

/-- A child is reported as far as the descent goes by keys, and if it passes. -/
def reportsChild (ctx : Context) (r : Recursion) (depth : Nat) (child : Child) : Eval Bool :=
  if child.reported then ctx.reports r child.value depth else pure false

/-- A descent goes on below a child, unless it is inside of it or its step leads to a copy. -/
def enterChild (ctx : Context) (r : Recursion) (n : Nat) (above : List Handle) (base : Location)
    (depth : Nat) (child : Child) (found : List Found) : Eval (List Found) :=
  if child.value.handle?.any above.contains || !child.step.descends then pure found
  else
    ctx.descend r n (child.value.handle?.toList ++ above) (base ++ [child.step]) (depth + 1)
      child.value found

/-- One step of a descent. -/
def descendChild (ctx : Context) (r : Recursion) (n : Nat) (above : List Handle) (base : Location)
    (depth : Nat) (found : List Found) (child : Child) : Eval (List Found) := do
  if r.first && !found.isEmpty then pure found
  else
    let hit ← ctx.reportsChild r depth child
    ctx.enterChild r n above base depth child
      (if hit then found ++ [(base ++ [child.step], child.value)] else found)

theorem descend_succ (ctx : Context) (r : Recursion) (n : Nat) (above : List Handle)
    (base : Location) (depth : Nat) (node : Value) (found : List Found) :
    ctx.descend r (n + 1) above base depth node found = (do
      (← ctx.children r node).foldlM (ctx.descendChild r n above base depth) found) := by
  rw [descend]
  congr 1
  funext cs
  congr 1
  funext found child
  unfold descendChild reportsChild
  by_cases hreported : child.reported = true
  · simp only [if_pos hreported]
    rfl
  · simp only [if_neg hreported]
    rfl

theorem reportsChild_grows (hreg : ctx.registry.Grows) (r : Recursion) (depth : Nat)
    (child : Child) : Grows (ctx.reportsChild r depth child) := by
  unfold reportsChild
  split
  · exact reports_grows hreg r child.value depth
  · exact .pure false

/-- **What a descent reports are places.**  It starts from a place of the root and from places that
it has reported already, and what it adds are places of this root. -/
theorem descend_places (hreg : ctx.registry.Grows) {r : Recursion}
    (hfilter : r.hasSliceFilter = false) : ∀ (n : Nat) (above : List Handle) (base : Location)
    (depth : Nat) (node : Value) (found : List Found) (s : Store), s.ValueGraph inside →
    ctx.Place inside s root (base, node) → (∀ p ∈ found, ctx.Place inside s root p) →
    (ctx.descend r n above base depth node found).Yields s fun found t =>
      ∀ p ∈ found, ctx.Place inside t root p
  | 0, _, _, _, _, _, _, _, _, hfound => .pure hfound
  | n + 1, above, base, depth, node, found, s, hg, hplace, hfound => by
    rw [descend_succ]
    refine (children_are_real hreg hfilter hg hplace.tame).bind fun cs t hst hcs => ?_
    have hstart : ∀ p ∈ found, ctx.Place inside t root p := fun p hp => (hfound p hp).grows hst
    refine Yields.foldlM cs hstart fun found child u hchild htu hfound => ?_
    -- the child is a place of the root, reported or not
    have hnext : ctx.Place inside u root (base ++ [child.step], child.value) :=
      (hplace.grows (hst.trans htu)).append ((hcs child hchild).grows htu).place
    have hrest (hit : Bool) (w : Store) (huw : u.GrowsTo w) :
        (ctx.enterChild r n above base depth child
          (if hit then found ++ [(base ++ [child.step], child.value)] else found)).Yields w
          fun found t => ∀ p ∈ found, ctx.Place inside t root p := by
      have hfound' : ∀ p ∈ (if hit then found ++ [(base ++ [child.step], child.value)] else found),
          ctx.Place inside w root p := by
        intro p hp
        split at hp
        · rcases List.mem_append.mp hp with hp | hp
          · exact (hfound p hp).grows huw
          · rw [List.mem_singleton.mp hp]
            exact hnext.grows huw
        · exact (hfound p hp).grows huw
      unfold enterChild
      split
      · exact .pure hfound'
      · exact descend_places hreg hfilter n _ _ _ _ _ w
          (hg.grows (hst.trans (htu.trans huw))) (hnext.grows huw) hfound'
    unfold descendChild
    split
    · exact .pure hfound
    · exact (reportsChild_grows hreg r depth child u).bind fun hit w huw _ => hrest hit w huw

/-- **What a recursive segment reports are places of the value.** -/
theorem collect_places (hreg : ctx.registry.Grows) {r : Recursion}
    (hfilter : r.hasSliceFilter = false) (hg : s.ValueGraph inside) (htame : Tame inside s node) :
    (ctx.collect r node).Yields s fun found t => ∀ p ∈ found, ctx.Place inside t node p := by
  refine (Yields.store rfl).bind (Q := fun r t => r = t) fun u t hst hu => ?_
  subst hu
  refine (descend_places hreg hfilter _ _ [] 0 node [] u (hg.grows hst)
    (.here (htame.grows hst)) fun p hp => by cases hp).bind fun found t _ hfound => .pure ?_
  exact fun p hp => hfound p ((firstOnly_sublist r.first found).subset hp)

end Context

end DottedPath
