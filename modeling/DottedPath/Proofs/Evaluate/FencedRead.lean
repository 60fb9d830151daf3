import DottedPath.Evaluate.Replace
import DottedPath.Evaluate.Walk
import DottedPath.Proofs.Evaluate.Descent
import DottedPath.Proofs.Evaluate.FencedTests
import DottedPath.Proofs.Evaluate.Items

/-!
# Reading outside of a fence

Reading along a path from a value outside of a fence finds values outside of it
(`Context.find_spares`), whether the path selects parts, goes down or has alternatives.  A walk
stays outside if the walk that comes after it does (`Walk.StaysOutside`).

The places that are found lie below the value if a segment of the path goes to a part of what it is
applied to (`Segment.names`).
-/

namespace DottedPath

open Fence (free_scalar Spares SparesM)

/-! ### Segments that go to a part -/

/-- Goes to a part. Only with `whole` the slice of a whole sequence counts as one. -/
def Step.names (whole : Bool) : Step → Bool
  | .root => false
  | .invert => false
  | .slice range => whole || range != .full
  | _ => true

theorem Step.ne_root_of_names {whole : Bool} {step : Step} (h : step.names whole = true) :
    step ≠ .root := by
  rintro rfl
  cases h

mutual

/-- Every place that the segment names has a step on its way that goes to a part. -/
def Segment.names (whole : Bool) : Segment → Bool
  | .root => false
  | .invert => false
  | .access .. => true
  | .append _ => true
  | .slice range => whole || range != .full
  | .sliceFilter _ _ => whole
  | .recursive _ branches _ _ _ => Branch.startByNaming whole branches
  | .group _ branches _ => Branch.allName whole branches
  | .nop inner => inner.names whole
  | .guard inner _ => inner.names whole
  | .restrict inner _ => inner.names whole

/-- One of the segments goes to a part. -/
def Segment.someNames (whole : Bool) : List Segment → Bool
  | [] => false
  | seg :: segs => seg.names whole || Segment.someNames whole segs

/-- All of the branches go to a part. -/
def Branch.allName (whole : Bool) : List Branch → Bool
  | [] => true
  | .mk segs _ :: bs => Segment.someNames whole segs && Branch.allName whole bs

/-- The first segments of the branches go to a part. -/
def Branch.startByNaming (whole : Bool) : List Branch → Bool
  | [] => true
  | .mk [] _ :: bs => Branch.startByNaming whole bs
  | .mk (seg :: _) _ :: bs => seg.names whole && Branch.startByNaming whole bs

end

variable {F : Fence} {whole : Bool}

namespace Fence

/-- The key of the step is from outside. -/
def FreeStep (F : Fence) : Step → Prop
  | .key k => F.Free k
  | .slot k => F.Free k
  | _ => True

/-- A key and its value, both from outside. -/
def FreeEntry (F : Fence) (e : Value × Value) : Prop :=
  F.Free e.1 ∧ F.Free e.2

/-- A step and the value there, both from outside; where it is to be one, the step goes to a
part. -/
structure FreePart (F : Fence) (whole : Bool) (named : Prop) (p : Step × Value) : Prop where
  step : F.FreeStep p.1
  value : F.Free p.2
  names : named → p.1.names whole = true

/-- Places below a location with values from outside; where there is to be one, the way from the
location has a step to a part. -/
def FreeFound (F : Fence) (whole : Bool) (named : Prop) (base : Location) (found : List Found) :
    Prop :=
  ∀ p ∈ found, F.Free p.2 ∧ ∃ l, p.1 = base ++ l ∧ (named → l.any (Step.names whole) = true)

theorem FreePart.mono {p : Step × Value} {named named' : Prop} (hp : F.FreePart whole named p)
    (h : named' → named) : F.FreePart whole named' p :=
  ⟨hp.step, hp.value, fun hn => hp.names (h hn)⟩

/-- Another value at the same step. -/
theorem FreePart.instead {named : Prop} {step : Step} {x v : Value}
    (hp : F.FreePart whole named (step, x)) (hv : F.Free v) : F.FreePart whole named (step, v) :=
  ⟨hp.step, hv, hp.names⟩

/-- The step of an access to what a candidate is. -/
theorem FreeEntry.part {named : Prop} {accessor : Accessor} {e : Value × Value}
    (he : F.FreeEntry e) (s : Store) : F.FreePart whole named (accessor.step s e.1, e.2) := by
  cases accessor with
  | key => exact ⟨he.1, he.2, fun _ => rfl⟩
  | slot => exact ⟨he.1, he.2, fun _ => rfl⟩
  | attr => exact ⟨trivial, he.2, fun _ => rfl⟩

namespace FreeFound

variable {named named' : Prop} {base : Location} {found more : List Found}

theorem value {p : Found} (h : F.FreeFound whole named base found) (hp : p ∈ found) : F.Free p.2 :=
  (h p hp).1

theorem names {p : Found} (h : F.FreeFound whole named [] found) (hp : p ∈ found)
    (hn : named) : p.1.any (Step.names whole) = true := by
  obtain ⟨-, l, hl, hnames⟩ := h p hp
  rw [hl, List.nil_append]
  exact hnames hn

theorem mono (h : F.FreeFound whole named base found) (himp : named' → named) :
    F.FreeFound whole named' base found := by
  intro p hp
  obtain ⟨hv, l, hl, hnames⟩ := h p hp
  exact ⟨hv, l, hl, fun hn => hnames (himp hn)⟩

theorem subset (h : F.FreeFound whole named base found) (hmore : more ⊆ found) :
    F.FreeFound whole named base more :=
  fun p hp => h p (hmore hp)

theorem append (h : F.FreeFound whole named base found)
    (hmore : F.FreeFound whole named base more) : F.FreeFound whole named base (found ++ more) := by
  intro p hp
  rcases List.mem_append.mp hp with hp | hp
  · exact h p hp
  · exact hmore p hp

/-- What is found below a place is found below the location that the place is given from. -/
theorem below {l : Location} (h : F.FreeFound whole named' (base ++ l) found)
    (hl : named → l.any (Step.names whole) = true) :
    F.FreeFound whole (named ∨ named') base found := by
  intro p hp
  obtain ⟨hv, m, hm, hnames⟩ := h p hp
  refine ⟨hv, l ++ m, by rw [hm, List.append_assoc], fun hn => ?_⟩
  rw [List.any_append, Bool.or_eq_true]
  exact hn.imp hl hnames

end FreeFound

end Fence

/-! ### Candidates -/

/-- The candidate at a key that is given. -/
theorem forall_mem_entryAt {P : Value × Value → Prop} {x? : Option Value} {k : Value}
    (h : ∀ x, x? = some x → P (k, x)) : ∀ e ∈ (x?.map (k, ·)).toList, P e := by
  intro e he
  obtain ⟨x, hx, rfl⟩ := Option.map_eq_some_iff.mp (Option.mem_toList.mp he)
  exact h x hx

section

variable {node : Value}

private theorem no_candidates_spares :
    F.SparesM (fun es => ∀ e ∈ es, F.FreeEntry e) (pure [] : StoreM (List (Value × Value))) :=
  .pure (List.forall_mem_nil _)

private theorem chosen_entries_spares {t : Store} (ht : F.Intact t) (hnode : F.Free node)
    (p : KeyPattern) : F.SparesM (fun es => ∀ e ∈ es, F.FreeEntry e)
      (pure ((t.entries node).filter fun (k, _) => t.keyMatches p k) :
        StoreM (List (Value × Value))) :=
  .pure fun e he => ht.entries hnode e (List.mem_filter.mp he).1

theorem keyedCandidates_spares (key : KeyPattern) (hnode : F.Free node) :
    F.SparesM (fun es => ∀ e ∈ es, F.FreeEntry e) (keyedCandidates key node) := by
  refine SparesM.get.bind fun t ht => ?_
  split
  · cases key with
    | literal l =>
      exact l.toValue_spares.bind fun k hk => SparesM.get.bind fun u hu =>
        .pure (forall_mem_entryAt fun x hx => ⟨hk, hu.dictGet? hnode hx⟩)
    | wildcard => exact chosen_entries_spares ht hnode .wildcard
    | regex re => exact chosen_entries_spares ht hnode (.regex re)
  · split
    · split
      · exact .pure (forall_mem_entryAt fun x hx => ⟨free_scalar _, ht.elementAt? hnode hx⟩)
      · exact no_candidates_spares
    · exact no_candidates_spares

theorem slotCandidates_spares (key : KeyPattern) (hnode : F.Free node) :
    F.SparesM (fun es => ∀ e ∈ es, F.FreeEntry e) (slotCandidates key node) := by
  refine SparesM.get.bind fun t ht => ?_
  split
  · split
    · exact .pure (forall_mem_entryAt fun x hx => ⟨free_scalar _, ht.elementAt? hnode hx⟩)
    · exact no_candidates_spares
    · exact .pure fun e he => ht.numbered hnode e (List.mem_filter.mp he).1
  · exact keyedCandidates_spares key hnode

theorem attrCandidates_spares (key : KeyPattern) (hnode : F.Free node) :
    F.SparesM (fun es => ∀ e ∈ es, F.FreeEntry e) (attrCandidates key node) := by
  refine SparesM.get.bind fun t ht => ?_
  split
  · cases key with
    | literal l =>
      exact l.toValue_spares.bind fun k hk => SparesM.get.bind fun u hu =>
        .pure (forall_mem_entryAt fun x hx => ⟨free_scalar _, ht.attrGet? hnode hx⟩)
    | wildcard => exact chosen_entries_spares ht hnode .wildcard
    | regex re => exact chosen_entries_spares ht hnode (.regex re)
  · exact no_candidates_spares

theorem candidates_spares (accessor : Accessor) (key : KeyPattern) (hnode : F.Free node) :
    F.SparesM (fun es => ∀ e ∈ es, F.FreeEntry e) (candidates accessor key node) := by
  cases accessor with
  | key => exact keyedCandidates_spares key hnode
  | slot => exact slotCandidates_spares key hnode
  | attr => exact attrCandidates_spares key hnode

end

namespace Context

variable {ctx : Context} {node v : Value}

/-! ### Parts -/

theorem filterItems_spares {α : Type} (hreg : ctx.registry.Spares F) (filter : Option Filter)
    {valueOf : α → Value} {xs : List α} (hxs : ∀ x ∈ xs, F.Free (valueOf x)) :
    F.Spares (fun kept => kept ⊆ xs) (ctx.filterItems filter valueOf xs) :=
  .filterM fun x hx => passes_spares hreg filter (hxs x hx)

private theorem no_parts_spares {named : Prop} :
    F.Spares (fun ps => ∀ p ∈ ps, F.FreePart whole named p)
      (pure [] : Eval (List (Step × Value))) :=
  .pure (List.forall_mem_nil _)

private theorem one_part_spares {named : Prop} {p : Step × Value} (hp : F.FreePart whole named p) :
    F.Spares (fun ps => ∀ p ∈ ps, F.FreePart whole named p)
      (pure [p] : Eval (List (Step × Value))) :=
  .pure fun q hq => by rwa [List.mem_singleton.mp hq]

/-- What a segment selects in a value from outside is from outside. -/
theorem items_spares (whole : Bool) (hreg : ctx.registry.Spares F) (hnode : F.Free node) :
    ∀ seg : Segment,
    F.Spares (fun ps => ∀ p ∈ ps, F.FreePart whole (seg.names whole = true) p) (ctx.items seg node)
  | .root => one_part_spares ⟨trivial, hnode, fun h => by cases h⟩
  | .invert => one_part_spares ⟨trivial, hnode, fun h => by cases h⟩
  | .recursive .. => no_parts_spares
  | .group .. => no_parts_spares
  | .append _ => by
    refine Spares.store.bind fun t ht => .pure fun p hp => ?_
    obtain ⟨x, hx, rfl⟩ := Option.map_eq_some_iff.mp (Option.mem_toList.mp hp)
    exact ⟨free_scalar _, ht.elementAt? hnode hx, fun _ => rfl⟩
  | .access accessor key filter first => by
    rw [items]
    refine (Spares.lift (candidates_spares accessor key hnode)).bind fun raw hraw => ?_
    refine (filterItems_spares hreg filter fun e he => (hraw e he).2).bind fun kept hkept => ?_
    refine Spares.store.bind fun t _ => .pure fun p hp => ?_
    obtain ⟨e, he, rfl⟩ := List.mem_map.mp hp
    have hfree := hraw e (hkept ((firstOnly_sublist first kept).subset he))
    exact hfree.part t
  | .slice range => by
    rw [items]
    refine Spares.store.bind fun t _ => ?_
    split
    · exact (Spares.lift (sliceOf_spares range hnode)).bind fun w hw =>
        one_part_spares ⟨trivial, hw, fun hn => hn⟩
    · exact no_parts_spares
  | .sliceFilter filter first => by
    rw [items]
    refine Spares.store.bind fun t ht => ?_
    split
    · have helements := ht.elements hnode
      refine (filterItems_spares hreg _ helements).bind fun kept hkept => ?_
      have hitems : ∀ x ∈ firstOnly first kept, F.Free x :=
        fun x hx => helements x (hkept ((firstOnly_sublist first kept).subset hx))
      exact (Spares.lift (Fence.withElements_spares node hitems)).bind fun w hw =>
        one_part_spares ⟨trivial, hw, fun hn => by rw [Step.names, show whole = true from hn]; rfl⟩
    · exact no_parts_spares
  | .nop inner => by
    rw [items, Segment.names]
    exact items_spares whole hreg hnode inner
  | .guard inner test => by
    rw [items, Segment.names]
    refine (items_spares whole hreg hnode inner).bind fun found hfound => ?_
    exact (Spares.filterM fun p hp => guardHolds_spares hreg test (hfound p hp).value).mono
      fun kept hkept p hp => hfound p (hkept hp)
  | .restrict inner kinds => by
    rw [items, Segment.names]
    refine Spares.store.bind fun t _ => ?_
    split
    · exact items_spares whole hreg hnode inner
    · exact no_parts_spares

/-- Whether a segment selects something is decided by looking. -/
theorem selectsNothing_spares (hreg : ctx.registry.Spares F) (hnode : F.Free node) :
    ∀ seg : Segment, F.Runs (ctx.selectsNothing seg node)
  | .append _ => .pure trivial
  | .root => .pure trivial
  | .invert => .pure trivial
  | .sliceFilter _ _ => Spares.store.bind fun _ _ => .pure trivial
  | .slice _ => Spares.store.bind fun _ _ => .pure trivial
  | .nop inner => by
    rw [selectsNothing]
    exact selectsNothing_spares hreg hnode inner
  | .guard inner _ => by
    rw [selectsNothing]
    exact selectsNothing_spares hreg hnode inner
  | .restrict inner _ => by
    rw [selectsNothing]
    exact selectsNothing_spares hreg hnode inner
  | .access accessor key filter first =>
    (items_spares true hreg hnode (.access accessor key filter first)).bind fun _ _ => .pure trivial
  | .recursive .. => .pure trivial
  | .group .. => .pure trivial

/-! ### Descents -/

/-- The parts that a descent goes to are from outside. -/
def FreeChildren (F : Fence) (whole : Bool) (named : Prop) (cs : List Child) : Prop :=
  ∀ c ∈ cs, F.FreePart whole named (c.step, c.value)

theorem branchChildren_spares (hreg : ctx.registry.Spares F) (hnode : F.Free node) :
    ∀ bs : List Branch,
    F.Spares (FreeChildren F whole (Branch.startByNaming whole bs = true))
      (ctx.branchChildren bs node)
  | [] => .pure (List.forall_mem_nil _)
  | .mk [] _ :: bs => branchChildren_spares hreg hnode bs
  | .mk (seg :: segs) cut :: bs => by
    rw [branchChildren, Branch.startByNaming]
    refine (items_spares whole hreg hnode seg).bind fun found hfound => ?_
    have hhere : FreeChildren F whole ((seg.names whole && Branch.startByNaming whole bs) = true)
        (found.map fun p => ⟨p.1, p.2, true⟩) := by
      intro c hc
      obtain ⟨p, hp, rfl⟩ := List.mem_map.mp hc
      exact (hfound p hp).mono fun hn => (Bool.and_eq_true_iff.mp hn).1
    dsimp only
    split
    · exact .pure hhere
    · refine (branchChildren_spares hreg hnode bs).bind fun more hmore => .pure fun c hc => ?_
      rcases List.mem_append.mp hc with hc | hc
      · exact hhere c hc
      · exact (hmore c hc).mono fun hn => (Bool.and_eq_true_iff.mp hn).2

theorem children_spares (whole : Bool) (hreg : ctx.registry.Spares F) (r : Recursion)
    (hnode : F.Free node) :
    F.Spares (FreeChildren F whole (Branch.startByNaming whole r.branches = true))
      (ctx.children r node) := by
  refine Spares.store.bind fun t ht => ?_
  split
  · exact .pure (List.forall_mem_nil _)
  · split
    · refine .pure fun c hc => ?_
      unfold plainChildren at hc
      split at hc
      · obtain ⟨e, he, rfl⟩ := List.mem_map.mp hc
        have hfree := ht.entries hnode e (List.mem_filter.mp he).1
        exact ⟨hfree.1, hfree.2, fun _ => rfl⟩
      · split at hc
        · obtain ⟨e, he, rfl⟩ := List.mem_map.mp hc
          have hfree := ht.numbered hnode e he
          exact ⟨hfree.1, hfree.2, fun _ => rfl⟩
        · exact absurd hc List.not_mem_nil
    · exact branchChildren_spares hreg hnode r.branches

theorem leafDistanceWithin_spares (hreg : ctx.registry.Spares F) (r : Recursion) : ∀ (n : Nat)
    (above : List Handle) {node : Value}, F.Free node →
    F.Runs (ctx.leafDistanceWithin r n above node)
  | 0, _, _, _ => .pure trivial
  | n + 1, above, node, hnode => by
    rw [leafDistanceWithin]
    split
    · exact .pure trivial
    · refine (children_spares true hreg r hnode).bind fun cs hcs => ?_
      refine (Spares.mapM (Q := fun _ => True) fun child hchild => ?_).bind fun _ _ => .pure trivial
      split
      · exact leafDistanceWithin_spares hreg r n _ (hcs child hchild).value
      · exact .pure trivial

theorem reports_spares (hreg : ctx.registry.Spares F) (r : Recursion) (hv : F.Free v)
    (depth : Nat) : F.Runs (ctx.reports r v depth) := by
  refine (passes_spares hreg r.filter hv).bind fun pass _ => ?_
  cases pass with
  | false => exact .pure trivial
  | true =>
    rw [if_pos rfl]
    have hcontains (distance : Nat) (_ : True) :
        F.Runs (pure (r.depth.contains depth distance) : Eval Bool) := .pure trivial
    split
    · refine Spares.bind ?_ hcontains
      exact Spares.store.bind fun t _ => leafDistanceWithin_spares hreg r _ _ hv
    · exact (Spares.pure trivial).bind hcontains

theorem reportsChild_spares (hreg : ctx.registry.Spares F) (r : Recursion) {child : Child}
    (hchild : F.Free child.value) (depth : Nat) : F.Runs (ctx.reportsChild r depth child) := by
  unfold reportsChild
  split
  · exact reports_spares hreg r hchild depth
  · exact .pure trivial

theorem descend_spares (hreg : ctx.registry.Spares F) (r : Recursion) : ∀ (n : Nat)
    (above : List Handle) (base : Location) (depth : Nat) {node : Value} {found : List Found},
    F.Free node → F.FreeFound whole (Branch.startByNaming whole r.branches = true) [] found →
    F.Spares (F.FreeFound whole (Branch.startByNaming whole r.branches = true) [])
      (ctx.descend r n above base depth node found)
  | 0, _, _, _, _, _, _, hfound => .pure hfound
  | n + 1, above, base, depth, node, found, hnode, hfound => by
    rw [descend_succ]
    refine (children_spares whole hreg r hnode).bind fun cs hcs => .foldlM hfound ?_
    intro found child hchild hfound
    have hpart := hcs child hchild
    -- the last step on the way to the child is its own
    have hnext : F.FreeFound whole (Branch.startByNaming whole r.branches = true) []
        [(base ++ [child.step], child.value)] := by
      intro p hp
      rw [List.mem_singleton.mp hp]
      refine ⟨hpart.value, base ++ [child.step], rfl, fun hn => ?_⟩
      rw [List.any_append, List.any_cons, hpart.names hn, Bool.true_or, Bool.or_true]
    have hgo (hit : Bool) (_ : True) :
        F.Spares (F.FreeFound whole (Branch.startByNaming whole r.branches = true) [])
        (ctx.enterChild r n above base depth child
          (if hit then found ++ [(base ++ [child.step], child.value)] else found)) := by
      have hfound' : F.FreeFound whole (Branch.startByNaming whole r.branches = true) []
          (if hit then found ++ [(base ++ [child.step], child.value)] else found) := by
        split
        · exact hfound.append hnext
        · exact hfound
      unfold enterChild
      split
      · exact .pure hfound'
      · exact descend_spares hreg r n _ _ _ hpart.value hfound'
    unfold descendChild
    split
    · exact .pure hfound
    · exact (reportsChild_spares hreg r hpart.value depth).bind hgo

theorem collect_spares (whole : Bool) (hreg : ctx.registry.Spares F) (r : Recursion)
    (hnode : F.Free node) :
    F.Spares (F.FreeFound whole (Branch.startByNaming whole r.branches = true) [])
      (ctx.collect r node) :=
  Spares.store.bind fun _ _ =>
    (descend_spares hreg r _ _ _ _ hnode (List.forall_mem_nil _)).bind
      fun found hfound => .pure (hfound.subset (firstOnly_sublist r.first found).subset)

/-! ### Complements -/

theorem siblings_free {named : Prop} {t : Store} (ht : F.Intact t) (accessor : Accessor)
    (key : KeyPattern) (hnode : F.Free node) :
    ∀ p ∈ siblings t accessor key node, F.FreePart whole named p := by
  have hparts (accessor : Accessor) {es : List (Value × Value)} (hes : ∀ e ∈ es, F.FreeEntry e) :
      ∀ p ∈ es.map fun (k, v) => (accessor.step t k, v), F.FreePart whole named p := by
    intro p hp
    obtain ⟨e, he, rfl⟩ := List.mem_map.mp hp
    exact Fence.FreeEntry.part (hes e he) t
  unfold siblings
  split
  · split
    · exact hparts .attr (ht.entries hnode)
    · exact List.forall_mem_nil _
  · split
    · exact hparts .key (ht.entries hnode)
    · split
      · exact hparts .key (ht.numbered hnode)
      · exact List.forall_mem_nil _
  · split
    · exact hparts .slot (ht.entries hnode)
    · split
      · exact hparts .slot (ht.numbered hnode)
      · exact List.forall_mem_nil _

theorem universe_free {named : Prop} {t : Store} (ht : F.Intact t) (hnode : F.Free node) :
    ∀ seg : Segment, ∀ p ∈ seg.universe t node, F.FreePart whole named p
  | .access accessor key _ _ => siblings_free ht accessor key hnode
  | .nop inner => universe_free ht hnode inner
  | .guard inner _ => universe_free ht hnode inner
  | .restrict inner kinds => by
    rw [Segment.universe]
    split
    · exact universe_free ht hnode inner
    · exact List.forall_mem_nil _
  | .root | .invert | .append _ | .slice _ | .sliceFilter .. | .recursive .. | .group .. =>
    List.forall_mem_nil _

theorem complement_spares (whole : Bool) (named : Prop) (hreg : ctx.registry.Spares F)
    (branches : List Branch) (hnode : F.Free node) :
    F.Spares (fun ps => ∀ p ∈ ps, F.FreePart whole named p) (ctx.complement branches node) := by
  unfold complement
  split
  · exact no_parts_spares
  · rename_i leaf more _
    refine (Spares.mapM (Q := fun _ => True) fun seg _ =>
      (items_spares true hreg hnode seg).mono fun _ _ => trivial).bind fun _ _ => ?_
    refine Spares.store.bind fun t ht => .pure fun p hp => ?_
    exact universe_free ht hnode leaf p (List.mem_filter.mp hp).1

end Context

/-! ### Walks -/

/-- From a value outside of the fence the walk finds values outside of it, where it is to be so by
way of a step to a part. -/
def Walk.StaysOutside (F : Fence) (whole : Bool) (named : Prop) (walk : Walk) : Prop :=
  ∀ base node, F.Free node →
    F.Spares (fun visit => F.FreeFound whole named base visit.found) (walk base node)

namespace Walk

variable {named : Prop} {next : Walk} {base : Location} {node : Value}

theorem StaysOutside.mono {named' : Prop} (hnext : next.StaysOutside F whole named)
    (h : named' → named) : next.StaysOutside F whole named' :=
  fun base node hnode => (hnext base node hnode).mono fun _ hvisit => hvisit.mono h

theorem done_staysOutside : Walk.done.StaysOutside F whole False := fun base node hnode =>
  .pure fun p hp => by
    rw [List.mem_singleton.mp hp]
    exact ⟨hnode, [], by rw [List.append_nil], False.elim⟩

private theorem nothing_spares :
    F.Spares (fun visit => F.FreeFound whole named base visit.found)
      (pure Visit.nothing : Eval Visit) :=
  .pure (List.forall_mem_nil _)

variable {named' : Prop}

theorem StaysOutside.each (hnext : next.StaysOutside F whole named') (base : Location) :
    ∀ {places : List Found}, F.FreeFound whole named [] places →
    F.Spares (fun visit => F.FreeFound whole (named ∨ named') base visit.found)
      (next.each base places)
  | [], _ => nothing_spares
  | (l, v) :: rest, hplaces => by
    have hnames := hplaces.names (List.mem_cons_self ..)
    have hrest := hplaces.subset (List.subset_cons_self (l, v) rest)
    rw [Walk.each]
    refine (hnext _ v (hplaces.value (List.mem_cons_self ..))).bind fun visit hvisit => ?_
    split
    · exact .pure (hvisit.below hnames)
    · exact (hnext.each base hrest).bind fun more hmore =>
        .pure ((hvisit.below hnames).append hmore)

theorem StaysOutside.eachPassing (hnext : next.StaysOutside F whole named')
    {pass : Value → Eval Bool} (hpass : ∀ v, F.Free v → F.Runs (pass v)) (base : Location) :
    ∀ {places : List Found}, F.FreeFound whole named [] places →
    F.Spares (fun visit => F.FreeFound whole (named ∨ named') base visit.found)
      (next.eachPassing pass base places)
  | [], _ => nothing_spares
  | (l, v) :: rest, hplaces => by
    have hv := hplaces.value (List.mem_cons_self ..)
    have hnames := hplaces.names (List.mem_cons_self ..)
    have hothers := hplaces.subset (List.subset_cons_self (l, v) rest)
    rw [Walk.eachPassing]
    refine (hpass v hv).bind fun hit _ => ?_
    have hrest (visit : Visit) (hvisit : F.FreeFound whole (named ∨ named') base visit.found) :
        F.Spares (fun visit => F.FreeFound whole (named ∨ named') base visit.found)
        (if visit.halted then pure visit
        else do
          let more ← next.eachPassing pass base rest
          pure ⟨visit.found ++ more.found, more.halted⟩ : Eval Visit) := by
      split
      · exact .pure hvisit
      · exact (hnext.eachPassing hpass base hothers).bind fun more hmore =>
          .pure (hvisit.append hmore)
    split
    · exact (hnext _ v hv).bind fun visit hvisit => hrest visit (hvisit.below hnames)
    · exact nothing_spares.bind hrest

theorem alternatives_spares (first : Bool) : ∀ (branches : List (Cut × Walk))
    (hidden : List Location), (∀ b ∈ branches, b.2.StaysOutside F whole named) →
    Walk.StaysOutside F whole named (alternatives first branches hidden)
  | [], _, _ => fun _ _ _ => nothing_spares
  | (cut, walk) :: rest, hidden, hbranches => fun base node hnode => by
    obtain ⟨hwalk, hothers⟩ := List.forall_mem_cons.mp hbranches
    have hrest (hidden : List Location) :=
      alternatives_spares first rest hidden hothers base node hnode
    rw [alternatives]
    refine (hwalk base node hnode).bind fun visit hvisit => Spares.store.bind fun s _ => ?_
    have hfound : F.FreeFound whole named base
        (visit.found.filter fun p => !hidden.any fun h => h.overlaps s p.1) :=
      hvisit.subset fun p hp => (List.mem_filter.mp hp).1
    dsimp only
    split
    · exact hrest hidden
    · split
      · exact .pure (hfound.subset (List.take_subset 1 _))
      · split
        · exact .pure hfound
        · exact (hrest _).bind fun more hmore => .pure (hfound.append hmore)

theorem conjunction_spares : ∀ (branches : List (Cut × Walk)) (base : Location) {node : Value},
    F.Free node → (∀ b ∈ branches, b.2.StaysOutside F whole named) →
    F.Spares (fun visit? => ∀ visit, visit? = some visit → F.FreeFound whole named base visit.found)
      (conjunction branches base node)
  | [], _, _, _, _ => .pure fun visit hvisit => by cases hvisit; exact List.forall_mem_nil _
  | (cut, walk) :: rest, base, node, hnode, hbranches => by
    obtain ⟨hwalk, hothers⟩ := List.forall_mem_cons.mp hbranches
    rw [conjunction]
    refine (hwalk base node hnode).bind fun visit hvisit => ?_
    split
    · exact .pure fun visit hvisit => by cases hvisit
    · refine (conjunction_spares rest base hnode hothers).bind fun more? hmore => .pure ?_
      intro both hboth
      obtain ⟨more, hsome, rfl⟩ := Option.map_eq_some_iff.mp hboth
      split
      · exact hvisit
      · exact hvisit.append (hmore more hsome)

end Walk

namespace Context

variable {ctx : Context} {node : Value}

theorem placesOf_free {named : Prop} {parts : List (Step × Value)}
    (h : ∀ p ∈ parts, F.FreePart whole named p) : F.FreeFound whole named [] (placesOf parts) := by
  intro p hp
  obtain ⟨part, hpart, rfl⟩ := List.mem_map.mp hp
  refine ⟨(h part hpart).value, [part.1], rfl, fun hn => ?_⟩
  rw [List.any_cons, (h part hpart).names hn, Bool.true_or]

/-- Going on from the parts that a segment selects. -/
theorem parts_spares {named named' : Prop} {next : Walk} (hnext : next.StaysOutside F whole named')
    {select : Value → Eval (List (Step × Value))}
    (hselect : ∀ node, F.Free node →
      F.Spares (fun ps => ∀ p ∈ ps, F.FreePart whole named p) (select node)) :
    Walk.StaysOutside F whole (named ∨ named')
      fun base node => (do next.each base (placesOf (← select node))) :=
  fun base node hnode =>
    (hselect node hnode).bind fun _ hparts => hnext.each base (placesOf_free hparts)

mutual

theorem walkSegment_spares (hreg : ctx.registry.Spares F) : ∀ (seg : Segment) {named : Prop}
    (next : Walk), next.StaysOutside F whole named →
    Walk.StaysOutside F whole (seg.names whole = true ∨ named) (ctx.walkSegment seg next)
  | .group kind branches first, named, next, hnext => by
    intro base node hnode
    have hbranches := walkBranches_spares hreg branches next hnext
    rw [walkSegment, Segment.names]
    have hfirst {named : Prop} {found : List Found} (hfound : F.FreeFound whole named base found) :
        F.FreeFound whole named base (firstOnly first found) :=
      hfound.subset (firstOnly_sublist first found).subset
    cases kind with
    | or => exact Walk.alternatives_spares first _ _ hbranches base node hnode
    | and =>
      refine (Walk.conjunction_spares _ base hnode hbranches).bind fun visit? hvisit => .pure ?_
      cases visit? with
      | none => exact List.forall_mem_nil _
      | some visit => exact hfirst (hvisit visit rfl)
    | not =>
      exact (complement_spares whole _ hreg branches hnode).bind fun parts hparts =>
        (hnext.each base (placesOf_free hparts)).bind fun visit hvisit => .pure (hfirst hvisit)
  | .recursive key branches depth filter first, named, next, hnext => by
    intro base node hnode
    rw [walkSegment, Segment.names]
    exact (collect_spares whole hreg ⟨key, branches, depth, filter, first⟩ hnode).bind
      fun places hplaces => hnext.each base hplaces
  | .nop inner, named, next, hnext => by
    rw [walkSegment, Segment.names]
    exact walkSegment_spares hreg inner next hnext
  | .restrict inner kinds, named, next, hnext => by
    intro base node hnode
    rw [walkSegment, Segment.names]
    refine Spares.store.bind fun t _ => ?_
    split
    · exact walkSegment_spares hreg inner next hnext base node hnode
    · exact .pure (List.forall_mem_nil _)
  | .guard inner test, named, next, hnext => by
    intro base node hnode
    rw [walkSegment]
    dsimp only
    split
    -- a guarded group or descent is walked to its own end before its places are tested
    · rw [Segment.names]
      have hinner := walkSegment_spares hreg inner Walk.done Walk.done_staysOutside [] node hnode
      refine hinner.bind fun reached hreached => ?_
      have hreached := hreached.mono fun hn : inner.names whole = true => .inl hn
      exact (hnext.eachPassing (fun v hv => guardHolds_spares hreg test hv) base hreached).bind
        fun visit hvisit => .pure hvisit
    · exact parts_spares hnext (fun node hnode => items_spares whole hreg hnode (.guard inner test))
        base node hnode
  | .root, _, _, hnext => parts_spares hnext fun _ hnode => items_spares whole hreg hnode .root
  | .invert, _, _, hnext => parts_spares hnext fun _ hnode => items_spares whole hreg hnode .invert
  | .access accessor key filter first, _, _, hnext => parts_spares hnext fun _ hnode =>
    items_spares whole hreg hnode (.access accessor key filter first)
  | .append unique, _, _, hnext =>
    parts_spares hnext fun _ hnode => items_spares whole hreg hnode (.append unique)
  | .slice range, _, _, hnext =>
    parts_spares hnext fun _ hnode => items_spares whole hreg hnode (.slice range)
  | .sliceFilter filter first, _, _, hnext =>
    parts_spares hnext fun _ hnode => items_spares whole hreg hnode (.sliceFilter filter first)

theorem walkPath_spares (hreg : ctx.registry.Spares F) : ∀ (segs : List Segment) {named : Prop}
    (next : Walk), next.StaysOutside F whole named →
    Walk.StaysOutside F whole (Segment.someNames whole segs = true ∨ named) (ctx.walkPath segs next)
  | [], _, next, hnext => by
    rw [walkPath]
    exact hnext.mono fun hn => hn.resolve_left nofun
  | seg :: segs, _, next, hnext => by
    rw [walkPath]
    refine (walkSegment_spares hreg seg _ (walkPath_spares hreg segs next hnext)).mono fun hn => ?_
    rwa [Segment.someNames, Bool.or_eq_true, or_assoc] at hn

theorem walkBranches_spares (hreg : ctx.registry.Spares F) : ∀ (bs : List Branch) {named : Prop}
    (next : Walk), next.StaysOutside F whole named → ∀ b ∈ ctx.walkBranches bs next,
      b.2.StaysOutside F whole (Branch.allName whole bs = true ∨ named)
  | [], _, next, _ => by
    rw [walkBranches]
    exact List.forall_mem_nil _
  | .mk segs cut :: bs, _, next, hnext => by
    have hhere := walkPath_spares hreg segs next hnext
    have hmore := walkBranches_spares hreg bs next hnext
    rw [walkBranches, Branch.allName, Bool.and_eq_true]
    exact List.forall_mem_cons.mpr ⟨hhere.mono (Or.imp_left And.left),
      fun b hb => (hmore b hb).mono (Or.imp_left And.right)⟩

end

/-- **What a path finds in a value outside of a fence is outside of it**, and it lies below the
value if one of the segments goes to a part. -/
theorem find_spares (whole : Bool) (hreg : ctx.registry.Spares F) (segs : List Segment)
    (hnode : F.Free node) :
    F.Spares (F.FreeFound whole (Segment.someNames whole segs = true) []) (ctx.find segs node) :=
  (walkPath_spares hreg segs Walk.done Walk.done_staysOutside [] node hnode).bind
    fun _ hvisit => .pure (hvisit.mono Or.inl)

end Context

end DottedPath
