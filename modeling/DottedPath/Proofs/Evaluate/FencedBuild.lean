import DottedPath.Proofs.Evaluate.FencedChild
import DottedPath.Proofs.Evaluate.TreeReplace

/-!
# Building and rewriting outside of a fence

The structure that is built for a path is from outside of a fence (`Context.buildDefault_spares`),
and so is what stands for a value after a write at what a segment names (`Context.upsert_spares`) or
after a descent has rewritten the parts that it reports (`Context.replaceWithin_spares`).
-/

namespace DottedPath

open Fence (Spares SparesM free_scalar)

variable {F : Fence}

/-! ### Structure for a path -/

/-- A container without parts. -/
theorem alloc_empty_spares (c : Container) (hc : c.parts = []) : F.SparesM F.Free (alloc c) :=
  Fence.alloc_spares c (by rw [hc]; exact List.forall_mem_nil _)

theorem defaultFor_spares (seg : Segment) : F.SparesM F.Free (defaultFor seg) := by
  fun_induction defaultFor seg with
  | case1 => exact .pure (free_scalar _)
  | case3 filter first l =>
    exact l.toValue_spares.bind fun k _ => SparesM.get.bind fun t _ =>
      Fence.alloc_spares _ (Container.forall_parts_object.mpr
        (List.forall_mem_singleton.mpr (free_scalar _)))
  | case6 accessor filter first l =>
    refine l.toValue_spares.bind fun k hk => ?_
    have hentry (leaf : Value) (hleaf : F.Free leaf) :
        F.SparesM F.Free (alloc (.dict [(k, leaf)])) :=
      Fence.alloc_spares _ (Container.forall_parts_dict.mpr
        (List.forall_mem_singleton.mpr ⟨hk, hleaf⟩))
    split
    · exact (alloc_empty_spares (.dict []) rfl).bind hentry
    · exact (SparesM.pure (free_scalar _)).bind hentry
  | case14 _ _ _ _ _ _ _ _ ih => exact ih
  | case16 inner ih => exact ih
  | case17 inner test ih => exact ih
  | case18 inner kinds ih => exact ih
  | _ => exact alloc_empty_spares _ rfl

theorem defaultLeaf_spares (seg : Segment) : F.SparesM F.Free (defaultLeaf seg) := by
  unfold defaultLeaf
  split
  · split
    · refine Fence.alloc_spares _ fun x hx => ?_
      rw [List.eq_of_mem_replicate hx]
      exact free_scalar _
    · exact defaultFor_spares seg
  · exact defaultFor_spares seg

namespace Context

variable {ctx : Context} {node v : Value}

theorem overwriteItems_spares (hreg : ctx.registry.Spares F) (seg : Segment) (hnode : F.Free node)
    (hv : F.Free v) :
    F.Spares (F.Stands (seg.names true = true) node) (ctx.overwriteItems seg node v) := by
  refine (items_spares true hreg hnode seg).bind fun parts hparts => .foldlM (.refl hnode) ?_
  intro now p hp hnow
  exact (Spares.lift (setPart_spares hnow.free (hparts p hp) hv)).mono fun _ hw => hnow.trans hw

/-- Writing at what a segment names goes into the value if the segment goes to a part. -/
theorem upsert_spares (hreg : ctx.registry.Spares F) (seg : Segment) (hnode : F.Free node)
    (hv : F.Free v) : F.Spares (F.Stands (seg.names true = true) node) (ctx.upsert seg node v) := by
  fun_induction ctx.upsert seg node v with
  | case1 node v => exact .pure ⟨hv, fun h => by cases h⟩
  | case2 node v => exact .pure (.refl hnode)
  | case3 inner node v ih => exact ih hnode hv
  | case4 inner kinds node v ih => exact ih hnode hv
  | case5 inner test node v => exact overwriteItems_spares hreg _ hnode hv
  | case6 accessor l filter first node v =>
    refine (Spares.lift l.toValue_spares).bind fun k hk => Spares.store.bind fun t _ => ?_
    have hpart : F.FreePart true True (accessor.step t k, v) :=
      Fence.FreeEntry.part (e := (k, v)) ⟨hk, hv⟩ t
    have hwrite (refused : Bool) (_ : True) :
        F.Spares (F.Stands ((Segment.access accessor (.literal l) filter first).names true = true)
            node)
          (if refused then pure node
            else (setChild node (accessor.step t k) v : StoreM Value) : Eval Value) := by
      split
      · exact .pure (.refl hnode)
      · exact (Spares.lift (setPart_spares hnode hpart hv)).mono fun _ => .always
    dsimp only
    split
    · exact (items_spares true hreg hnode _).bind fun _ _ => (Spares.pure trivial).bind hwrite
    · exact (Spares.pure trivial).bind hwrite
  | case7 accessor key filter first node v _ => exact overwriteItems_spares hreg _ hnode hv
  | case8 unique node v =>
    exact (Spares.lift (appendTo_spares hnode hv unique)).mono fun _ => .always
  | case9 range node v =>
    have hstep : F.FreeStep (.slice range) := trivial
    exact (Spares.lift (setChild_spares hnode hstep hv)).mono fun _ hw => hw.mono fun _ => nofun
  | case10 => exact .throw _
  | case11 kind seg cut bs first node v ih =>
    refine (ih hnode hv).mono fun _ hw => hw.mono fun hn => ?_
    rw [Segment.names, Branch.allName, Segment.someNames, Segment.someNames, Bool.or_false,
      Bool.and_eq_true] at hn
    exact hn.1
  | case12 kind branches first node v _ => exact .pure (.refl hnode)
  | case13 => exact .pure (.refl hnode)

theorem buildDefault_spares (hreg : ctx.registry.Spares F) (segs : List Segment) :
    F.Spares F.Free (ctx.buildDefault segs) := by
  fun_induction ctx.buildDefault segs with
  | case1 => exact .pure (free_scalar _)
  | case2 seg => exact .lift (defaultLeaf_spares seg)
  | case3 seg rest _ ih =>
    refine (Spares.lift (defaultFor_spares seg)).bind fun built hbuilt => ?_
    exact ih.bind fun child hchild =>
      (upsert_spares hreg seg hbuilt hchild).mono fun _ hw => hw.free

/-! ### Descents -/

/-- What is done to the parts that a descent reports keeps to what is outside. -/
def RewritesOutside (F : Fence) (edit : Value → Eval (Option Value)) : Prop :=
  ∀ v, F.Free v → F.Spares (fun w? => ∀ w, w? = some w → F.Free w) (edit v)

/-- What stands for a value while its parts are replaced, with the steps to those that are to be
removed. -/
structure Rewritten (F : Fence) (named : Prop) (node : Value) (now : Value × List Step) : Prop where
  stands : F.Stands named node now.1
  doomed : ∀ step ∈ now.2, named → step.names true = true

variable {named : Prop} {edit : Value → Eval (Option Value)} {now : Value × List Step}

theorem replaceHit_spares (hedit : RewritesOutside F edit) {step : Step}
    (hpart : F.FreePart true named (step, v)) (hnow : Rewritten F named node now) (hit : Bool) :
    F.Spares (Rewritten F named node) (replaceHit edit step v now hit) := by
  rw [replaceHit]
  split
  · refine (hedit v hpart.value).bind fun w? hw => ?_
    cases w? with
    | some w =>
      have hset := setPart_spares hnow.stands.free hpart (hw w rfl)
      refine (Spares.lift hset).bind fun next hnext => ?_
      exact .pure ⟨hnow.stands.trans hnext, hnow.doomed⟩
    | none =>
      refine .pure ⟨hnow.stands, fun step' hstep' => ?_⟩
      rcases List.mem_append.mp hstep' with hstep' | hstep'
      · exact hnow.doomed step' hstep'
      · rw [List.mem_singleton.mp hstep']
        exact hpart.names
  · exact .pure hnow

/-- A part is replaced in a value that stands for the first one, and so it still does. -/
theorem replaceChild_spares (hreg : ctx.registry.Spares F) (r : Recursion)
    (guard : Option ValueTest) (hedit : RewritesOutside F edit) {n : Nat} {above : List Handle}
    {depth : Nat} (hbelow : ∀ v, F.Free v →
      F.Spares F.Free (ctx.replaceWithin r guard edit n above (depth + 1) v))
    {child : Child} (hpart : F.FreePart true named (child.step, child.value))
    (hnow : Rewritten F named node now) :
    F.Spares (Rewritten F named node) (ctx.replaceChild r guard edit n above depth now child) := by
  -- what goes on with the value that stands for the first one, and with the part
  have hdescend {go : Value × Value → Eval (Value × List Step)}
      (hgo : ∀ x, F.Stands named node x.1 → F.Free x.2 →
        F.Spares (Rewritten F named node) (go x)) :
      F.Spares (Rewritten F named node) (if child.step.descends then do
          let v ← ctx.replaceWithin r guard edit n above (depth + 1) child.value
          let next ← (setChild now.1 child.step v : StoreM Value)
          pure (next, v) >>= go
        else pure (now.1, child.value) >>= go) := by
    split
    · refine (hbelow child.value hpart.value).bind fun v hv => ?_
      refine (Spares.lift (setPart_spares hnow.stands.free hpart hv)).bind fun next hnext => ?_
      rw [pure_bind]
      exact hgo (next, v) (hnow.stands.trans hnext) hv
    · rw [pure_bind]
      exact hgo (now.1, child.value) hnow.stands hpart.value
  rw [replaceChild]
  refine hdescend ?_
  rintro ⟨next, v⟩ hnext hv
  have hreport {go : Bool → Eval (Value × List Step)}
      (hgo : ∀ hit, F.Spares (Rewritten F named node) (go hit)) :
      F.Spares (Rewritten F named node)
        (if child.reported then ctx.reports r v depth >>= go else pure false >>= go) := by
    split
    · exact (reports_spares hreg r hv depth).bind fun hit _ => hgo hit
    · rw [pure_bind]
      exact hgo false
  refine hreport fun hit => ?_
  have hrewritten : Rewritten F named node (next, now.2) := ⟨hnext, hnow.doomed⟩
  have hhit (hit : Bool) :
      F.Spares (Rewritten F named node) (replaceHit edit child.step v (next, now.2) hit) :=
    replaceHit_spares hedit (hpart.instead hv) hrewritten hit
  dsimp only
  split
  · rename_i test
    exact (guardHolds_spares hreg test hv).bind fun hit _ => hhit hit
  · exact (Spares.pure trivial).bind fun hit (_ : True) => hhit hit

theorem replaceWithin_spares (hreg : ctx.registry.Spares F) (r : Recursion)
    (guard : Option ValueTest) (hedit : RewritesOutside F edit) :
    ∀ (n : Nat) (above : List Handle) (depth : Nat) {node : Value}, F.Free node →
    F.Spares (F.Stands (Branch.startByNaming true r.branches = true) node)
      (ctx.replaceWithin r guard edit n above depth node)
  | 0, _, _, _, hnode => .pure (.refl hnode)
  | n + 1, above, depth, node, hnode => by
    rw [replaceWithin_succ]
    split
    · exact .pure (.refl hnode)
    refine (children_spares true hreg r hnode).bind fun cs hcs => ?_
    refine Spares.bind (P := Rewritten F (Branch.startByNaming true r.branches = true) node)
      (.foldlM ⟨.refl hnode, List.forall_mem_nil _⟩ fun now child hchild hnow => ?_) ?_
    · refine replaceChild_spares hreg r guard hedit (fun v hv => ?_) (hcs child hchild) hnow
      exact (replaceWithin_spares hreg r guard hedit n _ _ hv).mono fun _ hw => hw.free
    · intro now hnow
      refine .foldlM hnow.stands fun current step hstep hcurrent => ?_
      exact (Spares.lift (popChild_spares hcurrent.free step)).mono fun w hw =>
        hcurrent.trans (hw.mono fun hn =>
          Step.ne_root_of_names (hnow.doomed step (List.mem_reverse.mp hstep) hn))

theorem findM?_spares {α : Type} {p : α → Eval Bool} : ∀ {xs : List α},
    (∀ x ∈ xs, F.Runs (p x)) → F.Spares (fun x? => ∀ x, x? = some x → x ∈ xs) (xs.findM? p)
  | [], _ => .pure fun x hx => by cases hx
  | x :: xs, hp => by
    obtain ⟨hx, hxs⟩ := List.forall_mem_cons.mp hp
    rw [List.findM?]
    refine hx.bind fun hit _ => ?_
    cases hit with
    | true => exact .pure fun y hy => by cases hy; exact List.mem_cons_self ..
    | false => exact (findM?_spares hxs).mono fun y? hy y hy? => List.mem_cons_of_mem x (hy y hy?)

/-- The location that a descent reports first leads to a part. -/
theorem firstReported?_spares (hreg : ctx.registry.Spares F) (r : Recursion)
    (guard : Option ValueTest) (hnode : F.Free node) :
    F.Spares (fun l? => ∀ l, l? = some l → Branch.startByNaming true r.branches = true →
      l.any (Step.names true) = true) (ctx.firstReported? r guard node) := by
  refine (collect_spares true hreg { r with first := false } hnode).bind fun found hfound => ?_
  have hlocation (p? : Option Found) (hp : ∀ p, p? = some p → p ∈ found) :
      F.Spares (fun l? => ∀ l, l? = some l → Branch.startByNaming true r.branches = true →
        l.any (Step.names true) = true) (pure (p?.map Prod.fst) : Eval (Option Location)) := by
    refine .pure fun l hl hn => ?_
    obtain ⟨p, hp?, rfl⟩ := Option.map_eq_some_iff.mp hl
    exact hfound.names (hp p hp?) hn
  cases guard with
  | none => exact hlocation found.head? fun p hp => List.mem_of_head? hp
  | some test =>
    exact (findM?_spares fun p hp => guardHolds_spares hreg test (hfound.value hp)).bind hlocation

end Context

end DottedPath
