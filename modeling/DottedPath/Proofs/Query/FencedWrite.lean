import DottedPath.Proofs.Evaluate.FencedEdit
import DottedPath.Proofs.Evaluate.Retake
import DottedPath.Query.Write

/-!
# Writes by path text outside of a fence

Every write, of one path or of many, starts from what its root resolves to.  If that and the values
that are written are from outside of a fence, the write keeps to what is outside
(`Context.write_spares`), and where its paths go into the value that it starts from
(`Write.GoesInside`), a container that can be edited in place is the root that it returns.
-/

namespace DottedPath

open Fence (Spares SparesM)

variable {F : Fence}

/-! ### Writes -/

/-- A write by path text, with what it is given besides the root. -/
inductive Write where
  | update (path : String) (val : Operand)
  | updateMulti (pairs : List (String × Value))
  | updateIf (path : String) (v : Value) (pred : Store → Value → Bool)
  | updateIfMulti (pairs : List (String × Value)) (pred : Store → Value → Bool)
  | remove (path : String) (val : Operand)
  | removeMulti (paths : List String)
  | removeValues (pairs : List (String × Value))
  | removeIf (path : Option String) (pred : String → Bool)
  | removeIfMulti (paths : List (Option String)) (pred : String → Bool)
  | setDefault (path : String) (v : Value)
  | setDefaultMulti (pairs : List (String × Value))
  | build (path : String)
  | buildMulti (paths : List String)
  | apply (path : String)
  | applyMulti (paths : List String)

/-- Does a write. -/
def Context.write (ctx : Context) (root : Root) : Write → Eval Value
  | .update path val => ctx.updatePath root path val
  | .updateMulti pairs => ctx.updateMulti root pairs
  | .updateIf path v pred => ctx.updateIf root path v pred
  | .updateIfMulti pairs pred => ctx.updateIfMulti root pairs pred
  | .remove path val => ctx.removePath root path val
  | .removeMulti paths => ctx.removeMulti root paths
  | .removeValues pairs => ctx.removeValues root pairs
  | .removeIf path pred => ctx.removeIf root path pred
  | .removeIfMulti paths pred => ctx.removeIfMulti root paths pred
  | .setDefault path v => ctx.setDefault root path v
  | .setDefaultMulti pairs => ctx.setDefaultMulti root pairs
  | .build path => ctx.buildPath root path
  | .buildMulti paths => ctx.buildMulti root paths
  | .apply path => ctx.applyPath root path
  | .applyMulti paths => ctx.applyMulti root paths

/-- The value of an operand, if it is one. -/
def Operand.values : Operand → List Value
  | .any => []
  | .value v => [v]

/-- Whether an update of the path goes into the value that it is applied to. -/
def GoesInto (path : String) : Prop :=
  ∀ e, PathExpression.parse path = .ok e → Segment.writeInside false e.segments = true

/-- Whether the path only names places below the value that it is applied to. -/
def GoesBelow (path : String) : Prop :=
  ∀ e, PathExpression.parse path = .ok e → Segment.someNames true e.segments = true

namespace Write

/-- The values that are given to a write. -/
def values : Write → List Value
  | update _ val => val.values
  | updateMulti pairs => pairs.map Prod.snd
  | updateIf _ v _ => [v]
  | updateIfMulti pairs _ => pairs.map Prod.snd
  | remove _ val => val.values
  | removeValues pairs => pairs.map Prod.snd
  | setDefault _ v => [v]
  | setDefaultMulti pairs => pairs.map Prod.snd
  | _ => []

/-- The write goes into the value that it starts from, and returns it. A default that is set is
returned itself, and building never writes the value that it starts from as a whole. -/
def GoesInside : Write → Prop
  | update path _ => GoesInto path
  | updateMulti pairs => ∀ p ∈ pairs, GoesInto p.1
  | updateIf path _ _ => GoesInto path
  | updateIfMulti pairs _ => ∀ p ∈ pairs, GoesInto p.1
  | remove path _ => GoesInto path
  | removeMulti paths => ∀ path ∈ paths, GoesInto path
  | removeValues pairs => ∀ p ∈ pairs, GoesInto p.1
  | removeIf path _ => ∀ p, path = some p → GoesInto p
  | removeIfMulti paths _ => ∀ p, some p ∈ paths → GoesInto p
  | setDefault _ _ => False
  | setDefaultMulti pairs => ∀ p ∈ pairs, GoesInto p.1
  | build _ => True
  | buildMulti _ => True
  | apply path => GoesBelow path
  | applyMulti paths => ∀ path ∈ paths, GoesBelow path

end Write

/-! ### Roots -/

/-- What the root resolves to stands in the place of a value. -/
structure Fence.RootStands (F : Fence) (inside : Prop) (node : Value) (root : Root) : Prop where
  resolve : ∀ segs, F.SparesM (F.Stands inside node) (root.resolve segs)
  toValue : F.SparesM (F.Stands inside node) root.toValue

theorem Fence.Stands.root {inside : Prop} {node v : Value} (hv : F.Stands inside node v) :
    F.RootStands inside node (.value v) :=
  ⟨fun _ => .pure hv, .pure hv⟩

/-! ### Locations as paths -/

namespace Location

/-- The literal path of a location with a step to a part goes into the value. -/
theorem writeInside_path (s : Store) : ∀ {l : Location}, l.any (Step.names true) = true →
    Segment.writeInside false (l.path s) = true
  | [], h => by cases h
  | step :: l, h => by
    rw [List.any_cons, Bool.or_eq_true] at h
    rw [path, List.map_cons, Segment.writeInside]
    cases step with
    | root => exact writeInside_path s (h.resolve_left (by decide))
    | invert => exact writeInside_path s (h.resolve_left (by decide))
    | _ => rfl

end Location

namespace Context

variable {ctx : Context} {inside : Prop} {node v : Value} {root : Root} {path : String}

/-- A location without a step to a part finds the value itself. -/
theorem walkPath_stays (s t : Store) : ∀ {l : Location} (base : Location),
    l.any (Step.names true) = false →
    ctx.walkPath (l.path s) Walk.done base node t = (.ok ⟨[(base ++ l, node)], false⟩, t)
  | [], base, _ => by
    rw [List.append_nil]
    rfl
  | step :: l, base, hstays => by
    rw [List.any_cons, Bool.or_eq_false_iff] at hstays
    have hitems : ctx.items (step.segment s) node t = (.ok [(step, node)], t) := by
      cases step with
      | root => rfl
      | invert => rfl
      | _ => cases hstays.1
    have hrest := walkPath_stays s t (base ++ [step]) hstays.2
    rw [List.append_assoc, List.singleton_append] at hrest
    show ctx.walkSegment (step.segment s) (ctx.walkPath (Location.path s l) Walk.done) base node t =
      _
    rw [walkSegment_segment, Eval.run_bind_of_ok hitems]
    exact each_singleton (l := [step]) hrest

/-! ### Reading -/

theorem readPath_spares (path : String) :
    F.Spares (fun e => PathExpression.parse path = .ok e) (readPath path) := by
  unfold readPath
  split
  · rename_i e he
    exact .pure he
  · exact .throw _

theorem has_spares (hreg : ctx.registry.Spares F) (hnode : F.Free node) (path : String) :
    F.Runs (ctx.has node path) :=
  (readPath_spares path).bind fun e _ => (find_spares true hreg e.segments hnode).bind
    fun _ _ => .pure trivial

theorem findAll_spares (hreg : ctx.registry.Spares F) (hnode : F.Free node) (path : String) :
    F.Spares (fun found => ∀ v ∈ found, F.Free v) (ctx.findAll node path) :=
  (readPath_spares path).bind fun e _ => (find_spares true hreg e.segments hnode).bind
    fun _ hfound => .mapM fun _ hp => transform_spares hreg (hfound.value hp) e.transforms

theorem get_spares (hreg : ctx.registry.Spares F) (hnode : F.Free node) (path : String) :
    F.Spares F.Free (ctx.get node path) := by
  refine (findAll_spares hreg hnode path).bind fun found hfound => ?_
  refine (readPath_spares path).bind fun e _ => ?_
  split
  · exact .lift (Fence.alloc_spares (.tuple found) hfound)
  · refine .pure ?_
    cases found with
    | nil => exact Fence.free_scalar _
    | cons v vs => exact hfound v (List.mem_cons_self ..)

/-! ### Single writes -/

theorem updatePath_spares (hreg : ctx.registry.Spares F) (hroot : F.RootStands inside node root)
    (hin : inside → GoesInto path) {val : Operand} (hval : F.FreeOperand val) :
    F.Spares (F.Stands inside node) (ctx.updatePath root path val) := by
  refine (readPath_spares path).bind fun e he => ?_
  have hwrite {val : Operand} (hval : F.FreeOperand val) : F.Spares (F.Stands inside node) (do
      let node ← (root.resolve e.segments : StoreM Value)
      ctx.update e.segments node val) := by
    refine (Spares.lift (hroot.resolve e.segments)).bind fun now hnow => ?_
    exact (update_spares hreg e.segments hnow.free hval).mono fun w hw =>
      hnow.trans (hw.mono fun h => hin h e he)
  cases val with
  | any => exact hwrite Fence.freeOperand_any
  | value v =>
    have hnext : F.Spares F.FreeOperand (Operand.value <$> ctx.transform v e.transforms) :=
      (transform_spares hreg (hval v rfl) e.transforms).map fun _ hw => Fence.freeOperand_value hw
    exact hnext.bind fun _ hval => hwrite hval

theorem updateIf_spares (hreg : ctx.registry.Spares F) (hroot : F.RootStands inside node root)
    (hin : inside → GoesInto path) (hv : F.Free v) (pred : Store → Value → Bool) :
    F.Spares (F.Stands inside node) (ctx.updateIf root path v pred) := by
  refine Spares.store.bind fun t _ => ?_
  split
  · exact updatePath_spares hreg hroot hin (Fence.freeOperand_value hv)
  · exact (readPath_spares path).bind fun e _ => .lift (hroot.resolve e.segments)

theorem removePath_spares (hreg : ctx.registry.Spares F) (hroot : F.RootStands inside node root)
    (hin : inside → GoesInto path) {val : Operand} (hval : F.FreeOperand val) :
    F.Spares (F.Stands inside node) (ctx.removePath root path val) := by
  refine (readPath_spares path).bind fun e he => ?_
  refine (Spares.lift (hroot.resolve e.segments)).bind fun now hnow => ?_
  exact (remove_spares hreg e.segments hnow.free hval).mono fun w hw =>
    hnow.trans (hw.mono fun h => hin h e he)

theorem removeIf_spares (hreg : ctx.registry.Spares F) (hroot : F.RootStands inside node root)
    {path : Option String} (hin : inside → ∀ p, path = some p → GoesInto p)
    (pred : String → Bool) : F.Spares (F.Stands inside node) (ctx.removeIf root path pred) := by
  unfold removeIf
  split
  · rename_i p hp
    exact removePath_spares hreg hroot (fun h => hin h p (Option.filter_eq_some_iff.mp hp).1)
      Fence.freeOperand_any
  · exact .lift hroot.toValue

/-- A default comes from the value that is read, or it is the one that is set. -/
theorem setDefault_spares (hreg : ctx.registry.Spares F) (hroot : F.RootStands inside node root)
    (hv : F.Free v) (path : String) : F.Spares F.Free (ctx.setDefault root path v) := by
  refine (readPath_spares path).bind fun e _ => ?_
  refine (Spares.lift (hroot.resolve e.segments)).bind fun now hnow => ?_
  refine (has_spares hreg hnow.free path).bind fun hit _ => ?_
  split
  · exact get_spares hreg hnow.free path
  · have hstands : F.Stands False now now := .refl hnow.free
    exact (updatePath_spares hreg hstands.root False.elim (Fence.freeOperand_value hv)).bind
      fun w hw => get_spares hreg hw.free path

/-- Where something is missing, a part of what has been built is written; a location without a step
to a part is always there. -/
theorem graft_spares (hreg : ctx.registry.Spares F) {built : Value} (hbuilt : F.Free built) :
    ∀ (ls : List Location) {node : Value}, F.Free node →
      F.Spares (F.Stands True node) (ctx.graft built ls node)
  | [], node, hnode => by
    rw [graft]
    exact .pure (.refl hnode)
  | l :: more, node, hnode => by
    rw [graft]
    refine Spares.store.bind fun s _ => ?_
    -- only where a step goes to a part does the write stay below the value
    by_cases hnames : l.any (Step.names true) = true
    · refine (find_spares true hreg (l.path s) hnode).bind fun here _ => ?_
      split
      · exact graft_spares hreg hbuilt more hnode
      · refine (find_spares true hreg (l.path s) hbuilt).bind fun found hfound => ?_
        split
        · exact .pure (.refl hnode)
        · rename_i l' subtree rest
          have hsubtree := hfound.value (List.mem_cons_self ..)
          exact (update_spares hreg (l.path s) hnode (Fence.freeOperand_value hsubtree)).mono
            fun w hw => hw.mono fun _ => Location.writeInside_path s hnames
    · intro t ht
      rw [Bool.not_eq_true] at hnames
      have hfind : ctx.find (l.path s) node t = (.ok [(l, node)], t) := by
        rw [find, Eval.run_bind_of_ok (walkPath_stays s t [] hnames)]
        rfl
      rw [Eval.run_bind_of_ok hfind]
      exact graft_spares hreg hbuilt more hnode t ht

theorem buildPath_spares (hreg : ctx.registry.Spares F) (hroot : F.RootStands inside node root)
    (path : String) : F.Spares (F.Stands inside node) (ctx.buildPath root path) := by
  refine (readPath_spares path).bind fun e _ => ?_
  refine (buildDefault_spares hreg e.segments).bind fun built hbuilt => ?_
  refine (Spares.lift (hroot.resolve e.segments)).bind fun now hnow => ?_
  refine (find_spares true hreg e.segments hbuilt).bind fun found _ => .foldlM hnow ?_
  intro now place _ hnow
  exact (graft_spares hreg hbuilt (waypoints place.1) hnow.free).mono fun w hw =>
    hnow.trans hw.always

theorem applyPath_spares (hreg : ctx.registry.Spares F) (hroot : F.RootStands inside node root)
    (hin : inside → GoesBelow path) :
    F.Spares (F.Stands inside node) (ctx.applyPath root path) := by
  refine (readPath_spares path).bind fun e he => ?_
  refine (Spares.lift (hroot.resolve e.segments)).bind fun now hnow => ?_
  refine (find_spares true hreg e.segments hnow.free).bind fun found hfound => ?_
  refine Spares.bind (P := fun b => F.Stands inside node b.1) (.foldlM hnow ?_)
    fun b hb => .pure hb
  rintro ⟨now, seen⟩ ⟨l, v⟩ hplace hnow
  refine Spares.store.bind fun s _ => ?_
  split
  · exact .pure hnow
  · refine (transform_spares hreg (hfound.value hplace) e.transforms).bind fun w hw => ?_
    refine Spares.store.bind fun s' _ => ?_
    refine (update_spares hreg (l.path s') hnow.free (Fence.freeOperand_value hw)).bind
      fun next hnext => .pure (hnow.trans (hnext.mono fun h => ?_))
    exact Location.writeInside_path s' (hfound.names hplace (hin h e he))

/-! ### One write after the other -/

/-- Each write starts from what the one before has left in the place of the value. -/
theorem inTurn_spares {α : Type} {write : Root → α → Eval Value} {xs : List α}
    (hroot : F.RootStands inside node root)
    (hwrite : ∀ x ∈ xs, ∀ root, F.RootStands inside node root →
      F.Spares (F.Stands inside node) (write root x)) :
    F.Spares (F.Stands inside node) (inTurn write root xs) := by
  have hfold : F.Spares (F.RootStands inside node)
      (xs.foldlM (fun root x => Root.value <$> write root x) root) :=
    .foldlM hroot fun root x hx hroot => (hwrite x hx root hroot).map fun _ hv => hv.root
  exact hfold.bind fun _ hroot => .lift hroot.toValue

theorem updateIfMulti_spares (hreg : ctx.registry.Spares F)
    (hroot : F.RootStands inside node root) {pairs : List (String × Value)}
    (hin : inside → ∀ p ∈ pairs, GoesInto p.1) (hvalues : ∀ p ∈ pairs, F.Free p.2)
    (pred : Store → Value → Bool) :
    F.Spares (F.Stands inside node) (ctx.updateIfMulti root pairs pred) := by
  refine Spares.bind (P := F.RootStands inside node) (.foldlM hroot fun root p hp hroot => ?_)
    fun _ hroot => .lift hroot.toValue
  refine Spares.store.bind fun t _ => ?_
  split
  · exact (updatePath_spares hreg hroot (fun h => hin h p hp)
      (Fence.freeOperand_value (hvalues p hp))).map fun _ hv => hv.root
  · exact .pure hroot

theorem setDefaultMulti_spares (hreg : ctx.registry.Spares F)
    (hroot : F.RootStands inside node root) {pairs : List (String × Value)}
    (hin : inside → ∀ p ∈ pairs, GoesInto p.1) (hvalues : ∀ p ∈ pairs, F.Free p.2) :
    F.Spares (F.Stands inside node) (ctx.setDefaultMulti root pairs) := by
  refine inTurn_spares hroot fun p hp root hroot => ?_
  refine (readPath_spares p.1).bind fun e _ => ?_
  refine (Spares.lift (hroot.resolve e.segments)).bind fun now hnow => ?_
  refine (has_spares hreg hnow.free p.1).bind fun hit _ => ?_
  split
  · exact .pure hnow
  · exact updatePath_spares hreg hnow.root (fun h => hin h p hp)
      (Fence.freeOperand_value (hvalues p hp))

/-- **A write keeps to what is outside of the fence**, if its root and its values do. -/
theorem write_spares (hreg : ctx.registry.Spares F) (w : Write)
    (hroot : F.RootStands w.GoesInside node root) (hvalues : ∀ v ∈ w.values, F.Free v) :
    F.Spares (F.Stands w.GoesInside node) (ctx.write root w) := by
  have hoperand {val : Operand} (hval : ∀ v ∈ val.values, F.Free v) : F.FreeOperand val := by
    rintro v rfl
    exact hval v (List.mem_singleton_self v)
  have hpairs {pairs : List (String × Value)} (hall : ∀ v ∈ pairs.map Prod.snd, F.Free v) :
      ∀ p ∈ pairs, F.Free p.2 := fun p hp => hall p.2 (List.mem_map_of_mem hp)
  cases w with
  | update path val => exact updatePath_spares hreg hroot id (hoperand hvalues)
  | updateMulti pairs =>
    exact inTurn_spares hroot fun p hp _ hroot => updatePath_spares hreg hroot (fun h => h p hp)
      (Fence.freeOperand_value (hpairs hvalues p hp))
  | updateIf path v pred =>
    exact updateIf_spares hreg hroot id (hvalues v (List.mem_singleton_self v)) pred
  | updateIfMulti pairs pred => exact updateIfMulti_spares hreg hroot id (hpairs hvalues) pred
  | remove path val => exact removePath_spares hreg hroot id (hoperand hvalues)
  | removeMulti paths =>
    exact inTurn_spares hroot fun path hp _ hroot => removePath_spares hreg hroot
      (fun h => h path hp) Fence.freeOperand_any
  | removeValues pairs =>
    exact inTurn_spares hroot fun p hp _ hroot => removePath_spares hreg hroot (fun h => h p hp)
      (Fence.freeOperand_value (hpairs hvalues p hp))
  | removeIf path pred => exact removeIf_spares hreg hroot id pred
  | removeIfMulti paths pred =>
    refine inTurn_spares hroot fun path hp _ hroot => removePath_spares hreg hroot
      (fun h => h path ?_) Fence.freeOperand_any
    obtain ⟨p, hmem, hp⟩ := List.mem_filterMap.mp (List.mem_filter.mp hp).1
    cases hp
    exact hmem
  | setDefault path v =>
    exact (setDefault_spares hreg hroot (hvalues v (List.mem_singleton_self v)) path).mono
      fun _ hw => .of_free hw
  | setDefaultMulti pairs => exact setDefaultMulti_spares hreg hroot id (hpairs hvalues)
  | build path => exact buildPath_spares hreg hroot path
  | buildMulti paths =>
    exact inTurn_spares hroot fun path _ _ hroot => buildPath_spares hreg hroot path
  | apply path => exact applyPath_spares hreg hroot id
  | applyMulti paths =>
    exact inTurn_spares hroot fun path hp _ hroot => applyPath_spares hreg hroot fun h => h path hp

end Context

end DottedPath
