import DottedPath.Evaluate.Edit
import DottedPath.Proofs.Evaluate.FencedBuild

/-!
# Writes outside of a fence

A write along a path to a value from outside of a fence, with an operand from outside, edits nothing
that is kept and puts nothing that is kept into a container; this holds of every path, also where
the write fails half-way (`Context.update_spares`, `Context.remove_spares`).

A write goes into the value, so that a container which can be edited in place stands in its own
place afterwards, if the path is one that takes it to a part (`Segment.writesInside`).
-/

namespace DottedPath

open Fence (Spares SparesM free_scalar)

variable {F : Fence}

/-! ### Paths that write into a value -/

mutual

/-- A write of the segment goes into the value that it is applied to; `after` says this of the rest
of the path. Where a wrapped group or descent has only whole slices to go through, the value itself
is the place that is written. -/
def Segment.writesInside (after : Bool) : Segment → Bool
  | .root => after
  | .invert => after
  | .access .. => true
  | .append _ => true
  | .slice _ => true
  | .sliceFilter _ _ => true
  | .recursive _ branches _ _ _ => Branch.startByNaming true branches
  | .group .not _ _ => true
  | .group _ branches _ => Branch.writeInside after false branches
  | .nop inner => inner.writesInside after
  | .guard inner _ =>
    match inner.recursion? with
    | some r => Branch.startByNaming true r.branches
    | none => if inner.isCompound then inner.names false || after else inner.names true
  | .restrict inner _ => if inner.isCompound then inner.names false || after else inner.names true

/-- As `Segment.writesInside`, for a path. -/
def Segment.writeInside (after : Bool) : List Segment → Bool
  | [] => after
  | seg :: segs => seg.writesInside (Segment.writeInside after segs)

/-- As `Segment.writesInside`, for the branches of a group. Behind a soft cut a branch is written
place by place, and needs a segment that goes to a part. -/
def Branch.writeInside (after cut : Bool) : List Branch → Bool
  | [] => true
  | .mk segs c :: bs =>
    Segment.writeInside after segs && (!cut || Segment.someNames false segs) &&
      Branch.writeInside after (cut || c == .soft) bs

end

/-- An operand from outside. -/
def Fence.FreeOperand (F : Fence) (val : Operand) : Prop :=
  ∀ v, val = .value v → F.Free v

namespace Fence

theorem freeOperand_any : F.FreeOperand .any := fun _ h => by cases h

theorem freeOperand_value {v : Value} (hv : F.Free v) : F.FreeOperand (.value v) :=
  fun _ h => by cases h; exact hv

theorem FreeOperand.written {val : Operand} (hval : F.FreeOperand val) : F.Free val.written := by
  cases val with
  | any => exact free_scalar _
  | value v => exact hval v rfl

end Fence

/-! ### Edits -/

/-- The writes along the path spare what is kept, and go into the value where they are to. -/
structure Edit.KeepsOutside (F : Fence) (inside : Prop) (e : Edit) : Prop where
  update : ∀ built silent {val : Operand} {node : Value}, F.FreeOperand val → F.Free node →
    F.Spares (F.Stands inside node) (e.update built silent val node)
  remove : ∀ silent {val : Operand} {node : Value}, F.FreeOperand val → F.Free node →
    F.Spares (F.Stands inside node) (e.remove silent val node)
  goesOn : inside → e.isEnd = false

/-- As `Edit.KeepsOutside`, for the writes of a segment before a rest. -/
structure SegmentEdit.KeepsOutside (F : Fence) (inside : Prop) (e : SegmentEdit) : Prop where
  update : ∀ mode {val : Operand} {node : Value}, F.FreeOperand val → F.Free node →
    F.Spares (F.Stands inside node) (e.update mode val node)
  remove : ∀ silent {val : Operand} {node : Value}, F.FreeOperand val → F.Free node →
    F.Spares (F.Stands inside node) (e.remove silent val node)

namespace Edit

variable {inside inside' : Prop} {e : Edit} {se : SegmentEdit}

theorem done_keepsOutside : Edit.done.KeepsOutside F False where
  update built silent val node hval hnode := by
    refine .pure (.of_free ?_)
    split
    · exact hnode
    · exact hval.written
  remove silent val node _ hnode := .pure (.refl hnode)
  goesOn := False.elim

theorem KeepsOutside.mono (he : e.KeepsOutside F inside) (h : inside' → inside) :
    e.KeepsOutside F inside' where
  update built silent _ _ hval hnode :=
    (he.update built silent hval hnode).mono fun _ hw => hw.mono h
  remove silent _ _ hval hnode := (he.remove silent hval hnode).mono fun _ hw => hw.mono h
  goesOn hin := he.goesOn (h hin)

theorem cons_keepsOutside (seg : Segment) (hse : se.KeepsOutside F inside) (rest : Edit) :
    (rest.cons seg se).KeepsOutside F inside where
  update built silent _ _ hval hnode := hse.update (.ofPath built silent) hval hnode
  remove silent _ _ hval hnode := hse.remove silent hval hnode
  goesOn _ := rfl

end Edit

theorem SegmentEdit.KeepsOutside.mono {inside inside' : Prop} {se : SegmentEdit}
    (hse : se.KeepsOutside F inside) (h : inside' → inside) : se.KeepsOutside F inside' where
  update mode _ _ hval hnode := (hse.update mode hval hnode).mono fun _ hw => hw.mono h
  remove silent _ _ hval hnode := (hse.remove silent hval hnode).mono fun _ hw => hw.mono h

namespace Context

variable {ctx : Context} {after inside named : Prop} {rest : Edit} {val : Operand} {node : Value}

/-! ### Segments that select parts -/

theorem updateParts_keepsOutside (hreg : ctx.registry.Spares F) (seg : Segment)
    (hrest : rest.KeepsOutside F after) (mode : UpdateMode) (hval : F.FreeOperand val)
    (hnode : F.Free node) :
    F.Spares (F.Stands (seg.names true = true) node) (ctx.updateParts seg rest mode val node) := by
  refine Spares.store.bind fun t _ => ?_
  split
  · exact .pure (.refl hnode)
  · split
    · split
      · exact .pure (.refl hnode)
      · exact upsert_spares hreg seg hnode hval.written
    · refine (selectsNothing_spares hreg hnode seg).bind fun nothing _ => ?_
      split
      · split
        · exact .pure (.refl hnode)
        · exact (buildDefault_spares hreg rest.segments).bind fun built hbuilt =>
            (hrest.update true mode.restSilent hval hbuilt).bind fun built hbuilt =>
              upsert_spares hreg seg hnode hbuilt.free
      · refine (items_spares true hreg hnode seg).bind fun parts hparts => .foldlM (.refl hnode) ?_
        intro now part hpart hnow
        have hpart := hparts part hpart
        have hwrite {child : Value} (hchild : F.Free child) :
            F.Spares (F.Stands (seg.names true = true) node) (do
              let child ← rest.update mode.built mode.restSilent val child
              (setChild now part.1 child : StoreM Value)) :=
          (hrest.update mode.built mode.restSilent hval hchild).bind fun child hchild =>
            (Spares.lift (setPart_spares hnow.free hpart hchild.free)).mono
              fun _ hw => hnow.trans hw
        dsimp only
        split
        · exact (buildDefault_spares hreg rest.segments).bind fun child hchild => hwrite hchild
        · exact hwrite hpart.value

theorem removeThrough_spares (hrest : rest.KeepsOutside F after) {parts : List (Step × Value)}
    (hparts : ∀ p ∈ parts, F.FreePart true named p) (hval : F.FreeOperand val)
    (hnode : F.Free node) :
    F.Spares (F.Stands named node) (removeThrough parts rest val node) := by
  refine .foldlM (.refl hnode) fun now part hpart hnow => ?_
  have hpart := hparts part hpart
  exact (hrest.remove false hval hpart.value).bind fun child hchild =>
    (Spares.lift (setPart_spares hnow.free hpart hchild.free)).mono fun _ hw => hnow.trans hw

theorem removeParts_spares {parts : List (Step × Value)}
    (hparts : ∀ p ∈ parts, F.FreePart true named p) (hnode : F.Free node) :
    F.Spares (F.Stands named node) (removeParts parts val node) := by
  refine Spares.store.bind fun t _ => Spares.lift (popSteps_spares hnode fun step hstep => ?_)
  obtain ⟨p, hp, rfl⟩ := List.mem_map.mp hstep
  exact (hparts p (List.mem_filter.mp hp).1).names

theorem removeLeaf_spares (hreg : ctx.registry.Spares F) (seg : Segment) (hnode : F.Free node) :
    F.Spares (F.Stands (seg.names true = true) node) (ctx.removeLeaf seg val node) := by
  have hslice (range : SliceRange) : F.Spares (F.Stands (seg.names true = true) node)
      ((popChild node (.slice range) : StoreM Value) : Eval Value) :=
    (Spares.lift (popChild_spares hnode (.slice range))).mono fun _ hw => hw.mono fun _ => nofun
  unfold removeLeaf
  split
  · exact .pure (.refl hnode)
  · rename_i range _
    split
    · exact hslice range
    · refine (items_spares true hreg hnode seg).bind fun _ _ => Spares.store.bind fun t _ => ?_
      split
      · exact hslice range
      · exact .pure (.refl hnode)
  · exact (items_spares true hreg hnode seg).bind fun parts hparts =>
      removeParts_spares hparts hnode

theorem filteredElements_spares (hreg : ctx.registry.Spares F) (filter : Filter) (first : Bool) :
    ∀ {xs : List (Value × Nat)}, (∀ x ∈ xs, F.Free x.1) →
    F.Runs (ctx.filteredElements filter first xs)
  | [], _ => .pure trivial
  | x :: xs, hxs => by
    obtain ⟨hx, hxs⟩ := List.forall_mem_cons.mp hxs
    rw [filteredElements]
    refine (filterHolds_spares hreg hx filter).bind fun hit _ => ?_
    split
    · split
      · exact .pure trivial
      · exact (filteredElements_spares hreg filter first hxs).bind fun _ _ => .pure trivial
    · exact filteredElements_spares hreg filter first hxs

theorem removeFiltered_spares (hreg : ctx.registry.Spares F) (filter : Filter) (first : Bool)
    (hnode : F.Free node) :
    F.Spares (F.Stands True node) (ctx.removeFiltered filter first val node) := by
  refine Spares.store.bind fun t ht => ?_
  split
  · exact .pure (.refl hnode)
  · have hnumbered : ∀ x ∈ (t.elements node).zipIdx, F.Free x.1 :=
      fun x hx => ht.elements hnode x.1 (List.fst_mem_of_mem_zipIdx hx)
    refine (filteredElements_spares hreg filter first hnumbered).bind fun doomed _ => ?_
    have hremove (wanted : Bool) (_ : True) : F.Spares (F.Stands True node)
        (if wanted then (removePositions node (doomed.map fun p => (p.2 : Int)) : StoreM Value)
          else pure node : Eval Value) := by
      split
      · exact .lift (removePositions_spares hnode _)
      · exact .pure (.refl hnode)
    dsimp only
    split
    · exact (Spares.pure trivial).bind hremove
    · refine (Spares.lift (Fence.withElements_spares node fun x hx => ?_)).bind fun _ _ =>
        Spares.store.bind fun _ _ => (Spares.pure trivial).bind hremove
      obtain ⟨p, hp, rfl⟩ := List.mem_map.mp hx
      exact hnumbered p (List.mem_filter.mp hp).1

theorem partsEdit_keepsOutside (hreg : ctx.registry.Spares F) (seg : Segment)
    (hrest : rest.KeepsOutside F after) :
    (ctx.partsEdit seg rest).KeepsOutside F (seg.names true = true) where
  update mode _ _ hval hnode := updateParts_keepsOutside hreg seg hrest mode hval hnode
  remove silent val node hval hnode := by
    rw [partsEdit]
    dsimp only
    split
    · exact (items_spares true hreg hnode seg).bind fun parts hparts =>
        removeThrough_spares hrest hparts hval hnode
    · split
      · exact .pure (.refl hnode)
      · exact removeLeaf_spares hreg seg hnode

/-- The segment that names the value itself hands the write on to the rest. -/
theorem rootEdit_keepsOutside (hrest : rest.KeepsOutside F after) :
    (ctx.plainEdit .root rest).KeepsOutside F after where
  update mode val node hval hnode := by
    rw [plainEdit]
    dsimp only
    split
    · rename_i h
      refine .pure ⟨?_, fun hin => absurd h (by rw [hrest.goesOn hin]; exact Bool.false_ne_true)⟩
      split
      · exact hnode
      · exact hval.written
    · exact hrest.update mode.built mode.restSilent hval hnode
  remove silent val node hval hnode := by
    rw [plainEdit]
    dsimp only
    split
    · exact hrest.remove silent hval hnode
    · rename_i h
      have hend : rest.isEnd ≠ false := by simpa using h
      refine Spares.store.bind fun t _ => .pure ⟨?_, fun hin => absurd (hrest.goesOn hin) hend⟩
      split
      · exact free_scalar _
      · exact hnode

theorem invertEdit_keepsOutside (hrest : rest.KeepsOutside F after) :
    (ctx.plainEdit .invert rest).KeepsOutside F after where
  update mode _ _ hval hnode := hrest.remove mode.restSilent hval hnode
  remove silent val node hval hnode := by
    cases val with
    | any => exact .throw _
    | value v => exact hrest.update false false hval hnode

/-- A slice filter is not written through. -/
theorem sliceFilterEdit_keepsOutside (hreg : ctx.registry.Spares F) (filter : Filter)
    (first : Bool) (hrest : rest.KeepsOutside F after) :
    (ctx.plainEdit (.sliceFilter filter first) rest).KeepsOutside F True := by
  -- a write through the filter fails if anything passes it and does nothing otherwise
  have hrefuse {node : Value} (hnode : F.Free node) : F.Spares (F.Stands True node) (do
      if 0 < (← ctx.filteredCount filter node) then throw .sliceFilterUpdate
      else pure node) := by
    refine (Spares.store.bind fun _ ht => (filterItems_spares hreg (some filter)
      (ht.elements hnode)).bind fun _ _ => .pure trivial :
        F.Runs (ctx.filteredCount filter node)).bind fun count _ => ?_
    split
    · exact .throw _
    · exact .pure (.refl hnode)
  constructor
  · intro mode val node hval hnode
    rw [plainEdit]
    dsimp only
    split
    · exact (updateParts_keepsOutside hreg _ hrest mode hval hnode).mono fun _ hw =>
        hw.mono fun _ => rfl
    · refine (selectsNothing_spares hreg hnode (.sliceFilter filter first)).bind fun nothing _ => ?_
      split
      · exact .throw _
      · exact hrefuse hnode
  · intro silent val node hval hnode
    rw [plainEdit]
    dsimp only
    split
    · split
      · exact .pure (.refl hnode)
      · exact removeFiltered_spares hreg filter first hnode
    · exact hrefuse hnode

/-- A segment that stays where it is hands the write on to the rest. -/
theorem plainEdit_keepsOutside (hreg : ctx.registry.Spares F) (seg : Segment)
    (hrest : rest.KeepsOutside F after) : (ctx.plainEdit seg rest).KeepsOutside F
      (seg.names true = true ∨ (seg = .root ∨ seg = .invert) ∧ after) := by
  have hparts (hseg : seg ≠ .root ∧ seg ≠ .invert) :
      (ctx.partsEdit seg rest).KeepsOutside F
        (seg.names true = true ∨ (seg = .root ∨ seg = .invert) ∧ after) :=
    (partsEdit_keepsOutside hreg seg hrest).mono fun hin =>
      hin.resolve_right fun h => h.1.elim hseg.1 hseg.2
  cases seg with
  | root => exact (rootEdit_keepsOutside hrest).mono fun hin => (hin.resolve_left nofun).2
  | invert => exact (invertEdit_keepsOutside hrest).mono fun hin => (hin.resolve_left nofun).2
  | sliceFilter filter first =>
    exact (sliceFilterEdit_keepsOutside hreg filter first hrest).mono fun _ => trivial
  | _ => exact hparts ⟨nofun, nofun⟩

/-! ### Locations -/

/-- The writes at a location go into the value if the location has a step to a part. -/
theorem locationEdit_keepsOutside (hreg : ctx.registry.Spares F) (s : Store)
    (hrest : rest.KeepsOutside F after) : ∀ l : Location,
    (ctx.plainPathEdit (l.path s) rest).KeepsOutside F (l.any (Step.names true) = true ∨ after)
  | [] => hrest.mono fun hin => hin.resolve_left nofun
  | step :: l => by
    have hmore := locationEdit_keepsOutside hreg s hrest l
    have hplain := plainEdit_keepsOutside hreg (step.segment s) hmore
    refine (Edit.cons_keepsOutside (step.segment s) hplain _).mono fun hin => ?_
    cases step with
    | root => exact .inr ⟨.inl rfl, hin⟩
    | invert => exact .inr ⟨.inr rfl, hin⟩
    | _ => exact .inl rfl

theorem locationEdit_spares (hreg : ctx.registry.Spares F) (hrest : rest.KeepsOutside F after)
    (l : Location) :
    F.Spares (fun e => e.KeepsOutside F (l.any (Step.names true) = true ∨ after))
      (ctx.locationEdit l rest) :=
  Spares.store.bind fun t _ => .pure (locationEdit_keepsOutside hreg t hrest l)

/-- Where whole slices are passed over, the location needs another step. -/
theorem elementEdit_spares (hreg : ctx.registry.Spares F) (hrest : rest.KeepsOutside F after)
    (l : Location) :
    F.Spares (fun e => e.KeepsOutside F (l.any (Step.names false) = true ∨ after))
      (ctx.elementEdit l rest) := by
  refine (locationEdit_spares hreg hrest _).mono fun e he => he.mono (Or.imp_left fun hl => ?_)
  obtain ⟨step, hstep, hnames⟩ := List.any_eq_true.mp hl
  refine List.any_eq_true.mpr ⟨step, List.mem_filter.mpr ⟨hstep, ?_⟩, ?_⟩
  · cases step with
    | slice range => exact hnames
    | _ => rfl
  · cases step with
    | root => cases hnames
    | invert => cases hnames
    | _ => rfl

/-! ### Descents and groups -/

theorem recursiveEdit_keepsOutside (hreg : ctx.registry.Spares F) (r : Recursion)
    (guard : Option ValueTest) (hrest : rest.KeepsOutside F after) :
    (ctx.recursiveEdit r guard rest).KeepsOutside F
      (Branch.startByNaming true r.branches = true) := by
  constructor
  · intro mode val node hval hnode
    rw [recursiveEdit]
    dsimp only
    split
    -- with a mark for the first part one place is edited along its steps, without one the parts
    -- are replaced where the descent reports them
    · refine (firstReported?_spares hreg r guard hnode).bind fun l? hl => ?_
      cases l? with
      | none => exact .pure (.refl hnode)
      | some l =>
        exact (locationEdit_spares hreg hrest l).bind fun e he =>
          (he.update mode.built mode.silent hval hnode).mono fun _ hw =>
            hw.mono fun hin => .inl (hl l rfl hin)
    · refine Spares.store.bind fun t _ =>
        replaceWithin_spares hreg r guard (fun v hv => ?_) _ _ _ hnode
      split
      · exact (hrest.update mode.built mode.silent hval hv).map fun w hw x hx => by
          cases hx
          exact hw.free
      · refine .pure fun x hx => ?_
        cases hx
        split
        · exact hv
        · exact hval.written
  · intro silent val node hval hnode
    rw [recursiveEdit]
    dsimp only
    split
    · refine (firstReported?_spares hreg r guard hnode).bind fun l? hl => ?_
      cases l? with
      | none => exact .pure (.refl hnode)
      | some l =>
        exact (locationEdit_spares hreg hrest l).bind fun e he =>
          (he.remove silent hval hnode).mono fun _ hw => hw.mono fun hin => .inl (hl l rfl hin)
    · refine Spares.store.bind fun t _ =>
        replaceWithin_spares hreg r guard (fun v hv => ?_) _ _ _ hnode
      split
      · exact (hrest.remove false hval hv).map fun w hw x hx => by
          cases hx
          exact hw.free
      · refine Spares.store.bind fun t _ => .pure fun x hx => ?_
        split at hx
        · cases hx
        · cases hx
          exact hv

/-- The locations that segments name have a step that goes to a part if one of the segments does. -/
def Lead (named : Prop) (ls : List Location) : Prop :=
  ∀ l ∈ ls, named → l.any (Step.names false) = true

theorem locations_spares (hreg : ctx.registry.Spares F) (segs : List Segment)
    (hnode : F.Free node) :
    F.Spares (Lead (Segment.someNames false segs = true)) (ctx.locations segs node) :=
  (find_spares false hreg segs hnode).bind fun found hfound => .pure fun l hl hn => by
    obtain ⟨p, hp, rfl⟩ := List.mem_map.mp hl
    exact hfound.names hp hn

theorem locationsOutside_spares (hreg : ctx.registry.Spares F) (hidden : List Location)
    (segs : List Segment) (hnode : F.Free node) :
    F.Spares (Lead (Segment.someNames false segs = true))
      (ctx.locationsOutside hidden segs node) :=
  (locations_spares hreg segs hnode).bind fun _ hls => Spares.store.bind fun _ _ =>
    .pure fun l hl => hls l (List.mem_filter.mp hl).1

theorem placewiseEdit_keepsOutside (hreg : ctx.registry.Spares F) (seg : Segment)
    (hrest : rest.KeepsOutside F after) :
    (ctx.placewiseEdit seg rest).KeepsOutside F (seg.names false = true ∨ after) := by
  have hplace {l : Location} {e : Edit} {ls : List Location}
      (hls : Lead (Segment.someNames false [seg] = true) ls) (hl : l ∈ ls)
      (he : e.KeepsOutside F (l.any (Step.names false) = true ∨ after)) :
      e.KeepsOutside F (seg.names false = true ∨ after) :=
    he.mono (Or.imp_left fun hn => hls l hl (by rw [Segment.someNames, hn, Bool.true_or]))
  constructor
  · intro mode val node hval hnode
    refine (locations_spares hreg [seg] hnode).bind fun ls hls => .foldlM (.refl hnode) ?_
    intro now l hl hnow
    exact (elementEdit_spares hreg hrest l).bind fun e he =>
      ((hplace hls hl he).update mode.built mode.silent hval hnow.free).mono
        fun _ hw => hnow.trans hw
  · intro silent val node hval hnode
    refine (locations_spares hreg [seg] hnode).bind fun ls hls => .foldlM (.refl hnode) ?_
    intro now l hl hnow
    exact (elementEdit_spares hreg hrest l).bind fun e he =>
      ((hplace hls (List.mem_reverse.mp hl) he).remove silent hval hnow.free).mono
        fun _ hw => hnow.trans hw

section

variable {branches : List (Branch × Edit)}

/-- Behind a soft cut the branches have a segment that goes to a part. -/
def CutsLead (inside : Prop) : (cut : Bool) → List (Branch × Edit) → Prop
  | _, [] => True
  | cut, (b, e) :: bs =>
    (inside → cut = true → Segment.someNames false e.segments = true) ∧
      CutsLead inside (cut || b.cut == .soft) bs

/-- Locations are hidden only behind a soft cut. -/
theorem cut_of_hidden {cut : Bool} {hidden found : List Location} (b : Branch)
    (hhidden : hidden.isEmpty = false → cut = true)
    (h : (if b.cut == .soft then hidden ++ found else hidden).isEmpty = false) :
    (cut || b.cut == .soft) = true := by
  by_cases hsoft : (b.cut == .soft) = true
  · rw [hsoft, Bool.or_true]
  · rw [if_neg hsoft] at h
    rw [hhidden h, Bool.true_or]

theorem updateFallback_spares (hbs : ∀ b ∈ branches, b.2.KeepsOutside F inside)
    (mode : UpdateMode) (hval : F.FreeOperand val) (hnode : F.Free node) :
    F.Spares (F.Stands inside node) (updateFallback branches mode val node) := by
  unfold updateFallback
  split
  · rename_i b e hfind
    have hmem := List.mem_reverse.mp (List.mem_of_find?_eq_some hfind)
    exact (hbs (b, e) hmem).update mode.built mode.silent hval hnode
  · exact .pure (.refl hnode)

theorem updateFirst_spares (hreg : ctx.registry.Spares F) (mode : UpdateMode)
    (hval : F.FreeOperand val) (hnode : F.Free node) : ∀ {branches : List (Branch × Edit)},
    (∀ b ∈ branches, b.2.KeepsOutside F inside) →
    F.Spares (fun w? => ∀ w, w? = some w → F.Stands inside node w)
      (ctx.updateFirst mode val branches node)
  | [], _ => .pure fun w hw => by cases hw
  | (b, e) :: bs, hbs => by
    obtain ⟨hb, hbs⟩ := List.forall_mem_cons.mp hbs
    rw [updateFirst]
    refine (locations_spares hreg e.segments hnode).bind fun ls _ => ?_
    split
    · exact updateFirst_spares hreg mode hval hnode hbs
    · exact (hb.update mode.built mode.silent hval hnode).map fun w hw x hx => by
        cases hx
        exact hw

theorem updateMatching_spares (hreg : ctx.registry.Spares F) (mode : UpdateMode)
    (hval : F.FreeOperand val) : ∀ {branches : List (Branch × Edit)} {cut : Bool}
    {hidden : List Location} {node : Value}, (∀ b ∈ branches, b.2.KeepsOutside F inside) →
    CutsLead inside cut branches → (hidden.isEmpty = false → cut = true) → F.Free node →
    F.Spares (fun p => F.Stands inside node p.1) (ctx.updateMatching mode val branches hidden node)
  | [], _, _, _, _, _, _, hnode => .pure (.refl hnode)
  | (b, e) :: bs, cut, hidden, node, hbs, hcuts, hhidden, hnode => by
    obtain ⟨hb, hbs⟩ := List.forall_mem_cons.mp hbs
    obtain ⟨hlead, hcuts⟩ := hcuts
    rw [updateMatching]
    refine (locationsOutside_spares hreg hidden e.segments hnode).bind fun found hfound => ?_
    split
    · refine updateMatching_spares hreg mode hval hbs hcuts (fun h => ?_) hnode
      rw [hhidden h, Bool.true_or]
    · have hmore {now : Value} (hnow : F.Stands inside node now) :
          F.Spares (fun p => F.Stands inside node p.1) (if b.cut == .hard then pure (now, true)
            else do
              let p ← ctx.updateMatching mode val bs
                (if b.cut == .soft then hidden ++ found else hidden) now
              pure (p.1, true)) := by
        split
        · exact .pure hnow
        · exact (updateMatching_spares hreg mode hval hbs hcuts (cut_of_hidden b hhidden)
            hnow.free).bind fun p hp => .pure (hnow.trans hp)
      dsimp only
      by_cases hempty : hidden.isEmpty = true
      · rw [if_pos hempty]
        exact (hb.update mode.built mode.silent hval hnode).bind fun now hnow => hmore hnow
      · -- behind a soft cut each place is written on its own; it has a step to a part
        rw [if_neg hempty]
        refine Spares.bind (P := F.Stands inside node) (.foldlM (.refl hnode) ?_)
          fun now hnow => hmore hnow
        intro now l hl hnow
        refine (elementEdit_spares hreg Edit.done_keepsOutside l).bind fun e' he' => ?_
        refine (he'.update mode.built (mode.silent || b.isSilent) hval hnow.free).mono fun _ hw =>
          hnow.trans (hw.mono fun hin => .inl (hfound l hl (hlead hin (hhidden ?_))))
        exact Bool.eq_false_of_not_eq_true hempty

theorem removeFirst_spares (hreg : ctx.registry.Spares F) (silent : Bool)
    (hval : F.FreeOperand val) (hnode : F.Free node) : ∀ {branches : List (Branch × Edit)},
    (∀ b ∈ branches, b.2.KeepsOutside F inside) →
    F.Spares (F.Stands inside node) (ctx.removeFirst silent val branches node)
  | [], _ => .pure (.refl hnode)
  | (b, e) :: bs, hbs => by
    obtain ⟨hb, hbs⟩ := List.forall_mem_cons.mp hbs
    rw [removeFirst]
    refine (locations_spares hreg e.segments hnode).bind fun ls _ => ?_
    split
    · exact removeFirst_spares hreg silent hval hnode hbs
    · exact hb.remove silent hval hnode

theorem removeMatching_spares (hreg : ctx.registry.Spares F) (silent : Bool)
    (hval : F.FreeOperand val) : ∀ {branches : List (Branch × Edit)} {cut : Bool}
    {hidden : List Location} {node : Value}, (∀ b ∈ branches, b.2.KeepsOutside F inside) →
    CutsLead inside cut branches → (hidden.isEmpty = false → cut = true) → F.Free node →
    F.Spares (F.Stands inside node) (ctx.removeMatching silent val branches hidden node)
  | [], _, _, _, _, _, _, hnode => .pure (.refl hnode)
  | (b, e) :: bs, cut, hidden, node, hbs, hcuts, hhidden, hnode => by
    obtain ⟨hb, hbs⟩ := List.forall_mem_cons.mp hbs
    obtain ⟨hlead, hcuts⟩ := hcuts
    rw [removeMatching]
    refine (locationsOutside_spares hreg hidden e.segments hnode).bind fun found hfound => ?_
    split
    · refine removeMatching_spares hreg silent hval hbs hcuts (fun h => ?_) hnode
      rw [hhidden h, Bool.true_or]
    · have hmore {now : Value} (hnow : F.Stands inside node now) :
          F.Spares (F.Stands inside node) (if b.cut == .hard then pure now
            else ctx.removeMatching silent val bs
              (if b.cut == .soft then hidden ++ found else hidden) now) := by
        split
        · exact .pure hnow
        · exact (removeMatching_spares hreg silent hval hbs hcuts (cut_of_hidden b hhidden)
            hnow.free).mono fun _ hw => hnow.trans hw
      dsimp only
      by_cases hempty : hidden.isEmpty = true
      · rw [if_pos hempty]
        exact (hb.remove silent hval hnode).bind fun now hnow => hmore hnow
      -- behind a soft cut each place is removed on its own, the last one first
      · rw [if_neg hempty]
        refine Spares.bind (P := F.Stands inside node) (.foldlM (.refl hnode) ?_)
          fun now hnow => hmore hnow
        intro now l hl hnow
        refine (elementEdit_spares hreg Edit.done_keepsOutside l).bind fun e' he' => ?_
        refine (he'.remove (silent || b.isSilent) hval hnow.free).mono fun _ hw =>
          hnow.trans (hw.mono fun hin => .inl
            (hfound l (List.mem_reverse.mp hl) (hlead hin (hhidden ?_))))
        exact Bool.eq_false_of_not_eq_true hempty

theorem anyM_spares {α : Type} {p : α → Eval Bool} : ∀ {xs : List α},
    (∀ x ∈ xs, F.Runs (p x)) → F.Runs (xs.anyM p)
  | [], _ => .pure trivial
  | x :: xs, hp => by
    obtain ⟨hx, hxs⟩ := List.forall_mem_cons.mp hp
    rw [List.anyM]
    refine hx.bind fun hit _ => ?_
    cases hit with
    | true => exact .pure trivial
    | false => exact anyM_spares hxs

theorem conjunctionEdit_keepsOutside (hreg : ctx.registry.Spares F)
    (hbs : ∀ b ∈ branches, b.2.KeepsOutside F inside) :
    (ctx.conjunctionEdit branches).KeepsOutside F inside := by
  have hlooks (segs : List Segment) {node : Value} (hnode : F.Free node) :
      F.Runs (do pure (← ctx.locations segs node).isEmpty) :=
    (locations_spares hreg segs hnode).bind fun _ _ => .pure trivial
  constructor
  · intro mode val node hval hnode
    refine Spares.bind (P := fun _ => True) (anyM_spares fun b _ => ?_) fun blocked _ => ?_
    · dsimp only
      split
      · exact .pure trivial
      · exact hlooks b.2.segments hnode
    · split
      · exact .pure (.refl hnode)
      · refine .foldlM (.refl hnode) fun now b hb hnow => ?_
        exact ((hbs b hb).update mode.built mode.silent hval hnow.free).mono
          fun _ hw => hnow.trans hw
  · intro silent val node hval hnode
    refine (anyM_spares fun b hb => hlooks b.2.segments hnode).bind fun blocked _ => ?_
    split
    · exact .pure (.refl hnode)
    · refine .foldlM (.refl hnode) fun now b hb hnow => ?_
      exact ((hbs b hb).remove silent hval hnow.free).mono fun _ hw => hnow.trans hw

theorem disjunctionEdit_keepsOutside (hreg : ctx.registry.Spares F) (first : Bool)
    (hbs : ∀ b ∈ branches, b.2.KeepsOutside F inside) (hcuts : CutsLead inside false branches) :
    (ctx.disjunctionEdit branches first).KeepsOutside F inside := by
  constructor
  · intro mode val node hval hnode
    rw [disjunctionEdit]
    dsimp only
    split
    · refine (updateFirst_spares hreg mode hval hnode hbs).bind fun w? hw => ?_
      cases w? with
      | some w => exact .pure (hw w rfl)
      | none => exact updateFallback_spares hbs mode hval hnode
    · refine Spares.bind
        (updateMatching_spares hreg mode hval hbs hcuts (fun h => by cases h) hnode) fun p hp => ?_
      obtain ⟨now, hit⟩ := p
      dsimp only
      split
      · exact .pure hp
      · exact (updateFallback_spares hbs mode hval hp.free).mono fun _ hw => hp.trans hw
  · intro silent val node hval hnode
    rw [disjunctionEdit]
    dsimp only
    split
    · exact removeFirst_spares hreg silent hval hnode hbs
    · exact removeMatching_spares hreg silent hval hbs hcuts (fun h => by cases h) hnode

theorem complementEdit_keepsOutside (hreg : ctx.registry.Spares F) (bs : List Branch)
    (hrest : rest.KeepsOutside F after) :
    (ctx.complementEdit bs rest).KeepsOutside F True := by
  constructor
  · intro mode val node hval hnode
    refine (complement_spares true True hreg bs hnode).bind fun parts hparts => ?_
    unfold updateEach
    split
    · exact .pure (.refl hnode)
    · refine .foldlM (.refl hnode) fun now part hpart hnow => ?_
      have hpart := hparts part hpart
      have hwrite (child : Value) (hchild : F.Free child) : F.Spares (F.Stands True node)
          ((setChild now part.1 child : StoreM Value) : Eval Value) :=
        (Spares.lift (setPart_spares hnow.free hpart hchild)).mono fun _ hw => hnow.trans hw
      dsimp only
      split
      · exact hwrite _ hval.written
      · exact (hrest.update mode.built mode.silent hval hpart.value).bind fun child hchild =>
          hwrite child hchild.free
  · intro silent val node hval hnode
    refine (complement_spares true True hreg bs hnode).bind fun parts hparts => ?_
    split
    · exact removeThrough_spares hrest hparts hval hnode
    · split
      · exact .pure (.refl hnode)
      · exact removeParts_spares hparts hnode

theorem CutsLead.mono {inside inside' : Prop} (h : inside' → inside) : ∀ {cut : Bool}
    {branches : List (Branch × Edit)}, CutsLead inside cut branches → CutsLead inside' cut branches
  | _, [], _ => trivial
  | _, (_, _) :: _, ⟨hlead, hcuts⟩ => ⟨fun hin => hlead (h hin), hcuts.mono h⟩

end

theorem restrictedEdit_keepsOutside (kinds : KindRestriction) {se : SegmentEdit}
    (hse : se.KeepsOutside F inside) : (restrictedEdit kinds se).KeepsOutside F inside := by
  constructor
  · intro mode val node hval hnode
    refine Spares.store.bind fun t _ => ?_
    split
    · exact hse.update mode hval hnode
    · exact .pure (.refl hnode)
  · intro silent val node hval hnode
    refine Spares.store.bind fun t _ => ?_
    split
    · exact hse.remove silent hval hnode
    · exact .pure (.refl hnode)

theorem someNames_pathEdit (whole : Bool) (rest : Edit) : ∀ {segs : List Segment},
    Segment.someNames whole segs = true →
    Segment.someNames whole (ctx.pathEdit segs rest).segments = true
  | seg :: segs, h => by
    show (seg.names whole || Segment.someNames whole (ctx.pathEdit segs rest).segments) = true
    rw [Segment.someNames, Bool.or_eq_true] at h
    rw [Bool.or_eq_true]
    exact h.imp_right (someNames_pathEdit whole rest)

/-- **Every edit keeps to what is outside of the fence**, and goes into the value that it is applied
to if the path does. -/
theorem edits_keepOutside (hreg : ctx.registry.Spares F) :
    (∀ (seg : Segment) (rest : Edit) (after : Bool), rest.KeepsOutside F (after = true) →
      (ctx.segmentEdit seg rest).KeepsOutside F (seg.writesInside after = true)) ∧
    (∀ (bs : List Branch) (rest : Edit) (after cut : Bool), rest.KeepsOutside F (after = true) →
      (∀ b ∈ ctx.branchEdits bs rest,
        b.2.KeepsOutside F (Branch.writeInside after cut bs = true)) ∧
      CutsLead (Branch.writeInside after cut bs = true) cut (ctx.branchEdits bs rest)) ∧
    ∀ (segs : List Segment) (rest : Edit) (after : Bool), rest.KeepsOutside F (after = true) →
      (ctx.pathEdit segs rest).KeepsOutside F (Segment.writeInside after segs = true) := by
  -- the edit of a segment is built from that of the rest, so `hrest` speaks of any rest
  refine segmentEdit.mutual_induct ctx _ _ _ ?nop ?nested ?or ?and ?not ?recursive ?restrict
    ?guarded ?placewise ?parts ?plain ?noBranch ?branch ?noSegment ?segment
  case nop =>
    intro inner rest ih after hrest
    rw [segmentEdit, Segment.writesInside]
    exact ⟨fun mode _ _ hval hnode => (ih after hrest).update _ hval hnode,
      fun _ _ _ hval hnode => (ih after hrest).remove true hval hnode⟩
  case nested =>
    intro kind branches first rest ih after hrest
    rw [segmentEdit]
    refine (ih after hrest).mono fun hin => ?_
    rw [Segment.writesInside, Branch.writeInside, Bool.and_eq_true, Bool.and_eq_true] at hin
    · exact hin.1.1
    · exact fun h => by cases h
  case or =>
    intro branches first rest hflat ih after hrest
    obtain ⟨hbs, hcuts⟩ := ih after false hrest
    rw [segmentEdit]
    · exact disjunctionEdit_keepsOutside hreg first hbs hcuts
    · exact hflat
  case and =>
    intro branches first rest hflat ih after hrest
    rw [segmentEdit]
    exact conjunctionEdit_keepsOutside hreg (ih after false hrest).1
  case not =>
    intro branches first rest hflat after hrest
    rw [segmentEdit]
    exact (complementEdit_keepsOutside hreg branches hrest).mono fun _ => trivial
  case recursive =>
    intro key branches depth filter first rest after hrest
    rw [segmentEdit, Segment.writesInside]
    exact recursiveEdit_keepsOutside hreg ⟨key, branches, depth, filter, first⟩ none hrest
  case restrict =>
    intro inner kinds rest after hrest
    rw [segmentEdit, Segment.writesInside]
    refine restrictedEdit_keepsOutside kinds ?_
    split
    · rw [Bool.or_eq_true]
      exact placewiseEdit_keepsOutside hreg (.restrict inner kinds) hrest
    · exact partsEdit_keepsOutside hreg (.restrict inner kinds) hrest
  case guarded =>
    intro inner test rest r hr after hrest
    rw [segmentEdit, Segment.writesInside, hr]
    exact recursiveEdit_keepsOutside hreg r (some test) hrest
  case placewise =>
    intro inner test rest hr hcompound after hrest
    rw [segmentEdit, Segment.writesInside, hr]
    dsimp only
    rw [if_pos hcompound, if_pos hcompound, Bool.or_eq_true]
    exact placewiseEdit_keepsOutside hreg (.guard inner test) hrest
  case parts =>
    intro inner test rest hr hcompound after hrest
    rw [segmentEdit, Segment.writesInside, hr]
    dsimp only
    rw [if_neg hcompound, if_neg hcompound]
    exact partsEdit_keepsOutside hreg (.guard inner test) hrest
  case plain =>
    intro seg rest hnop hflat hgroup hrecursive hrestrict hguard after hrest
    have hplain : ctx.segmentEdit seg rest = ctx.plainEdit seg rest := by
      rw [segmentEdit] <;> assumption
    rw [hplain]
    refine (plainEdit_keepsOutside hreg seg hrest).mono fun hin => ?_
    cases seg with
    | root => exact .inr ⟨.inl rfl, hin⟩
    | invert => exact .inr ⟨.inr rfl, hin⟩
    | nop inner => exact (hnop inner rfl).elim
    | group kind branches first => exact (hgroup kind branches first rfl).elim
    | recursive key branches depth filter first =>
      exact (hrecursive key branches depth filter first rfl).elim
    | restrict inner kinds => exact (hrestrict inner kinds rfl).elim
    | guard inner test => exact (hguard inner test rfl).elim
    | _ => exact .inl rfl
  case noBranch =>
    intro rest after cut hrest
    rw [branchEdits]
    exact ⟨List.forall_mem_nil _, trivial⟩
  case branch =>
    intro segs c bs rest ihsegs ihbs after cut hrest
    rw [branchEdits, Branch.writeInside, Bool.and_eq_true, Bool.and_eq_true]
    obtain ⟨hbs, hcuts⟩ := ihbs after (cut || c == .soft) hrest
    refine ⟨List.forall_mem_cons.mpr ⟨(ihsegs after hrest).mono fun hin => hin.1.1,
      fun b hb => (hbs b hb).mono And.right⟩, fun hin hcut => ?_, hcuts.mono And.right⟩
    refine someNames_pathEdit false rest ?_
    have hnamed := hin.1.2
    rwa [hcut, Bool.not_true, Bool.false_or] at hnamed
  case noSegment =>
    intro rest after hrest
    rw [pathEdit, Segment.writeInside]
    exact hrest
  case segment =>
    intro seg segs rest rest' ihsegs ihseg after hrest
    rw [pathEdit, Segment.writeInside]
    exact Edit.cons_keepsOutside seg (ihseg _ (ihsegs after hrest)) rest'

/-- **An update keeps to what is outside of the fence.** -/
theorem update_spares (hreg : ctx.registry.Spares F) (segs : List Segment) (hnode : F.Free node)
    (hval : F.FreeOperand val) :
    F.Spares (F.Stands (Segment.writeInside false segs = true) node)
      (ctx.update segs node val) := by
  have hdone : Edit.done.KeepsOutside F (false = true) :=
    Edit.done_keepsOutside.mono fun h => by cases h
  exact ((edits_keepOutside hreg).2.2 segs .done false hdone).update false false hval hnode

/-- **A removal keeps to what is outside of the fence.** -/
theorem remove_spares (hreg : ctx.registry.Spares F) (segs : List Segment) (hnode : F.Free node)
    (hval : F.FreeOperand val) :
    F.Spares (F.Stands (Segment.writeInside false segs = true) node)
      (ctx.remove segs node val) := by
  have hdone : Edit.done.KeepsOutside F (false = true) :=
    Edit.done_keepsOutside.mono fun h => by cases h
  exact ((edits_keepOutside hreg).2.2 segs .done false hdone).remove false hval hnode

end Context

end DottedPath
