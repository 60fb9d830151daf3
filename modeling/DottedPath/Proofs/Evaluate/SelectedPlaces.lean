import DottedPath.Evaluate.Walk
import DottedPath.Proofs.Evaluate.SelectedSlots
import DottedPath.Proofs.Value.Places
import DottedPath.Proofs.Value.Ways
import Mathlib.Data.List.Nodup

/-!
# The places that a path selects in a tree

A path of simple segments leads to the places in a tree whose slots its segments select, one after
the other (`Context.Selects`).  These are the same for as long as the tree lies there, and they are
what reading reports (`Context.find_selected`).

## Main statements

- `Context.exists_selects`: a path of simple segments selects places in a tree that it can be read in.
- `Context.find_selected`: reading reports the places that the path selects.
-/

namespace DottedPath

open Forest

variable {s : Store} {seg : Segment} {segs : List Segment} {t : Tree} {places : List (List Nat)}
  {edited : List Handle}

/-! ### Simple segments -/

namespace Segment.Simple

/-- A simple segment is an access without its wrappers. -/
theorem unwrapped_eq (hseg : seg.Simple) :
    ∃ accessor key filter first, seg.unwrapped = .access accessor key filter first := by
  induction hseg with
  | access => exact ⟨_, _, _, _, rfl⟩
  | restrict _ ih => exact ih
  | guard _ ih => exact ih

theorem isCompound_eq_false (hseg : seg.Simple) : seg.isCompound = false := by
  obtain ⟨accessor, key, filter, first, hunwrapped⟩ := hseg.unwrapped_eq
  rw [Segment.isCompound, hunwrapped]

theorem recursion?_eq_none (hseg : seg.Simple) : seg.recursion? = none := by
  obtain ⟨accessor, key, filter, first, hunwrapped⟩ := hseg.unwrapped_eq
  rw [Segment.recursion?, hunwrapped]

end Segment.Simple

namespace Context

variable (ctx : Context)

/-- Reading a simple segment goes to the parts that it selects. -/
theorem walkSegment_simple (hseg : seg.Simple) (next : Walk) (base : Location) (node : Value)
    (s : Store) :
    ctx.walkSegment seg next base node s =
      (do next.each base (placesOf (← ctx.items seg node)) : Eval Visit) s :=
  ctx.walkSegment_parts next base node seg hseg.isCompound_eq_false s

/-- The segment selects nothing in the value. -/
def Ignores (seg : Segment) (v : Value) : Prop :=
  ∀ s, ∃ t, ctx.items seg v s = (.ok [], t) ∧ s.GrowsTo t

/-- Segments can be read in a tree: they select nothing in its leaves, its keys have no doubles in
them, and the conditions of the segments have answers that do not change by edits of some
containers. -/
inductive Readable (edited : List Handle) (s : Store) (segs : List Segment) : Tree → Prop where
  | leaf {v : Value} (ignored : ∀ seg ∈ segs, ctx.Ignores seg v) : Readable edited s segs (.leaf v)
  | node {h : Handle} {f : Form} {ts : List Tree} (keyed : f.Keyed s)
    (decided : ∀ seg ∈ segs, ∀ cond ∈ ctx.conditions seg, ∀ u ∈ ts, u.Decided edited s cond)
    (parts : ∀ u ∈ ts, Readable edited s segs u) : Readable edited s segs (.node h f ts)

/-- The path selects the places in the tree. -/
inductive Selects (edited : List Handle) (s : Store) :
    List Segment → Tree → List (List Nat) → Prop where
  | nil {t : Tree} : Selects edited s [] t [[]]
  | leaf {seg : Segment} {segs : List Segment} {v : Value} (ignored : ctx.Ignores seg v) :
    Selects edited s (seg :: segs) (.leaf v) []
  | node {seg : Segment} {segs : List Segment} {h : Handle} {f : Form} {ts : List Tree}
    {is : List Nat} {below : Nat → List (List Nat)} (keyed : f.Keyed s)
    (slots : ctx.SelectsSlots edited seg s h f ts is) (ascending : is.Pairwise (· < ·))
    (lt : ∀ i ∈ is, i < ts.length)
    (parts : ∀ i ∈ is, ∀ t, ts[i]? = some t → Selects edited s segs t (below i)) :
    Selects edited s (seg :: segs) (.node h f ts) (is.flatMap fun i => (below i).map (i :: ·))

variable {ctx}

theorem Readable.tail (h : ctx.Readable edited s (seg :: segs) t) :
    ctx.Readable edited s segs t := by
  induction h with
  | leaf ignored => exact .leaf fun seg hseg => ignored seg (List.mem_cons_of_mem _ hseg)
  | node keyed decided _ ih =>
    exact .node keyed (fun seg hseg => decided seg (List.mem_cons_of_mem _ hseg)) ih

/-- **A path of simple segments selects places in a tree that it can be read in.** -/
theorem exists_selects (hreg : ctx.registry.Grows) : ∀ {segs : List Segment} {t : Tree},
    (∀ seg ∈ segs, seg.Simple) → Lies s [t] → ctx.Readable edited s segs t →
    ∃ places, ctx.Selects edited s segs t places
  | [], t, _, _, _ => ⟨[[]], .nil⟩
  | seg :: segs, t, hsegs, hlies, hreadable => by
    obtain ⟨hseg, hrest⟩ := List.forall_mem_cons.mp hsegs
    cases hreadable with
    | leaf ignored => exact ⟨[], .leaf (ignored seg (List.mem_cons_self ..))⟩
    | @node h f ts keyed decided parts =>
      obtain ⟨-, -, hparts, -⟩ := hlies.parts
      obtain ⟨is, hslots⟩ :=
        exists_selectsSlots hreg hseg hlies keyed (decided seg (List.mem_cons_self ..))
      have hbelow (i : Nat) : ∃ places, ∀ t, ts[i]? = some t →
          ctx.Selects edited s segs t places := by
        cases hi : ts[i]? with
        | none => exact ⟨[], nofun⟩
        | some t =>
          have ht := List.mem_of_getElem? hi
          obtain ⟨places, hplaces⟩ := exists_selects hreg hrest (hparts.of_mem ht) (parts t ht).tail
          refine ⟨places, fun t' ht' => ?_⟩
          cases ht'
          exact hplaces
      choose below hbelow using hbelow
      exact ⟨_, .node keyed hslots (hslots.ascending hlies) (hslots.lt hlies) fun i _ => hbelow i⟩

namespace Selects

/-- The empty path selects the tree itself. -/
theorem eq_of_nil (h : ctx.Selects edited s segs t places) (hsegs : segs = []) :
    places = [[]] := by
  cases h with
  | nil => rfl
  | _ => cases hsegs

/-- The places are as deep as the path is long. -/
theorem length_eq (h : ctx.Selects edited s segs t places) :
    ∀ p ∈ places, p.length = segs.length := by
  induction h with
  | nil =>
    intro p hp
    rw [List.mem_singleton.mp hp]
    rfl
  | leaf => exact fun p hp => absurd hp List.not_mem_nil
  | node _ _ _ lt _ ih =>
    intro p hp
    obtain ⟨i, hi, hp⟩ := List.mem_flatMap.mp hp
    obtain ⟨q, hq, rfl⟩ := List.mem_map.mp hp
    rw [List.length_cons, List.length_cons, ih i hi _ (List.getElem?_eq_getElem (lt i hi)) q hq]

/-- No place is selected twice. -/
theorem nodup (h : ctx.Selects edited s segs t places) : places.Nodup := by
  induction h with
  | nil => exact List.nodup_singleton _
  | leaf => exact .nil
  | node _ _ ascending lt _ ih =>
    refine List.nodup_flatMap.mpr ⟨fun i hi => ?_, ?_⟩
    · exact (ih i hi _ (List.getElem?_eq_getElem (lt i hi))).map List.cons_injective
    · refine ascending.imp fun {i j} hij => ?_
      simp only [Function.onFun, List.disjoint_left, List.mem_map]
      rintro _ ⟨p, -, rfl⟩ ⟨q, -, heq⟩
      exact absurd (List.cons.inj heq).1.symm (Nat.ne_of_lt hij)

end Selects

end Context

/-! ### Reading -/

/-- What occurs in a part occurs in the whole. -/
theorem Tree.Occurs.cons {h : Handle} {f : Form} {ts : List Tree} {i : Nat} {step : Step}
    {found : Found} {p : List Nat} (part : ts[i]? = some t) (names : f.Names s ts.length step i)
    (literal : step.IsLiteral s) (hoccurs : t.Occurs s found p) :
    (Tree.node h f ts).Occurs s (step :: found.1, found.2) (i :: p) := by
  refine ⟨.cons part names literal hoccurs.way, ?_⟩
  rw [at?, part]
  exact hoccurs.value

/-- Below a location, a walk reports places in the tree. -/
def Walk.ReportsPlaces (walk : Walk) (s : Store) (t : Tree) (places : List (List Nat)) : Prop :=
  ∀ base r, s.GrowsTo r → ∃ found r', walk base t.value r =
      (.ok ⟨found.map fun e => (base ++ e.1, e.2), false⟩, r') ∧ r.GrowsTo r' ∧
    List.Forall₂ (t.Occurs r') found places

/-- If it does so in some parts of a container, going to these reports the places in the container. -/
theorem Walk.each_reportsPlaces {next : Walk} {h : Handle} {f : Form} {ts : List Tree}
    {step : Nat → Step} {below : Nat → List (List Nat)} : ∀ {is : List Nat},
    (∀ i ∈ is, i < ts.length ∧ f.Names s ts.length (step i) i) →
    (∀ i ∈ is, (step i).IsLiteral s) →
    (∀ i ∈ is, ∀ t, ts[i]? = some t → next.ReportsPlaces s t (below i)) →
    ∀ base r, s.GrowsTo r → ∃ found r', next.each base
        (Context.placesOf (is.map fun i => (step i, (ts.map Tree.value).getD i .null))) r =
          (.ok ⟨found.map fun e => (base ++ e.1, e.2), false⟩, r') ∧ r.GrowsTo r' ∧
      List.Forall₂ ((Tree.node h f ts).Occurs r') found
        (is.flatMap fun i => (below i).map (i :: ·))
  | [], _, _, _, base, r, _ => ⟨[], r, rfl, .refl r, .nil⟩
  | i :: is, hnames, hliteral, hnext, base, r, hsr => by
    obtain ⟨⟨hi, hname⟩, hnames⟩ := List.forall_mem_cons.mp hnames
    obtain ⟨hlit, hliteral⟩ := List.forall_mem_cons.mp hliteral
    obtain ⟨hhead, hnext⟩ := List.forall_mem_cons.mp hnext
    have hget : ts[i]? = some ts[i] := List.getElem?_eq_getElem hi
    have hvalue : (ts.map Tree.value).getD i .null = ts[i].value := by simp [hi]
    obtain ⟨here, r₁, hwalk, hr₁, hhere⟩ := hhead _ hget (base ++ [step i]) r hsr
    obtain ⟨more, r₂, heach, hr₂, hmore⟩ :=
      Walk.each_reportsPlaces (h := h) hnames hliteral hnext base r₁ (hsr.trans hr₁)
    -- what the first part reported still occurs when the store has grown by the others
    refine ⟨here.map (fun e => (step i :: e.1, e.2)) ++ more, r₂, ?_, hr₁.trans hr₂, ?_⟩
    · show Walk.each next base (([step i], (ts.map Tree.value).getD i .null) ::
        Context.placesOf (is.map _)) r = _
      rw [hvalue, Walk.each, Eval.run_bind_of_ok hwalk, if_neg Bool.false_ne_true,
        Eval.run_bind_of_ok heach]
      simp [Eval.run_pure, Function.comp_def]
    · rw [List.flatMap_cons]
      refine List.rel_append (List.forall₂_map_left_iff.mpr
        (List.forall₂_map_right_iff.mpr (hhere.imp fun e p hoccurs => ?_))) hmore
      have hretains := (hsr.trans (hr₁.trans hr₂)).retains
      exact (hoccurs.retains hr₂.retains).cons hget (hname.retains hretains)
        (hlit.retains hretains)

namespace Context

variable {ctx : Context}

theorem walkPath_selected (hselects : ctx.Selects edited s segs t places)
    (hsegs : ∀ seg ∈ segs, seg.Simple) : ∀ {r : Store}, s.EditsOnly edited r → Lies r [t] →
    (ctx.walkPath segs Walk.done).ReportsPlaces r t places := by
  induction hselects with
  | @nil t =>
    intro r _ _ base r₁ _
    refine ⟨[([], t.value)], r₁, by simp [walkPath, Walk.done, Eval.run_pure], .refl r₁, ?_⟩
    exact .cons ⟨.nil, by cases t <;> rfl⟩ .nil
  | @leaf seg segs v ignored =>
    intro r _ _ base r₁ _
    obtain ⟨r₂, hitems, hr₂⟩ := ignored r₁
    refine ⟨[], r₂, ?_, hr₂, .nil⟩
    rw [walkPath, ctx.walkSegment_simple (hsegs seg (List.mem_cons_self ..)), Tree.value,
      Eval.run_bind_of_ok hitems]
    rfl
  | @node seg segs h f ts is below keyed slots ascending lt parts ih =>
    intro r hr hlies base r₁ hr₁
    obtain ⟨hseg, hrest⟩ := List.forall_mem_cons.mp hsegs
    have hlies₁ := (Turns.of_grows hr₁ hlies).lies
    obtain ⟨step, r₂, hitems, hr₂, hpicks⟩ := slots r₁ (hr.trans (.of_grows hr₁)) hlies₁
    obtain ⟨-, -, hparts, -⟩ := (Turns.of_grows hr₂ hlies₁).lies.parts
    have hbelow : ∀ i ∈ is, ∀ t, ts[i]? = some t →
        (ctx.walkPath segs Walk.done).ReportsPlaces r₂ t (below i) := fun i hi t ht =>
      ih i hi t ht hrest ((hr.trans (.of_grows hr₁)).trans (.of_grows hr₂))
        (hparts.of_mem (List.mem_of_getElem? ht))
    obtain ⟨found, r₃, heach, hr₃, hfound⟩ := Walk.each_reportsPlaces (h := h) hpicks.names
      (fun i hi => (hpicks.keys i hi).isLiteral) hbelow base r₂ (.refl r₂)
    refine ⟨found, r₃, ?_, hr₂.trans hr₃, hfound⟩
    rw [walkPath, ctx.walkSegment_simple hseg, Tree.value, Eval.run_bind_of_ok hitems, heach]

/-- **Reading reports the places that the path selects**, in their order. -/
theorem find_selected (hselects : ctx.Selects edited s segs t places)
    (hsegs : ∀ seg ∈ segs, seg.Simple) (hlies : Lies s [t]) :
    ∃ found s', ctx.find segs t.value s = (.ok found, s') ∧ s.GrowsTo s' ∧
      List.Forall₂ (t.Occurs s') found places := by
  obtain ⟨found, s', hwalk, hgrows, hfound⟩ :=
    walkPath_selected hselects hsegs (.refl edited s) hlies [] s (.refl s)
  refine ⟨found, s', ?_, hgrows, hfound⟩
  rw [find, Eval.run_bind_of_ok hwalk]
  simp [Eval.run_pure]

end Context

end DottedPath
