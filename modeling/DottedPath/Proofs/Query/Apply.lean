import DottedPath.Proofs.Evaluate.ReadOnly
import DottedPath.Proofs.Evaluate.TreeDescent
import DottedPath.Proofs.Evaluate.WayWrite
import DottedPath.Query.Write
import DottedPath.Transform.Builtin
import Mathlib

/-!
# Applying transforms in place

Applying the transforms of a path reads all places first and then writes what the transforms make of
each value along the literal path of its location.  If the locations are ways into a tree, to places
of which none is inside of another one, each place is written that was read, and nothing else
(`Context.applyPath_writes_back`).  The locations that a descent reports are such ways
(`Context.applyPath_descent`).

A location that goes through a slice filter is no way into the tree: it counts the elements that the
filter keeps, but its literal path counts all of them (`Context.applyAt_filtered`).
-/

namespace DottedPath

open DottedPath.Forest DottedPath.Tree

variable {s s' : Store} {t u part : Tree} {p q : List Nat} {v w : Value}

namespace Context

variable {ctx : Context} {calls : List TransformCall}

/-- The transforms make the value of a part, in some store in which the part is as it was read. -/
def Makes (ctx : Context) (calls : List TransformCall) (s : Store) (part : Tree) (w : Value) :
    Prop :=
  ∃ t t', s.Retains t ∧ Lies t [part] ∧ ctx.transform part.value calls t = (.ok w, t')

/-- Writes back what the transforms make of one value, unless its location has been seen before. -/
def applyAt (ctx : Context) (calls : List TransformCall) :
    Value × List Location → Found → Eval (Value × List Location) := fun (root, seen) (l, v) => do
  let s ← store
  if seen.any (Location.same s · l) then pure (root, seen)
  else
    let v ← ctx.transform v calls
    let root ← ctx.update (Location.path (← store) l) root (.value v)
    pure (root, seen ++ [l])

theorem applyPath_eq {path : String} {e : PathExpression}
    (hparse : PathExpression.parse path = .ok e) (root : Value) :
    ctx.applyPath (.value root) path = (do
      let (root, _) ← (← ctx.find e.segments root).foldlM (ctx.applyAt e.transforms) (root, [])
      pure root) := by
  rw [applyPath, readPath, hparse]
  rfl

/-- A value that is read at a place is replaced there by what the transforms make of it. -/
theorem applyAt_writes (hreg : ctx.registry.Grows) (hlies : Lies s [t]) (hkeyed : t.Keyed s)
    {found : Found} (hoccurs : t.Occurs s found p) {seen : List Location}
    (hnew : seen.any (Location.same s · found.1) = false) {a : Value × List Location}
    (hrun : ctx.applyAt calls (t.value, seen) found s = (.ok a, s')) :
    ∃ u w part, a = (u.value, seen ++ [found.1]) ∧ Turns s [t] s' [u] ∧ Put w p t u ∧
      t.at? p = some part ∧ ctx.Makes calls s part w := by
  obtain ⟨l, v⟩ := found
  obtain ⟨part, hpart, hvalue⟩ := Option.map_eq_some_iff.mp hoccurs.value
  rw [applyAt, Eval.run_bind_of_ok (Eval.run_store s), hnew, if_neg Bool.false_ne_true] at hrun
  obtain ⟨w, s₁, htransform, hrun⟩ := Eval.bind_eq_ok hrun
  have hgrows : s.GrowsTo s₁ := by
    have hyields := (transform_grows hreg v calls s).grows
    rwa [htransform] at hyields
  have hretains := hgrows.retains
  have hturn₁ := Turns.of_grows hgrows hlies
  obtain ⟨u, s₂, hupdate, hturn₂, hput⟩ : ∃ u s₂, ctx.update (l.path s₁) t.value (.value w) s₁ =
      (.ok u.value, s₂) ∧ Turns s₁ [t] s₂ [u] ∧ Put w p t u :=
    update_way (hoccurs.way.retains hretains) w (.refl s₁) hturn₁.lies (hkeyed.retains hretains)
  rw [Eval.run_bind_of_ok (Eval.run_store s₁), Eval.run_bind_of_ok hupdate] at hrun
  cases hrun
  exact ⟨u, w, part, rfl, hturn₁.trans hturn₂, hput, hpart, s, s₁, .refl s, hlies.at? hpart,
    hvalue ▸ htransform⟩

theorem forall₂_imp_of_mem {α β : Type} {R S : α → β → Prop} {as : List α} {bs : List β}
    (h : List.Forall₂ R as bs) (himp : ∀ a b, a ∈ as → b ∈ bs → R a b → S a b) :
    List.Forall₂ S as bs := by
  refine List.forall₂_iff_zip.mpr ⟨h.length_eq, fun {a b} hmem => ?_⟩
  obtain ⟨ha, hb⟩ := List.of_mem_zip hmem
  exact himp a b ha hb (List.forall₂_zip h hmem)

/-- One place after the other is written, each with what the transforms make of what was read. -/
theorem applyAll_writes (hreg : ctx.registry.Grows) : ∀ {found : List Found}
    {places : List (List Nat)} {t : Tree} {s : Store} {seen : List Location}
    {a : Value × List Location}, Lies s [t] → t.Keyed s → List.Forall₂ (t.Occurs s) found places →
    places.Pairwise Beside →
    (found.Pairwise fun x y => ∀ u, s.Retains u → Location.same u x.1 y.1 = false) →
    (∀ l ∈ seen, ∀ x ∈ found, ∀ u, s.Retains u → Location.same u l x.1 = false) →
    found.foldlM (ctx.applyAt calls) (t.value, seen) s = (.ok a, s') →
    ∃ u ws, a.1 = u.value ∧ Turns s [t] s' [u] ∧ Puts (places.zip ws) t u ∧
      List.Forall₂ (fun p w => ∃ part, t.at? p = some part ∧ ctx.Makes calls s part w) places ws := by
  intro found
  -- The tree changes with each write; the places that are left are beside those that are written.
  induction found with
  | nil =>
    intro places t s seen a hlies _ hoccurs _ _ _ hrun
    cases hoccurs
    cases hrun
    exact ⟨t, [], rfl, .refl hlies, .nil, .nil⟩
  | cons x found ih =>
    intro places t s seen a hlies hkeyed hoccurs hbeside hdistinct hseen hrun
    cases hoccurs with
    | @cons _ p _ places hhere hrest =>
      obtain ⟨hbesides, hbeside⟩ := List.pairwise_cons.mp hbeside
      obtain ⟨hdistincts, hdistinct⟩ := List.pairwise_cons.mp hdistinct
      have hnew : seen.any (Location.same s · x.1) = false := by
        rw [List.any_eq_false]
        intro l hl
        rw [hseen l hl x (List.mem_cons_self ..) s (.refl s)]
        exact Bool.false_ne_true
      rw [List.foldlM_cons] at hrun
      obtain ⟨b, s₁, hstep, hrun⟩ := Eval.bind_eq_ok hrun
      obtain ⟨u, w, part, rfl, hturn, hput, hpart, hmakes⟩ :=
        applyAt_writes hreg hlies hkeyed hhere hnew hstep
      have hretains := hturn.retains
      have hoccurs' : List.Forall₂ (u.Occurs s₁) found places :=
        forall₂_imp_of_mem hrest fun y q _ hq hy => (hy.retains hretains).put hput (hbesides q hq)
      obtain ⟨u', ws, ha, hturn', hputs, hmade⟩ := ih hturn.lies (hput.keyed (hkeyed.retains hretains))
        hoccurs' hbeside (hdistinct.imp fun hxy v hv => hxy v (hretains.trans hv)) (by
          intro l hl y hy v hv
          rcases List.mem_append.mp hl with hl | hl
          · exact hseen l hl y (List.mem_cons_of_mem _ hy) v (hretains.trans hv)
          · rw [List.mem_singleton.mp hl]
            exact hdistincts y hy v (hretains.trans hv)) hrun
      refine ⟨u', w :: ws, ha, hturn.trans hturn', .cons hput hputs,
        .cons ⟨part, hpart, hmakes⟩ ?_⟩
      -- What is at the other places has not been written yet.
      refine forall₂_imp_of_mem hmade fun q w hq _ ⟨part, hpart, v, v', hv, hlies, hrun⟩ => ?_
      rw [hput.at?_of_beside (hbesides q hq)] at hpart
      exact ⟨part, hpart, v, v', hretains.trans hv, hlies, hrun⟩

/-- **Applying transforms writes back where it read.**  The result is the tree with each of the places
that are reported holding what the transforms make of the part that was read there; other places,
and all other containers, are as they were. -/
theorem applyPath_writes_back (hreg : ctx.registry.Grows) {path : String} {e : PathExpression}
    (hparse : PathExpression.parse path = .ok e) (hlies : Lies s [t]) (hkeyed : t.Keyed s)
    {found : List Found} {s₁ : Store} (hfind : ctx.find e.segments t.value s = (.ok found, s₁))
    {places : List (List Nat)} (hoccurs : List.Forall₂ (t.Occurs s₁) found places)
    (hbeside : places.Pairwise Beside)
    (hdistinct : found.Pairwise fun x y => ∀ u, s₁.Retains u → Location.same u x.1 y.1 = false)
    (hrun : ctx.applyPath (.value t.value) path s = (.ok v, s')) :
    ∃ u ws, v = u.value ∧ Turns s [t] s' [u] ∧ Puts (places.zip ws) t u ∧
      List.Forall₂ (fun p w => u.at? p = some (leaf w) ∧
        ∃ part, t.at? p = some part ∧ ctx.Makes e.transforms s part w) places ws := by
  have hgrows : s.GrowsTo s₁ := by
    have hyields := (find_grows hreg e.segments t.value s).grows
    rwa [hfind] at hyields
  have hretains := hgrows.retains
  have hturn := Turns.of_grows hgrows hlies
  rw [applyPath_eq hparse, Eval.run_bind_of_ok hfind] at hrun
  obtain ⟨a, s₂, hall, hrun⟩ := Eval.bind_eq_ok hrun
  cases hrun
  obtain ⟨u, ws, ha, hturn', hputs, hmade⟩ := applyAll_writes hreg hturn.lies
    (hkeyed.retains hretains) hoccurs hbeside hdistinct (fun l hl => by cases hl) hall
  obtain ⟨hlength, hmakes⟩ := List.forall₂_iff_zip.mp hmade
  have hbesides : (places.zip ws).Pairwise fun a b => Beside a.1 b.1 := by
    rwa [← List.map_fst_zip (Nat.le_of_eq hlength), List.pairwise_map] at hbeside
  refine ⟨u, ws, ha, hturn.trans hturn', hputs, ?_⟩
  refine List.forall₂_iff_zip.mpr ⟨hlength, fun {p w} hmem => ?_⟩
  obtain ⟨part, hpart, v, v', hv, hlies, hrun⟩ := hmakes hmem
  exact ⟨hputs.at?_of_mem hbesides hmem, part, hpart, v, v', hretains.trans hv, hlies, hrun⟩

/-- **So it does along a descent into a tree**, if the descent reports nothing inside of a part that it
reports. -/
theorem applyPath_descent (hreg : ctx.registry.Grows) {path : String} {e : PathExpression}
    (hparse : PathExpression.parse path = .ok e) {r : Recursion} {guard : Option ValueTest}
    (hsegments : e.segments = [r.guarded guard]) {pass keeps : Value → Bool}
    (htests : ctx.TestsValues r pass) (hguard : ctx.GuardSays guard keeps) (hplain : t.Plain) (hkeyed : t.Keyed s) (hlies : Lies s [t])
    (hbeside : (t.places.filter (r.hits (fun x => pass x && keeps x) 0 t)).Pairwise Beside)
    (hrun : ctx.applyPath (.value t.value) path s = (.ok v, s')) :
    ∃ places : List (List Nat), places.Sublist t.places ∧
      (∃ s₁, ctx.find e.segments t.value s = (.ok (places.map t.found), s₁)) ∧
      ∃ u ws, v = u.value ∧ Turns s [t] s' [u] ∧ Puts (places.zip ws) t u ∧
        List.Forall₂ (fun p w => u.at? p = some (leaf w) ∧
          ∃ part, t.at? p = some part ∧ ctx.Makes e.transforms s part w) places ws := by
  obtain ⟨s₁, hfind, hgrows⟩ :=
    find_recursion htests hguard hplain hlies
  generalize hplaces : t.places.filter (r.hits (fun x => pass x && keeps x) 0 t) = places at *
  have hsub : places.Sublist t.places := hplaces ▸ List.filter_sublist
  have hretains := hgrows.retains
  have hlies₁ : Lies s₁ [t] := (Turns.of_grows hgrows hlies).lies
  have hoccurs : List.Forall₂ (t.Occurs s₁) (places.map t.found) places := by
    rw [List.forall₂_map_left_iff, List.forall₂_same]
    exact fun p hp => .of_mem_places hlies₁ (hkeyed.retains hretains) (hsub.subset hp)
  -- places none of which is inside of another one are different, so no write is repeated
  have hdistinct : (places.map t.found).Pairwise
      fun x y => ∀ u, s₁.Retains u → Location.same u x.1 y.1 = false := by
    rw [List.pairwise_map]
    refine hbeside.imp_of_mem fun {p q} hp hq hpq u hu => ?_
    obtain ⟨a, ha⟩ := exists_part_of_mem_places (hsub.subset hp)
    obtain ⟨b, hb⟩ := exists_part_of_mem_places (hsub.subset hq)
    have hne : p ≠ q := by
      rintro rfl
      exact hpq.1 (List.prefix_refl p)
    exact location_same hlies hkeyed (hretains.trans hu) ha hb hne
  rw [← hsegments] at hfind
  exact ⟨places, hsub, ⟨s₁, hfind⟩,
    applyPath_writes_back hreg hparse hlies hkeyed hfind hoccurs hbeside hdistinct hrun⟩

/-- A location that goes through a slice filter leads elsewhere when it is taken again: the second
dict is read, and the first one is written. -/
theorem applyAt_filtered :
    let ctx : Context := ⟨.builtin, false⟩
    let s : Store := ⟨#[.list [.ref ⟨1⟩, .ref ⟨2⟩],
      .dict [(.str "x", .int 2), (.str "y", .str "p")],
      .dict [(.str "x", .int 1), (.str "y", .str "q")]]⟩
    let ones : Segment :=
      .sliceFilter (.compare [.literal .key (.str "x")] ⟨[], .eq, .literal (.int 1)⟩) false
    let l : Location := [.slice .full, .slot (.int 0), .key (.str "y")]
    ctx.find [ones, .access .slot .wildcard none false, .literal .key (.str "y")] (.ref ⟨0⟩) s =
        (.ok [(l, .str "q")], s.push (.list [.ref ⟨2⟩])) ∧
      ∃ u, ctx.applyAt [⟨"uppercase", [], [], false⟩] (.ref ⟨0⟩, []) (l, .str "q")
          (s.push (.list [.ref ⟨2⟩])) = (.ok (.ref ⟨0⟩, [l]), u) ∧
        u.get? ⟨1⟩ = some (.dict [(.str "x", .int 2), (.str "y", .str "Q")]) ∧
        u.get? ⟨2⟩ = some (.dict [(.str "x", .int 1), (.str "y", .str "q")]) := by
  intro ctx s ones l
  refine ⟨by cbv, (ctx.applyAt [⟨"uppercase", [], [], false⟩] (.ref ⟨0⟩, []) (l, .str "q")
    (s.push (.list [.ref ⟨2⟩]))).2, ?_, ?_, ?_⟩
  · cbv
  · cbv
  · cbv

end Context

end DottedPath
