import DottedPath.Proofs.Evaluate.Fence

/-!
# Tests outside of a fence

Literals, slices and the values at the path of a comparison come from outside of a fence if what
they are read of does, and deciding a filter or a guard spares what is kept.  Transforms are not
known; that they keep to what is outside is asked of the registry (`Registry.Spares`).
-/

namespace DottedPath

open Fence (free_scalar)

variable {F : Fence}

namespace Fence

/-- The evaluation spares what is kept. -/
abbrev Runs {α : Type} (F : Fence) (x : Eval α) : Prop := F.Spares (fun _ => True) x

end Fence

/-! ### Literals and fields -/

mutual

theorem Literal.toValue_spares : ∀ l : Literal, F.SparesM F.Free l.toValue
  | .scalar x => by
    rw [toValue]
    exact .pure (free_scalar x)
  | .tuple items => by
    rw [toValue]
    exact (itemValues_spares items).bind fun vs hvs => Fence.alloc_spares (.tuple vs) hvs

theorem Literal.itemValues_spares : ∀ ls : List Literal,
    F.SparesM (fun vs => ∀ v ∈ vs, F.Free v) (Literal.itemValues ls)
  | [] => by
    rw [Literal.itemValues]
    exact .pure (List.forall_mem_nil _)
  | l :: ls => by
    rw [Literal.itemValues]
    exact (Literal.toValue_spares l).bind fun v hv => (Literal.itemValues_spares ls).bind
      fun vs hvs => .pure (List.forall_mem_cons.mpr ⟨hv, hvs⟩)

end

theorem sliceOf_spares (range : SliceRange) {v : Value} (hv : F.Free v) :
    F.SparesM F.Free (sliceOf range v) := by
  refine Fence.SparesM.get.bind fun t ht => Fence.withElements_spares v fun x hx => ?_
  obtain ⟨i, -, hi⟩ := List.mem_filterMap.mp hx
  split at hi
  · exact ht.elements hv x (List.mem_of_getElem? hi)
  · cases hi

namespace Fence.Intact

variable {t : Store} {v : Value}

theorem selectedValues (ht : F.Intact t) (hv : F.Free v) (p : KeyPattern) :
    ∀ x ∈ t.selectedValues p v, F.Free x := by
  intro x hx
  unfold Store.selectedValues at hx
  split at hx
  · rename_i l
    have ht' := (l.toValue_spares t ht).1
    exact ht'.dictGet? hv (Option.mem_toList.mp hx)
  · obtain ⟨e, he, rfl⟩ := List.mem_map.mp hx
    exact (ht.entries hv e (List.mem_filter.mp he).1).2

theorem selectedElements (ht : F.Intact t) (hv : F.Free v) (p : KeyPattern) :
    ∀ x ∈ t.selectedElements p v, F.Free x := by
  intro x hx
  unfold Store.selectedElements at hx
  split at hx
  · rename_i l
    have hx := Option.mem_toList.mp hx
    cases l with
    | scalar a =>
      cases a with
      | int i => exact ht.elementAt? hv hx
      | _ => cases hx
    | tuple ls => cases hx
  · obtain ⟨e, he, rfl⟩ := List.mem_map.mp hx
    exact (ht.numbered hv e (List.mem_filter.mp he).1).2

end Fence.Intact

theorem fieldValues_spares : ∀ (segs : List Segment) {v : Value}, F.Free v →
    F.SparesM (fun vs => ∀ x ∈ vs, F.Free x) (fieldValues segs v) := by
  intro segs
  induction segs with
  | nil =>
    intro v hv
    rw [fieldValues]
    exact .pure fun x hx => by rwa [List.mem_singleton.mp hx]
  | cons seg rest ih =>
    intro v hv
    have hnone : F.SparesM (fun vs => ∀ x ∈ vs, F.Free x) (pure [] : StoreM (List Value)) :=
      .pure (List.forall_mem_nil _)
    have hslice (range : SliceRange) :
        F.SparesM (fun vs => ∀ x ∈ vs, F.Free x) (fieldValues (.slice range :: rest) v) := by
      rw [fieldValues]
      refine Fence.SparesM.get.bind fun t ht => ?_
      split
      · exact (sliceOf_spares range hv).bind fun w hw => ih hw
      · exact hnone
    have hslot (p : KeyPattern) (f : Option Filter) (first : Bool) :
        F.SparesM (fun vs => ∀ x ∈ vs, F.Free x)
          (fieldValues (.access .slot p f first :: rest) v) := by
      rw [fieldValues]
      refine Fence.SparesM.get.bind fun t ht => ?_
      have hitems : ∀ x ∈ (if t.isKeyed v then t.selectedValues p v
          else if t.isIndexed v then t.selectedElements p v else []), F.Free x := by
        split
        · exact ht.selectedValues hv p
        · split
          · exact ht.selectedElements hv p
          · exact List.forall_mem_nil _
      refine (Fence.SparesM.mapM fun x hx => ih (hitems x hx)).bind fun values hvalues => .pure ?_
      intro x hx
      obtain ⟨xs, hxs, hx⟩ := List.mem_flatten.mp hx
      exact hvalues xs hxs x hx
    have hkey (p : KeyPattern) (f : Option Filter) (first : Bool) :
        F.SparesM (fun vs => ∀ x ∈ vs, F.Free x)
          (fieldValues (.access .key p f first :: rest) v) := by
      rw [fieldValues]
      refine Fence.SparesM.get.bind fun t ht => ?_
      have hfound : ∀ x ∈ (if t.isKeyed v then t.selectedValues p v else []), F.Free x := by
        split
        · exact ht.selectedValues hv p
        · exact List.forall_mem_nil _
      dsimp only
      split
      · exact .pure hfound
      · split
        · exact hnone
        · rename_i x xs heq
          exact ih (hfound x (by rw [heq]; exact List.mem_cons_self ..))
    cases seg with
    | slice range => exact hslice range
    | access accessor p f first =>
      cases accessor with
      | key => exact hkey p f first
      | slot => exact hslot p f first
      | attr => exact hnone
    | _ => exact hnone

/-! ### Conditions -/

/-- A transform of a value and arguments from outside keeps to what is outside. -/
def Transform.Spares (F : Fence) (f : Transform) : Prop :=
  ∀ v args named, F.Free v → (∀ a ∈ args, F.Free a) → (∀ a ∈ named, F.Free a.2) →
    Fence.Spares F F.Free (f v args named)

/-- The transforms keep to what is outside of the fence. -/
def Registry.Spares (F : Fence) (r : Registry) : Prop :=
  ∀ name f, r.get? name = some f → Transform.Spares F f

theorem attrsOf_forall {P : Value → Prop} {attrs : List (String × Value)}
    (h : ∀ a ∈ attrs, P a.2) : ∀ a ∈ attrsOf attrs, P a.2 := by
  suffices hfold : ∀ attrs as : List (String × Value), (∀ a ∈ attrs, P a.2) → (∀ a ∈ as, P a.2) →
      ∀ a ∈ attrs.foldl (fun as a => insertAttr as a.1 a.2) as, P a.2 from
    hfold attrs [] h (List.forall_mem_nil _)
  intro attrs
  induction attrs with
  | nil => exact fun as _ has => has
  | cons b bs ih =>
    intro as hattrs has
    obtain ⟨hb, hbs⟩ := List.forall_mem_cons.mp hattrs
    exact ih _ hbs (forall_insertAttr has hb)

namespace Context

open Fence (Spares)

variable {ctx : Context} {v : Value}

theorem applyCall_spares (hreg : ctx.registry.Spares F) (hv : F.Free v) (call : TransformCall) :
    F.Spares F.Free (ctx.applyCall v call) := by
  rw [applyCall]
  cases hf : ctx.registry.get? call.name with
  | none => exact .throw _
  | some f =>
    refine (Spares.lift (Literal.itemValues_spares _)).bind fun args hargs => ?_
    refine (Spares.lift (Literal.itemValues_spares _)).bind fun named hnamed => ?_
    have hnamed : ∀ a ∈ attrsOf ((call.named.map Prod.fst).zip named), F.Free a.2 :=
      attrsOf_forall fun a ha => hnamed a.2 (List.of_mem_zip ha).2
    have hrun : F.SparesM (fun answer => ∀ w, answer = .ok w → F.Free w)
        (f v args (attrsOf ((call.named.map Prod.fst).zip named))).run :=
      hreg call.name f hf v args _ hv hargs hnamed
    refine (Spares.lift hrun).bind fun answer hanswer => ?_
    cases answer with
    | ok next => exact .pure (hanswer next rfl)
    | error message =>
      dsimp only
      split
      · exact .throw _
      · exact .pure hv

theorem transform_spares (hreg : ctx.registry.Spares F) (hv : F.Free v)
    (calls : List TransformCall) : F.Spares F.Free (ctx.transform v calls) :=
  .foldlM hv fun _ call _ hw => applyCall_spares hreg hw call

theorem testHolds_spares (hreg : ctx.registry.Spares F) (test : ValueTest) (hv : F.Free v) :
    F.Runs (ctx.testHolds test v) :=
  (transform_spares hreg hv _).bind fun _ _ => Spares.store.bind fun _ _ => .pure trivial

theorem guardHolds_spares (hreg : ctx.registry.Spares F) (test : ValueTest) (hv : F.Free v) :
    F.Runs (ctx.guardHolds test v) :=
  (testHolds_spares hreg test hv).bind fun _ _ => .pure trivial

theorem anyHolds_spares (hreg : ctx.registry.Spares F) (test : ValueTest) {vs : List Value}
    (hvs : ∀ v ∈ vs, F.Free v) : F.Runs (ctx.anyHolds test vs) := by
  induction vs with
  | nil => exact .pure trivial
  | cons v vs ih =>
    obtain ⟨hv, hvs⟩ := List.forall_mem_cons.mp hvs
    rw [anyHolds]
    refine (testHolds_spares hreg test hv).bind fun hit _ => ?_
    cases hit with
    | true => exact .pure trivial
    | false => exact ih hvs

mutual

theorem filterHolds_spares (hreg : ctx.registry.Spares F) (hv : F.Free v) : ∀ f : Filter,
    F.Runs (ctx.filterHolds f v)
  | .compare key test => by
    rw [filterHolds]
    have hany (values : List Value) (hvalues : ∀ x ∈ values, F.Free x) :
        F.Runs (do pure ((← ctx.anyHolds test values) != (test.comparison == .ne)) : Eval Bool) :=
      (anyHolds_spares hreg test hvalues).bind fun _ _ => .pure trivial
    refine Spares.store.bind fun s _ => ?_
    dsimp only
    split
    · exact (Spares.lift (fieldValues_spares key hv)).bind hany
    · exact (Spares.pure (List.forall_mem_nil _)).bind hany
  | .and items => by
    rw [filterHolds]
    exact allHold_spares hreg hv items
  | .or items => by
    rw [filterHolds]
    exact someHolds_spares hreg hv items
  | .not inner => by
    rw [filterHolds]
    exact (filterHolds_spares hreg hv inner).bind fun _ _ => .pure trivial

theorem allHold_spares (hreg : ctx.registry.Spares F) (hv : F.Free v) : ∀ fs : List Filter,
    F.Runs (ctx.allHold fs v)
  | [] => by
    rw [allHold]
    exact .pure trivial
  | f :: fs => by
    rw [allHold]
    refine (filterHolds_spares hreg hv f).bind fun hit _ => ?_
    cases hit with
    | true => exact allHold_spares hreg hv fs
    | false => exact .pure trivial

theorem someHolds_spares (hreg : ctx.registry.Spares F) (hv : F.Free v) : ∀ fs : List Filter,
    F.Runs (ctx.someHolds fs v)
  | [] => by
    rw [someHolds]
    exact .pure trivial
  | f :: fs => by
    rw [someHolds]
    refine (filterHolds_spares hreg hv f).bind fun hit _ => ?_
    cases hit with
    | true => exact .pure trivial
    | false => exact someHolds_spares hreg hv fs

end

theorem passes_spares (hreg : ctx.registry.Spares F) (filter : Option Filter) (hv : F.Free v) :
    F.Runs (ctx.passes filter v) := by
  cases filter with
  | none => exact .pure trivial
  | some f => exact filterHolds_spares hreg hv f

end Context

end DottedPath
