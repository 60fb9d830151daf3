import DottedPath.Evaluate.Filter
import DottedPath.Proofs.Evaluate.Run
import DottedPath.Proofs.Value.LiteralValue

/-!
# Evaluations that only add containers

Reading never edits a container: what it creates are the values of literals and the sequences of
slices.  `Yields` says this of an evaluation together with what its answer is like; it goes through
an evaluation in the order of its steps (`Yields.bind`, `Yields.foldlM`).  Transforms are not known;
that they only add containers is asked of the registry.
-/

namespace DottedPath

variable {α β : Type}

/-! ### Computations that cannot fail -/

/-- The computation only adds containers. -/
def StoreM.Grows (x : StoreM α) : Prop :=
  ∀ s : Store, s.GrowsTo (x s).2

namespace StoreM

theorem Grows.pure (a : α) : Grows (pure a : StoreM α) := fun s => .refl s

theorem Grows.bind {x : StoreM α} {f : α → StoreM β} (hx : Grows x) (hf : ∀ a, Grows (f a)) :
    Grows (x >>= f) := fun s => (hx s).trans (hf _ _)

theorem Grows.get : Grows (get : StoreM Store) := fun s => .refl s

theorem Grows.alloc (c : Container) : Grows (alloc c) := fun s => .push s c

theorem Grows.mapM {f : α → StoreM β} (hf : ∀ a, Grows (f a)) (xs : List α) :
    Grows (xs.mapM f) := by
  induction xs with
  | nil => exact Grows.pure _
  | cons x xs ih =>
    rw [List.mapM_cons]
    exact (hf x).bind fun _ => ih.bind fun _ => .pure _

end StoreM

/-! ### Computations that may fail -/

/-- The evaluation only adds containers to the store, and its answer is as a relation with the store
then says. -/
structure Eval.Yields (x : Eval α) (s : Store) (Q : α → Store → Prop) : Prop where
  grows : s.GrowsTo (x s).2
  answer : ∀ a, (x s).1 = .ok a → Q a (x s).2

/-- The evaluation only adds containers. -/
def Eval.Grows (x : Eval α) : Prop :=
  ∀ s, x.Yields s fun _ _ => True

namespace Eval

variable {s : Store} {Q : α → Store → Prop} {R : β → Store → Prop}

namespace Yields

theorem pure {a : α} (h : Q a s) : Yields (pure a) s Q :=
  ⟨.refl s, by rintro b ⟨⟩; exact h⟩

theorem throw (e : Error) : Yields (throw e) s Q :=
  ⟨.refl s, by rintro b ⟨⟩⟩

theorem store {Q : Store → Store → Prop} (h : Q s s) : Yields store s Q :=
  ⟨.refl s, by rintro b ⟨⟩; exact h⟩

theorem lift {x : StoreM α} (hx : s.GrowsTo (x s).2) (h : Q (x s).1 (x s).2) :
    Yields (liftM x) s Q :=
  ⟨hx, by rintro b ⟨⟩; exact h⟩

/-- What an evaluation yields in its first step is what the second one starts from. -/
theorem bind {x : Eval α} {f : α → Eval β} (hx : Yields x s Q)
    (hf : ∀ a t, s.GrowsTo t → Q a t → Yields (f a) t R) : Yields (x >>= f) s R := by
  obtain ⟨r, t, hrun⟩ : ∃ r t, x s = (r, t) := ⟨_, _, rfl⟩
  have hgrows := hx.grows
  rw [hrun] at hgrows
  cases r with
  | ok a =>
    have hQ := hx.answer a (by rw [hrun])
    rw [hrun] at hQ
    have hrest := hf a t hgrows hQ
    have hbind := run_bind_of_ok (f := f) hrun
    exact ⟨by rw [hbind]; exact hgrows.trans hrest.grows, by rw [hbind]; exact hrest.answer⟩
  | error e =>
    have hbind := run_bind_of_error (f := f) hrun
    exact ⟨by rw [hbind]; exact hgrows, by rw [hbind]; rintro b ⟨⟩⟩

theorem mono {P : α → Store → Prop} {x : Eval α} (hx : Yields x s Q)
    (h : ∀ a t, s.GrowsTo t → Q a t → P a t) : Yields x s P :=
  ⟨hx.grows, fun a ha => h a _ hx.grows (hx.answer a ha)⟩

theorem map {x : Eval α} {f : α → β} (hx : Yields x s Q)
    (h : ∀ a t, s.GrowsTo t → Q a t → R (f a) t) : Yields (f <$> x) s R := by
  rw [map_eq_pure_bind]
  exact hx.bind fun a t hst hQ => .pure (h a t hst hQ)

/-- What each step of a loop preserves the whole loop does. -/
theorem foldlM {f : β → α → Eval β} : ∀ (xs : List α) {b : β} {s : Store}, R b s →
    (∀ b x t, x ∈ xs → s.GrowsTo t → R b t → Yields (f b x) t R) → Yields (xs.foldlM f b) s R
  | [], b, s, hinit, _ => .pure hinit
  | x :: xs, b, s, hinit, hstep => by
    rw [List.foldlM_cons]
    refine (hstep b x s (List.mem_cons_self ..) (.refl s) hinit).bind fun b' t hst hb' => ?_
    exact foldlM xs hb' fun b x u hx htu hb =>
      hstep b x u (List.mem_cons_of_mem _ hx) (hst.trans htu) hb

/-- What is kept by a filter is part of what was there. -/
theorem filterM {p : α → Eval Bool} (hp : ∀ a, Grows (p a)) : ∀ (xs : List α) (s : Store),
    Yields (xs.filterM p) s fun ys _ => ys.Sublist xs
  | [], s => .pure (List.Sublist.refl [])
  | x :: xs, s => by
    rw [filterM_cons]
    refine (hp x s).bind fun keep t _ _ => (filterM hp xs t).bind fun ys u _ hys => .pure ?_
    cases keep with
    | false => exact List.Sublist.cons x hys
    | true => exact List.Sublist.cons_cons x hys

/-- What each step of a list yields holds of all answers, if it goes on to hold while the store
grows. -/
theorem mapM {f : α → Eval β} (hR : ∀ b t u, t.GrowsTo u → R b t → R b u) :
    ∀ (xs : List α) {s : Store}, (∀ x ∈ xs, ∀ t, s.GrowsTo t → Yields (f x) t R) →
    Yields (xs.mapM f) s fun ys t => ∀ y ∈ ys, R y t
  | [], s, _ => .pure nofun
  | x :: xs, s, hxs => by
    obtain ⟨hx, hxs⟩ := List.forall_mem_cons.mp hxs
    rw [List.mapM_cons]
    refine (hx s (.refl s)).bind fun y t hst hy => ?_
    refine (mapM hR xs fun x hx u htu => hxs x hx u (hst.trans htu)).bind
      fun ys u htu hys => .pure ?_
    exact List.forall_mem_cons.mpr ⟨hR y t u htu hy, hys⟩

end Yields

namespace Grows

theorem pure (a : α) : Grows (pure a : Eval α) := fun _ => .pure trivial

theorem throw (e : Error) : Grows (throw e : Eval α) := fun _ => .throw e

theorem store : Grows store := fun _ => .store trivial

theorem lift {x : StoreM α} (hx : x.Grows) : Grows (liftM x : Eval α) :=
  fun s => .lift (hx s) trivial

theorem bind {x : Eval α} {f : α → Eval β} (hx : Grows x) (hf : ∀ a, Grows (f a)) :
    Grows (x >>= f) := fun s => (hx s).bind fun a t _ _ => hf a t

theorem mapM {f : α → Eval β} (hf : ∀ a, Grows (f a)) (xs : List α) : Grows (xs.mapM f) := by
  induction xs with
  | nil => exact Grows.pure _
  | cons x xs ih =>
    rw [List.mapM_cons]
    exact (hf x).bind fun _ => ih.bind fun _ => .pure _

theorem anyM {p : α → Eval Bool} (hp : ∀ a, Grows (p a)) : ∀ xs : List α, Grows (xs.anyM p)
  | [] => .pure false
  | x :: xs => by
    rw [List.anyM]
    refine (hp x).bind fun hit => ?_
    cases hit with
    | true => exact .pure true
    | false => exact Grows.anyM hp xs

theorem foldlM {f : β → α → Eval β} (hf : ∀ b a, Grows (f b a)) (xs : List α) (b : β) :
    Grows (xs.foldlM f b) :=
  fun _ => Yields.foldlM xs trivial fun b x t _ _ _ => hf b x t

end Grows

end Eval

/-! ### Reading values -/

theorem withElements_grows (like : Value) (items : List Value) :
    StoreM.Grows (withElements like items) := by
  intro s
  unfold withElements
  split
  · exact .refl s
  · exact .refl s
  · exact .push s _
  · exact .push s _
  · exact .push s _
  · exact .push s _

theorem sliceOf_grows (range : SliceRange) (v : Value) : StoreM.Grows (sliceOf range v) :=
  StoreM.Grows.get.bind fun _ => withElements_grows _ _

theorem Literal.toValue_grows (l : Literal) : StoreM.Grows l.toValue :=
  fun s => (l.toValue_shows s).1

theorem Literal.itemValues_grows (ls : List Literal) : StoreM.Grows (itemValues ls) :=
  fun s => (itemValues_show ls s).1

theorem fieldValues_grows : ∀ (segs : List Segment) (v : Value),
    StoreM.Grows (fieldValues segs v) := by
  intro segs
  induction segs with
  | nil =>
    intro v
    rw [fieldValues]
    exact .pure _
  | cons seg rest ih =>
    intro v
    have hslice (range : SliceRange) : StoreM.Grows (fieldValues (.slice range :: rest) v) := by
      rw [fieldValues]
      refine StoreM.Grows.get.bind fun s => ?_
      split
      · exact (sliceOf_grows range v).bind fun w => ih w
      · exact .pure _
    have hslot (p : KeyPattern) (f : Option Filter) (first : Bool) :
        StoreM.Grows (fieldValues (.access .slot p f first :: rest) v) := by
      rw [fieldValues]
      exact StoreM.Grows.get.bind fun s => (StoreM.Grows.mapM ih _).bind fun _ => .pure _
    have hkey (p : KeyPattern) (f : Option Filter) (first : Bool) :
        StoreM.Grows (fieldValues (.access .key p f first :: rest) v) := by
      rw [fieldValues]
      refine StoreM.Grows.get.bind fun s => ?_
      dsimp only
      split
      · exact .pure _
      · split
        · exact .pure _
        · exact ih _
    cases seg with
    | slice range => exact hslice range
    | access accessor p f first =>
      cases accessor with
      | key => exact hkey p f first
      | slot => exact hslot p f first
      | attr => exact .pure _
    | _ => exact .pure _

/-! ### Conditions -/

/-- The transforms only add containers. -/
def Registry.Grows (r : Registry) : Prop :=
  ∀ name f, r.get? name = some f → ∀ v args named, StoreM.Grows (f v args named).run

namespace Context

open Eval (Grows)

variable {ctx : Context}

theorem applyCall_grows (hreg : ctx.registry.Grows) (v : Value) (call : TransformCall) :
    Grows (ctx.applyCall v call) := by
  rw [applyCall]
  cases hf : ctx.registry.get? call.name with
  | none => exact .throw _
  | some f =>
    refine (Grows.lift (Literal.itemValues_grows _)).bind fun args => ?_
    refine (Grows.lift (Literal.itemValues_grows _)).bind fun named => ?_
    refine (Grows.lift (hreg _ f hf _ _ _)).bind fun answer => ?_
    cases answer with
    | ok next => exact .pure _
    | error message =>
      dsimp only
      split
      · exact .throw _
      · exact .pure _

theorem transform_grows (hreg : ctx.registry.Grows) (v : Value) (calls : List TransformCall) :
    Grows (ctx.transform v calls) :=
  .foldlM (applyCall_grows hreg) calls v

theorem testHolds_grows (hreg : ctx.registry.Grows) (test : ValueTest) (v : Value) :
    Grows (ctx.testHolds test v) :=
  (transform_grows hreg v _).bind fun _ => Grows.store.bind fun _ => .pure _

theorem guardHolds_grows (hreg : ctx.registry.Grows) (test : ValueTest) (v : Value) :
    Grows (ctx.guardHolds test v) :=
  (testHolds_grows hreg test v).bind fun _ => .pure _

theorem anyHolds_grows (hreg : ctx.registry.Grows) (test : ValueTest) (vs : List Value) :
    Grows (ctx.anyHolds test vs) := by
  induction vs with
  | nil => exact .pure _
  | cons v vs ih =>
    rw [anyHolds]
    refine (testHolds_grows hreg test v).bind fun hit => ?_
    cases hit with
    | true => exact .pure _
    | false => exact ih

mutual

theorem filterHolds_grows (hreg : ctx.registry.Grows) : ∀ (f : Filter) (v : Value),
    Grows (ctx.filterHolds f v)
  | .compare key test, v => by
    rw [filterHolds]
    have hany (values : List Value) :
        Grows (do pure ((← ctx.anyHolds test values) != (test.comparison == .ne)) : Eval Bool) :=
      (anyHolds_grows hreg test values).bind fun _ => .pure _
    refine Grows.store.bind fun s => ?_
    dsimp only
    split
    · exact (Grows.lift (fieldValues_grows key v)).bind hany
    · exact (Grows.pure _).bind hany
  | .and items, v => by
    rw [filterHolds]
    exact allHold_grows hreg items v
  | .or items, v => by
    rw [filterHolds]
    exact someHolds_grows hreg items v
  | .not inner, v => by
    rw [filterHolds]
    exact (filterHolds_grows hreg inner v).bind fun _ => .pure _

theorem allHold_grows (hreg : ctx.registry.Grows) : ∀ (fs : List Filter) (v : Value),
    Grows (ctx.allHold fs v)
  | [], v => by
    rw [allHold]
    exact .pure _
  | f :: fs, v => by
    rw [allHold]
    refine (filterHolds_grows hreg f v).bind fun hit => ?_
    cases hit with
    | true => exact allHold_grows hreg fs v
    | false => exact .pure _

theorem someHolds_grows (hreg : ctx.registry.Grows) : ∀ (fs : List Filter) (v : Value),
    Grows (ctx.someHolds fs v)
  | [], v => by
    rw [someHolds]
    exact .pure _
  | f :: fs, v => by
    rw [someHolds]
    refine (filterHolds_grows hreg f v).bind fun hit => ?_
    cases hit with
    | true => exact .pure _
    | false => exact someHolds_grows hreg fs v

end

theorem passes_grows (hreg : ctx.registry.Grows) (filter : Option Filter) (v : Value) :
    Grows (ctx.passes filter v) := by
  cases filter with
  | none => exact .pure _
  | some f => exact filterHolds_grows hreg f v

end Context

end DottedPath
