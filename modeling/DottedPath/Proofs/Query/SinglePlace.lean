import DottedPath.Proofs.Evaluate.Items
import DottedPath.Proofs.Query.Expansion
import Mathlib

/-!
# Paths that name one place

A path without wildcards, regular expressions, descents and groups is no pattern, and it names at
most one place, whatever filters, guards, restrictions and slices are in it and whatever value it is
read on.  Each of its segments selects at most one part of a value (`Context.items_single`), and so
there is at most one place to go on from.  The reads that answer a single value therefore leave
nothing out.

## Main statements

- `Context.walkSegment_single`: a segment that is no pattern leads to at most one place if what comes
  after it does.
- `Context.find_single`: a path that is no pattern names at most one place.
- `Context.read_single`: what such a path names is what is got, and what is plucked.
-/

namespace DottedPath

/-! ### One part of a value -/

theorem length_toList_le_one (o : Option α) : o.toList.length ≤ 1 := by
  cases o with
  | none => exact Nat.zero_le 1
  | some a => exact Nat.le.refl

/-- What is no pattern is a literal. -/
theorem KeyPattern.exists_literal {key : KeyPattern} (h : key.isPattern = false) :
    ∃ l, key = .literal l := by
  cases key with
  | literal l => exact ⟨l, rfl⟩
  | wildcard => cases h
  | regex re => cases h

variable {key : KeyPattern}

theorem keyedCandidates_single (h : key.isPattern = false) (node : Value) (s : Store) :
    (keyedCandidates key node s).1.length ≤ 1 := by
  rw [keyedCandidates, StoreM.run_bind]
  dsimp only
  split
  · obtain ⟨l, rfl⟩ := KeyPattern.exists_literal h
    exact length_toList_le_one _
  · split
    · split
      · exact length_toList_le_one _
      · exact Nat.zero_le 1
    · exact Nat.zero_le 1

theorem slotCandidates_single (h : key.isPattern = false) (node : Value) (s : Store) :
    (slotCandidates key node s).1.length ≤ 1 := by
  rw [slotCandidates, StoreM.run_bind]
  dsimp only
  split
  · split
    · exact length_toList_le_one _
    · exact Nat.zero_le 1
    · rename_i hno
      obtain ⟨l, rfl⟩ := KeyPattern.exists_literal h
      exact absurd rfl (hno l)
  · exact keyedCandidates_single h node s

theorem attrCandidates_single (h : key.isPattern = false) (node : Value) (s : Store) :
    (attrCandidates key node s).1.length ≤ 1 := by
  rw [attrCandidates, StoreM.run_bind]
  dsimp only
  split
  · obtain ⟨l, rfl⟩ := KeyPattern.exists_literal h
    exact length_toList_le_one _
  · exact Nat.zero_le 1

/-- A literal names at most one part of a value, by any access. -/
theorem candidates_single (accessor : Accessor) (h : key.isPattern = false) (node : Value)
    (s : Store) : (candidates accessor key node s).1.length ≤ 1 := by
  cases accessor with
  | key => exact keyedCandidates_single h node s
  | slot => exact slotCandidates_single h node s
  | attr => exact attrCandidates_single h node s

namespace Segment

/-- What is a path of its own can lead to many places. -/
theorem isCompound_of_not_isPattern : ∀ (seg : Segment), seg.isPattern = false →
    seg.isCompound = false
  | .nop inner => isCompound_of_not_isPattern inner
  | .guard inner _ => isCompound_of_not_isPattern inner
  | .restrict inner _ => isCompound_of_not_isPattern inner
  | .recursive .. => fun h => by cases h
  | .group .. => fun h => by cases h
  | .root => fun _ => rfl
  | .invert => fun _ => rfl
  | .access .. => fun _ => rfl
  | .append _ => fun _ => rfl
  | .slice _ => fun _ => rfl
  | .sliceFilter .. => fun _ => rfl

end Segment

namespace Context

open Eval (Answers)

variable {ctx : Context}

/-- **A segment that is no pattern selects at most one part.** -/
theorem items_single (ctx : Context) : ∀ (seg : Segment) (node : Value), seg.isPattern = false →
    Answers (ctx.items seg node) fun found => found.length ≤ 1
  | .recursive .., _ => fun h => by cases h
  | .group .., _ => fun h => by cases h
  | .root, _ => fun _ => by
    rw [items]
    exact .pure Nat.le.refl
  | .invert, _ => fun _ => by
    rw [items]
    exact .pure Nat.le.refl
  | .access accessor key filter first, node => fun h => by
    have hcandidates : Answers (liftM (candidates accessor key node) : Eval (List (Value × Value)))
        fun raw => raw.length ≤ 1 := .lift (candidates_single accessor h node)
    rw [items]
    refine hcandidates.bind fun raw hraw => (Answers.filterM _ raw).bind fun kept hkept => ?_
    refine .of_rest fun s => .pure ?_
    -- a filter and a first-match mark only leave candidates out
    calc ((firstOnly first kept).map _).length
      _ = (firstOnly first kept).length := List.length_map _
      _ ≤ kept.length := (firstOnly_sublist first kept).length_le
      _ ≤ raw.length := hkept.length_le
      _ ≤ 1 := hraw
  | .append _, node => fun _ => by
    rw [items]
    refine .of_rest fun s => .pure ?_
    exact length_toList_le_one _
  | .slice range, node => fun _ => by
    rw [items]
    refine .of_rest fun s => ?_
    split
    · exact .of_rest fun picked => .pure Nat.le.refl
    · exact .pure (Nat.zero_le 1)
  | .sliceFilter filter first, node => fun _ => by
    rw [items]
    refine .of_rest fun s => ?_
    split
    · exact .of_rest fun kept => .of_rest fun picked => .pure Nat.le.refl
    · exact .pure (Nat.zero_le 1)
  | .nop inner, node => fun h => by
    rw [items]
    exact items_single ctx inner node h
  | .guard inner test, node => fun h => by
    rw [items]
    refine (items_single ctx inner node h).bind fun found hfound => ?_
    exact (Answers.filterM _ found).mono fun kept hkept => hkept.length_le.trans hfound
  | .restrict inner kinds, node => fun h => by
    rw [items]
    refine .of_rest fun s => ?_
    split
    · exact items_single ctx inner node h
    · exact .pure (Nat.zero_le 1)

/-! ### Walks -/

end Context

/-- Wherever it starts, the walk leads to at most one place. -/
def Walk.Single (walk : Walk) : Prop :=
  ∀ base node, Eval.Answers (walk base node) fun visit => visit.found.length ≤ 1

namespace Walk

open Eval (Answers)

theorem done_single : Single done :=
  fun _ _ => .pure Nat.le.refl

/-- From at most one place a walk goes on to at most one. -/
theorem Single.each {next : Walk} (hnext : next.Single) (base : Location) {found : List Found}
    (hfound : found.length ≤ 1) :
    Answers (next.each base found) fun visit => visit.found.length ≤ 1 := by
  match found, hfound with
  | [], _ => exact .pure (Nat.zero_le 1)
  | [(l, v)], _ =>
    rw [Walk.each]
    refine (hnext (base ++ l) v).bind fun visit hvisit => ?_
    split
    · exact .pure hvisit
    · refine .bind (P := fun more => more.found = []) (.pure rfl) fun more hmore => .pure ?_
      rw [hmore, List.append_nil]
      exact hvisit

end Walk

namespace Context

open Eval (Answers)

variable {ctx : Context}

theorem length_placesOf (parts : List (Step × Value)) : (placesOf parts).length = parts.length :=
  List.length_map _

/-- **A segment that is no pattern leads to at most one place**, if what comes after it does. -/
theorem walkSegment_single (ctx : Context) {seg : Segment} {next : Walk}
    (hplain : seg.isPattern = false) (hnext : next.Single) : (ctx.walkSegment seg next).Single := by
  intro base node
  have hparts : Answers (do next.each base (placesOf (← ctx.items seg node)))
      fun visit => visit.found.length ≤ 1 :=
    (items_single ctx seg node hplain).bind fun parts hparts =>
      hnext.each base (by rwa [length_placesOf])
  intro s visit t hrun
  rw [walkSegment_parts ctx next base node seg (seg.isCompound_of_not_isPattern hplain)] at hrun
  exact hparts s visit t hrun

/-- Segments that are no patterns lead to at most one place, one after the other. -/
theorem walkPath_single (ctx : Context) : ∀ {segs : List Segment} {next : Walk},
    segs.any Segment.isPattern = false → next.Single → (ctx.walkPath segs next).Single
  | [], _, _, hnext => hnext
  | seg :: segs, next, h, hnext => by
    rw [List.any_cons, Bool.or_eq_false_iff] at h
    rw [walkPath]
    exact walkSegment_single ctx h.1 (walkPath_single ctx h.2 hnext)

/-- **A path that is no pattern names at most one place.** -/
theorem find_single (ctx : Context) {e : PathExpression} (h : e.isPattern = false) (root : Value) :
    Answers (ctx.find e.segments root) fun found => found.length ≤ 1 := by
  rw [find]
  exact (walkPath_single ctx h Walk.done_single [] root).bind fun visit hvisit => .pure hvisit

/-! ### Reads -/

variable {path : String} {e : PathExpression} {root : Value} {s t : Store}

/-- What is plucked of a path that is no pattern is the first place that it names. -/
theorem pluck_of_find {found : List Found} (hparse : PathExpression.parse path = .ok e)
    (hplain : e.isPattern = false) (hfind : ctx.find e.segments root s = (.ok found, t)) :
    ctx.pluck root path s = (.ok ((found.take 1).map fun p => (p.1.text t, p.2)), t) := by
  show ([path].foldlM _ [] : Eval (List (String × Value))) s = _
  rw [List.foldlM_cons]
  refine Eval.run_bind_of_ok (f := fun seen => List.foldlM _ seen []) ?_
  rw [Eval.run_bind_of_ok (readPath_of_parse hparse), Eval.run_bind_of_ok hfind,
    Eval.run_bind_of_ok (Eval.run_store t), hplain]
  cases found with
  | nil => rfl
  | cons p found => rfl

/-- What is got by a path that is no pattern is the first value that it finds. -/
theorem getOr_of_plain (ctx : Context) (hparse : PathExpression.parse path = .ok e)
    (hplain : e.isPattern = false) (root default : Value) :
    ctx.getOr root path default =
      (do let values ← ctx.findAll root path; pure (values.head?.getD default)) := by
  rw [getOr]
  congr 1
  funext values u
  rw [Eval.run_bind_of_ok (readPath_of_parse hparse), hplain]
  rfl

/-- **Reads of a path that is no pattern drop nothing.**  Such a path names either nothing, and then
the default is got and nothing is plucked, or a single place, and then what is there is got, as the
transforms leave it, and the place is plucked. -/
theorem read_single (ctx : Context) (hparse : PathExpression.parse path = .ok e)
    (hplain : e.isPattern = false) (root : Value) {found : List Found}
    (hfind : ctx.find e.segments root s = (.ok found, t)) :
    (found = [] ∧ ctx.pluck root path s = (.ok [], t) ∧
        ∀ default, ctx.getOr root path default s = (.ok default, t)) ∨
      ∃ l v, found = [(l, v)] ∧ ctx.pluck root path s = (.ok [(l.text t, v)], t) ∧
        ∀ default, ctx.getOr root path default s = ctx.transform v e.transforms t := by
  have hpluck := pluck_of_find hparse hplain hfind
  have hget (default : Value) : ctx.getOr root path default s =
      (do let values ← found.mapM fun p => ctx.transform p.2 e.transforms
          pure (values.head?.getD default) : Eval Value) t := by
    rw [ctx.getOr_of_plain hparse hplain, findAll, bind_assoc,
      Eval.run_bind_of_ok (readPath_of_parse hparse), bind_assoc, Eval.run_bind_of_ok hfind]
  rcases hcount : found with _ | ⟨⟨l, v⟩, _ | ⟨q, more⟩⟩
  · rw [hcount] at hpluck hget
    exact .inl ⟨rfl, hpluck, hget⟩
  · rw [hcount] at hpluck hget
    refine .inr ⟨l, v, rfl, hpluck, fun default => ?_⟩
    rw [hget default, List.mapM_cons]
    simp
  · have hone := find_single ctx hplain root s found t hfind
    rw [hcount, List.length_cons, List.length_cons] at hone
    omega

end Context

/-- The last element of a slice of what a key of a dict holds. -/
theorem read_single_slice :
    let ctx : Context := ⟨.builtin, false⟩
    let s : Store := ⟨#[.dict [(.str "rows", .ref ⟨1⟩)], .list [.int 4, .int 5, .int 6]]⟩
    let t : Store := s.push (.list [.int 5, .int 6])
    ctx.pluck (.ref ⟨0⟩) "rows:dict[1:][+]" s = (.ok [("rows[1:][-1]", .int 6)], t) ∧
      ∀ default, ctx.getOr (.ref ⟨0⟩) "rows:dict[1:][+]" default s = (.ok (.int 6), t) := by
  intro ctx s t
  let segs : List Segment := [.restrict (.literal .key (.str "rows")) ⟨[.dict], false⟩,
    .slice ⟨some (.index 1), none, none⟩, .append false]
  have hkey : (Literal.str "rows").Readable := .text (PlainKey.readable (by decide))
  have hslice : Parse.SliceFits ⟨some (.index 1), none, none⟩ :=
    ⟨by rintro i ⟨⟩; rfl, nofun, nofun⟩
  have hplain : ∀ seg ∈ segs, seg.Plain := by
    simp only [segs, List.forall_mem_cons]
    have hkinds : [Kind.dict] ≠ [] := List.cons_ne_nil _ _
    exact ⟨.body (.part (.key (.literal hkey) (by rintro ⟨⟩)) (.restriction hkinds)),
      .body (.part (.slice hslice) .none), .body (.part (.append false) .none), nofun⟩
  have htext : pathText segs = "rows:dict[1:][+]" := by rfl
  have hparse : PathExpression.parse "rows:dict[1:][+]" = .ok ⟨segs, []⟩ := by
    rw [← htext]
    exact PathExpression.parse_pathText (List.cons_ne_nil _ _) hplain (by rw [htext]; decide)
  have hfind : ctx.find segs (.ref ⟨0⟩) s =
      (.ok [([.key (.str "rows"), .slice ⟨some (.index 1), none, none⟩, .slot (.int (-1))],
        .int 6)], t) := by cbv
  rcases ctx.read_single hparse rfl (.ref ⟨0⟩) hfind with ⟨hnone, -, -⟩ | ⟨l, v, hone, hpluck, hget⟩
  · cases hnone
  · cases hone
    exact ⟨hpluck, hget⟩

end DottedPath
