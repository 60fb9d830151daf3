import DottedPath.Path.Parse.Expression
import DottedPath.Proofs.Evaluate.Reported
import DottedPath.Proofs.Evaluate.ReadOnly
import DottedPath.Proofs.Evaluate.Selection
import DottedPath.Proofs.Evaluate.TreeDescent
import DottedPath.Proofs.Value.Reach
import DottedPath.Proofs.Value.SimpleWays
import Mathlib.Order.Bounds.Basic

/-!
# The full descent

A recursive segment that asks for every key reports the simple ways of the value, whatever cycles
there are.  A descent keeps the containers on the way down and does not enter one of them again, so
the levels that it may go down are never used up: a way can be no longer than the store has
containers.  The same bound makes the distance to a leaf the length of the longest simple way.

## Main statements

- `Context.descend_full`: a full descent adds the ways below the value to what it has found.
- `Context.leafDistanceWithin_longest`: the distance to a leaf is the length of the longest way.
- `Context.leafDistanceWithin_stable`: more levels do not change the distance, for any descent.
-/

namespace DottedPath

/-! ### Loops -/

namespace Eval

variable {α β : Type} {s : Store}

/-- A loop in which each step answers and leaves the store as it is. -/
theorem mapM_of_ok {f : α → Eval β} {P : α → β → Prop} : ∀ {xs : List α},
    (∀ x ∈ xs, ∃ y, f x s = (.ok y, s) ∧ P x y) →
    ∃ ys, xs.mapM f s = (.ok ys, s) ∧ List.Forall₂ P xs ys
  | [], _ => ⟨[], rfl, .nil⟩
  | x :: xs, h => by
    obtain ⟨hx, hxs⟩ := List.forall_mem_cons.mp h
    obtain ⟨y, hrun, hy⟩ := hx
    obtain ⟨ys, hruns, hys⟩ := mapM_of_ok hxs
    refine ⟨y :: ys, ?_, .cons hy hys⟩
    rw [List.mapM_cons, run_bind_of_ok hrun, run_bind_of_ok hruns]
    rfl

/-- What comes after an evaluation may be exchanged for what does the same with its answers. -/
theorem Yields.bind_congr {x : Eval α} {Q : α → Store → Prop} (hx : x.Yields s Q)
    {f g : α → Eval β} (h : ∀ a t, s.GrowsTo t → Q a t → f a t = g a t) :
    (x >>= f) s = (x >>= g) s := by
  obtain ⟨r, t, hrun⟩ : ∃ r t, x s = (r, t) := ⟨_, _, rfl⟩
  cases r with
  | ok a =>
    have hgrows := hx.grows
    have hQ := hx.answer a (by rw [hrun])
    rw [hrun] at hgrows hQ
    rw [run_bind_of_ok hrun, run_bind_of_ok hrun, h a t hgrows hQ]
  | error e => rw [run_bind_of_error hrun, run_bind_of_error hrun]

/-- Loops whose steps do the same wherever the store has grown to. -/
theorem mapM_congr {f g : α → Eval β} : ∀ {xs : List α} {s : Store}, (∀ x, Grows (f x)) →
    (∀ x ∈ xs, ∀ t, s.GrowsTo t → f x t = g x t) → xs.mapM f s = xs.mapM g s
  | [], _, _, _ => rfl
  | x :: xs, s, hf, h => by
    obtain ⟨hx, hxs⟩ := List.forall_mem_cons.mp h
    rw [List.mapM_cons, List.mapM_cons, ← run_bind_congr (hx s (.refl s))]
    refine (hf x s).bind_congr fun y t hst _ => ?_
    exact run_bind_congr (mapM_congr hf fun x hx u htu => hxs x hx u (hst.trans htu)) _

end Eval

/-! ### The children of a full descent -/

/-- Lists whose items are related one by one have their items at the same positions. -/
theorem getElem?_of_forall₂ {α β : Type} {R : α → β → Prop} {xs : List α} {ys : List β}
    (h : List.Forall₂ R xs ys) (i : Nat) :
    (∀ x, xs[i]? = some x → ∃ y, ys[i]? = some y ∧ R x y) ∧
      (∀ y, ys[i]? = some y → ∃ x, xs[i]? = some x ∧ R x y) := by
  induction h generalizing i with
  | nil => simp
  | cons hxy _ ih =>
    cases i with
    | zero => simpa using hxy
    | succ i => simpa using ih i

/-- Entering a container is held up if it is above. -/
theorem Value.any_above_ref {above : List Handle} {h : Handle} :
    (Value.ref h).handle?.any above.contains = true ↔ h ∈ above :=
  List.contains_iff_mem

/-- A descent goes to every part there is a way to, and every part may be reported. -/
def Recursion.TakesAll (r : Recursion) : Prop :=
  r.key = .wildcard ∧ r.branches = []

/-- The recursive segment that asks for every key at every depth. -/
def Recursion.full : Recursion := ⟨.wildcard, [], .unbounded, none, false⟩

/-- It is written with two stars and nothing else. -/
example : PathExpression.parse "**" = .ok ⟨[Recursion.full.segment], []⟩ := rfl

namespace Context

variable {ctx : Context} {s : Store} {r : Recursion}

/-- What a descent to every part goes to. -/
theorem children_takesAll (hr : r.TakesAll) (node : Value) :
    ctx.children r node s = (.ok ((s.exits node).map fun e => ⟨e.1, e.2, true⟩), s) := by
  obtain ⟨hkey, hbranches⟩ := hr
  have hwildcard : s.keyMatches r.key = fun _ => true := by
    rw [hkey]
    rfl
  rw [children, Eval.run_bind_of_ok (Eval.run_store s), hbranches]
  cases node with
  | scalar x => cases x <;> rfl
  | ref h =>
    have hexits : s.exits (.ref h) = (s.get? h).elim [] Container.exits := rfl
    have hcontent (c : Container) (hc : s.get? h = some c) : s.kind (.ref h) = c.kind := by
      rw [Store.kind, hc]
      rfl
    cases hc : s.get? h with
    | none =>
      have hkind : s.kind (.ref h) = .object := by
        rw [Store.kind, hc]
        rfl
      rw [Store.isText, hkind, hexits, hc]
      simp only [plainChildren, Store.isKeyed, Store.isListLike, hkind]
      rfl
    | some c =>
      rw [Store.isText, hcontent c hc, hexits, hc]
      simp only [plainChildren, Store.isKeyed, Store.isListLike, hcontent c hc]
      -- only lists, tuples and dicts are gone into; the other kinds have no exits either
      cases c with
      | list xs =>
        have hlist : s.container? (.ref h) = some (.list xs) := hc
        simp [Container.kind, Container.exits, Store.numbered, Store.elements_of_list hlist,
          hwildcard, Eval.run_pure, Function.comp_def]
      | tuple xs =>
        have htuple : s.container? (.ref h) = some (.tuple xs) := hc
        simp [Container.kind, Container.exits, Store.numbered, Store.elements_of_tuple htuple,
          hwildcard, Eval.run_pure, Function.comp_def]
      | dict es =>
        have hdict : s.container? (.ref h) = some (.dict es) := hc
        have hentries : s.entries (.ref h) = es := by
          rw [Store.entries, hdict]
        simp [Container.kind, Container.exits, hentries, hwildcard, Eval.run_pure,
          Function.comp_def]
      | set ms => rfl
      | frozenset ms => rfl
      | object name attrs frozen => rfl

/-! ### What it reports -/

theorem reports_full (v : Value) (depth : Nat) :
    ctx.reports .full v depth s = (.ok true, s) := rfl

/-- Every exit goes down. -/
theorem descends_of_mem_exits {c : Container} {e : Step × Value} (he : e ∈ c.exits) :
    e.1.descends = true := by
  cases c with
  | list xs => obtain ⟨_, -, rfl⟩ := List.mem_map.mp he; rfl
  | tuple xs => obtain ⟨_, -, rfl⟩ := List.mem_map.mp he; rfl
  | dict es => obtain ⟨_, -, rfl⟩ := List.mem_map.mp he; rfl
  | set ms => cases he
  | frozenset ms => cases he
  | object name attrs frozen => cases he

/-- A way below a value as it is reported from further up. -/
def reportedFrom (base : Location) (w : List Nat × Found) : Found :=
  (base ++ w.2.1, w.2.2)

theorem map_reportedFrom_waysThrough (base : Location) (i : Nat) (step : Step) (v : Value)
    (below : List (List Nat × Found)) :
    (Store.waysThrough i step v below).map (reportedFrom base) =
      (base ++ [step], v) :: below.map (reportedFrom (base ++ [step])) := by
  rw [Store.waysThrough, List.map_cons, List.map_map]
  congr 1
  refine List.map_congr_left fun w _ => ?_
  show (base ++ step :: w.2.1, w.2.2) = (base ++ [step] ++ w.2.1, w.2.2)
  rw [List.append_assoc, List.singleton_append]

/-- At an exit a full descent reports where it leads, and goes on if this is not above. -/
theorem descendChild_full (ctx : Context) {n depth : Nat} (above : List Handle) {base : Location}
    {step : Step} {v : Value} (hdescends : step.descends = true) (found : List Found)
    (hbelow : ∀ found, (∀ h, v = .ref h → h ∉ above) →
      ctx.descend .full n (v.handle?.toList ++ above) (base ++ [step]) (depth + 1) v found s =
        (.ok (found ++ (s.waysWithin n above v).map (reportedFrom (base ++ [step]))), s)) :
    ctx.descendChild .full n above base depth found ⟨step, v, true⟩ s =
      (.ok (found ++ (base ++ [step], v) ::
        (s.waysWithin n above v).map (reportedFrom (base ++ [step]))), s) := by
  have hfull : Recursion.full.first = false := rfl
  rw [descendChild, hfull, Bool.false_and, if_neg Bool.false_ne_true]
  dsimp only
  rw [reportsChild, if_pos rfl, Eval.run_bind_of_ok (reports_full v depth), if_pos rfl, enterChild,
    hdescends, Bool.not_true, Bool.or_false]
  -- a way ends where it would come to a container that it has passed
  by_cases hcycle : v.handle?.any above.contains = true
  · have hnone : s.waysWithin n above v = [] := by
      cases v with
      | scalar x => cases hcycle
      | ref g =>
        have hg : g ∈ above := Value.any_above_ref.mp hcycle
        cases n with
        | zero => rfl
        | succ n => rw [Store.waysWithin, if_pos hg]
    rw [if_pos hcycle, hnone]
    rfl
  · have hfresh (g : Handle) (hg : v = .ref g) : g ∉ above := by
      subst hg
      exact mt Value.any_above_ref.mpr hcycle
    rw [if_neg hcycle, hbelow _ hfresh, List.append_assoc, List.singleton_append]

/-- **A full descent adds the ways below the value.**  It goes down as many levels as they are
listed for. -/
theorem descend_full (ctx : Context) : ∀ (n : Nat) (above : List Handle) {node : Value}
    (base : Location) (depth : Nat) (found : List Found), (∀ h, node = .ref h → h ∉ above) →
    ctx.descend .full n (node.handle?.toList ++ above) base depth node found s =
      (.ok (found ++ (s.waysWithin n above node).map (reportedFrom base)), s)
  | 0, above, node, base, depth, found, _ => by
    rw [Store.waysWithin, List.map_nil, List.append_nil]
    rfl
  | n + 1, above, .scalar x, base, depth, found, _ => by
    rw [descend_succ, Eval.run_bind_of_ok (children_takesAll ⟨rfl, rfl⟩ (.scalar x)),
      Store.waysWithin, List.map_nil, List.append_nil]
    rfl
  | n + 1, above, .ref h, base, depth, found, hfresh => by
    -- one exit after the other; their positions only count in the listing
    have hexits : ∀ (exits : List (Step × Value)) (i : Nat) (found : List Found),
        (∀ e ∈ exits, e.1.descends = true) →
        (exits.map fun e => (⟨e.1, e.2, true⟩ : Child)).foldlM
          (ctx.descendChild .full n (h :: above) base depth) found s =
        (.ok (found ++ ((exits.zipIdx i).flatMap fun e => Store.waysThrough e.2 e.1.1 e.1.2
          (s.waysWithin n (h :: above) e.1.2)).map (reportedFrom base)), s) := by
      intro exits
      induction exits with
      | nil => exact fun i found _ => by simp [Eval.run_pure]
      | cons e exits ih =>
        intro i found hdescends
        obtain ⟨hstep, hothers⟩ := List.forall_mem_cons.mp hdescends
        have hchild := descendChild_full ctx (h :: above) (v := e.2) hstep found
          fun found hfresh => descend_full ctx n _ (base ++ [e.1]) (depth + 1) found hfresh
        rw [List.map_cons, List.foldlM_cons, Eval.run_bind_of_ok hchild, ih (i + 1) _ hothers,
          List.zipIdx_cons, List.flatMap_cons, List.map_append, map_reportedFrom_waysThrough,
          List.append_assoc]
    have hdescends : ∀ e ∈ s.exits (.ref h), e.1.descends = true := by
      intro e he
      obtain ⟨i, hi⟩ := List.getElem?_of_mem he
      obtain ⟨c, -, hexit⟩ := Store.mem_exits.mp hi
      exact descends_of_mem_exits (List.mem_of_getElem? hexit)
    rw [descend_succ, Eval.run_bind_of_ok (children_takesAll ⟨rfl, rfl⟩ (.ref h)),
      Store.waysWithin, if_neg (hfresh h rfl)]
    exact hexits _ 0 found hdescends

/-- A full descent from a value reports the ways from there. -/
theorem find_full (ctx : Context) (s : Store) (node : Value) :
    ctx.find [Recursion.full.segment] node s =
      (.ok ((s.waysWithin (s.size + 2) [] node).map Prod.snd), s) := by
  have hfresh (h : Handle) (_ : node = .ref h) : h ∉ ([] : List Handle) := List.not_mem_nil
  have hdescend := descend_full ctx (s := s) (s.size + 2) [] [] 0 [] hfresh
  have hcollect : ctx.collect .full node s =
      (.ok ((s.waysWithin (s.size + 2) [] node).map Prod.snd), s) := by
    rw [List.append_nil] at hdescend
    rw [collect, Eval.run_bind_of_ok (Eval.run_store s), Eval.run_bind_of_ok hdescend]
    rfl
  have hwalk : ctx.walkSegment Recursion.full.segment Walk.done [] node s =
      (.ok ⟨(s.waysWithin (s.size + 2) [] node).map Prod.snd, false⟩, s) := by
    show (do Walk.done.each [] (← ctx.collect .full node)) s = _
    rw [Eval.run_bind_of_ok hcollect, Walk.each_done]
  exact find_singleton hwalk

/-! ### The distance to a leaf -/

/-- The greatest number of steps that a simple way takes. -/
def LongestWay (s : Store) (above : List Handle) (v : Value) (d : Nat) : Prop :=
  IsGreatest {k | ∃ way l x, s.SimpleWay above v way l x ∧ way.length = k} d

/-- If there is no way to go on, the longest way is the empty one. -/
theorem LongestWay.zero {above : List Handle} {v : Value}
    (h : ∀ way l x, s.SimpleWay above v way l x → way = []) : LongestWay s above v 0 := by
  constructor
  · exact ⟨[], [], v, .here above v, rfl⟩
  · rintro k ⟨way, l, x, hway, rfl⟩
    rw [h way l x hway, List.length_nil]

theorem foldl_max_succ (ds : List Nat) (a : Nat) :
    let m := ds.foldl (fun most d => max most (d + 1)) a
    a ≤ m ∧ (∀ d ∈ ds, d + 1 ≤ m) ∧ (m = a ∨ ∃ d ∈ ds, m = d + 1) := by
  induction ds generalizing a with
  | nil => simp
  | cons d ds ih =>
    obtain ⟨hstart, hle, hattained⟩ := ih (max a (d + 1))
    simp only [List.foldl_cons, List.mem_cons, forall_eq_or_imp, exists_eq_or_imp]
    refine ⟨by omega, ⟨by omega, hle⟩, ?_⟩
    rcases hattained with h | h
    · rw [h]
      omega
    · exact .inr (.inr h)

/-- From a container the longest way goes through the exit from where the longest one goes on. -/
theorem LongestWay.enter {above : List Handle} {h : Handle} {c : Container} {ds : List Nat}
    (hfresh : h ∉ above) (hc : s.get? h = some c)
    (hds : List.Forall₂ (fun e d => LongestWay s (h :: above) e.2 d) c.exits ds) :
    LongestWay s above (.ref h) (ds.foldl (fun most d => max most (d + 1)) 0) := by
  obtain ⟨-, hle, hattained⟩ := foldl_max_succ ds 0
  constructor
  · rcases hattained with hzero | ⟨d, hd, hmost⟩
    · exact ⟨[], [], _, .here .., hzero.symm⟩
    · obtain ⟨i, hi⟩ := List.getElem?_of_mem hd
      obtain ⟨e, hexit, hlongest⟩ := (getElem?_of_forall₂ hds i).2 d hi
      obtain ⟨way, l, x, hway, hlength⟩ := hlongest.1
      refine ⟨i :: way, e.1 :: l, x, .enter hfresh hc hexit hway, ?_⟩
      rw [List.length_cons, hlength, hmost]
  · rintro k ⟨way, l, x, hway, rfl⟩
    cases hway with
    | here => exact Nat.zero_le _
    | @enter _ _ _ i _ _ way _ _ _ hc' hexit hrest =>
      cases hc.symm.trans hc'
      obtain ⟨d, hi, hlongest⟩ := (getElem?_of_forall₂ hds i).1 _ hexit
      have hlength : way.length ≤ d := hlongest.2 ⟨_, _, _, hrest, rfl⟩
      have hmost := hle d (List.mem_of_getElem? hi)
      rw [List.length_cons]
      omega

/-- **The distance to a leaf is the length of the longest simple way**, if as many levels may be
entered as there are containers left. -/
theorem leafDistanceWithin_longest (ctx : Context) (hr : r.TakesAll) : ∀ (n : Nat)
    (above : List Handle) (node : Value), above.Nodup → (∀ h ∈ above, h.index < s.size) →
    s.size < n + above.length →
    ∃ d, ctx.leafDistanceWithin r n above node s = (.ok d, s) ∧ LongestWay s above node d
  -- more containers would have been passed than there are
  | 0, above, node, hnodup, hlt, hn => by
    have hle := Store.length_le_size hnodup hlt
    omega
  | n + 1, above, node, hnodup, hlt, hn => by
    rw [leafDistanceWithin]
    by_cases hcycle : node.handle?.any above.contains = true
    · rw [if_pos hcycle]
      refine ⟨0, rfl, .zero fun way l x hway => ?_⟩
      cases node with
      | scalar a => cases hcycle
      | ref h => exact hway.eq_nil_of_mem (Value.any_above_ref.mp hcycle)
    rw [if_neg hcycle]
    cases hcontent : s.container? node with
    | none =>
      have hexits : s.exits node = [] := by rw [Store.exits, hcontent]; rfl
      refine ⟨0, ?_, .zero fun way l x hway => hway.eq_nil_of_container? hcontent⟩
      rw [Eval.run_bind_of_ok (children_takesAll hr node), hexits]
      rfl
    | some c =>
      obtain ⟨h, rfl⟩ : ∃ h, node = .ref h := by
        cases node with
        | scalar a => cases hcontent
        | ref h => exact ⟨h, rfl⟩
      have hc : s.get? h = some c := hcontent
      have hfresh : h ∉ above := mt Value.any_above_ref.mpr hcycle
      have hexits : s.exits (.ref h) = c.exits := by rw [Store.exits, hcontent]; rfl
      have hbelow : ∀ child ∈ c.exits.map fun e => (⟨e.1, e.2, true⟩ : Child),
          ∃ d, (if child.step.descends then ctx.leafDistanceWithin r n (h :: above) child.value
            else pure 0 : Eval Nat) s = (.ok d, s) ∧ LongestWay s (h :: above) child.value d := by
        intro child hchild
        obtain ⟨e, he, rfl⟩ := List.mem_map.mp hchild
        rw [if_pos (descends_of_mem_exits he)]
        refine leafDistanceWithin_longest ctx hr n _ _ (List.nodup_cons.mpr ⟨hfresh, hnodup⟩)
          (List.forall_mem_cons.mpr ⟨Store.lt_size_of_get? hc, hlt⟩) ?_
        rw [List.length_cons]
        omega
      obtain ⟨ds, hrun, hdistances⟩ := Eval.mapM_of_ok hbelow
      have hds := List.forall₂_map_left_iff.mp hdistances
      refine ⟨ds.foldl (fun most d => max most (d + 1)) 0, ?_,
        .enter hfresh hc hds⟩
      rw [Eval.run_bind_of_ok (children_takesAll hr (.ref h)), hexits]
      exact Eval.run_bind_of_ok hrun

end Context

/-! ### Descents through branches -/

/-- What the segment selects is reached in a step: it does not stay where it is. -/
def Segment.takesStep : Segment → Bool
  | .root => false
  | .invert => false
  | .nop inner => inner.takesStep
  | .guard inner _ => inner.takesStep
  | .restrict inner _ => inner.takesStep
  | _ => true

/-- The branches of the descent begin with a step, if there are any. -/
def Recursion.TakesSteps (r : Recursion) : Prop :=
  ∀ seg segs cut, Branch.mk (seg :: segs) cut ∈ r.branches → seg.takesStep = true

namespace Context

open Eval (Grows Yields)

variable {ctx : Context} {s t : Store} {node : Value}

/-- A candidate in a value that is no text is one of its parts. -/
theorem part_of_candidate {accessor : Accessor} {key : KeyPattern} {part : Value × Value}
    (htext : s.isText node = false) (h : Candidate s node accessor key part) :
    s.Part node part.2 := by
  cases h with
  | element _ he =>
    have hmem := Store.mem_elements_of_elementAt? he
    rcases Store.cases_of_isIndexed (Store.isIndexed_of_elementAt? he) with
      ⟨text, rfl⟩ | ⟨bs, rfl⟩ | ⟨h, xs, rfl, hc | hc⟩
    · cases htext
    · cases htext
    · have hlist : s.container? (.ref h) = some (.list xs) := hc
      rw [Store.elements_of_list hlist] at hmem
      exact ⟨_, hlist, hmem⟩
    · have htuple : s.container? (.ref h) = some (.tuple xs) := hc
      rw [Store.elements_of_tuple htuple] at hmem
      exact ⟨_, htuple, hmem⟩
  | entry _ hc hmem => exact ⟨_, hc, List.mem_flatMap.mpr ⟨_, hmem, by simp⟩⟩
  | found _ hc _ hfound =>
    obtain ⟨e, hmem, rfl⟩ := Store.mem_of_lookup? hfound
    exact ⟨_, hc, List.mem_flatMap.mpr ⟨_, hmem, by simp⟩⟩
  | attr hc hmem => exact ⟨_, hc, List.mem_map.mpr ⟨_, hmem, rfl⟩⟩

/-- No value becomes a text when the store grows. -/
theorem isText_grows (hst : s.GrowsTo t) (hnode : s.Holds node) :
    t.isText node = s.isText node := by
  cases node with
  | scalar a => rfl
  | ref h =>
    have hget := hst.get?_of_lt (Store.holds_ref.mp hnode)
    rw [Store.isText, Store.isText, Store.kind, Store.kind, hget]

/-- Where a segment goes down to from a value are parts of it. -/
theorem items_parts (hreg : ctx.registry.Grows) : ∀ (seg : Segment) {s : Store},
    seg.takesStep = true → s.Holds node → s.isText node = false →
    (ctx.items seg node).Yields s fun found _ =>
      ∀ p ∈ found, p.1.descends = true → s.Part node p.2
  | .root, _, hstep, _, _ => by cases hstep
  | .invert, _, hstep, _, _ => by cases hstep
  | .recursive .., _, _, _, _ => .pure fun p hp => by cases hp
  | .group .., _, _, _, _ => .pure fun p hp => by cases hp
  | .append _, s, _, _, htext => by
    refine (Yields.store (Q := fun r t => r = s ∧ t = s) ⟨rfl, rfl⟩).bind fun r t _ hr => ?_
    obtain ⟨rfl, rfl⟩ := hr
    refine .pure fun p hp _ => ?_
    obtain ⟨x, hx, rfl⟩ := Option.map_eq_some_iff.mp (Option.mem_toList.mp hp)
    have hcandidate : Candidate t node .slot .wildcard (.int (-1), x) := .element (by decide) hx
    exact part_of_candidate htext hcandidate
  | .access accessor key filter first, s, _, hnode, htext => by
    rw [items]
    have hcandidates : (liftM (candidates accessor key node) : Eval _).Yields s fun raw _ =>
        ∀ part ∈ raw, s.Part node part.2 := by
      refine .lift (candidates_grows accessor key node s) fun part hpart => ?_
      obtain ⟨s₀, hst, -, hcandidate⟩ := candidates_cases accessor key s node part hpart
      rw [← isText_grows hst hnode] at htext
      exact (hst.part_iff hnode).mp (part_of_candidate htext hcandidate)
    refine hcandidates.bind fun raw t _ hraw => ?_
    refine (filterItems_sublist hreg filter Prod.snd raw t).bind fun kept u _ hkept => ?_
    refine (Grows.store u).bind fun r w _ _ => .pure fun p hp _ => ?_
    obtain ⟨part, hpart, rfl⟩ := List.mem_map.mp hp
    exact hraw part (hkept.subset ((firstOnly_sublist first kept).subset hpart))
  -- a slice is a new sequence, which no descent enters
  | .slice range, s, _, _, _ => by
    rw [items]
    refine (Grows.store s).bind fun r t _ _ => ?_
    split
    · refine (Grows.lift (sliceOf_grows range node) t).bind fun v u _ _ =>
        .pure fun p hp hdown => ?_
      rw [List.mem_singleton.mp hp] at hdown
      cases hdown
    · exact .pure fun p hp => by cases hp
  | .sliceFilter filter first, s, _, _, _ => by
    rw [items]
    refine (Grows.store s).bind fun r t _ _ => ?_
    split
    · refine (filterItems_grows hreg _ _ _ t).bind fun kept u _ _ => ?_
      refine (Grows.lift (withElements_grows _ _) u).bind fun v w _ _ => .pure fun p hp hdown => ?_
      rw [List.mem_singleton.mp hp] at hdown
      cases hdown
    · exact .pure fun p hp => by cases hp
  | .nop inner, s, hstep, hnode, htext => by
    rw [items]
    exact items_parts hreg inner hstep hnode htext
  | .guard inner test, s, hstep, hnode, htext => by
    rw [items]
    refine (items_parts hreg inner hstep hnode htext).bind fun found t _ hfound => ?_
    refine (Yields.filterM (fun p => guardHolds_grows hreg test p.2) found t).mono
      fun kept u _ hkept => ?_
    exact fun p hp => hfound p (hkept.subset hp)
  | .restrict inner kinds, s, hstep, hnode, htext => by
    rw [items]
    refine (Yields.store (Q := fun r t => r = s ∧ t = s) ⟨rfl, rfl⟩).bind fun r t _ hr => ?_
    obtain ⟨rfl, rfl⟩ := hr
    split
    · exact items_parts hreg inner hstep hnode htext
    · exact .pure fun p hp => by cases hp

theorem branchChildren_parts (hreg : ctx.registry.Grows) : ∀ (bs : List Branch) {s : Store},
    (∀ seg segs cut, Branch.mk (seg :: segs) cut ∈ bs → seg.takesStep = true) → s.Holds node →
    s.isText node = false →
    (ctx.branchChildren bs node).Yields s fun cs _ =>
      ∀ c ∈ cs, c.step.descends = true → s.Part node c.value
  | [], _, _, _, _ => .pure fun c hc => by cases hc
  | .mk [] _ :: bs, _, hsteps, hnode, htext =>
    branchChildren_parts hreg bs (fun seg segs cut h => hsteps seg segs cut (.tail _ h)) hnode htext
  | .mk (seg :: segs) cut :: bs, s, hsteps, hnode, htext => by
    rw [branchChildren]
    have hstep := hsteps seg segs cut (List.mem_cons_self ..)
    refine (items_parts hreg seg hstep hnode htext).bind fun found t hst hfound => ?_
    have hhere : ∀ c ∈ found.map fun p => (⟨p.1, p.2, true⟩ : Child),
        c.step.descends = true → s.Part node c.value := by
      intro c hc
      obtain ⟨p, hp, rfl⟩ := List.mem_map.mp hc
      exact hfound p hp
    dsimp only
    split
    · exact .pure hhere
    · rw [← isText_grows hst hnode] at htext
      refine (branchChildren_parts hreg bs (fun seg segs cut h => hsteps seg segs cut (.tail _ h))
        (hst.holds hnode) htext).bind fun more u _ hmore => .pure fun c hc hdown => ?_
      rcases List.mem_append.mp hc with hc | hc
      · exact hhere c hc hdown
      · exact (hst.part_iff hnode).mp (hmore c hc hdown)

/-- Where a descent goes down to from a value are parts of it. -/
theorem children_parts (hreg : ctx.registry.Grows) {r : Recursion} (hr : r.TakesSteps)
    (hnode : s.Holds node) :
    (ctx.children r node).Yields s fun cs _ =>
      ∀ c ∈ cs, c.step.descends = true → s.Part node c.value := by
  refine (Yields.store (Q := fun r t => r = s ∧ t = s) ⟨rfl, rfl⟩).bind fun u t _ hu => ?_
  obtain ⟨rfl, rfl⟩ := hu
  by_cases htext : t.isText node = true
  · rw [if_pos htext]
    exact .pure fun c hc => by cases hc
  rw [if_neg htext]
  rw [Bool.not_eq_true] at htext
  split
  -- without branches a descent goes where a wildcard would
  · refine .pure fun c hc _ => ?_
    unfold plainChildren at hc
    split at hc
    · rename_i hk
      obtain ⟨part, hpart, rfl⟩ := List.mem_map.mp hc
      have hmem := (List.mem_filter.mp hpart).1
      have hcandidate : Candidate t node .key .wildcard part :=
        candidate_of_mem_entries (by decide) hk hmem
      exact part_of_candidate htext hcandidate
    · split at hc
      · rename_i hl
        obtain ⟨part, hpart, rfl⟩ := List.mem_map.mp hc
        have hi := Store.isIndexed_of_isListLike hl
        have hcandidate : Candidate t node .slot .wildcard part :=
          candidate_of_mem_numbered (by decide) hi hpart
        exact part_of_candidate htext hcandidate
      · cases hc
  · exact branchChildren_parts hreg r.branches hr hnode htext

/-- **More levels do not change the distance to a leaf**, if there are as many as there are
containers left.  So the distance is that of a computation without a bound, which ends. -/
theorem leafDistanceWithin_stable (hreg : ctx.registry.Grows) {r : Recursion} (hr : r.TakesSteps) :
    ∀ (n m : Nat) (above : List Handle) {node : Value} {t : Store}, s.GrowsTo t →
    s.HoldsGraph node → above.Nodup → (∀ h ∈ above, h.index < s.size) →
    s.size < n + above.length → s.size < m + above.length →
    ctx.leafDistanceWithin r n above node t = ctx.leafDistanceWithin r m above node t
  | 0, _, above, _, _, _, _, hnodup, hlt, hn, _ => by
    have hle := Store.length_le_size hnodup hlt
    omega
  | _, 0, above, _, _, _, _, hnodup, hlt, _, hm => by
    have hle := Store.length_le_size hnodup hlt
    omega
  | n + 1, m + 1, above, node, t, hst, hgraph, hnodup, hlt, hn, hm => by
    rw [leafDistanceWithin, leafDistanceWithin]
    by_cases hcycle : node.handle?.any above.contains = true
    · rw [if_pos hcycle, if_pos hcycle]
    rw [if_neg hcycle, if_neg hcycle]
    refine (children_parts hreg hr (hst.holds hgraph.holds)).bind_congr fun cs u htu hcs => ?_
    have hgrows (child : Child) : Grows (if child.step.descends then
        ctx.leafDistanceWithin r n (node.handle?.toList ++ above) child.value
        else pure 0 : Eval Nat) := by
      split
      · exact leafDistanceWithin_grows hreg r n _ _
      · exact .pure _
    refine Eval.run_bind_congr (Eval.mapM_congr hgrows fun child hchild w huw => ?_) _
    by_cases hdown : child.step.descends = true
    · rw [if_pos hdown, if_pos hdown]
      -- the value is a container, and one level less is left for one container less
      have hpart : s.Part node child.value :=
        (hst.part_iff hgraph.holds).mp (hcs child hchild hdown)
      have hbelow := hgraph.of_reaches hpart.reaches
      obtain ⟨c, hc, -⟩ := hpart
      cases node with
      | scalar a => cases hc
      | ref h =>
        have hfresh : h ∉ above := mt Value.any_above_ref.mpr hcycle
        have hlength : (h :: above).length = above.length + 1 := List.length_cons ..
        exact leafDistanceWithin_stable hreg hr n m (h :: above) (hst.trans (htu.trans huw))
          hbelow (List.nodup_cons.mpr ⟨hfresh, hnodup⟩)
          (List.forall_mem_cons.mpr ⟨Store.lt_size_of_get? hc, hlt⟩) (by omega) (by omega)
    · rw [if_neg hdown, if_neg hdown]

end Context

/-! ### Main result -/

/-- What is found are the simple ways from a value that are not empty: each of them once, with where
it leads, and in order. -/
structure Store.ListsWays (s : Store) (v : Value) (ways : List (List Nat)) (found : List Found) :
    Prop where
  ordered : ways.Pairwise (· < ·)
  reached : List.Forall₂ (fun way p => way ≠ [] ∧ s.SimpleWay [] v way p.1 p.2) ways found
  complete : ∀ way l x, way ≠ [] → s.SimpleWay [] v way l x → way ∈ ways ∧ (l, x) ∈ found

/-- If the keys of dicts differ, no location is found twice. -/
theorem Store.ListsWays.locations_nodup {s : Store} {v : Value} {ways : List (List Nat)}
    {found : List Found} (h : s.ListsWays v ways found) (hkeys : s.KeysDiffer) :
    (found.map Prod.fst).Nodup := by
  obtain ⟨hordered, hreached, -⟩ := h
  induction hreached with
  | nil => exact List.nodup_nil
  | @cons way p ways found hway hrest ih =>
    obtain ⟨hfirst, hordered⟩ := List.pairwise_cons.mp hordered
    rw [List.map_cons, List.nodup_cons]
    refine ⟨fun hmem => ?_, ih hordered⟩
    obtain ⟨p', hp', heq⟩ := List.mem_map.mp hmem
    obtain ⟨i, hi⟩ := List.getElem?_of_mem hp'
    obtain ⟨way', hget, -, hway'⟩ := (getElem?_of_forall₂ hrest i).2 p' hi
    rw [heq] at hway'
    have hsame : way = way' := hway.2.way_eq hkeys hway'
    exact absurd (hfirst way' (List.mem_of_getElem? hget)) (hsame ▸ List.lt_irrefl _)

namespace Context

variable {ctx : Context} {s : Store}

theorem find_full_listsWays (ctx : Context) (s : Store) (node : Value) : ∃ ways found,
    ctx.find [Recursion.full.segment] node s = (.ok found, s) ∧ s.ListsWays node ways found := by
  have hmem {w : List Nat × Found} := Store.mem_waysWithin (s := s) (n := s.size + 2) (by omega)
    (v := node) (w := w)
  refine ⟨(s.waysWithin (s.size + 2) [] node).map Prod.fst, _, find_full ctx s node,
    Store.waysWithin_sorted _ _ _, ?_, fun way l x hne hway => ?_⟩
  · rw [List.forall₂_map_left_iff, List.forall₂_map_right_iff, List.forall₂_same]
    exact fun w hw => hmem.mp hw
  · have hlisted : (way, l, x) ∈ s.waysWithin (s.size + 2) [] node := hmem.mpr ⟨hne, hway⟩
    exact ⟨List.mem_map.mpr ⟨_, hlisted, rfl⟩, List.mem_map.mpr ⟨_, hlisted, rfl⟩⟩

/-- **Full recursion enumerates every branch once, also on cycles.**  The segment that asks for
everything reports the simple ways from the root in order, each location once.  The distance to a
leaf, which negative depth windows ask for, is the length of the longest simple way.  For a descent
through branches that begin with a step the distance is that of a computation without a bound: more
levels than there are containers do not change it. -/
theorem find_full_once (ctx : Context) (s : Store) (root : Value) :
    (∃ ways found, ctx.find [Recursion.full.segment] root s = (.ok found, s) ∧
      s.ListsWays root ways found ∧ (s.KeysDiffer → (found.map Prod.fst).Nodup)) ∧
    (∀ depth filter first, ∃ d,
      ctx.leafDistance ⟨.wildcard, [], depth, filter, first⟩ root s = (.ok d, s) ∧
        LongestWay s [] root d) ∧
    (ctx.registry.Grows → s.HoldsGraph root → ∀ r : Recursion, r.TakesSteps → ∀ n, s.size < n →
      ctx.leafDistanceWithin r n [] root s = ctx.leafDistance r root s) := by
  refine ⟨?_, fun depth filter first => ?_, fun hreg hgraph r hr n hn => ?_⟩
  · obtain ⟨ways, found, hrun, hways⟩ := find_full_listsWays ctx s root
    exact ⟨ways, found, hrun, hways, hways.locations_nodup⟩
  · have hall : Recursion.TakesAll ⟨.wildcard, [], depth, filter, first⟩ := ⟨rfl, rfl⟩
    obtain ⟨d, hrun, hlongest⟩ := leafDistanceWithin_longest ctx (s := s) hall (s.size + 2) [] root
      List.nodup_nil (by simp) (by simp)
    refine ⟨d, ?_, hlongest⟩
    rw [leafDistance, Eval.run_bind_of_ok (Eval.run_store s), hrun]
  · rw [leafDistance, Eval.run_bind_of_ok (Eval.run_store s)]
    exact leafDistanceWithin_stable hreg hr n (s.size + 2) [] (.refl s) hgraph List.nodup_nil
      (by simp) (by simpa using hn) (by simp)

end Context

/-- A list that holds a dict, which holds the list: the list is reported below the dict, and nothing
below that. -/
theorem find_full_once_cycle :
    let ctx : Context := ⟨.builtin, false⟩
    let found : List Found := [([.slot (.int 0)], .ref ⟨1⟩),
      ([.slot (.int 0), .key (.str "up")], .ref ⟨0⟩), ([.slot (.int 1)], .int 5)]
    ctx.find [Recursion.full.segment] (.ref ⟨0⟩) cyclicStore = (.ok found, cyclicStore) ∧
      (∃ ways, cyclicStore.ListsWays (.ref ⟨0⟩) ways found) ∧ (found.map Prod.fst).Nodup ∧
      ∀ r : Recursion, r.TakesSteps → ∀ n, 2 < n →
        ctx.leafDistanceWithin r n [] (.ref ⟨0⟩) cyclicStore =
          ctx.leafDistance r (.ref ⟨0⟩) cyclicStore := by
  have hgraph : cyclicStore.HoldsGraph (.ref ⟨0⟩) :=
    Store.holdsGraph_of_isClosed rfl (Store.holds_ref.mpr (by decide))
  have hkeys : cyclicStore.KeysDiffer := by
    rintro ⟨i⟩ es hc
    match i, hc with
    | 1, hc =>
      cases hc
      exact List.nodup_singleton _
  obtain ⟨⟨ways, found, hrun, hways, hnodup⟩, -, hstable⟩ :=
    Context.find_full_once ⟨.builtin, false⟩ cyclicStore (.ref ⟨0⟩)
  cases hrun
  exact ⟨rfl, ⟨ways, hways⟩, hnodup hkeys, hstable Registry.builtin_grows hgraph⟩

end DottedPath
