import DottedPath.Proofs.Evaluate.ReadOnly
import DottedPath.Proofs.Transform.Builtin
import Mathlib

/-!
# The first match of a descent

A recursive segment with a first-match mark reports the first place that it reports without the
mark.  The marked descent does what the full one does until a place is found, and passes over
everything from then on.  So it never is ahead of the full descent, and as long as nothing is found
the two are at the same store (`Context.Trails`).

The full descent only appends to what it has found, which is why the first place stays the first.

## Main statements

- `Context.descend_first`: a marked descent finds the first of what a full one finds.
- `Context.collect_first`: a marked recursive segment reports the first of what the full one does.
-/

namespace DottedPath

/-- The descent with or without the first-match mark. -/
def Recursion.marked (r : Recursion) (first : Bool) : Recursion :=
  { r with first }

namespace Context

open Eval (Answers)

variable {ctx : Context} {r : Recursion} {n : Nat}

/-! ### What the mark has no part in -/

/-- How far the leaves are does not depend on the mark. -/
theorem leafDistanceWithin_marked (ctx : Context) (r : Recursion) (first : Bool) : ∀ (n : Nat)
    (above : List Handle) (node : Value),
    ctx.leafDistanceWithin (r.marked first) n above node = ctx.leafDistanceWithin r n above node
  | 0, _, _ => rfl
  | n + 1, above, node => by
    rw [leafDistanceWithin, leafDistanceWithin]
    simp only [leafDistanceWithin_marked ctx r first n]
    rfl

theorem reportsChild_marked (ctx : Context) (r : Recursion) (first : Bool) (depth : Nat)
    (child : Child) :
    ctx.reportsChild (r.marked first) depth child = ctx.reportsChild r depth child := by
  unfold reportsChild reports leafDistance
  simp only [leafDistanceWithin_marked]
  rfl

/-- With nothing found yet, a step of a descent does the same whether there is a mark or not. -/
theorem descendChild_marked (ctx : Context) (r : Recursion) (first : Bool) (n : Nat)
    (above : List Handle) (base : Location) (depth : Nat) (child : Child) :
    ctx.descendChild (r.marked first) n above base depth [] child = (do
      let hit ← ctx.reportsChild r depth child
      ctx.enterChild (r.marked first) n above base depth child
        (if hit then [(base ++ [child.step], child.value)] else [])) := by
  unfold descendChild
  rw [reportsChild_marked, List.isEmpty_nil, Bool.not_true, Bool.and_false,
    if_neg Bool.false_ne_true]
  rfl

/-- A marked descent passes over the children once something is found. -/
theorem descendChild_found {found : List Found} (hfound : found ≠ []) (above : List Handle)
    (base : Location) (depth : Nat) (child : Child) :
    ctx.descendChild (r.marked true) n above base depth found child = pure found := by
  cases found with
  | nil => exact absurd rfl hfound
  | cons p found => rfl

/-! ### Nothing found is lost -/

theorem enterChild_extends
    (hdescend : ∀ above base depth node found,
      Answers (ctx.descend r n above base depth node found) (found <+: ·))
    (above : List Handle) (base : Location) (depth : Nat) (child : Child) (found : List Found) :
    Answers (ctx.enterChild r n above base depth child found) (found <+: ·) := by
  unfold enterChild
  split
  · exact .pure List.prefix_rfl
  · exact hdescend _ _ _ _ _

theorem descendChild_extends
    (hdescend : ∀ above base depth node found,
      Answers (ctx.descend r n above base depth node found) (found <+: ·))
    (above : List Handle) (base : Location) (depth : Nat) (found : List Found) (child : Child) :
    Answers (ctx.descendChild r n above base depth found child) (found <+: ·) := by
  have hhit (hit : Bool) (p : Found) : found <+: if hit then found ++ [p] else found := by
    split
    · exact List.prefix_append found [p]
    · exact List.prefix_rfl
  have hrest (hit : Bool) := (enterChild_extends hdescend above base depth child _).mono
    fun _ hmore => (hhit hit (base ++ [child.step], child.value)).trans hmore
  unfold descendChild
  split
  · exact .pure List.prefix_rfl
  · exact .of_rest hrest

/-- A descent only appends to what it has found. -/
theorem descend_extends (ctx : Context) (r : Recursion) : ∀ (n : Nat) (above : List Handle)
    (base : Location) (depth : Nat) (node : Value) (found : List Found),
    Answers (ctx.descend r n above base depth node found) (found <+: ·)
  | 0, _, _, _, _, _ => .pure List.prefix_rfl
  | n + 1, above, base, depth, node, found => by
    rw [descend_succ]
    refine .of_rest fun cs => Answers.foldlM (fun found' child hfound' => ?_) cs List.prefix_rfl
    exact (descendChild_extends (descend_extends ctx r n) above base depth found' child).mono
      fun _ hmore => hfound'.trans hmore

/-! ### The two descents side by side -/

/-- A marked descent is at a store `u` when the full one, which has found `found`, is at `t`. -/
structure Trails (ctx : Context) (found : List Found) (u t : Store) : Prop where
  same : found = [] → u = t
  grows : ctx.registry.Grows → u.GrowsTo t

namespace Trails

variable {found more : List Found} {s t u : Store}

theorem refl (ctx : Context) (found : List Found) (s : Store) : ctx.Trails found s s :=
  ⟨fun _ => rfl, fun _ => .refl s⟩

/-- The marked descent stays where it is once something is found. -/
theorem stay (h : ctx.Trails found u s) (hfound : found ≠ []) (hmore : found <+: more)
    (hst : ctx.registry.Grows → s.GrowsTo t) : ctx.Trails more u t where
  same hnil := absurd (List.prefix_nil.mp (hnil ▸ hmore)) hfound
  grows hreg := (h.grows hreg).trans (hst hreg)

end Trails

/-- What is found first stays first. -/
theorem take_one_of_prefix {found more : List Found} (hfound : found ≠ [])
    (hmore : found <+: more) : more.take 1 = found.take 1 := by
  obtain ⟨rest, rfl⟩ := hmore
  obtain ⟨p, found, rfl⟩ := List.exists_cons_of_ne_nil hfound
  rfl

/-- From one store, the marked descent finds the first of what the full one does. -/
def Heads (ctx : Context) (full marked : List Found → Eval (List Found)) : Prop :=
  ∀ (found more : List Found) (s t : Store), full found s = (.ok more, t) →
    ∃ w, marked (found.take 1) s = (.ok (more.take 1), w) ∧ ctx.Trails more w t

/-- From wherever it is behind the full descent, the marked one finds the first of what this
does. -/
def Follows (ctx : Context) (full marked : List Found → Eval (List Found)) : Prop :=
  ∀ (found more : List Found) (u s t : Store), ctx.Trails found u s → full found s = (.ok more, t) →
    ∃ w, marked (found.take 1) u = (.ok (more.take 1), w) ∧ ctx.Trails more w t

theorem Follows.foldlM {full marked : List Found → Child → Eval (List Found)}
    (hstep : ∀ child, ctx.Follows (full · child) (marked · child)) : ∀ cs : List Child,
    ctx.Follows (cs.foldlM full ·) (cs.foldlM marked ·)
  | [] => by
    rintro found more u s t htrails hrun
    cases hrun
    exact ⟨u, rfl, htrails⟩
  | child :: cs => by
    intro found more u s t htrails hrun
    dsimp only at hrun ⊢
    rw [List.foldlM_cons] at hrun
    obtain ⟨found', s', hfull, hrest⟩ := Eval.bind_eq_ok hrun
    obtain ⟨u', hmarked, htrails'⟩ := hstep child found found' u s s' htrails hfull
    obtain ⟨w, hloop, hw⟩ := Follows.foldlM hstep cs found' more u' s' t htrails' hrest
    refine ⟨w, ?_, hw⟩
    rw [List.foldlM_cons, Eval.run_bind_of_ok hmarked]
    exact hloop

section Step

variable (hdescend : ∀ above base depth node,
  ctx.Heads (ctx.descend (r.marked false) n above base depth node)
    (ctx.descend (r.marked true) n above base depth node))

include hdescend

theorem enterChild_first (above : List Handle) (base : Location) (depth : Nat) (child : Child) :
    ctx.Heads (ctx.enterChild (r.marked false) n above base depth child)
      (ctx.enterChild (r.marked true) n above base depth child) := by
  intro found more s t hrun
  unfold enterChild at hrun ⊢
  split at hrun
  · rename_i hclosed
    rw [if_pos hclosed]
    cases hrun
    exact ⟨s, rfl, .refl ctx found s⟩
  · rename_i hopen
    rw [if_neg hopen]
    exact hdescend _ _ _ _ found more s t hrun

/-- At a child the marked descent does what the full one does, or it is done already. -/
theorem descendChild_first (above : List Handle) (base : Location) (depth : Nat) (child : Child) :
    ctx.Follows (ctx.descendChild (r.marked false) n above base depth · child)
      (ctx.descendChild (r.marked true) n above base depth · child) := by
  intro found more u s t htrails hrun
  dsimp only at hrun ⊢
  by_cases hfound : found = []
  · subst hfound
    rw [htrails.same rfl]
    rw [descendChild_marked] at hrun
    obtain ⟨hit, mid, hhit, hrest⟩ := Eval.bind_eq_ok hrun
    obtain ⟨w, henter, hw⟩ := enterChild_first hdescend above base depth child _ more mid t hrest
    refine ⟨w, ?_, hw⟩
    -- what is found at the child is found first
    have hone : (if hit then [(base ++ [child.step], child.value)] else [] : List Found).take 1 =
        if hit then [(base ++ [child.step], child.value)] else [] := by
      split <;> rfl
    rw [List.take_nil, descendChild_marked, Eval.run_bind_of_ok hhit, ← hone]
    exact henter
  · have hmore : found <+: more :=
      descendChild_extends (descend_extends ctx (r.marked false) n) above base depth found child s
        more t hrun
    refine ⟨u, ?_, htrails.stay hfound hmore fun hreg => ?_⟩
    · have htake : found.take 1 ≠ [] := by simpa using hfound
      rw [descendChild_found htake, take_one_of_prefix hfound hmore]
      rfl
    · have hgrows := (descendChild_grows hreg (descend_grows hreg (r.marked false) n) above base
        depth found child s).grows
      rwa [hrun] at hgrows

end Step

/-- **A marked descent finds the first of what a full one finds.** -/
theorem descend_first (ctx : Context) (r : Recursion) : ∀ (n : Nat) (above : List Handle)
    (base : Location) (depth : Nat) (node : Value),
    ctx.Heads (ctx.descend (r.marked false) n above base depth node)
      (ctx.descend (r.marked true) n above base depth node)
  | 0, _, _, _, _ => by
    intro found more s t hrun
    cases hrun
    exact ⟨s, rfl, .refl ctx found s⟩
  | n + 1, above, base, depth, node => by
    intro found more s t hrun
    rw [descend_succ] at hrun
    obtain ⟨cs, mid, hchildren, hloop⟩ := Eval.bind_eq_ok hrun
    have hfollows := Follows.foldlM (descendChild_first (descend_first ctx r n) above base depth) cs
    obtain ⟨w, hmarked, hw⟩ := hfollows found more mid mid t (.refl ctx found mid) hloop
    refine ⟨w, ?_, hw⟩
    have hchildren' : ctx.children (r.marked true) node s = (.ok cs, mid) := hchildren
    rw [descend_succ, Eval.run_bind_of_ok hchildren']
    exact hmarked

variable {node : Value} {found : List Found} {s t : Store}

/-- **First-match recursion is the head of full recursion.**  If a recursive segment reports places
of a value, then with a first-match mark it reports the first of them, or nothing if there are none.
What it adds to the store on the way is part of what the full descent adds. -/
theorem collect_first (ctx : Context) (r : Recursion)
    (hfull : ctx.collect { r with first := false } node s = (.ok found, t)) :
    ∃ u, ctx.collect { r with first := true } node s = (.ok found.head?.toList, u) ∧
      (ctx.registry.Grows → u.GrowsTo t) := by
  obtain ⟨s', mid, hstore, hfull⟩ := Eval.bind_eq_ok hfull
  cases hstore
  obtain ⟨all, mid, hdescend, hall⟩ := Eval.bind_eq_ok hfull
  -- without the mark everything is kept
  have hkept : firstOnly false all = found ∧ mid = t := by
    cases hall
    exact ⟨rfl, rfl⟩
  obtain ⟨rfl, rfl⟩ := hkept
  obtain ⟨u, hmarked, hu⟩ := descend_first ctx r _ _ _ _ node [] all s mid hdescend
  refine ⟨u, ?_, hu.grows⟩
  have hdescend' : ctx.descend { r with first := true } (s.size + 2) node.handle?.toList [] 0 node
      [] s = (.ok (all.take 1), u) := hmarked
  rw [collect, Eval.run_bind_of_ok (Eval.run_store s), Eval.run_bind_of_ok hdescend']
  cases all with
  | nil => rfl
  | cons p all => rfl

end Context

/-- The first place below the top level, in a dict and a dict that hold each other. -/
theorem collect_first_window :
    let ctx : Context := ⟨.builtin, false⟩
    let r : Recursion := ⟨.wildcard, [], ⟨some 1, none, some 1⟩, none, false⟩
    let s : Store := ⟨#[.dict [(.str "name", .str "a"), (.str "below", .ref ⟨1⟩)],
      .dict [(.str "name", .str "b"), (.str "up", .ref ⟨0⟩)]]⟩
    let found : List Found := [([.key (.str "below"), .key (.str "name")], .str "b"),
      ([.key (.str "below"), .key (.str "up")], .ref ⟨0⟩)]
    ctx.collect r (.ref ⟨0⟩) s = (.ok found, s) ∧
      ∃ u, ctx.collect { r with first := true } (.ref ⟨0⟩) s = (.ok (found.take 1), u) ∧
        u.GrowsTo s := by
  intro ctx r s found
  have hfull : ctx.collect { r with first := false } (.ref ⟨0⟩) s = (.ok found, s) := by cbv
  obtain ⟨u, hmarked, hgrows⟩ := ctx.collect_first r hfull
  exact ⟨hfull, u, hmarked, hgrows Registry.builtin_grows⟩

end DottedPath
