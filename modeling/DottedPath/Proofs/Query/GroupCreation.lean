import Mathlib.Data.List.Pairwise
import DottedPath.Proofs.Query.KeyInsertion
import DottedPath.Proofs.Query.TreeLeaves

/-!
# Creation through groups of paths

Groups of paths of text keys make what is missing.  Alternatives of which none is there make the
last one; a conjunction makes every one of its paths, since such a path can always be made
(`Context.updateAll_keys`).  No update along text keys fails (`Context.exists_update_keyEdit`), so
none of the groups does.

## Main statements

- `Context.update_groups_of_keys`: both kinds of groups as updates along their paths.
- `Context.find_created_alternative`: what is found after alternatives were made in a tree.
-/

namespace DottedPath

instance : Std.Symm Diverge := ⟨fun _ _ => Diverge.symm⟩

/-- Paths of text keys as the branches of a group without cuts. -/
def keyBranches (paths : List (List String)) : List Branch :=
  paths.map fun ks => .mk (ks.map keySegment) .none

namespace Segment

/-- Alternatives: paths of text keys in parentheses, with commas between them. -/
def anyKeys (paths : List (List String)) : Segment :=
  .group .or (keyBranches paths) false

/-- A conjunction: paths of text keys in parentheses, with ampersands between them.  Parentheses
make alternatives, so it is the only one of them. -/
def allKeys (paths : List (List String)) : Segment :=
  .group .or [.mk [.group .and (keyBranches paths) false] .none] false

end Segment

namespace Context

variable (ctx : Context) {s : Store} {root v : Value} {paths : List (List String)}

/-! ### Updates along keys succeed -/

theorem exists_upsert_key (key : String) (w x : Value) (s : Store) :
    ∃ w' t, ctx.upsert (keySegment key) w x s = (.ok w', t) :=
  ⟨_, _, ctx.upsert_literal .key (.str key) false w x s⟩

/-- An update along text keys succeeds on every value. -/
theorem exists_update_keyEdit (v : Value) : ∀ (ks : List String) (built : Bool) (w : Value)
    (s : Store), ∃ w' t, (ctx.keyEdit ks).update built false (.value v) w s = (.ok w', t)
  | [], _, _, s => ⟨v, s, rfl⟩
  | [key], built, w, s => by
    rw [update_keyEdit_cons, updateParts, Eval.run_bind_of_ok (Eval.run_store s)]
    cases s.isEnterable w with
    | false => exact ⟨w, s, rfl⟩
    | true => exact ctx.exists_upsert_key key w v s
  | key :: next :: ks, built, w, s => by
    have hitems := ctx.items_key key w s
    have hselects := ctx.selectsNothing_key key w s
    have hstarts : (ctx.keyEdit (next :: ks)).startsSilent = false := by
      rw [Edit.startsSilent, segments_keyEdit]
      rfl
    rw [update_keyEdit_cons, updateParts, Eval.run_bind_of_ok (Eval.run_store s)]
    cases s.isEnterable w with
    | false => exact ⟨w, s, rfl⟩
    | true =>
      rw [Bool.not_true, if_neg Bool.false_ne_true, isEnd_keyEdit_cons, if_neg Bool.false_ne_true,
        Eval.run_bind_of_ok hselects]
      split
      · -- The dicts of the rest are built and written, and then stored.
        obtain ⟨b, t, hbuild, -⟩ := ctx.buildDefault_keys ks next s
        obtain ⟨x, u, hrest⟩ := exists_update_keyEdit v (next :: ks) true b t
        rw [hstarts, Bool.or_false, if_neg Bool.false_ne_true, segments_keyEdit,
          Eval.run_bind_of_ok hbuild, Eval.run_bind_of_ok hrest]
        exact ctx.exists_upsert_key key w x u
      · rw [Eval.run_bind_of_ok hitems]
        cases s.dictGet? w (.str key) with
        | none => exact ⟨w, s, rfl⟩
        | some c =>
          rw [Option.map_some, Option.toList_some, List.foldlM_cons]
          simp only [List.foldlM_nil, bind_pure]
          split
          · obtain ⟨b, t, hbuild, -⟩ := ctx.buildDefault_keys ks next s
            obtain ⟨x, u, hrest⟩ := exists_update_keyEdit v (next :: ks) built b t
            rw [segments_keyEdit, Eval.run_bind_of_ok hbuild, Eval.run_bind_of_ok hrest,
              Eval.run_lift]
            exact ⟨_, _, rfl⟩
          · obtain ⟨x, u, hrest⟩ := exists_update_keyEdit v (next :: ks) built c s
            rw [pure_bind, Eval.run_bind_of_ok hrest, Eval.run_lift]
            exact ⟨_, _, rfl⟩

/-- Updates along paths of text keys, one after the other, succeed. -/
theorem exists_foldlM_update_keys (v : Value) : ∀ (paths : List (List String)) (w : Value)
    (s : Store), ∃ w' t,
      paths.foldlM (fun node ks => ctx.update (ks.map keySegment) node (.value v)) w s = (.ok w', t)
  | [], w, s => ⟨w, s, rfl⟩
  | ks :: paths, w, s => by
    obtain ⟨x, t, hfirst⟩ := ctx.exists_update_keyEdit v ks false w s
    obtain ⟨w', u, hrest⟩ := exists_foldlM_update_keys v paths x t
    refine ⟨w', u, ?_⟩
    rw [List.foldlM_cons, ← hrest]
    exact Eval.run_bind_of_ok hfirst

/-! ### Branches of keys -/

theorem branchEdits_keyBranches : ∀ paths : List (List String),
    ctx.branchEdits (keyBranches paths) .done =
      paths.map fun ks => (.mk (ks.map keySegment) .none, ctx.keyEdit ks)
  | [] => rfl
  | ks :: paths =>
    congrArg (List.cons (Branch.mk (ks.map keySegment) .none, ctx.keyEdit ks))
      (branchEdits_keyBranches paths)

/-- A path of text keys names one place. -/
theorem isConcrete_keys (ks : List String) (cut : Cut) :
    (Branch.mk (ks.map keySegment) cut).isConcrete = true := by
  have hany : (ks.map keySegment).any Segment.isPattern = false := by
    rw [List.any_eq_false]
    intro seg hseg
    obtain ⟨key, -, rfl⟩ := List.mem_map.mp hseg
    exact Bool.false_ne_true
  rw [Branch.isConcrete, Branch.segments, hany, Bool.not_false]

/-- It has no filter, so that it can be created. -/
theorem startsFiltered_keys (ks : List String) (cut : Cut) :
    (Branch.mk (ks.map keySegment) cut).startsFiltered = false := by
  cases ks <;> rfl

/-! ### Alternatives -/

/-- Alternatives are written as such, unless they are parentheses around a group. -/
theorem segmentEdit_or {branches : List Branch}
    (h : ∀ b ∈ branches, ∀ kind bs first, b.segments ≠ [.group kind bs first]) (rest : Edit) :
    ctx.segmentEdit (.group .or branches false) rest =
      ctx.disjunctionEdit (ctx.branchEdits branches rest) false := by
  rw [segmentEdit]
  rintro kind bs first - rfl -
  exact h _ (List.mem_singleton_self _) kind bs first rfl

/-- An update of alternatives writes the branches that are there, else the one to create. -/
theorem update_or {branches : List Branch} {more : List Segment}
    (h : ∀ b ∈ branches, ∀ kind bs first, b.segments ≠ [.group kind bs first]) (root : Value)
    (val : Operand) :
    ctx.update (.group .or branches false :: more) root val =
      (ctx.updateMatching (.ofPath false false) val
        (ctx.branchEdits branches (ctx.pathEdit more .done)) [] root >>= fun p =>
          if p.2 then pure p.1
          else updateFallback (ctx.branchEdits branches (ctx.pathEdit more .done))
            (.ofPath false false) val p.1) := by
  show (ctx.segmentEdit (.group .or branches false) (ctx.pathEdit more .done)).update
    (.ofPath false false) val root = _
  rw [ctx.segmentEdit_or h]
  rfl

/-- Branches of which none is there leave everything as it is. -/
theorem updateMatching_of_nothing (mode : UpdateMode) (val : Operand) (hidden : List Location)
    (root : Value) : ∀ {branches : List (Branch × Edit)},
    (∀ b ∈ branches, ctx.find b.2.segments root s = (.ok [], s)) →
    ctx.updateMatching mode val branches hidden root s = (.ok (root, false), s)
  | [], _ => rfl
  | (b, e) :: bs, hnone => by
    obtain ⟨hhead, hrest⟩ := List.forall_mem_cons.mp hnone
    have hlocations : ctx.locations e.segments root s = (.ok [], s) := by
      rw [locations, Eval.run_bind_of_ok hhead]
      rfl
    have houtside : ctx.locationsOutside hidden e.segments root s = (.ok [], s) := by
      rw [locationsOutside, Eval.run_bind_of_ok hlocations, Eval.run_bind_of_ok (Eval.run_store s)]
      rfl
    rw [updateMatching, Eval.run_bind_of_ok houtside]
    exact updateMatching_of_nothing mode val hidden root hrest

/-- Of paths of text keys the last one is created. -/
theorem updateFallback_keys (hpaths : paths ≠ []) (mode : UpdateMode) (val : Operand)
    (node : Value) :
    updateFallback (ctx.branchEdits (keyBranches paths) .done) mode val node =
      (ctx.keyEdit (paths.getLast hpaths)).update mode.built mode.silent val node := by
  obtain ⟨before, last, rfl⟩ : ∃ before last, paths = before ++ [last] :=
    ⟨_, _, (List.dropLast_append_getLast hpaths).symm⟩
  rw [updateFallback, branchEdits_keyBranches, List.map_append, List.reverse_append,
    List.map_singleton, List.reverse_singleton, List.singleton_append,
    List.find?_cons_of_pos (by exact isConcrete_keys last .none), List.getLast_append_singleton]

/-- Alternatives of which none is there are made by an update along the last one. -/
theorem update_anyKeys (hpaths : paths ≠ [])
    (hnone : ∀ ks ∈ paths, s.atKeys? root ks = none) :
    ctx.update [.anyKeys paths] root (.value v) s =
      ctx.update ((paths.getLast hpaths).map keySegment) root (.value v) s := by
  have hmatching : ctx.updateMatching (.ofPath false false) (.value v)
      (ctx.branchEdits (keyBranches paths) .done) [] root s = (.ok (root, false), s) := by
    refine ctx.updateMatching_of_nothing _ _ _ _ fun b hb => ?_
    rw [branchEdits_keyBranches] at hb
    obtain ⟨ks, hks, rfl⟩ := List.mem_map.mp hb
    rw [segments_keyEdit, find_keys, hnone ks hks]
    rfl
  have hplain : ∀ b ∈ keyBranches paths, ∀ kind bs first, b.segments ≠ [.group kind bs first] := by
    intro b hb kind branches first hgroup
    obtain ⟨ks, -, rfl⟩ := List.mem_map.mp hb
    change ks.map keySegment = _ at hgroup
    obtain ⟨key, -, hkey⟩ := List.mem_map.mp (hgroup ▸ List.mem_singleton_self _)
    cases hkey
  rw [Segment.anyKeys, ctx.update_or hplain]
  show (ctx.updateMatching _ _ (ctx.branchEdits _ .done) _ _ >>= _) s = _
  rw [Eval.run_bind_of_ok hmatching]
  show updateFallback (ctx.branchEdits _ .done) _ _ _ s = _
  rw [updateFallback_keys ctx hpaths]
  rfl

/-! ### Conjunctions -/

/-- A test that fails everywhere, and without an effect. -/
theorem anyM_eq_false {α : Type} {p : α → Eval Bool} {xs : List α}
    (hp : ∀ x ∈ xs, p x = pure false) : xs.anyM p = pure false := by
  induction xs with
  | nil => rfl
  | cons x xs ih =>
    obtain ⟨hx, hxs⟩ := List.forall_mem_cons.mp hp
    rw [List.anyM, hx, pure_bind]
    exact ih hxs

/-- Paths of text keys do not stand in each other's way: each of them can be made. -/
theorem updateAll_keys (mode : UpdateMode) (val : Operand) (paths : List (List String))
    (node : Value) :
    ctx.updateAll (ctx.branchEdits (keyBranches paths) .done) mode val node =
      paths.foldlM (fun node ks =>
        (ctx.keyEdit ks).update mode.built mode.silent val node) node := by
  rw [updateAll, anyM_eq_false, pure_bind, if_neg Bool.false_ne_true, branchEdits_keyBranches,
    List.foldlM_map]
  intro b hb
  rw [branchEdits_keyBranches] at hb
  obtain ⟨ks, -, rfl⟩ := List.mem_map.mp hb
  dsimp only
  rw [isConcrete_keys, startsFiltered_keys, Bool.not_false, Bool.and_self, if_pos rfl]

/-- A conjunction is updated along its paths in turn, whether they are there or not. -/
theorem update_allKeys (paths : List (List String)) (root v : Value) :
    ctx.update [.allKeys paths] root (.value v) =
      paths.foldlM (fun node ks => ctx.update (ks.map keySegment) node (.value v)) root := by
  show (ctx.segmentEdit (.allKeys paths) .done).update (.ofPath false false) (.value v) root = _
  rw [Segment.allKeys, segmentEdit.eq_2, segmentEdit]
  exact ctx.updateAll_keys _ _ paths root

/-! ### Groups -/

/-- **Groups of paths of text keys create what is missing**, in every value.

Alternatives of which none is there are updated as the last of them, and conjunctions as their paths
one after the other, whichever of these are there.  Neither fails. -/
theorem update_groups_of_keys (s : Store) (root v : Value) {paths : List (List String)}
    (hpaths : paths ≠ []) :
    ((∀ ks ∈ paths, (ctx.find (ks.map keySegment) root s).1 = .ok []) → ∃ root' t,
      ctx.update [.anyKeys paths] root (.value v) s = (.ok root', t) ∧
      ctx.update ((paths.getLast hpaths).map keySegment) root (.value v) s = (.ok root', t)) ∧
    ∃ root' t, ctx.update [.allKeys paths] root (.value v) s = (.ok root', t) ∧
      paths.foldlM (fun node ks => ctx.update (ks.map keySegment) node (.value v)) root s =
        (.ok root', t) := by
  constructor
  · intro hfound
    obtain ⟨root', t, hlast⟩ := ctx.exists_update_keyEdit v (paths.getLast hpaths) false root s
    have hnone : ∀ ks ∈ paths, s.atKeys? root ks = none := fun ks hks => by
      simpa [find_keys] using hfound ks hks
    refine ⟨root', t, ?_, hlast⟩
    rw [ctx.update_anyKeys hpaths hnone]
    exact hlast
  · obtain ⟨root', t, hall⟩ := ctx.exists_foldlM_update_keys v paths root s
    exact ⟨root', t, by rw [ctx.update_allKeys, hall], hall⟩

/-- One path leads nowhere since there is a dict without its last key, another since there is
nothing at its first. -/
theorem update_groups_of_keys_missing :
    let ctx : Context := ⟨.empty, false⟩
    let s : Store := ⟨#[.dict [(.str "a", .ref ⟨1⟩)], .dict [(.str "x", .int 1)]]⟩
    let root : Value := .ref ⟨0⟩
    let paths : List (List String) := [["b", "c"], ["a", "y"]]
    (∃ root' t, ctx.update [.anyKeys paths] root (.value (.int 7)) s = (.ok root', t) ∧
      ctx.update (["a", "y"].map keySegment) root (.value (.int 7)) s = (.ok root', t)) ∧
    ∃ root' t, ctx.update [.allKeys paths] root (.value (.int 7)) s = (.ok root', t) ∧
      paths.foldlM (fun node ks => ctx.update (ks.map keySegment) node (.value (.int 7))) root s =
        (.ok root', t) := by
  intro ctx s root paths
  have hd : s.get? ⟨0⟩ = some (.dict [(.str "a", .ref ⟨1⟩)]) := rfl
  have hd' : s.get? ⟨1⟩ = some (.dict [(.str "x", .int 1)]) := rfl
  obtain ⟨hany, hall⟩ :=
    ctx.update_groups_of_keys s root (.int 7) (List.cons_ne_nil ["b", "c"] [["a", "y"]])
  refine ⟨hany ?_, hall⟩
  intro ks hks
  rcases List.mem_pair.mp hks with rfl | rfl
  · rw [find_keys, Store.atKeys?_cons_of_get? hd, Store.lookup?_str]
    rfl
  · rw [find_keys, Store.atKeys?_cons_of_get? hd, Store.lookup?_str]
    show (Except.ok (((s.atKeys? (.ref ⟨1⟩) ["y"]).map _).toList) : Except Error _) = _
    rw [Store.atKeys?_cons_of_get? hd', Store.lookup?_str]
    rfl

/-- **After alternatives were made in a tree, the last of them is found and no other**, provided
that they are apart and that nothing is in the way of the last one. -/
theorem find_created_alternative {r : Handle} {es : List (Value × Value)} (v : Value)
    (hd : s.get? r = some (.dict es)) (hgraph : s.HoldsGraph (.ref r)) (htree : s.IsTree (.ref r))
    (hpaths : paths ≠ []) (hapart : paths.Pairwise Diverge)
    (hnone : ∀ ks ∈ paths, s.atKeys? (.ref r) ks = none)
    (hopen : s.Open (.ref r) (paths.getLast hpaths)) :
    ∃ t, ctx.update [.anyKeys paths] (.ref r) (.value v) s = (.ok (.ref r), t) ∧
      ∀ ks ∈ paths, (ctx.find (ks.map keySegment) (.ref r) t).1 =
        .ok (if ks = paths.getLast hpaths then [(keyLocation ks, v)] else []) := by
  have hlast := List.getLast_mem hpaths
  generalize hkeys : paths.getLast hpaths = last at *
  obtain ⟨key, rest, rfl⟩ : ∃ key rest, last = key :: rest := by
    refine List.exists_cons_of_ne_nil ?_
    rintro rfl
    cases hnone [] hlast
  obtain ⟨t, before, g, gs, k, behind, x, hsplit, hupdate, hinserts⟩ :=
    ctx.update_inserts v hd htree hopen
  refine ⟨t, by rw [ctx.update_anyKeys hpaths hnone, hkeys]; exact hupdate, fun ks hks => ?_⟩
  rw [find_keys]
  split
  · rename_i heq
    rw [heq, hsplit, hinserts.atKeys?_self hgraph htree]
    rfl
  · rename_i hne
    obtain ⟨hbelow, habove⟩ : Diverge ks (key :: rest) :=
      hapart.forall hks hlast hne
    rw [hsplit] at hbelow habove
    rw [hinserts.atKeys?_of_apart hgraph htree habove hbelow, hnone ks hks]
    rfl

end Context

end DottedPath
