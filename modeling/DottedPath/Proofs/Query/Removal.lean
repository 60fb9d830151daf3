import DottedPath.Proofs.Evaluate.SelectedPlaces
import DottedPath.Proofs.Evaluate.SlotPops
import DottedPath.Proofs.Evaluate.TreeWrite
import DottedPath.Proofs.Query.FindUpdated
import DottedPath.Proofs.Value.KeptEquality
import Mathlib.Data.List.Sort

/-!
# A removal takes what a reading finds

A removal along a path of simple segments takes from a tree what is at the places that reading the
path reports, as far as the operand accepts it, and nothing else (`Context.remove_found`).  What
stays keeps its order; containers that cannot be edited are built anew on the way (`Tree.Remade`).

The keys of the tree have no doubles in them: a NaN is never found again, so that what reading reports
there cannot be removed (`Context.remove_nan_key`).
-/

namespace DottedPath

open Forest

variable {s r : Store} {seg : Segment} {segs : List Segment} {t u : Tree} {h : Handle} {f : Form}
  {ts : List Tree} {is : List Nat} {places : List (List Nat)} {edited : List Handle} {val : Operand}

/-! ### Parts of trees -/

/-- What goes over to the parts in the slots of a container goes over to all parts. -/
theorem Tree.at?_induction {P : Tree → Prop}
    (hparts : ∀ h f ts, P (.node h f ts) → ∀ u ∈ ts, P u) : ∀ {p : List Nat} {t u : Tree}, P t →
    t.at? p = some u → P u
  | [], t, u, ht, hu => by
    cases hu
    exact ht
  | i :: p, .leaf v, u, _, hu => by cases hu
  | i :: p, .node h f ts, u, ht, hu => by
    obtain ⟨w, hw, hu⟩ := Option.bind_eq_some_iff.mp hu
    exact at?_induction hparts (hparts h f ts ht w (List.mem_of_getElem? hw)) hu

theorem Tree.Keyed.at? {p : List Nat} (hkeyed : t.Keyed s) (hu : t.at? p = some u) : u.Keyed s :=
  at?_induction (P := (·.Keyed s)) (fun h f ts ht => by cases ht with | node _ parts => exact parts)
    hkeyed hu

theorem Tree.Leaves.at? {P : Scalar → Prop} {p : List Nat} (hleaves : t.Leaves P)
    (hu : t.at? p = some u) : u.Leaves P :=
  at?_induction (P := (·.Leaves P)) (fun h f ts ht => by cases ht with | node parts => exact parts)
    hleaves hu

theorem Tree.Leaves.mono {P Q : Scalar → Prop} (hPQ : ∀ x, P x → Q x) (hleaves : t.Leaves P) :
    t.Leaves Q := by
  induction hleaves with
  | leaf h => exact .leaf (hPQ _ h)
  | node _ ih => exact .node ih

theorem Tree.Bare.keyed (hbare : t.Bare s) : t.Keyed s := by
  induction hbare with
  | leaf => exact .leaf _
  | node keyed _ ih => exact .node keyed ih

theorem Tree.Bare.leaves (hbare : t.Bare s) : t.Leaves fun x => x.isClosed = true := by
  induction hbare with
  | leaf closed => exact .leaf closed
  | node _ _ ih => exact .node ih

/-! ### Trees built anew -/

/-- The first tree is the second one, where new containers may stand for those that cannot be
edited. -/
inductive Tree.Remade : Tree → Tree → Prop where
  | leaf (v : Value) : Remade (.leaf v) (.leaf v)
  | node {h h' : Handle} {f : Form} {us ts : List Tree} (same : f.isCopied = false → h' = h)
    (length : us.length = ts.length)
    (parts : ∀ (i : Nat) u t, us[i]? = some u → ts[i]? = some t → Remade u t) :
    Remade (.node h' f us) (.node h f ts)

protected theorem Tree.Remade.refl (t : Tree) : t.Remade t := by
  induction t using Tree.induction with
  | leaf v => exact .leaf v
  | node h f ts ih =>
    refine .node (fun _ => rfl) rfl fun i u t hu ht => ?_
    cases hu.symm.trans ht
    exact ih u (List.mem_of_getElem? hu)

/-- A container built anew of the same parts. -/
theorem Tree.Remade.of_same {h' : Handle} (same : f.isCopied = false → h' = h) (ts : List Tree) :
    (Tree.node h' f ts).Remade (.node h f ts) := by
  refine .node same rfl fun i u t hu ht => ?_
  cases hu.symm.trans ht
  exact .refl u

@[simp] theorem Form.isCopied_without (positions : List Int) (f : Form) :
    (f.without positions).isCopied = f.isCopied := by
  cases f <;> rfl

/-! ### What is taken -/

namespace Operand

/-- A place is one of some, and the operand accepts what is there. -/
def hits (val : Operand) (s : Store) (t : Tree) (places : List (List Nat)) (p : List Nat) : Bool :=
  places.contains p && (t.at? p).any fun u => val.accepts s u.value

/-- Whether the operand accepts what is in the tree does not change by edits of some containers. -/
def Steady (val : Operand) (edited : List Handle) (s : Store) (t : Tree) : Prop :=
  ∀ p u, t.at? p = some u → ∀ r, s.EditsOnly edited r → Lies r [u] →
    val.accepts r u.value = val.accepts s u.value

theorem Steady.part {i : Nat} (hi : ts[i]? = some t) (hval : val.Steady edited s (.node h f ts)) :
    val.Steady edited s t := by
  intro p u hu
  refine hval (i :: p) u ?_
  rw [Tree.at?, hi]
  exact hu

theorem Steady.self (hval : val.Steady edited s t) (hr : s.EditsOnly edited r) (hlies : Lies r [t]) :
    val.accepts r t.value = val.accepts s t.value :=
  hval [] t (by cases t <;> rfl) r hr hlies

/-- The operand shares no container with the tree. -/
def Beside (s : Store) (t : Tree) : Operand → Prop
  | any => True
  | value v => s.HoldsGraph v ∧ ∀ h, s.Reaches v (.ref h) → h ∉ t.handles

/-- Such an operand accepts what it accepted, whatever has become of the tree elsewhere. -/
theorem Beside.steady {P : Scalar → Prop} (hval : val.Beside s t) (hlies : Lies s [t])
    (hkeyed : t.Keyed s) (hleaves : t.Leaves P) : val.Steady t.handles s t := by
  intro p u hu r hr hlies'
  cases val with
  | any => rfl
  | value v =>
    obtain ⟨hgraph, hapart⟩ := hval
    have hstored := (hlies.at? hu).stored u (List.mem_singleton_self u)
    have hstored' := hlies'.stored u (List.mem_singleton_self u)
    obtain ⟨n, hlevels⟩ := hstored.exists_levels (hkeyed.at? hu) (hleaves.at? hu)
    refine Store.equals_of_unchanged hr.size hlevels (fun h hreach => ?_)
      (hstored.unchanged hr.retains.keepsCopied hstored' (hkeyed.at? hu) (hleaves.at? hu))
    obtain ⟨c, hc⟩ := Store.get?_of_lt (Store.holds_ref.mp (hgraph _ hreach))
    rw [hc]
    exact hr.kept h c hc fun hmem => absurd hmem (hapart h hreach)

variable {below : Nat → List (List Nat)} {i : Nat}

/-- In a slot that is gone through the places below it are hit. -/
theorem hits_of_mem (hi : i ∈ is) (hget : ts[i]? = some t) (q : List Nat) :
    val.hits s (.node h f ts) (is.flatMap fun i => (below i).map (i :: ·)) (i :: q) =
      val.hits s t (below i) q := by
  have hcontains : (is.flatMap fun i => (below i).map (i :: ·)).contains (i :: q) =
      (below i).contains q := by
    rw [Bool.eq_iff_iff, List.contains_iff_mem, List.contains_iff_mem]
    simp only [List.mem_flatMap, List.mem_map, List.cons.injEq]
    constructor
    · rintro ⟨j, -, p, hp, rfl, rfl⟩
      exact hp
    · exact fun hq => ⟨i, hi, q, hq, rfl, rfl⟩
  rw [hits, hits, hcontains, Tree.at?, hget]
  rfl

/-- In the other slots nothing is hit. -/
theorem hits_of_not_mem (hi : i ∉ is) (q : List Nat) :
    val.hits s t (is.flatMap fun i => (below i).map (i :: ·)) (i :: q) = false := by
  rw [hits, Bool.and_eq_false_iff, ← Bool.not_eq_true, List.contains_iff_mem]
  refine .inl fun hmem => ?_
  simp only [List.mem_flatMap, List.mem_map, List.cons.injEq] at hmem
  obtain ⟨j, hj, p, -, rfl, -⟩ := hmem
  exact hi hj

/-- Nothing but the places is hit. -/
theorem hits_of_length_ne {n : Nat} (hlength : ∀ p ∈ places, p.length = n) {q : List Nat}
    (hq : q.length ≠ n) : val.hits s t places q = false := by
  rw [hits, Bool.and_eq_false_iff, ← Bool.not_eq_true, List.contains_iff_mem]
  exact .inl fun hmem => hq (hlength q hmem)

end Operand

namespace Tree

variable {hit : List Nat → Bool}

/-- If slots are hit themselves and nothing inside of them, these slots are taken away. -/
theorem replaced_slots (hinside : ∀ i q, q ≠ [] → hit (i :: q) = false) :
    (node h f ts).replaced hit none =
      node h (f.without (hitSlots hit ts.length)) (without (hitSlots hit ts.length) ts) := by
  have hparts : replacedFrom hit none 0 ts = ts := by
    rw [replacedFrom_eq]
    refine (List.map_congr_left ?_).trans (List.zipIdx_map_fst 0 ts)
    rintro ⟨t, i⟩ -
    have hpart : t.replaced (fun p => hit (i :: p)) none = t :=
      replaced_of_forall fun p hp => hinside i p (ne_nil_of_mem_places hp)
    simp [inSlot, hpart]
  rw [replaced, hparts]
  rfl

/-- If no slot is hit itself, what is inside of them is taken away. -/
theorem replaced_inside (hslots : ∀ i, hit [i] = false) :
    (node h f ts).replaced hit none = node h f (replacedFrom hit none 0 ts) := by
  have hnone : hitSlots hit ts.length = [] := by simp [hitSlots, hslots]
  rw [replaced, hnone]
  simp

theorem getElem?_replacedFrom (i : Nat) :
    (replacedFrom hit none 0 ts)[i]? =
      ts[i]?.map fun t => t.replaced (fun p => hit (i :: p)) none := by
  rw [replacedFrom_eq, List.getElem?_map, List.getElem?_zipIdx, Option.map_map, Nat.zero_add]
  refine congrArg (Option.map · ts[i]?) (funext fun t => ?_)
  simp [inSlot]

/-- The slots that are hit, told by what is in them. -/
theorem hitSlots_eq_downward (hasc : is.Pairwise (· < ·))
    (hmem : ∀ i, i ∈ is ↔ i < ts.length ∧ hit [i] = true) :
    hitSlots hit ts.length = downward is := by
  have hsame : ((List.range ts.length).filter fun i => hit [i]) = is :=
    (List.pairwise_lt_range.sublist List.filter_sublist).eq_of_mem_iff hasc fun i => by
      rw [List.mem_filter, List.mem_range, hmem]
  rw [hitSlots, hsame, downward]

end Tree

/-! ### Leaves -/

/-- The segment may select something in the scalar: a character, if this is a text. -/
def Segment.goesInto (seg : Segment) (x : Scalar) : Bool :=
  !x.isClosed &&
    match seg.unwrapped with
    | .access .attr _ _ _ => false
    | .access _ (.literal (.int _)) _ _ => true
    | .access .slot key _ _ => key.isPattern
    | .access .key _ _ _ => false
    | _ => true

namespace Context

variable {ctx : Context} {x : Scalar}

theorem candidates_outside {accessor : Accessor} {key : KeyPattern} {filter : Option Filter}
    {first : Bool} (hx : (Segment.access accessor key filter first).goesInto x = false) (s : Store) :
    candidates accessor key (.scalar x) s = ([], s) := by
  -- texts and bytes have elements, but the segments that go into them are excluded
  have htext (hopen : x.isClosed = false) (hkeyed : s.isKeyed (.scalar x) = false)
      (hattributed : s.isAttributed (.scalar x) = false)
      (hindexed : s.isIndexed (.scalar x) = true) :
      candidates accessor key (.scalar x) s = ([], s) := by
    rw [Segment.goesInto, hopen] at hx
    by_cases hattr : accessor = .attr
    · rw [hattr]
      exact attrCandidates_nothing key hattributed
    by_cases hpattern : key.isPattern = true
    · cases accessor with
      | attr => exact absurd rfl hattr
      | key =>
        show keyedCandidates key (.scalar x) s = _
        rw [keyedCandidates_pattern hpattern, hkeyed]
        rfl
      | slot =>
        cases key with
        | literal l => cases hpattern
        | _ => cases hx
    · cases key with
      | literal l =>
        refine candidates_of_no_index hattr hkeyed hindexed ?_
        rintro i rfl
        cases accessor with
        | attr => exact hattr rfl
        | _ => cases hx
      | _ => exact absurd rfl hpattern
  cases x with
  | str text => exact htext rfl rfl rfl rfl
  | bytes bs => exact htext rfl rfl rfl rfl
  | _ => cases accessor <;> rfl

/-- A scalar that a simple segment does not go into is ignored by it. -/
theorem ignores_outside (hseg : seg.Simple) (hx : seg.goesInto x = false) :
    ctx.Ignores seg (.scalar x) := by
  suffices hitems : ∀ s, ctx.items seg (.scalar x) s = (.ok [], s) from
    fun s => ⟨s, hitems s, .refl s⟩
  intro s
  induction hseg with
  | @access accessor key filter first _ =>
    rw [items, Eval.run_bind_of_ok (Eval.run_lift _ s), candidates_outside hx]
    cases first <;> rfl
  | @restrict inner kinds _ ih =>
    rw [items, Eval.run_bind_of_ok (Eval.run_store s)]
    split
    · exact ih hx
    · rfl
  | @guard inner test _ ih =>
    rw [items, Eval.run_bind_of_ok (ih hx)]
    rfl

/-- Simple segments can be read in a tree whose leaves they do not go into, whose keys have no
doubles in them, and for whose parts their conditions are decided. -/
theorem Readable.of_parts (hsegs : ∀ seg ∈ segs, seg.Simple) (hkeyed : t.Keyed s)
    (hleaves : t.Leaves fun x => ∀ seg ∈ segs, seg.goesInto x = false)
    (hdecided : ∀ seg ∈ segs, ∀ cond ∈ ctx.conditions seg, ∀ p u, t.at? p = some u →
      u.Decided edited s cond) : ctx.Readable edited s segs t := by
  induction hleaves with
  | leaf hx => exact .leaf fun seg hseg => ignores_outside (hsegs seg hseg) (hx seg hseg)
  | @node h f ts parts ih =>
    have hpart {u w : Tree} {p : List Nat} (hu : u ∈ ts) (hw : u.at? p = some w) :
        ∃ q, (Tree.node h f ts).at? q = some w := by
      obtain ⟨i, hi⟩ := List.getElem?_of_mem hu
      refine ⟨i :: p, ?_⟩
      rw [Tree.at?, hi]
      exact hw
    have hself (u : Tree) : u.at? [] = some u := by cases u <;> rfl
    cases hkeyed with
    | node keys keyed =>
      refine .node keys (fun seg hseg cond hcond u hu => ?_) fun u hu => ih u hu (keyed u hu)
        fun seg hseg cond hcond p w hw => ?_
      · obtain ⟨q, hq⟩ := hpart hu (hself u)
        exact hdecided seg hseg cond hcond q u hq
      · obtain ⟨q, hq⟩ := hpart hu hw
        exact hdecided seg hseg cond hcond q w hq

/-! ### The edit of a simple segment -/

theorem removeParts_nil (val : Operand) (node : Value) (s : Store) :
    removeParts [] val node s = (.ok node, s) := by
  have hpop : popSteps node [] s = (node, s) := popSteps_idle fun _ h => absurd h List.not_mem_nil
  rw [removeParts, Eval.run_bind_of_ok (Eval.run_store s)]
  show (liftM (popSteps node []) : Eval Value) s = _
  rw [Eval.run_lift, hpop]

theorem partsEdit_simple (hseg : seg.Simple) (rest : Edit) (val : Operand) (node : Value) :
    (ctx.partsEdit seg rest).remove false val node = (do
      let parts ← ctx.items seg node
      if rest.isEnd then removeParts parts val node else removeThrough parts rest val node) := by
  obtain ⟨accessor, key, filter, first, hunwrapped⟩ := hseg.unwrapped_eq
  rw [partsEdit]
  dsimp only
  rw [removeLeaf, hunwrapped]
  cases rest.isEnd <;> rfl

/-- A simple segment removes through the parts that it selects. -/
theorem remove_simple (hseg : seg.Simple) (rest : Edit) (val : Operand) (node : Value) (s : Store) :
    (ctx.segmentEdit seg rest).remove false val node s = (do
      let parts ← ctx.items seg node
      if rest.isEnd then removeParts parts val node
      else removeThrough parts rest val node : Eval Value) s := by
  cases hseg with
  | access hkey => exact congrFun (partsEdit_simple (.access hkey) rest val node) s
  | @restrict inner kinds hinner =>
    have hedit : ctx.segmentEdit (.restrict inner kinds) rest =
        restrictedEdit kinds (ctx.partsEdit (.restrict inner kinds) rest) := by
      rw [segmentEdit, hinner.isCompound_eq_false]
      rfl
    have hrun : (ctx.segmentEdit (.restrict inner kinds) rest).remove false val node s =
        (if kinds.admits (s.kind node) then
          (ctx.partsEdit (.restrict inner kinds) rest).remove false val node
        else pure node : Eval Value) s := by
      rw [hedit]
      exact Eval.run_bind_of_ok (Eval.run_store s)
    rw [hrun, partsEdit_simple (.restrict hinner)]
    split
    · rfl
    · -- Nothing is selected, so nothing is removed.
      rename_i hnot
      have hitems : ctx.items (.restrict inner kinds) node s = (.ok [], s) := by
        rw [items, Eval.run_bind_of_ok (Eval.run_store s), if_neg hnot]
        rfl
      rw [Eval.run_bind_of_ok hitems]
      split
      · exact (removeParts_nil val node s).symm
      · rfl
  | @guard inner test hinner =>
    have hedit : ctx.segmentEdit (.guard inner test) rest =
        ctx.partsEdit (.guard inner test) rest := by
      rw [segmentEdit, hinner.recursion?_eq_none, hinner.isCompound_eq_false]
      rfl
    rw [hedit, partsEdit_simple (.guard hinner)]

/-! ### Removing -/

/-- At the end of a path those of the slots are removed whose parts the operand accepts. -/
theorem removeParts_picked {step : Nat → Step} (hlies : Lies r [.node h f ts]) (hkeyed : f.Keyed r)
    (hpicks : f.Picks r ts.length is step) (val : Operand) :
    let taken := is.filter fun i => val.accepts r ((ts.map Tree.value).getD i .null)
    ∃ h' r', removeParts (is.map fun i => (step i, (ts.map Tree.value).getD i .null)) val (.ref h) r =
        (.ok (.ref h'), r') ∧ (f.isCopied = false → h' = h) ∧
      Turns r [.node h f ts] r'
        [.node h' (f.without (downward taken)) (without (downward taken) ts)] := by
  intro taken
  obtain ⟨h', r', hpop, hsame, hturns⟩ :=
    Turns.popPicked hlies hkeyed (hpicks.sublist (List.filter_sublist : taken.Sublist is))
  have hdoomed : ((is.map fun i => (step i, (ts.map Tree.value).getD i .null)).filter
      fun p => val.accepts r p.2).map Prod.fst = taken.map step := by
    rw [List.filter_map, List.map_map]
    rfl
  refine ⟨h', r', ?_, hsame, hturns⟩
  rw [removeParts, Eval.run_bind_of_ok (Eval.run_store r)]
  show (liftM (popSteps (.ref h) (List.map Prod.fst (List.filter _ _))) : Eval Value) r = _
  rw [Eval.run_lift, hdoomed, hpop]

/-- A removal takes from a tree what is at some places and accepted, whatever other containers have
been edited before. -/
def Removes (ctx : Context) (edited : List Handle) (s : Store) (val : Operand)
    (segs : List Segment) (t : Tree) (places : List (List Nat)) : Prop :=
  ∀ r, s.EditsOnly edited r → Lies r [t] → t.handles ⊆ edited → val.Steady edited s t →
    ∃ u r', (ctx.pathEdit segs .done).remove false val t.value r = (.ok u.value, r') ∧
      Turns r [t] r' [u] ∧ u.Remade (t.replaced (val.hits s t places) none)

/-- A path that selects nothing in a leaf leaves it as it is. -/
theorem removes_leaf (hseg : seg.Simple) {v : Value} (ignored : ctx.Ignores seg v) :
    ctx.Removes edited s val (seg :: segs) (.leaf v) [] := by
  intro r _ hlies _ _
  obtain ⟨r', hitems, hgrows⟩ := ignored r
  refine ⟨.leaf v, r', ?_, .of_grows hgrows hlies, .leaf v⟩
  refine (ctx.remove_simple hseg (ctx.pathEdit segs .done) val v r).trans ?_
  rw [Eval.run_bind_of_ok hitems]
  split
  · exact removeParts_nil val v r'
  · rfl

/-- The last segment of a path takes the slots that it selects. -/
theorem removes_last (hseg : seg.Simple) (keyed : f.Keyed s)
    (slots : ctx.SelectsSlots edited seg s h f ts is) (ascending : is.Pairwise (· < ·))
    (lt : ∀ i ∈ is, i < ts.length) :
    ctx.Removes edited s val [seg] (.node h f ts) (is.flatMap fun i => [[]].map (i :: ·)) := by
  intro r hr hlies _ hval
  obtain ⟨step, r₁, hitems, hr₁, hpicks⟩ := slots r hr hlies
  have hgrown := Turns.of_grows hr₁ hlies
  have hr₁' := hr.trans (.of_grows hr₁)
  obtain ⟨-, -, hparts, -⟩ := hgrown.lies.parts
  obtain ⟨h', r₂, hrun, hsame, hturns⟩ :=
    removeParts_picked hgrown.lies (keyed.retains hr₁'.retains) hpicks val
  refine ⟨_, r₂, ?_, hgrown.trans hturns, ?_⟩
  · refine (ctx.remove_simple hseg .done val (.ref h) r).trans ?_
    rw [Eval.run_bind_of_ok hitems]
    exact hrun
  -- What is accepted when the slots are taken is what was accepted before.
  have hslot : ∀ i ∈ is, val.accepts r₁ ((ts.map Tree.value).getD i .null) =
      val.hits s (.node h f ts) (is.flatMap fun i => [[]].map (i :: ·)) [i] := by
    intro i hi
    have hlt := lt i hi
    have hget := List.getElem?_eq_getElem hlt
    have hvalue : (ts.map Tree.value).getD i .null = ts[i].value := by simp [hlt]
    have hself : ts[i].at? [] = some ts[i] := by cases ts[i] <;> rfl
    rw [hvalue, (hval.part hget).self hr₁' (hparts.of_mem (List.getElem_mem hlt)),
      Operand.hits_of_mem hi hget, Operand.hits, hself]
    rfl
  have hslots : Tree.hitSlots (val.hits s (.node h f ts) (is.flatMap fun i => [[]].map (i :: ·)))
      ts.length = downward (is.filter fun i =>
        val.accepts r₁ ((ts.map Tree.value).getD i .null)) := by
    refine Tree.hitSlots_eq_downward (ascending.sublist List.filter_sublist) fun i => ?_
    rw [List.mem_filter]
    refine ⟨fun ⟨hi, haccepts⟩ => ⟨lt i hi, hslot i hi ▸ haccepts⟩, fun ⟨_, hhit⟩ => ?_⟩
    by_cases hi : i ∈ is
    · exact ⟨hi, (hslot i hi).trans hhit⟩
    · rw [Operand.hits_of_not_mem hi] at hhit
      cases hhit
  have hselects : ctx.Selects edited s [seg] (.node h f ts)
      (is.flatMap fun i => [[]].map (i :: ·)) :=
    .node keyed slots ascending lt fun _ _ _ _ => .nil
  have hinside : ∀ (i : Nat) (q : List Nat), q ≠ [] → val.hits s (.node h f ts)
      (is.flatMap fun i => [[]].map (i :: ·)) (i :: q) = false := fun i q hq =>
    Operand.hits_of_length_ne hselects.length_eq (by simpa using hq)
  rw [Tree.replaced_slots hinside, hslots]
  exact .of_same (by simpa using hsame) _

/-- The other segments edit what is in the slots that they select, and write it back. -/
theorem removes_inside {next : Segment} {below : Nat → List (List Nat)} (hseg : seg.Simple)
    (slots : ctx.SelectsSlots edited seg s h f ts is) (ascending : is.Pairwise (· < ·))
    (lt : ∀ i ∈ is, i < ts.length)
    (hdeep : ∀ i ∈ is, ∀ p ∈ below i, p ≠ [])
    (hbelow : ∀ i ∈ is, ∀ t, ts[i]? = some t →
      ctx.Removes edited s val (next :: segs) t (below i)) :
    ctx.Removes edited s val (seg :: next :: segs) (.node h f ts)
      (is.flatMap fun i => (below i).map (i :: ·)) := by
  intro r hr hlies hsub hval
  obtain ⟨step, r₁, hitems, hr₁, hpicks⟩ := slots r hr hlies
  have hgrown := Turns.of_grows hr₁ hlies
  have hr₁' := hr.trans (.of_grows hr₁)
  have hsub' : handles [.node h f ts] ⊆ edited := handles_singleton (.node h f ts) ▸ hsub
  obtain ⟨h', us, r₂, hrun, hsame, hturns, hlength, hdone, hothers⟩ :=
    Turns.editSlots (fun part => (ctx.pathEdit (next :: segs) .done).remove false val part)
      (fun i r t => s.EditsOnly edited r ∧ ts[i]? = some t)
      (fun i _ u => ∀ t, ts[i]? = some t → u.Remade (t.replaced (val.hits s t (below i)) none))
      (fun _ hu => hu) step
      (fun i hi r t hlies' ⟨hr', ht⟩ => by
        have hpart : t.handles ⊆ edited := fun k hk => hsub (by
          rw [Tree.handles]
          exact List.mem_cons_of_mem _ (List.mem_flatMap.mpr ⟨t, List.mem_of_getElem? ht, hk⟩))
        obtain ⟨u, r', hrun, hturn, hu⟩ := hbelow i hi t ht r hr' hlies' hpart (hval.part ht)
        refine ⟨u, r', hrun, hturn, fun t' ht' => ?_⟩
        cases ht.symm.trans ht'
        exact hu)
      (ascending.imp Nat.ne_of_lt) hgrown.lies
      (fun hturns _ _ _ ht => ⟨hr₁'.turns hsub' hturns, ht⟩) hpicks.names
  refine ⟨.node h' f us, r₂, ?_, hgrown.trans hturns, ?_⟩
  · refine (ctx.remove_simple hseg (ctx.pathEdit (next :: segs) .done) val (.ref h) r).trans ?_
    rw [Eval.run_bind_of_ok hitems]
    exact hrun
  -- the parts themselves stay: all places that are removed lie below them
  have hself (i : Nat) : val.hits s (.node h f ts)
      (is.flatMap fun i => (below i).map (i :: ·)) [i] = false := by
    by_cases hi : i ∈ is
    · rw [Operand.hits_of_mem hi (List.getElem?_eq_getElem (lt i hi)), Operand.hits,
        Bool.and_eq_false_iff, ← Bool.not_eq_true, List.contains_iff_mem]
      exact .inl fun hmem => hdeep i hi [] hmem rfl
    · exact Operand.hits_of_not_mem hi []
  rw [Tree.replaced_inside hself]
  refine .node hsame ((hlength.trans (Tree.length_replacedFrom 0 ts).symm)) fun i u w hu hw => ?_
  rw [Tree.getElem?_replacedFrom] at hw
  obtain ⟨t, ht, rfl⟩ := Option.map_eq_some_iff.mp hw
  by_cases hi : i ∈ is
  · rw [Tree.replaced_congr fun q _ => Operand.hits_of_mem hi ht q]
    exact hdone i hi u hu t ht
  · rw [Tree.replaced_of_forall fun q _ => Operand.hits_of_not_mem hi q]
    cases ht.symm.trans ((hothers i hi).symm.trans hu)
    exact .refl u

/-- **A removal takes what is at the places that the path selects**, as far as it is accepted. -/
theorem Selects.removes (hselects : ctx.Selects edited s segs t places) (hne : segs ≠ [])
    (hsegs : ∀ seg ∈ segs, seg.Simple) : ctx.Removes edited s val segs t places := by
  induction hselects with
  | nil => exact absurd rfl hne
  | leaf ignored => exact removes_leaf (hsegs _ (List.mem_cons_self ..)) ignored
  | @node seg segs h f ts is below keyed slots ascending lt parts ih =>
    obtain ⟨hseg, hrest⟩ := List.forall_mem_cons.mp hsegs
    cases segs with
    | nil =>
      have hend : ∀ i ∈ is, below i = [[]] := fun i hi =>
        (parts i hi _ (List.getElem?_eq_getElem (lt i hi))).eq_of_nil rfl
      rw [List.flatMap_congr fun i hi => congrArg (List.map (i :: ·)) (hend i hi)]
      exact removes_last hseg keyed slots ascending lt
    | cons next segs =>
      refine removes_inside hseg slots ascending lt (fun i hi p hp => ?_) fun i hi t ht =>
        ih i hi t ht (List.cons_ne_nil _ _) hrest
      have hlength := (parts i hi _ (List.getElem?_eq_getElem (lt i hi))).length_eq p hp
      exact List.ne_nil_of_length_eq_add_one hlength

/-- **A removal takes what a reading finds**, as far as the operand accepts it, and nothing else. -/
theorem remove_found (hreg : ctx.registry.Grows) (hne : segs ≠ [])
    (hsegs : ∀ seg ∈ segs, seg.Simple) (hlies : Lies s [t]) (hkeyed : t.Keyed s)
    (hleaves : t.Leaves fun x => ∀ seg ∈ segs, seg.goesInto x = false)
    (hdecided : ∀ seg ∈ segs, ∀ cond ∈ ctx.conditions seg, ∀ p u, t.at? p = some u →
      u.Decided t.handles s cond) (hval : val.Beside s t) :
    ∃ places : List (List Nat), places.Nodup ∧
      (∃ found s', ctx.find segs t.value s = (.ok found, s') ∧ s.GrowsTo s' ∧
        List.Forall₂ (t.Occurs s') found places) ∧
      ∃ u s', ctx.remove segs t.value val s = (.ok u.value, s') ∧ Turns s [t] s' [u] ∧
        u.Remade (t.replaced (val.hits s t places) none) := by
  obtain ⟨places, hselects⟩ :=
    exists_selects hreg hsegs hlies (.of_parts hsegs hkeyed hleaves hdecided)
  exact ⟨places, hselects.nodup, find_selected hselects hsegs hlies,
    hselects.removes hne hsegs s (.refl _ s) hlies (List.Subset.refl _)
      (hval.steady hlies hkeyed hleaves)⟩

/-- Without filters and guards there are no conditions to be decided. -/
theorem remove_found_unfiltered (hreg : ctx.registry.Grows) (hne : segs ≠ [])
    (hsegs : ∀ seg ∈ segs, seg.Unfiltered) (hlies : Lies s [t]) (hbare : t.Bare s)
    (hval : val.Beside s t) :
    ∃ places : List (List Nat), places.Nodup ∧
      (∃ found s', ctx.find segs t.value s = (.ok found, s') ∧ s.GrowsTo s' ∧
        List.Forall₂ (t.Occurs s') found places) ∧
      ∃ u s', ctx.remove segs t.value val s = (.ok u.value, s') ∧ Turns s [t] s' [u] ∧
        u.Remade (t.replaced (val.hits s t places) none) := by
  refine remove_found hreg hne (fun seg hseg => ?_) hlies hbare.keyed
    (hbare.leaves.mono fun x hx seg _ => ?_) (fun seg hseg cond hcond p u _ => ?_) hval
  · obtain ⟨hkey⟩ := hsegs seg hseg
    exact .access hkey
  · rw [Segment.goesInto, hx]
    rfl
  · obtain ⟨hkey⟩ := hsegs seg hseg
    obtain rfl := List.mem_singleton.mp hcond
    exact ⟨true, fun r _ _ => rfl⟩

/-- Of three elements the two that are equal to the operand are taken. -/
example :
    let ctx : Context := ⟨.empty, false⟩
    let s : Store := ⟨#[.dict [(.str "a", .ref ⟨1⟩)], .list [.int 1, .int 2, .int 1]]⟩
    ctx.remove [.access .key (.literal (.str "a")) none false, .access .slot .wildcard none false]
      (.ref ⟨0⟩) (.value (.int 1)) s =
        (.ok (.ref ⟨0⟩), ⟨#[.dict [(.str "a", .ref ⟨1⟩)], .list [.int 2]]⟩) := by
  cbv

/-! ### Keys with a NaN -/

/-- At a NaN nothing is removed, although a reading reports it. -/
theorem remove_nan_key {x : Float} (hx : (x == x) = false) {es : List (Value × Value)}
    (hd : s.get? h = some (.dict es)) (hes : ∀ e ∈ es, e.1 = .float x) :
    ctx.find [.access .key .wildcard none false] (.ref h) s =
        (.ok (es.map fun e => ([.key e.1], e.2)), s) ∧
      ctx.remove [.access .key .wildcard none false] (.ref h) .any s = (.ok (.ref h), s) := by
  refine ⟨ctx.find_entries hd, ?_⟩
  -- the lookup compares the key with itself, which fails for a NaN
  have hmissing : s.eraseEntry es (.float x) = es := by
    have hnone : s.keyIndex? (es.map Prod.fst) (.float x) = none := by
      rw [Store.keyIndex?, List.findIdx?_eq_none_iff]
      intro k hk
      obtain ⟨e, he, rfl⟩ := List.mem_map.mp hk
      rw [hes e he]
      exact Store.equalsWithin_nan hx s _
    rw [Store.eraseEntry, hnone]
  have hidle : ∀ step ∈ es.map fun e => Step.key e.1,
      popChild (.ref h) step s = (.ref h, s) := by
    intro step hstep
    obtain ⟨e, he, rfl⟩ := List.mem_map.mp hstep
    show popKeyed (.ref h) e.1 s = _
    rw [hes e he, popKeyed_dict hd, hmissing, Store.set_of_get? hd]
  have hsteps : ((es.map fun e => (Step.key e.1, e.2)).filter
      fun p => Operand.any.accepts s p.2).map Prod.fst = es.map fun e => Step.key e.1 := by
    show ((es.map fun e => (Step.key e.1, e.2)).filter fun _ => true).map Prod.fst = _
    rw [List.filter_true, List.map_map]
    rfl
  have hseg : (Segment.access .key .wildcard none false).Simple := .access trivial
  refine (ctx.remove_simple hseg .done .any (.ref h) s).trans ?_
  rw [Eval.run_bind_of_ok (ctx.items_entries hd)]
  show removeParts _ Operand.any (.ref h) s = _
  rw [removeParts, Eval.run_bind_of_ok (Eval.run_store s)]
  show (liftM (popSteps (.ref h) (List.map Prod.fst (List.filter _ _))) : Eval Value) s = _
  rw [Eval.run_lift, hsteps, popSteps_idle hidle]

end Context

end DottedPath
