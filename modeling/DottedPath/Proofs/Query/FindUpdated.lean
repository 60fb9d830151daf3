import DottedPath.Proofs.Evaluate.Projection
import DottedPath.Proofs.Evaluate.Retake
import DottedPath.Proofs.Evaluate.TreeWrite

/-!
# What an update writes is what a reading finds

A path of keys, attributes and slots is written into a tree: to all that it selects, to the
structure that is built for it where it selects nothing, and to copies of what cannot be edited.
Whatever way the value has come to its places, reading the path afterwards finds nothing but this
value (`Context.find_updated`).

The leaves of the tree are values that no path goes into, and its keys have no doubles in them: a
NaN is never found again, so a write at it adds another entry (`Context.update_nan_key`).
-/

namespace DottedPath

open Forest

variable {s s' t : Store} {v : Value} {accessor : Accessor} {key : KeyPattern} {first : Bool}

/-! ### Trees that paths end in -/

/-- No path goes into the scalar. -/
def Scalar.isClosed (x : Scalar) : Bool :=
  [Kind.none, .bool, .int, .float].contains x.kind

/-- No path goes into the leaves, and the keys have no doubles in them. -/
inductive Tree.Bare (s : Store) : Tree → Prop where
  | leaf {x : Scalar} (closed : x.isClosed = true) : Bare s (.leaf (.scalar x))
  | node {h : Handle} {f : Form} {ts : List Tree} (keyed : f.Keyed s) (parts : ∀ t ∈ ts, Bare s t) :
    Bare s (.node h f ts)

theorem Tree.Bare.retains (hst : s.Retains t) {u : Tree} (hu : u.Bare s) : u.Bare t := by
  induction hu with
  | leaf closed => exact .leaf closed
  | node keyed _ ih => exact .node (keyed.retains hst) ih

/-- A key, an attribute or a slot without a filter, and without a double. -/
inductive Segment.Unfiltered : Segment → Prop where
  | access {accessor : Accessor} {key : KeyPattern} {first : Bool} (hkey : key.HasNoDouble) :
    Unfiltered (.access accessor key none first)

namespace Context

variable (ctx : Context)

theorem items_closed {x : Scalar} (hx : x.isClosed = true) (s : Store) :
    ctx.items (.access accessor key none first) (.scalar x) s = (.ok [], s) := by
  have hnothing : candidates accessor key (.scalar x) s = ([], s) := by
    cases x with
    | str text => cases hx
    | bytes bs => cases hx
    | _ => cases accessor <;> rfl
  rw [ctx.items_of_candidates hnothing]
  cases first <;> rfl

end Context

/-! ### Reading -/

/-- Every place that a path leads to in a tree holds the value. -/
inductive Tree.Settled (s : Store) (v : Value) : List Segment → Tree → Prop where
  | done {t : Tree} (h : t.value = v) : Settled s v [] t
  | leaf {accessor : Accessor} {key : KeyPattern} {first : Bool} {segs : List Segment} {x : Scalar}
    (closed : x.isClosed = true) :
    Settled s v (.access accessor key none first :: segs) (.leaf (.scalar x))
  | node {accessor : Accessor} {key : KeyPattern} {first : Bool} {segs : List Segment} {h : Handle}
    {f : Form} {ts : List Tree} (hkey : key.HasNoDouble)
    (keyed : f.Keyed s) (suits : f.Suits s ts.length)
    (parts : ∀ i ∈ f.chosen s accessor key first ts.length, ∀ t, ts[i]? = some t →
      Settled s v segs t) :
    Settled s v (.access accessor key none first :: segs) (.node h f ts)

theorem Tree.Settled.retains (hst : s.Retains t) {segs : List Segment} {u : Tree}
    (hu : u.Settled s v segs) : u.Settled t v segs := by
  induction hu with
  | done h => exact .done h
  | leaf closed => exact .leaf closed
  | node hkey keyed suits _ ih =>
    refine .node hkey (keyed.retains hst) (suits.retains hst) fun i hi => ?_
    exact ih i (Form.chosen_retains hst keyed suits _ ▸ hi)

/-- From every later store, reading finds nothing but the value. -/
def Walk.FindsOnly (walk : Walk) (s : Store) (v node : Value) : Prop :=
  ∀ base t, s.GrowsTo t → ∃ found u, walk base node t = (.ok ⟨found, false⟩, u) ∧ t.GrowsTo u ∧
    ∀ p ∈ found, p.2 = v

/-- It does so if it does from each of some parts. -/
theorem Walk.FindsOnly.each {walk : Walk} : ∀ {parts : List (Step × Value)},
    (∀ p ∈ parts, walk.FindsOnly s v p.2) → ∀ base t, s.GrowsTo t →
    ∃ found u, walk.each base (Context.placesOf parts) t = (.ok ⟨found, false⟩, u) ∧ t.GrowsTo u ∧
      ∀ p ∈ found, p.2 = v
  | [], _, base, t, _ => by
    refine ⟨[], t, rfl, .refl t, ?_⟩
    simp
  | (step, node) :: parts, hparts, base, t, hst => by
    obtain ⟨hnode, hrest⟩ := List.forall_mem_cons.mp hparts
    obtain ⟨here, u, hwalk, htu, hhere⟩ := hnode (base ++ [step]) t hst
    obtain ⟨more, w, heach, huw, hmore⟩ := Walk.FindsOnly.each hrest base u (hst.trans htu)
    refine ⟨here ++ more, w, ?_, htu.trans huw, fun p hp => ?_⟩
    · show (Walk.each walk base (([step], node) :: Context.placesOf parts)) t = _
      rw [Walk.each, Eval.run_bind_of_ok hwalk, if_neg Bool.false_ne_true,
        Eval.run_bind_of_ok heach]
      rfl
    · rcases List.mem_append.mp hp with hp | hp
      · exact hhere p hp
      · exact hmore p hp

namespace Context

variable (ctx : Context)

/-- **Reading a settled tree finds nothing but the value.** -/
theorem walkPath_settled {segs : List Segment} {u : Tree} (hu : u.Settled s v segs)
    (hstored : u.Stored s) : (ctx.walkPath segs Walk.done).FindsOnly s v u.value := by
  induction hu with
  | @done u h =>
    intro base t _
    refine ⟨[(base, u.value)], t, rfl, .refl t, ?_⟩
    simpa using h
  | @leaf accessor key first segs x closed =>
    intro base t _
    refine ⟨[], t, ?_, .refl t, by simp⟩
    show (ctx.items _ (.scalar x) >>= fun parts => Walk.each _ base (placesOf parts)) t = _
    rw [Eval.run_bind_of_ok (ctx.items_closed closed t)]
    rfl
  | @node accessor key first segs h f ts hkey keyed suits _ ih =>
    intro base t hst
    cases hstored with
    | node content _ parts =>
      have hlength : (ts.map Tree.value).length = ts.length := List.length_map ..
      -- The store may have grown since the tree was settled, but the same slots are chosen in it.
      have hkeyed := keyed.retains hst.retains
      have hsuits : f.Suits t (ts.map Tree.value).length := hlength ▸ suits.retains hst.retains
      obtain ⟨step, r, hitems, htr, hchosen⟩ :=
        ctx.items_fill accessor hkey first (hst _ _ content) hsuits hkeyed
      have hchosen' : ∀ p ∈ (f.chosen t accessor key first (ts.map Tree.value).length).map
          fun i => (step i, (ts.map Tree.value).getD i .null),
          (ctx.walkPath segs Walk.done).FindsOnly s v p.2 := by
        intro p hp
        obtain ⟨i, hi, rfl⟩ := List.mem_map.mp hp
        have hlt : i < ts.length := hlength ▸ (hchosen i hi).1
        rw [hlength, Form.chosen_retains hst.retains keyed suits] at hi
        have hvalue : (ts.map Tree.value).getD i .null = ts[i].value := by simp [hlt]
        rw [hvalue]
        exact ih i hi ts[i] (List.getElem?_eq_getElem hlt) (parts _ (List.getElem_mem hlt))
      obtain ⟨found, w, heach, hrw, hfound⟩ :=
        Walk.FindsOnly.each hchosen' base r (hst.trans htr)
      refine ⟨found, w, ?_, htr.trans hrw, hfound⟩
      show (ctx.items _ (.ref h) >>= fun parts => Walk.each _ base (placesOf parts)) t = _
      rw [Eval.run_bind_of_ok hitems, heach]

/-! ### Building -/

theorem upsert_of_isPattern (hpattern : key.isPattern = true) (node v : Value) :
    ctx.upsert (.access accessor key none first) node v =
      ctx.overwriteItems (.access accessor key none first) node v := by
  cases key with
  | literal l => cases hpattern
  | _ => rfl

/-- Whatever a literal or a pattern selects in a container, a write at it puts a new tree there, if
the pattern selects nothing. -/
theorem upsert_takes {r : Store} {h : Handle} {f : Form} {ts : List Tree} {u : Tree}
    (hkey : key.HasNoDouble) (hlies : Lies s [.node h f ts]) (hkeyed : f.Keyed s)
    (hvacant : key.isPattern = true → f.chosen s accessor key first ts.length = [])
    (hnew : Turns s [] r [u]) :
    ∃ h' s', ctx.upsert (.access accessor key none first) (.ref h) u.value r = (.ok (.ref h'), s') ∧
      Takes s r h f ts u accessor key first h' s' := by
  by_cases hpattern : key.isPattern = true
  · -- A pattern that selects nothing writes nothing.
    obtain ⟨hc, hsuits, -, -⟩ := hlies.parts
    have hgrows := hnew.grows
    have hlength : (ts.map Tree.value).length = ts.length := List.length_map ..
    have hnone {r' : Store} (hr : s.Retains r') : f.chosen r' accessor key first ts.length = [] := by
      rw [Form.chosen_retains hr hkeyed hsuits, hvacant hpattern]
    obtain ⟨step, r', hitems, hgrows', -⟩ := ctx.items_fill accessor hkey first (hgrows _ _ hc)
      (hlength ▸ hsuits.retains hgrows.retains) (hkeyed.retains hgrows.retains)
    rw [hlength, hnone hgrows.retains] at hitems
    refine ⟨h, r', ?_, (Takes.unchanged hlies hkeyed (hnew.trans (.of_grows hgrows' hnew.lies))
      (fun r'' hr => hnone hr) u).of_grows hgrows'⟩
    rw [ctx.upsert_of_isPattern hpattern, overwriteItems, Eval.run_bind_of_ok hitems]
    rfl
  · cases key with
    | literal l => exact Turns.upsert ctx hkey hlies hkeyed hnew
    | wildcard => exact absurd rfl hpattern
    | regex re => exact absurd rfl hpattern

/-- A new container with nothing but null in it. -/
theorem alloc_bare (f : Form) (n : Nat) (hsuits : f.Suits s n) (hkeyed : f.Keyed s) :
    ∃ h ts s', alloc (f.fill (List.replicate n .null)) s = (.ref h, s') ∧
      Turns s [] s' [.node h f ts] ∧ (Tree.node h f ts).Bare s' ∧ ts.length = n := by
  have hlength : (List.replicate n Value.null).length = n := List.length_replicate
  have hgrows := Store.GrowsTo.push s (f.fill (List.replicate n .null))
  refine ⟨s.next, (List.replicate n Value.null).map .leaf, _, rfl,
    Turns.alloc f _ (hlength.symm ▸ hsuits), ?_, by simp⟩
  refine .node (hkeyed.retains hgrows.retains) fun t ht => ?_
  obtain ⟨w, hw, rfl⟩ := List.mem_map.mp ht
  rw [List.eq_of_mem_replicate hw]
  exact .leaf rfl

/-- What is built for a segment is a new container of this kind. -/
theorem defaultFor_tree (accessor : Accessor) (first : Bool) (hkey : key.HasNoDouble) (s : Store) :
    ∃ h f ts s', defaultFor (.access accessor key none first) s = (.ref h, s') ∧
      Turns s [] s' [.node h f ts] ∧ (Tree.node h f ts).Bare s' ∧
      (key.isPattern = true → ts.length = 0) := by
  have hempty (f : Form) (hsuits : f.Suits s 0) (hkeyed : f.Keyed s)
      (hrun : defaultFor (.access accessor key none first) s =
        alloc (f.fill (List.replicate 0 .null)) s) :
      ∃ h f ts s', defaultFor (.access accessor key none first) s = (.ref h, s') ∧
        Turns s [] s' [.node h f ts] ∧ (Tree.node h f ts).Bare s' ∧
        (key.isPattern = true → ts.length = 0) := by
    obtain ⟨h, ts, s', halloc, hnew, hbare, hlength⟩ := alloc_bare f 0 hsuits hkeyed
    exact ⟨h, f, ts, s', hrun.trans halloc, hnew, hbare, fun _ => hlength⟩
  have hdict : (Form.dict []).Suits s 0 := ⟨rfl, .of_isKey (by simp) .nil⟩
  have hobject : (Form.object "namespace" [] false).Suits s 0 := ⟨rfl, .nil⟩
  cases key with
  | literal l =>
    obtain ⟨hgrows, hshows⟩ := l.toValue_shows s
    have hsingle (f : Form) (hsuits : f.Suits (l.toValue s).2 1) (hkeyed : f.Keyed (l.toValue s).2)
        (hrun : defaultFor (.access accessor (.literal l) none first) s =
          alloc (f.fill (List.replicate 1 .null)) (l.toValue s).2) :
        ∃ h f ts s', defaultFor (.access accessor (.literal l) none first) s = (.ref h, s') ∧
          Turns s [] s' [.node h f ts] ∧ (Tree.node h f ts).Bare s' ∧
          ((KeyPattern.literal l).isPattern = true → ts.length = 0) := by
      obtain ⟨h, ts, s', halloc, hnew, hbare, -⟩ := alloc_bare f 1 hsuits hkeyed
      refine ⟨h, f, ts, s', hrun.trans halloc, (Turns.nothing hgrows).trans hnew, hbare, ?_⟩
      rintro ⟨⟩
    by_cases haccessor : accessor = .attr
    · subst haccessor
      exact hsingle (.object "namespace" [(l.toValue s).2.text (l.toValue s).1] false)
        ⟨rfl, by simp⟩ trivial rfl
    -- for an index a list is built, which is still empty, and for another key a dict with it
    by_cases hindex : accessor = .slot ∧ ∃ i, l = .int i
    · obtain ⟨rfl, i, rfl⟩ := hindex
      exact hempty .list trivial trivial rfl
    · have hk := hshows.isKey hkey
      refine hsingle (.dict [(l.toValue s).1]) ⟨rfl, .of_isKey (by simpa using hk) ?_⟩
        (by simpa [Form.Keyed] using hk) ?_
      · exact List.pairwise_singleton _ _
      · rw [defaultFor_key haccessor fun hslot i hi => hindex ⟨hslot, i, hi⟩]
        rfl
  | wildcard =>
    cases accessor with
    | attr => exact hempty _ hobject trivial rfl
    | key => exact hempty _ hdict (by simp [Form.Keyed]) rfl
    | slot => exact hempty _ hdict (by simp [Form.Keyed]) rfl
  | regex re =>
    cases accessor with
    | attr => exact hempty _ hobject trivial rfl
    | key => exact hempty _ hdict (by simp [Form.Keyed]) rfl
    | slot => exact hempty _ hdict (by simp [Form.Keyed]) rfl

/-- So is what is built for the last segment. -/
theorem defaultLeaf_tree (accessor : Accessor) (first : Bool) (hkey : key.HasNoDouble) (s : Store) :
    ∃ u s', defaultLeaf (.access accessor key none first) s = (u.value, s') ∧
      Turns s [] s' [u] ∧ u.Bare s' := by
  -- at the end of a path a list is as long as its index needs; else nothing differs
  by_cases hindex : ∃ i : Int, 0 ≤ i ∧ accessor = .slot ∧ key = .literal (.int i)
  · obtain ⟨i, hi, rfl, rfl⟩ := hindex
    obtain ⟨h, ts, s', halloc, hnew, hbare, -⟩ :=
      alloc_bare (s := s) .list (i.toNat + 1) trivial trivial
    refine ⟨.node h .list ts, s', ?_, hnew, hbare⟩
    show (if 0 ≤ i then alloc (.list (List.replicate (i.toNat + 1) .null)) else _) s = _
    rw [if_pos hi]
    exact halloc
  · obtain ⟨h, f, ts, s', hrun, hnew, hbare, -⟩ := defaultFor_tree accessor first hkey s
    refine ⟨.node h f ts, s', ?_, hnew, hbare⟩
    have hleaf : defaultLeaf (.access accessor key none first) =
        defaultFor (.access accessor key none first) := by
      rw [defaultLeaf, Segment.unwrapped]
      split
      · rename_i i _ _ heq
        cases heq
        rw [if_neg fun hi => hindex ⟨i, hi, rfl, rfl⟩]
      · rfl
      · intro inner
        rintro ⟨⟩
      · intro inner test
        rintro ⟨⟩
      · intro inner kinds
        rintro ⟨⟩
    rw [hleaf, hrun]
    rfl

/-- **What is built for a path is a new tree**, with nothing but null at its leaves. -/
theorem buildDefault_tree : ∀ {segs : List Segment}, (∀ seg ∈ segs, seg.Unfiltered) → ∀ s : Store,
    ∃ u s', ctx.buildDefault segs s = (.ok u.value, s') ∧ Turns s [] s' [u] ∧ u.Bare s'
  | [], _, s => ⟨.leaf .null, s, rfl, .leaf [] .null s, .leaf rfl⟩
  | [seg], hsegs, s => by
    obtain ⟨hkey⟩ := hsegs seg (List.mem_cons_self ..)
    obtain ⟨u, s', hrun, hnew, hbare⟩ := defaultLeaf_tree _ _ hkey s
    refine ⟨u, s', ?_, hnew, hbare⟩
    rw [buildDefault, Eval.run_lift, hrun]
  | seg :: seg' :: segs, hsegs, s => by
    obtain ⟨hhead, htail⟩ := List.forall_mem_cons.mp hsegs
    obtain @⟨accessor, key, first, hkey⟩ := hhead
    obtain ⟨h, f, ts, r, hdefault, hnode, hbare, hvacant⟩ := defaultFor_tree accessor first hkey s
    obtain ⟨u, r', hchild, hnew, hu⟩ := buildDefault_tree htail r
    cases hbare with
    | node keyed parts =>
      -- a pattern selects nothing in a container that has just been made
      have hnothing : key.isPattern = true → f.chosen r accessor key first ts.length = [] := by
        intro hpattern
        refine List.eq_nil_iff_forall_not_mem.mpr fun i hi => ?_
        obtain ⟨-, hsuits, -, -⟩ := hnode.lies.parts
        have hlt := Form.slots_lt hsuits ((firstOnly_sublist first _).subset hi)
        have hzero := hvacant hpattern
        omega
      obtain ⟨h', s', hupsert, htakes⟩ := ctx.upsert_takes hkey hnode.lies keyed hnothing hnew
      obtain ⟨g, us, hturns, hretains, hkeyed, hparts, -⟩ := htakes
      refine ⟨.node h' g us, s', ?_, hnode.trans hturns, .node hkeyed fun w hw => ?_⟩
      · have hbuild : ctx.buildDefault (.access accessor key none first :: seg' :: segs) = (do
            let built ← (defaultFor (.access accessor key none first) : StoreM Value)
            let child ← ctx.buildDefault (seg' :: segs)
            ctx.upsert (.access accessor key none first) built child) := by
          rw [buildDefault]
          simp
        rw [hbuild, Eval.run_bind_of_ok (Eval.run_lift _ s), hdefault, Eval.run_bind_of_ok hchild,
          hupsert]
        rfl
      · rcases hparts w hw with hw | rfl
        · exact (parts w hw).retains hturns.retains
        · exact hu.retains hretains

/-! ### Writing -/

variable {h : Handle} {f : Form} {ts : List Tree} {segs : List Segment}

/-- If each part that an access selects is made a settled one, the container is settled. -/
theorem editItems_settled (edit : Value → Eval Value) (before : Store → Tree → Prop)
    (hbefore : ∀ {s r t}, s.Retains r → before s t → before r t)
    (hedit : ∀ {s t}, Lies s [t] → before s t →
      ∃ u r, edit t.value s = (.ok u.value, r) ∧ Turns s [t] r [u] ∧ u.Settled r v segs)
    (accessor : Accessor) (hkey : key.HasNoDouble) (first : Bool) (hlies : Lies s [.node h f ts])
    (hkeyed : f.Keyed s) (hparts : ∀ t ∈ ts, before s t) :
    ∃ u s', (do
        (← ctx.items (.access accessor key none first) (.ref h)).foldlM (fun node (step, child) => do
          let child ← edit child
          (setChild node step child : StoreM Value)) (.ref h) : Eval Value) s = (.ok u.value, s') ∧
      Turns s [.node h f ts] s' [u] ∧ u.Settled s' v (.access accessor key none first :: segs) := by
  obtain ⟨hc, hsuits, -, -⟩ := hlies.parts
  have hlength : (ts.map Tree.value).length = ts.length := List.length_map ..
  obtain ⟨step, r, hitems, hgrows, hnames⟩ :=
    ctx.items_fill accessor hkey first hc (hlength ▸ hsuits) hkeyed
  have hgrown := Turns.of_grows hgrows hlies
  rw [hlength] at hitems hnames
  obtain ⟨h', us, s', hrun, -, hturns, hlength', hdone, -⟩ := Turns.editSlots edit (fun _ => before)
    (fun _ s u => u.Settled s v segs) (fun hst hu => hu.retains hst) step (fun _ _ => hedit)
    (f.nodup_chosen s accessor key first ts.length) hgrown.lies
    (fun hturns i _ t ht => hbefore (hgrows.retains.trans hturns.retains)
      (hparts t (List.mem_of_getElem? ht))) hnames
  have hturns' := hgrown.trans hturns
  refine ⟨.node h' f us, s', ?_, hturns', ?_⟩
  · rw [Eval.run_bind_of_ok hitems]
    exact hrun
  · refine .node hkey (hkeyed.retains hturns'.retains)
      (hlength' ▸ hsuits.retains hturns'.retains) fun i hi => ?_
    -- the same slots are chosen after the edits as before them
    rw [hlength', Form.chosen_retains hturns'.retains hkeyed hsuits] at hi
    exact hdone i hi

/-- If a settled tree is put into a container, the container is settled. -/
theorem settled_of_takes {r : Store} {u : Tree} {h' : Handle} (hkey : key.HasNoDouble)
    (htakes : Takes s r h f ts u accessor key first h' s') (hu : u.Settled r v segs) :
    ∃ w : Tree, w.value = .ref h' ∧ Turns s [.node h f ts] s' [w] ∧
      w.Settled s' v (.access accessor key none first :: segs) := by
  obtain ⟨g, us, hturns, hretains, hkeyed, -, hchosen⟩ := htakes
  obtain ⟨-, hsuits, -, -⟩ := hturns.lies.parts
  refine ⟨.node h' g us, rfl, hturns, .node hkey hkeyed hsuits fun i hi w hw => ?_⟩
  rw [hchosen i hi] at hw
  cases hw
  exact hu.retains hretains

section Unfiltered

variable {seg : Segment}

theorem update_unfiltered (hseg : seg.Unfiltered) (segs : List Segment) (built : Bool)
    (val : Operand) (node : Value) :
    (ctx.pathEdit (seg :: segs) .done).update built false val node =
      ctx.updateParts seg (ctx.pathEdit segs .done) ⟨built, false, false⟩ val node := by
  obtain ⟨-⟩ := hseg
  rfl

/-- More segments follow, and they are to be written. -/
theorem rest_unfiltered (hseg : seg.Unfiltered) (segs : List Segment) :
    (ctx.pathEdit (seg :: segs) .done).isEnd = false ∧
      (ctx.pathEdit (seg :: segs) .done).startsSilent = false ∧
      (ctx.pathEdit (seg :: segs) .done).segments = seg :: segs := by
  obtain ⟨-⟩ := hseg
  exact ⟨rfl, rfl, ctx.segments_pathEdit_done _⟩

theorem selectsNothing_unfiltered (hseg : seg.Unfiltered) {node : Value} {r : Store}
    {parts : List (Step × Value)} (hitems : ctx.items seg node s = (.ok parts, r)) :
    ctx.selectsNothing seg node s = (.ok parts.isEmpty, r) := by
  obtain ⟨-⟩ := hseg
  show (do pure (← ctx.items _ node).isEmpty : Eval Bool) s = _
  rw [Eval.run_bind_of_ok hitems]
  rfl

end Unfiltered

/-- What a write makes of a part that it goes through: null first makes way for the structure of the
rest. -/
def editPart (rest : Edit) (built : Bool) (val : Operand) (part : Value) : Eval Value := do
  let part ← match part with
    | .null => ctx.buildDefault rest.segments
    | part => pure part
  rest.update built false val part

theorem editPart_null (segs : List Segment) (built : Bool) (val : Operand) :
    ctx.editPart (ctx.pathEdit segs .done) built val .null =
      ctx.buildDefault segs >>= (ctx.pathEdit segs .done).update built false val := by
  show ctx.buildDefault (ctx.pathEdit segs .done).segments >>= _ = _
  rw [ctx.segments_pathEdit_done]

theorem editPart_of_ne_null (rest : Edit) (built : Bool) (val : Operand) {part : Value}
    (h : part ≠ .null) : ctx.editPart rest built val part = rest.update built false val part := by
  rw [editPart]
  · rfl
  · exact h

/-- A write through a container: where its segment selects nothing, the structure of the rest is
built, written and put there; what it selects is edited and written back. -/
theorem updateParts_rest {seg : Segment} {rest : Edit} {node : Value} {nothing : Bool} {r : Store}
    (henter : s.isEnterable node = true) (hend : rest.isEnd = false)
    (hstarts : rest.startsSilent = false)
    (hselects : ctx.selectsNothing seg node s = (.ok nothing, r)) (built : Bool) (val : Operand) :
    ctx.updateParts seg rest ⟨built, false, false⟩ val node s =
      if !built && nothing then
        (do
          let child ← ctx.buildDefault rest.segments
          let child ← rest.update true false val child
          ctx.upsert seg node child : Eval Value) r
      else
        (do
          (← ctx.items seg node).foldlM (fun node (step, child) => do
            let child ← ctx.editPart rest built val child
            (setChild node step child : StoreM Value)) node : Eval Value) r := by
  rw [updateParts, Eval.run_bind_of_ok (Eval.run_store s), henter, Bool.not_true,
    if_neg Bool.false_ne_true, hend, if_neg Bool.false_ne_true, Eval.run_bind_of_ok hselects, hstarts,
    Bool.or_false, if_neg Bool.false_ne_true]
  split
  · rfl
  · refine congrFun (bind_congr fun parts => congrArg (List.foldlM · node parts) ?_) r
    funext node part
    obtain ⟨step, child⟩ := part
    -- only null is not written through but replaced by what is built
    cases child with
    | ref g => rfl
    | scalar x =>
      cases x with
      | null => exact (bind_assoc _ _ _).symm
      | _ => rfl

/-- One part that is selected is edited and stored back. -/
theorem updateParts_single {seg : Segment} {rest : Edit} {node child child' : Value} {step : Step}
    {r : Store} {built : Bool} {val : Operand} (hseg : seg.Unfiltered)
    (henter : s.isEnterable node = true) (hend : rest.isEnd = false)
    (hstarts : rest.startsSilent = false)
    (hitems : ctx.items seg node s = (.ok [(step, child)], s))
    (hedit : ctx.editPart rest built val child s = (.ok child', r)) :
    ctx.updateParts seg rest ⟨built, false, false⟩ val node s =
      (.ok (setChild node step child' r).1, (setChild node step child' r).2) := by
  rw [ctx.updateParts_rest henter hend hstarts (ctx.selectsNothing_unfiltered hseg hitems),
    List.isEmpty_cons, Bool.and_false, if_neg Bool.false_ne_true, Eval.run_bind_of_ok hitems,
    List.foldlM_cons]
  simp only [List.foldlM_nil, bind_pure]
  rw [Eval.run_bind_of_ok hedit, Eval.run_lift]

/-- A part is made settled if all trees are by a write of the rest. -/
theorem editPart_settled {segs : List Segment} (hsegs : ∀ seg ∈ segs, seg.Unfiltered) {built : Bool}
    (hupdate : ∀ {s t}, Lies s [t] → t.Bare s →
      ∃ u s', (ctx.pathEdit segs .done).update built false (.value v) t.value s = (.ok u.value, s') ∧
        Turns s [t] s' [u] ∧ u.Settled s' v segs)
    {s : Store} {t : Tree} (hlies : Lies s [t]) (ht : t.Bare s) :
    ∃ u s', ctx.editPart (ctx.pathEdit segs .done) built (.value v) t.value s = (.ok u.value, s') ∧
      Turns s [t] s' [u] ∧ u.Settled s' v segs := by
  by_cases hnull : t.value = .null
  · -- The write goes into what is built instead of the part, which is nowhere else.
    obtain ⟨d, r, hbuild, hnew, hd⟩ := ctx.buildDefault_tree hsegs s
    obtain ⟨u, s', hrun, hturn, hu⟩ := hupdate hnew.lies hd
    refine ⟨u, s', ?_, ((Turns.sublist (List.nil_sublist _) hlies).trans hnew).trans hturn, hu⟩
    rw [hnull, editPart_null, Eval.run_bind_of_ok hbuild, hrun]
  · obtain ⟨u, s', hrun, hturn, hu⟩ := hupdate hlies ht
    exact ⟨u, s', by rw [ctx.editPart_of_ne_null _ _ _ hnull, hrun], hturn, hu⟩

/-- The last segment writes the value itself. -/
theorem updateParts_last {c : Container} (hc : s.get? h = some c) (seg : Segment) (built : Bool)
    (v : Value) :
    ctx.updateParts seg (ctx.pathEdit [] .done) ⟨built, false, false⟩ (.value v) (.ref h) s =
      ctx.upsert seg (.ref h) v s := by
  rw [updateParts, Eval.run_bind_of_ok (Eval.run_store s), Store.isEnterable_of_get? hc]
  rfl

/-- At the end of a path the value itself is written, at a literal or to all that a pattern selects. -/
theorem upsert_settled (accessor : Accessor) (hkey : key.HasNoDouble) (first : Bool)
    (hlies : Lies s [.node h f ts]) (hkeyed : f.Keyed s) (v : Value) :
    ∃ u s', ctx.upsert (.access accessor key none first) (.ref h) v s = (.ok u.value, s') ∧
      Turns s [.node h f ts] s' [u] ∧ u.Settled s' v [.access accessor key none first] := by
  by_cases hpattern : key.isPattern = true
  · have hwrite {s : Store} {t : Tree} : ∃ u r, (pure v : Eval Value) s = (.ok u.value, r) ∧
        Turns s [t] r [u] ∧ u.Settled r v [] := ⟨.leaf v, s, rfl, .leaf [t] v s, .done rfl⟩
    obtain ⟨u, s', hrun, hturns, hu⟩ := ctx.editItems_settled (fun _ => pure v) (fun _ _ => True)
      (fun _ _ => trivial) (fun _ _ => hwrite) accessor hkey first hlies hkeyed fun _ _ => trivial
    simp only [pure_bind] at hrun
    refine ⟨u, s', ?_, hturns, hu⟩
    rw [ctx.upsert_of_isPattern hpattern]
    exact hrun
  · cases key with
    | literal l =>
      obtain ⟨h', s', hrun, htakes⟩ := Turns.upsert ctx hkey hlies hkeyed (.leaf [] v s)
      have hleaf : (Tree.leaf v).Settled s v [] := .done rfl
      obtain ⟨u, hvalue, hturns, hu⟩ := settled_of_takes hkey htakes hleaf
      exact ⟨u, s', hvalue ▸ hrun, hturns, hu⟩
    | wildcard => exact absurd rfl hpattern
    | regex re => exact absurd rfl hpattern

/-- Before the end, what the segment selects is written by the rest, or else what is built for the
rest. -/
theorem updateParts_settled {next : Segment} (hsegs : ∀ seg ∈ next :: segs, seg.Unfiltered)
    (hupdate : ∀ built {s t}, Lies s [t] → t.Bare s →
      ∃ u s', (ctx.pathEdit (next :: segs) .done).update built false (.value v) t.value s =
        (.ok u.value, s') ∧ Turns s [t] s' [u] ∧ u.Settled s' v (next :: segs))
    (accessor : Accessor) (hkey : key.HasNoDouble) (first built : Bool)
    (hlies : Lies s [.node h f ts]) (hkeyed : f.Keyed s) (hparts : ∀ t ∈ ts, t.Bare s) :
    ∃ u s', ctx.updateParts (.access accessor key none first) (ctx.pathEdit (next :: segs) .done)
        ⟨built, false, false⟩ (.value v) (.ref h) s = (.ok u.value, s') ∧
      Turns s [.node h f ts] s' [u] ∧
      u.Settled s' v (.access accessor key none first :: next :: segs) := by
  obtain ⟨hc, hsuits, -, -⟩ := hlies.parts
  obtain ⟨hend, hstarts, hsegments⟩ :=
    ctx.rest_unfiltered (hsegs next (List.mem_cons_self ..)) segs
  have hlength : (ts.map Tree.value).length = ts.length := List.length_map ..
  obtain ⟨step, r, hitems, hgrows, -⟩ :=
    ctx.items_fill accessor hkey first hc (hlength ▸ hsuits) hkeyed
  rw [hlength] at hitems
  have hselects : ctx.selectsNothing (.access accessor key none first) (.ref h) s =
      (.ok (f.chosen s accessor key first ts.length).isEmpty, r) := by
    rw [ctx.selectsNothing_unfiltered (.access hkey) hitems, List.isEmpty_map]
  rw [ctx.updateParts_rest (Store.isEnterable_of_get? hc) hend hstarts hselects]
  split
  · -- Nothing is selected: the rest is built and written before it is put into the container.
    rename_i hvacant
    have hnothing : f.chosen s accessor key first ts.length = [] := by
      rw [Bool.and_eq_true, List.isEmpty_iff] at hvacant
      exact hvacant.2
    obtain ⟨d, r₁, hbuild, hnew, hd⟩ := ctx.buildDefault_tree hsegs r
    obtain ⟨u, r₂, hrest, hturn, hu⟩ := hupdate true hnew.lies hd
    have hfresh : Turns s [] r₂ [u] := (Turns.nothing hgrows).trans (hnew.trans hturn)
    obtain ⟨h', s', hupsert, htakes⟩ :=
      ctx.upsert_takes hkey hlies hkeyed (fun _ => hnothing) hfresh
    obtain ⟨w, hvalue, hturns, hw⟩ := settled_of_takes hkey htakes hu
    refine ⟨w, s', ?_, hturns, hw⟩
    rw [hsegments, Eval.run_bind_of_ok hbuild, Eval.run_bind_of_ok hrest, hupsert, hvalue]
  · -- What is selected is edited where it is, and stays selected.
    have hgrown := Turns.of_grows hgrows hlies
    obtain ⟨u, s', hrun, hturns, hu⟩ := ctx.editItems_settled _ Tree.Bare
      (fun hst ht => ht.retains hst) (ctx.editPart_settled hsegs (hupdate built)) accessor hkey first
      hgrown.lies (hkeyed.retains hgrows.retains) fun t ht => (hparts t ht).retains hgrows.retains
    exact ⟨u, s', hrun, hgrown.trans hturns, hu⟩

/-- **A write along a path settles the tree for the path.** -/
theorem update_settled : ∀ {segs : List Segment}, (∀ seg ∈ segs, seg.Unfiltered) →
    ∀ (built : Bool) {s : Store} {t : Tree}, Lies s [t] → t.Bare s →
    ∃ u s', (ctx.pathEdit segs .done).update built false (.value v) t.value s = (.ok u.value, s') ∧
      Turns s [t] s' [u] ∧ u.Settled s' v segs
  | [], _, built, s, t, _, _ => ⟨.leaf v, s, rfl, .leaf [t] v s, .done rfl⟩
  | seg :: segs, hsegs, built, s, t, hlies, hbare => by
    obtain ⟨hhead, htail⟩ := List.forall_mem_cons.mp hsegs
    rw [ctx.update_unfiltered hhead]
    obtain @⟨accessor, key, first, hkey⟩ := hhead
    cases hbare with
    | @leaf x closed =>
      have henter : s.isEnterable (.scalar x) = false := by
        rw [Store.isEnterable, Bool.not_eq_false']
        exact closed
      refine ⟨.leaf (.scalar x), s, ?_, .refl hlies, .leaf closed⟩
      rw [updateParts, Eval.run_bind_of_ok (Eval.run_store s), Tree.value, henter]
      rfl
    | @node h f ts keyed parts =>
      obtain ⟨hc, -, -, -⟩ := hlies.parts
      cases segs with
      | nil =>
        rw [Tree.value, ctx.updateParts_last hc]
        exact ctx.upsert_settled accessor hkey first hlies keyed v
      | cons next segs =>
        exact ctx.updateParts_settled htail (update_settled htail) accessor hkey first built hlies
          keyed parts

/-- **What an update writes is what a reading finds**: nothing but the value, and no error. -/
theorem find_updated {segs : List Segment} (hsegs : ∀ seg ∈ segs, seg.Unfiltered) {t : Tree}
    (hlies : Lies s [t]) (hbare : t.Bare s) (v : Value) :
    ∃ w s', ctx.update segs t.value (.value v) s = (.ok w, s') ∧
      ∃ found s'', ctx.find segs w s' = (.ok found, s'') ∧ ∀ p ∈ found, p.2 = v := by
  obtain ⟨u, s', hupdate, hturns, hu⟩ := ctx.update_settled hsegs false hlies hbare
  refine ⟨u.value, s', hupdate, ?_⟩
  have hstored := hturns.lies.stored u (List.mem_singleton.mpr rfl)
  obtain ⟨found, s'', hwalk, -, hfound⟩ := ctx.walkPath_settled hu hstored [] s' (.refl s')
  refine ⟨found, s'', ?_, hfound⟩
  rw [find, Eval.run_bind_of_ok hwalk]
  rfl

/-- A key access with a wildcard selects all entries of a dict. -/
theorem items_entries {es : List (Value × Value)} (hd : s.get? h = some (.dict es)) :
    ctx.items (.access .key .wildcard none false) (.ref h) s =
      (.ok (es.map fun e => (.key e.1, e.2)), s) := by
  have hentries : s.entries (.ref h) = es := by
    have hc : s.container? (.ref h) = some (.dict es) := hd
    rw [Store.entries, hc]
  have hraw : candidates .key .wildcard (.ref h) s = (es, s) := by
    rw [candidates, keyedCandidates_pattern rfl, Store.isKeyed_of_get? hd, if_pos rfl, hentries]
    exact congrArg (·, s) (List.filter_eq_self.mpr fun _ _ => rfl)
  exact ctx.items_of_candidates hraw

/-- A reading reports all entries of the dict. -/
theorem find_entries {es : List (Value × Value)} (hd : s.get? h = some (.dict es)) :
    ctx.find [.access .key .wildcard none false] (.ref h) s =
      (.ok (es.map fun e => ([.key e.1], e.2)), s) := by
  have hwalk : ctx.walkPath [.access .key .wildcard none false] Walk.done [] (.ref h) s =
      (.ok ⟨placesOf (es.map fun e => (.key e.1, e.2)), false⟩, s) := by
    show (ctx.items _ (.ref h) >>= fun parts => Walk.each _ [] (placesOf parts)) s = _
    rw [Eval.run_bind_of_ok (ctx.items_entries hd)]
    exact Walk.each_done s _
  rw [find, Eval.run_bind_of_ok hwalk, placesOf, List.map_map]
  rfl

end Context

/-! ### Keys with a NaN -/

/-- A NaN is not equal to itself, as a key or otherwise. -/
theorem Store.equalsWithin_nan {x : Float} (hx : (x == x) = false) (s : Store) (asKeys : Bool) :
    s.equalsWithin s.comparisonDepth asKeys (.float x) (.float x) = false := by
  have hequals : Scalar.equals (.float x) (.float x) = (x == x) := rfl
  rw [Store.comparisonDepth, Value.float, Store.equalsWithin]
  split
  · rw [Scalar.sameKey, hequals, hx, Bool.false_and]
  · rw [hequals, hx]

namespace Context

variable (ctx : Context)

/-- At a NaN a pattern does not overwrite the entry that it selects: the value goes into another
entry with a NaN, and a reading finds both. -/
theorem update_nan_key {x : Float} (hx : (x == x) = false) {h : Handle} {w : Value}
    (hd : s.get? h = some (.dict [(.float x, w)])) (v : Value) :
    ∃ s', ctx.update [.access .key .wildcard none false] (.ref h) (.value v) s =
        (.ok (.ref h), s') ∧
      ctx.find [.access .key .wildcard none false] (.ref h) s' =
        (.ok [([.key (.float x)], w), ([.key (.float x)], v)], s') := by
  have hother : s.sameKey (.float x) (.float x) = false := Store.equalsWithin_nan hx s true
  have hinsert : s.insertEntry [(.float x, w)] (.float x) v = [(.float x, w), (.float x, v)] := by
    simp [Store.insertEntry, hother]
  have hset : setChild (.ref h) (.key (.float x)) v s =
      (.ref h, s.set h (.dict [(.float x, w), (.float x, v)])) := by
    rw [← hinsert]
    exact setKeyed_dict hd (.float x) v
  have hwritten := Store.get?_set_self (.dict [(.float x, w), (.float x, v)])
    (Store.lt_size_of_get? hd)
  refine ⟨s.set h (.dict [(.float x, w), (.float x, v)]), ?_, ?_⟩
  · have hend : ctx.update [.access .key .wildcard none false] (.ref h) (.value v) s =
        ctx.overwriteItems (.access .key .wildcard none false) (.ref h) v s :=
      ctx.updateParts_last hd _ false v
    rw [hend, overwriteItems, Eval.run_bind_of_ok (ctx.items_entries hd), List.map_cons, List.map_nil,
      List.foldlM_cons, Eval.run_bind_of_ok (Eval.run_lift _ s), hset]
    rfl
  · exact ctx.find_entries hwritten

end Context

end DottedPath
