import DottedPath.Proofs.Query.DefaultPath
import DottedPath.Proofs.Query.Expansion
import DottedPath.Proofs.Query.SoftCut
import DottedPath.Query.Write

/-!
# What is kept when a structure is built

Building writes one part of the structure for a path into the root, at the first step that is missing
there.  In a tree such a write only adds: it puts a part behind those that are there, or into the place
of null (`Tree.Grown`).  So all else that was in the tree is still at its place.

A text has no place to add something to.  What is written behind its characters becomes part of it,
and the text that was there is gone (`Context.build_behind_text`).

## Main statements

- `Context.update_grown`: an update of a path that finds nothing only adds to the tree.
- `Context.build_keeps`: building keeps what is at the leaves of the tree, but for nulls, if the path
  goes into no text and into no bytes.
- `Context.build_behind_text`: behind the end of a text building changes the text.
-/

namespace DottedPath

open Forest

variable {s s' r : Store} {h h' : Handle} {f g : Form} {t u : Tree} {ts us : List Tree}
  {vs : List Value} {st : Step} {l : Location}

/-! ### Steps of literals -/

namespace Step

/-- The access that takes the step, if its key is a scalar. -/
def access? : Step → Option (Accessor × Scalar)
  | key (.scalar x) => some (.key, x)
  | slot (.scalar x) => some (.slot, x)
  | attr name => some (.attr, .str name)
  | _ => none

/-- The step is that of a literal which is no double and no boolean. -/
def Exact (st : Step) : Prop :=
  ∃ accessor x, st.access? = some (accessor, x) ∧ x.kind ≠ .float ∧ x.kind ≠ .bool

/-- The slot of a container that the step leads to. -/
def slot? (s : Store) (f : Form) (n : Nat) (st : Step) : Option Nat :=
  st.access?.bind fun a => f.slotOf? s a.1 (.scalar a.2) n

variable {accessor : Accessor} {x : Scalar}

/-- The access is the segment of the step. -/
theorem access?_eq_some (hst : st.access? = some (accessor, x)) :
    st.Named ∧ st.descends = true ∧ ∀ s, st.segment s = .literal accessor (.scalar x) := by
  cases st with
  | key k =>
    cases k with
    | scalar y =>
      cases hst
      exact ⟨trivial, rfl, fun _ => rfl⟩
    | ref g => cases hst
  | slot k =>
    cases k with
    | scalar y =>
      cases hst
      exact ⟨trivial, rfl, fun _ => rfl⟩
    | ref g => cases hst
  | attr name =>
    cases hst
    exact ⟨trivial, rfl, fun _ => rfl⟩
  | _ => cases hst

theorem Exact.named (hst : st.Exact) : st.Named := by
  obtain ⟨accessor, x, haccess, -⟩ := hst
  exact (access?_eq_some haccess).1

theorem Exact.descends (hst : st.Exact) : st.descends = true := by
  obtain ⟨accessor, x, haccess, -⟩ := hst
  exact (access?_eq_some haccess).2.1

theorem hasDouble_scalar (hx : x.kind ≠ .float) : (Literal.scalar x).hasDouble = false := by
  cases x with
  | float y => exact absurd rfl hx
  | _ => rfl

theorem Exact.unfiltered (hst : st.Exact) (s : Store) : (st.segment s).Unfiltered := by
  obtain ⟨accessor, x, haccess, hfloat, -⟩ := hst
  rw [(access?_eq_some haccess).2.2 s]
  exact .access (hasDouble_scalar hfloat)

theorem slot?_retains (hsr : s.Retains r) (hkeyed : f.Keyed s) (n : Nat) :
    st.slot? r f n = st.slot? s f n := by
  rw [slot?, slot?]
  cases st.access? with
  | none => rfl
  | some a => exact Form.slotOf?_retains hsr hkeyed

end Step

namespace Context

variable (ctx : Context)

/-- A step is found in the slot that it leads to. -/
theorem items_exact (hst : st.Exact) (hc : s.get? h = some (f.fill vs)) (hf : f.Suits s vs.length)
    (hkeyed : f.Keyed s) (s₀ : Store) :
    ctx.items (st.segment s₀) (.ref h) s =
        (.ok ((st.slot? s f vs.length).map fun i => (st, vs.getD i .null)).toList, s) ∧
      ∀ i, st.slot? s f vs.length = some i → i < vs.length ∧ f.Names s vs.length st i := by
  obtain ⟨accessor, x, haccess, hfloat, -⟩ := hst
  obtain ⟨hnamed, hdescends, hsegment⟩ := Step.access?_eq_some haccess
  obtain ⟨o, t, hitems, ht⟩ := ctx.items_named hnamed s₀ (.ref h) s
  have hkey : (KeyPattern.literal (.scalar x)).HasNoDouble := Step.hasDouble_scalar hfloat
  obtain ⟨step, r, hfill, -, hchosen⟩ := ctx.items_fill accessor hkey false hc hf hkeyed
  have hslot : st.slot? s f vs.length = f.slotOf? s accessor (.scalar x) vs.length := by
    rw [Step.slot?, haccess]
    rfl
  have hslots : f.chosen s accessor (.literal (.scalar x)) false vs.length =
      (st.slot? s f vs.length).toList := by
    rw [hslot]
    rfl
  rw [ht hdescends] at hitems
  rw [hslots] at hfill hchosen
  -- the segment was run in two ways, as a step and as an access; both tell the same parts
  have hsame := hfill.symm.trans (hsegment s₀ ▸ hitems)
  obtain ⟨hparts, hstore⟩ := Prod.mk.inj hsame
  rw [hitems]
  rw [hstore] at hchosen
  cases hfound : st.slot? s f vs.length with
  | none =>
    rw [hfound] at hparts
    refine ⟨?_, nofun⟩
    rw [← Except.ok.inj hparts]
    rfl
  | some i =>
    rw [hfound] at hparts hchosen
    have hpart := Except.ok.inj hparts
    cases o with
    | none => cases hpart
    | some v =>
      obtain ⟨hst, hv⟩ := Prod.mk.inj (List.cons.inj hpart).1
      refine ⟨by rw [← hv]; rfl, fun j hj => ?_⟩
      cases hj
      have hnames := hchosen i (List.mem_singleton.mpr rfl)
      rwa [hst] at hnames

end Context

/-! ### Containers with one part more -/

/-- A write has left the container as it was, or added a part behind those that were there. -/
inductive Forest.Adds (s : Store) (h : Handle) (f : Form) (ts : List Tree) (h' : Handle)
    (s' : Store) : Prop where
  | intro (g : Form) (us : List Tree) (turns : Turns s [.node h f ts] s' [.node h' g us])
    (parts : ts <+: us) (steps : ∀ i < ts.length, g.step i = f.step i)

namespace Forest

/-- The container stays as it is. -/
theorem Adds.unchanged (hlies : Lies s [.node h f ts]) (hnew : Turns s [] r us) :
    Adds s h f ts h r :=
  ⟨f, ts, .of_grows hnew.grows hlies, List.prefix_refl ts, fun _ _ => rfl⟩

/-- A new tree comes behind the parts. -/
theorem Adds.append (hlies : Lies s [.node h f ts]) (hnew : Turns s [] r [u])
    (hsuits : g.Suits r (ts.length + 1)) (hsteps : ∀ i < ts.length, g.step i = f.step i) :
    ∃ h' s', f.rewrite h (g.fill (ts.map Tree.value ++ [u.value])) r = (.ref h', s') ∧
      Adds s h f ts h' s' := by
  obtain ⟨-, -, hparts, -⟩ := hlies.parts
  have happend : ts.map Tree.value ++ [u.value] = (ts ++ [u]).map Tree.value := by simp
  obtain ⟨h', hvalue, -, hnode⟩ :=
    Turns.node (g := g) hlies (hnew.append hparts) (by simpa using hsuits)
  rw [happend]
  exact ⟨h', _, Prod.ext hvalue rfl, g, ts ++ [u], hnode, List.prefix_append .., hsteps⟩

/-- A key that is not there is added to a dict. -/
theorem setKeyed_adds_dict {keys : List Value} {k : Value}
    (hlies : Lies s [.node h (.dict keys) ts]) (hkeyed : (Form.dict keys).Keyed s)
    (hnew : Turns s [] r [u]) (hk : r.IsKey k) (hnone : keys.findIdx? (r.sameKey k) = none) :
    ∃ h' s', setKeyed (.ref h) k u.value r = (.ref h', s') ∧ Adds s h (.dict keys) ts h' s' := by
  obtain ⟨hc, hsuits, -, -⟩ := hlies.parts
  have hgrows := hnew.grows
  have hlength : keys.length = ts.length := hsuits.1
  have hkeys : ∀ k' ∈ keys ++ [k], r.IsKey k' := List.forall_mem_append.mpr
    ⟨fun k' hk' => (hkeyed k' hk').keeps hgrows.keepsCopied, List.forall_mem_singleton.mpr hk⟩
  have hrun := setKeyed_newEntry (hgrows _ _ hc) (by simpa using hlength) hnone u.value
  refine hrun ▸ Adds.append (g := .dict (keys ++ [k])) hlies hnew
    ((hsuits.retains hgrows.retains).concat_key hkeys hnone) fun i hi => ?_
  have hi' : i < keys.length := hlength ▸ hi
  rw [Form.step, Form.step, List.getD_append _ _ _ _ hi']

/-- A name that is not there is added to an object. -/
theorem setChild_adds_object {name attr : String} {names : List String} {frozen : Bool}
    (hlies : Lies s [.node h (.object name names frozen) ts]) (hnew : Turns s [] r [u])
    (hnone : names.findIdx? (· == attr) = none) :
    ∃ h' s', setChild (.ref h) (.attr attr) u.value r = (.ref h', s') ∧
      Adds s h (.object name names frozen) ts h' s' := by
  obtain ⟨hc, hsuits, -, -⟩ := hlies.parts
  have hlength : names.length = ts.length := hsuits.1
  have hedit := insertAttr_zip_of_new (hlength.trans (List.length_map Tree.value).symm) hnone u.value
  have hrun : setChild (.ref h) (.attr attr) u.value r = (Form.object name names frozen).rewrite h
      ((Form.object name (names ++ [attr]) frozen).fill (ts.map Tree.value ++ [u.value])) r :=
    replaceAttrs_fill (hnew.grows _ _ hc) hedit
  rw [hrun]
  refine Adds.append hlies hnew ((hsuits.retains hnew.grows.retains).concat_name hnone) fun i hi => ?_
  have hi' : i < names.length := hlength ▸ hi
  rw [Form.step, Form.step, List.getD_append _ _ _ _ hi']

/-- An index that names no element is added behind the last one, if it counts from the start. -/
theorem setKeyed_adds_sequence {x : Scalar} (hf : f = .list ∨ f = .tuple)
    (hlies : Lies s [.node h f ts]) (hnew : Turns s [] r [u])
    (hnone : ∀ k, x.toInt? = some k → resolveIndex? ts.length k = none) :
    ∃ h' s', setKeyed (.ref h) (.scalar x) u.value r = (.ref h', s') ∧ Adds s h f ts h' s' := by
  obtain ⟨hc, -, -, -⟩ := hlies.parts
  have hc' := hnew.grows _ _ hc
  cases hx : x.toInt? with
  | none =>
    have hrun := setKeyed_of_no_key (s := r) (k := .scalar x) (sequence_of_fill hc' hf).1
      (.inr (by rintro y i ⟨⟩; simp [hx])) u.value
    exact ⟨h, r, hrun, .unchanged hlies hnew⟩
  | some k =>
    have hrun := setKeyed_number hc' hf hx u.value
    rw [List.length_map] at hrun
    rw [hrun]
    split
    · refine Adds.append hlies hnew ?_ fun _ _ => rfl
      rcases hf with rfl | rfl <;> trivial
    · rw [hnone k hx]
      exact ⟨h, r, rfl, .unchanged hlies hnew⟩

/-- **A write at a step that leads to no slot only adds.** -/
theorem upsert_adds (ctx : Context) (hst : st.Exact) (hlies : Lies s [.node h f ts])
    (hkeyed : f.Keyed s) (hnew : Turns s [] r [u]) (hnone : st.slot? s f ts.length = none)
    (s₀ : Store) :
    ∃ h' s', ctx.upsert (st.segment s₀) (.ref h) u.value r = (.ok (.ref h'), s') ∧
      Adds s h f ts h' s' := by
  obtain ⟨accessor, x, haccess, hfloat, hbool⟩ := hst
  obtain ⟨hnamed, -, -⟩ := Step.access?_eq_some haccess
  obtain ⟨hc, -, -, -⟩ := hlies.parts
  have hkind := Form.kind_of_fill (hnew.grows _ _ hc)
  have hslot : f.slotOf? r accessor (.scalar x) ts.length = none := by
    rw [Form.slotOf?_retains hnew.grows.retains hkeyed, ← hnone, Step.slot?, haccess]
    rfl
  rw [ctx.upsert_named hnamed, Eval.run_lift]
  suffices hset : ∃ h' s', setChild (.ref h) st u.value r = (.ref h', s') ∧ Adds s h f ts h' s' by
    obtain ⟨h', s', hrun, hadds⟩ := hset
    exact ⟨h', s', by rw [hrun], hadds⟩
  have hkey (haccessor : accessor ≠ .attr) (hstep : setChild (.ref h) st u.value =
      setKeyed (.ref h) (.scalar x) u.value) :
      ∃ h' s', setChild (.ref h) st u.value r = (.ref h', s') ∧ Adds s h f ts h' s' := by
    -- A boolean would be an index for a write, but for a look-up it is none.
    have hindex (k : Int) (hx : x.toInt? = some k) : x = .int k := by
      cases x with
      | bool b => exact absurd rfl hbool
      | int i =>
        cases hx
        rfl
      | _ => cases hx
    rw [hstep]
    cases f with
    | dict keys =>
      rw [Form.slotOf?, if_neg haccessor] at hslot
      exact setKeyed_adds_dict hlies hkeyed hnew (.scalar hfloat) hslot
    | object name names frozen =>
      exact ⟨h, r, setKeyed_object (hnew.grows _ _ hc) _ _, .unchanged hlies hnew⟩
    | list =>
      refine setKeyed_adds_sequence (.inl rfl) hlies hnew fun k hk => ?_
      rw [hindex k hk] at hslot
      exact (Form.slotOf?_sequence (.inl rfl) haccessor k).symm.trans hslot
    | tuple =>
      refine setKeyed_adds_sequence (.inr rfl) hlies hnew fun k hk => ?_
      rw [hindex k hk] at hslot
      exact (Form.slotOf?_sequence (.inr rfl) haccessor k).symm.trans hslot
  cases st with
  | key k =>
    cases k with
    | scalar y =>
      cases haccess
      exact hkey (by decide) rfl
    | ref g => cases haccess
  | slot k =>
    cases k with
    | scalar y =>
      cases haccess
      exact hkey (by decide) rfl
    | ref g => cases haccess
  | attr name =>
    cases haccess
    cases f with
    | object _ names frozen =>
      rw [Form.slotOf?, if_pos rfl] at hslot
      exact setChild_adds_object hlies hnew hslot
    | _ =>
      refine ⟨h, r, replaceAttrs_of_no_object ?_ _, .unchanged hlies hnew⟩
      rw [hkind]
      rintro ⟨⟩
  | _ => cases haccess

end Forest

/-! ### Trees with more in them -/

namespace Tree

/-- The tree with more in it: another tree may be in the place of a null, and a container may have
further parts behind those that it had. -/
inductive Grown : Tree → Tree → Prop where
  | null (u : Tree) : Grown (.leaf .null) u
  | leaf (v : Value) : Grown (.leaf v) (.leaf v)
  | node {h h' : Handle} {f g : Form} {ts us : List Tree} (length : ts.length ≤ us.length)
    (steps : ∀ i < ts.length, g.step i = f.step i)
    (parts : ∀ (i : Nat) (t u : Tree), ts[i]? = some t → us[i]? = some u → Grown t u) :
    Grown (.node h f ts) (.node h' g us)

/-- A scalar is a leaf. -/
theorem eq_leaf_of_value {x : Scalar} (h : t.value = .scalar x) : t = .leaf (.scalar x) := by
  cases t with
  | leaf v => exact congrArg Tree.leaf h
  | node g f ts => cases h

theorem Grown.refl (t : Tree) : Grown t t := by
  induction t using induction with
  | leaf v => exact .leaf v
  | node h f ts ih =>
    refine .node (Nat.le_refl _) (fun _ _ => rfl) fun i t u ht hu => ?_
    cases ht.symm.trans hu
    exact ih t (List.mem_of_getElem? ht)

/-- What is at a leaf is there afterwards, at the same place and by the same steps. -/
theorem Grown.at? (h : Grown t u) {v : Value} (hv : v ≠ .null) : ∀ {p : List Nat},
    t.at? p = some (.leaf v) → u.at? p = some (.leaf v) ∧ u.location p = t.location p := by
  induction h with
  | null u =>
    -- Below a leaf there are no places, and null is not the value.
    intro p hp
    cases p with
    | nil =>
      cases hp
      exact absurd rfl hv
    | cons i p => cases hp
  | leaf w => exact fun hp => ⟨hp, rfl⟩
  | @node h h' f g ts us length steps parts ih =>
    intro p hp
    cases p with
    | nil => cases hp
    | cons i p =>
      obtain ⟨t, ht, hp⟩ := Option.bind_eq_some_iff.mp hp
      have hi : i < ts.length := (List.getElem?_eq_some_iff.mp ht).1
      have hu : us[i]? = some us[i] := List.getElem?_eq_getElem _
      obtain ⟨hpart, hlocation⟩ := ih i t us[i] ht hu hp
      refine ⟨?_, ?_⟩
      · rw [Tree.at?, hu]
        exact hpart
      · rw [location, location, steps i hi, hu, ht]
        exact congrArg (f.step i :: ·) hlocation

/-- The path goes into containers without doubles in their keys, into scalars that have no parts, and
nowhere else. -/
inductive Clear (s : Store) : Location → Tree → Prop where
  | nil (t : Tree) : Clear s [] t
  | leaf {st : Step} {l : Location} {x : Scalar} (closed : x.isClosed = true) :
    Clear s (st :: l) (.leaf (.scalar x))
  | node {st : Step} {l : Location} {h : Handle} {f : Form} {ts : List Tree} (keyed : f.Keyed s)
    (part : ∀ (i : Nat) (t : Tree), st.slot? s f ts.length = some i → ts[i]? = some t → Clear s l t) :
    Clear s (st :: l) (.node h f ts)

theorem Clear.retains (hsr : s.Retains r) (ht : t.Clear s l) : t.Clear r l := by
  induction ht with
  | nil t => exact .nil t
  | leaf closed => exact .leaf closed
  | node keyed _ ih =>
    refine .node (keyed.retains hsr) fun i t hi => ih i t ?_
    rw [← Step.slot?_retains hsr keyed]
    exact hi

/-- Then so does the way to it. -/
theorem Clear.of_prefix {m : Location} (ht : t.Clear s l) (hm : m <+: l) : t.Clear s m := by
  induction ht generalizing m with
  | nil t =>
    rw [List.prefix_nil.mp hm]
    exact .nil t
  | leaf closed =>
    cases m with
    | nil => exact .nil _
    | cons st' m => exact .leaf closed
  | node keyed _ ih =>
    cases m with
    | nil => exact .nil _
    | cons st' m =>
      obtain ⟨rfl, hrest⟩ := List.cons_prefix_cons.mp hm
      exact .node keyed fun i t hi ht => ih i t hi ht hrest

end Tree

/-- A container with another part behind its own has more in it. -/
theorem Forest.Adds.grown (hadds : Adds s h f ts h' s') :
    ∃ u : Tree, u.value = .ref h' ∧ Turns s [.node h f ts] s' [u] ∧ (Tree.node h f ts).Grown u := by
  obtain ⟨g, us, hturns, hparts, hsteps⟩ := hadds
  refine ⟨.node h' g us, rfl, hturns, .node hparts.length_le hsteps fun i t u ht hu => ?_⟩
  obtain ⟨more, rfl⟩ := hparts
  have hi : i < ts.length := (List.getElem?_eq_some_iff.mp ht).1
  rw [List.getElem?_append_left hi, ht] at hu
  cases hu
  exact .refl t

namespace Context

variable (ctx : Context)

/-- The literal path of a location. -/
theorem pins_path (hl : ∀ st ∈ l, st.Exact) (s : Store) :
    List.Forall₂ Segment.Pins (Location.path s l) l := by
  refine List.forall₂_map_left_iff.mpr (List.forall₂_same.mpr fun st hst => ?_)
  exact .step s (hl st hst).named

theorem unfiltered_path (hl : ∀ st ∈ l, st.Exact) (s : Store) :
    ∀ seg ∈ Location.path s l, seg.Unfiltered := by
  intro seg hseg
  obtain ⟨st, hst, rfl⟩ := List.mem_map.mp hseg
  exact (hl st hst).unfiltered s

/-- Reading the path changes nothing, and reports one place at most. -/
theorem find_exact (hl : ∀ st ∈ l, st.Exact) (s₀ : Store) (node : Value) (s : Store) :
    ∃ o : Option Value, ctx.find (Location.path s₀ l) node s =
      (.ok (o.map fun v => (l, v)).toList, s) := by
  obtain ⟨o, t, hfind, ht⟩ := ctx.find_pins (pins_path hl s₀) node s
  rw [ht fun st hst => (hl st hst).descends] at hfind
  exact ⟨o, hfind⟩

/-- If the path finds nothing, its rest finds nothing in the part that its first step leads to. -/
theorem find_rest_of_nothing (hst : st.Exact) (hl : ∀ st ∈ l, st.Exact) {s₀ : Store}
    {node child : Value}
    (hitems : ctx.items (st.segment s₀) node s = (.ok [(st, child)], s))
    (hfind : ctx.find (Location.path s₀ (st :: l)) node s = (.ok [], s)) :
    ctx.find (Location.path s₀ l) child s = (.ok [], s) := by
  obtain ⟨o, t, hwalk, ht⟩ := ctx.walkPath_pins (pins_path hl s₀) child s
  rw [ht fun st hst => (hl st hst).descends] at hwalk
  have hwhole := ctx.walkPath_cons_of_part (.step s₀ hst.named) hitems (hwalk ([] ++ [st]))
  have hnothing : ctx.find (Location.path s₀ (st :: l)) node s =
      (.ok (o.map fun v => (st :: l, v)).toList, s) := by
    rw [find]
    exact Eval.run_bind_of_ok hwhole
  rw [find, Eval.run_bind_of_ok (hwalk [])]
  cases o with
  | none => rfl
  | some v => cases hnothing.symm.trans hfind

/-! ### Updates of what is missing -/

variable (s₀ : Store)

/-- The rest of the path, if there is one, is to be written. -/
theorem rest_path {l : Location} (hl : ∀ st ∈ l, st.Exact) (hne : l ≠ []) :
    (ctx.pathEdit (Location.path s₀ l) .done).isEnd = false ∧
      (ctx.pathEdit (Location.path s₀ l) .done).startsSilent = false ∧
      (ctx.pathEdit (Location.path s₀ l) .done).segments = Location.path s₀ l := by
  obtain ⟨st, l, rfl⟩ := List.exists_cons_of_ne_nil hne
  exact ctx.rest_unfiltered ((hl st (List.mem_cons_self ..)).unfiltered s₀) (Location.path s₀ l)

/-- The part that a step leads to has more in it afterwards, if an update of the rest sees to this. -/
theorem editPart_grown {l : Location} (hl : ∀ st ∈ l, st.Exact) {v : Value}
    (hlies : Lies s [t])
    (hupdate : t.value ≠ .null → ∃ u s', (ctx.pathEdit (Location.path s₀ l) .done).update false false
      (.value v) t.value s = (.ok u.value, s') ∧ Turns s [t] s' [u] ∧ t.Grown u) :
    ∃ u s', ctx.editPart (ctx.pathEdit (Location.path s₀ l) .done) false (.value v) t.value s =
        (.ok u.value, s') ∧ Turns s [t] s' [u] ∧ t.Grown u := by
  by_cases hnull : t.value = .null
  · -- Null makes way for a structure that is nowhere else.
    have hsegs := unfiltered_path hl s₀
    obtain ⟨d, r, hbuild, hnew, hd⟩ := ctx.buildDefault_tree hsegs s
    obtain ⟨u, s', hrun, hturn, -⟩ := ctx.update_settled hsegs false hnew.lies hd
    refine ⟨u, s', ?_, ((Turns.sublist (List.nil_sublist _) hlies).trans hnew).trans hturn,
      Tree.eq_leaf_of_value hnull ▸ .null u⟩
    rw [hnull, editPart_null, Eval.run_bind_of_ok hbuild, hrun]
  · obtain ⟨u, s', hrun, hturn, hu⟩ := hupdate hnull
    exact ⟨u, s', by rw [ctx.editPart_of_ne_null _ _ _ hnull, hrun], hturn, hu⟩

/-- If the step leads to no slot, what is written for it is added to the container. -/
theorem updateParts_adds (v : Value) (hst : st.Exact) (hl : ∀ st ∈ l, st.Exact)
    (hlies : Lies s [.node h f ts]) (hkeyed : f.Keyed s) (hnone : st.slot? s f ts.length = none)
    (hitems : ctx.items (st.segment s₀) (.ref h) s = (.ok [], s)) :
    ∃ (u : Tree) (s' : Store), ctx.updateParts (st.segment s₀)
        (ctx.pathEdit (Location.path s₀ l) .done) ⟨false, false, false⟩ (.value v) (.ref h) s =
        (.ok u.value, s') ∧ Turns s [.node h f ts] s' [u] ∧ (Tree.node h f ts).Grown u := by
  obtain ⟨hc, -, -, -⟩ := hlies.parts
  by_cases hne : l = []
  · subst hne
    obtain ⟨h', s', hrun, hadds⟩ := upsert_adds ctx hst hlies hkeyed (.leaf [] v s) hnone s₀
    obtain ⟨u, hu, hturns, hgrown⟩ := hadds.grown
    refine ⟨u, s', ?_, hturns, hgrown⟩
    show ctx.updateParts _ (ctx.pathEdit [] .done) _ _ _ s = _
    rw [ctx.updateParts_last hc, hu]
    exact hrun
  · -- The structure of the rest is built and written before it is put into the container.
    obtain ⟨hend, hstarts, hsegments⟩ := ctx.rest_path s₀ hl hne
    have hsegs := unfiltered_path hl s₀
    obtain ⟨d, r₁, hbuild, hnew, hd⟩ := ctx.buildDefault_tree hsegs s
    obtain ⟨x, r₂, hwrite, hturn, -⟩ := ctx.update_settled hsegs true hnew.lies hd
    obtain ⟨h', s', hrun, hadds⟩ := upsert_adds ctx hst hlies hkeyed (hnew.trans hturn) hnone s₀
    obtain ⟨u, hu, hturns, hgrown⟩ := hadds.grown
    refine ⟨u, s', ?_, hturns, hgrown⟩
    rw [ctx.updateParts_rest (Store.isEnterable_of_get? hc) hend hstarts
      (ctx.selectsNothing_unfiltered (hst.unfiltered s₀) hitems), hsegments]
    show (ctx.buildDefault (Location.path s₀ l) >>= fun child =>
      (ctx.pathEdit (Location.path s₀ l) .done).update true false (.value v) child >>=
        fun child => ctx.upsert (st.segment s₀) (.ref h) child) s = _
    rw [Eval.run_bind_of_ok hbuild, Eval.run_bind_of_ok hwrite, hrun, hu]

/-- If it leads to one, the part there is edited and written back. -/
theorem updateParts_edits {i : Nat} {v : Value} (hst : st.Exact) (hl : ∀ st ∈ l, st.Exact)
    (hne : l ≠ []) (hlies : Lies s [.node h f ts]) (hi : i < ts.length)
    (hnames : f.Names s ts.length st i)
    (hitems : ctx.items (st.segment s₀) (.ref h) s = (.ok [(st, ts[i].value)], s))
    (hedit : ctx.editPart (ctx.pathEdit (Location.path s₀ l) .done) false (.value v) ts[i].value s =
      (.ok u.value, r)) (hturn : Turns s [ts[i]] r [u]) (hgrown : ts[i].Grown u) :
    ∃ (w : Tree) (s' : Store), ctx.updateParts (st.segment s₀)
        (ctx.pathEdit (Location.path s₀ l) .done) ⟨false, false, false⟩ (.value v) (.ref h) s =
        (.ok w.value, s') ∧ Turns s [.node h f ts] s' [w] ∧ (Tree.node h f ts).Grown w := by
  obtain ⟨hc, -, -, -⟩ := hlies.parts
  obtain ⟨hend, hstarts, -⟩ := ctx.rest_path s₀ hl hne
  obtain ⟨h', s', hset, -, -, hturns⟩ := Turns.writeAt hlies hi hturn (hnames.retains hturn.retains)
  refine ⟨.node h' f (ts.set i u), s', ?_, hturns, ?_⟩
  · rw [ctx.updateParts_single (hst.unfiltered s₀) (Store.isEnterable_of_get? hc) hend hstarts hitems
      hedit, hset]
    rfl
  · refine .node (by rw [List.length_set]) (fun _ _ => rfl) fun j w w' hw hw' => ?_
    by_cases hij : i = j
    · subst hij
      rw [List.getElem?_set_self hi] at hw'
      cases (List.getElem?_eq_getElem hi).symm.trans hw
      cases hw'
      exact hgrown
    · rw [List.getElem?_set_ne hij, hw] at hw'
      cases hw'
      exact .refl w

/-- **An update of a path that finds nothing only adds to a tree**, if the path goes into no text and
into no bytes. -/
theorem update_grown (v : Value) : ∀ {l : Location}, (∀ st ∈ l, st.Exact) → ∀ {s : Store} {t : Tree},
    Lies s [t] → t.Clear s l → ctx.find (Location.path s₀ l) t.value s = (.ok [], s) →
    ∃ u s', (ctx.pathEdit (Location.path s₀ l) .done).update false false (.value v) t.value s =
      (.ok u.value, s') ∧ Turns s [t] s' [u] ∧ t.Grown u
  | [], _, s, t, _, _, hfind => by cases hfind
  | st :: l, hl, s, t, hlies, hclear, hfind => by
    obtain ⟨hst, hrest⟩ := List.forall_mem_cons.mp hl
    rw [Location.path, List.map_cons, ctx.update_unfiltered (hst.unfiltered s₀)]
    -- The induction is on the path, as the tree goes down along with it.
    cases hclear with
    | @leaf _ _ x closed =>
      have henter : s.isEnterable (.scalar x) = false := by
        rw [Store.isEnterable, Bool.not_eq_false']
        exact closed
      refine ⟨.leaf (.scalar x), s, ?_, .refl hlies, .refl _⟩
      rw [updateParts, Eval.run_bind_of_ok (Eval.run_store s), Tree.value, henter]
      rfl
    | @node _ _ h f ts keyed part =>
      obtain ⟨hc, hsuits, hparts, -⟩ := hlies.parts
      have hlength : (ts.map Tree.value).length = ts.length := List.length_map ..
      obtain ⟨hitems, hslot⟩ := ctx.items_exact hst hc (hlength ▸ hsuits) keyed s₀
      rw [hlength] at hitems hslot
      cases hfound : st.slot? s f ts.length with
      | none =>
        rw [hfound] at hitems
        exact ctx.updateParts_adds s₀ v hst hrest hlies keyed hfound hitems
      | some i =>
        obtain ⟨hi, hnames⟩ := hslot i hfound
        have hget : ts[i]? = some ts[i] := List.getElem?_eq_getElem hi
        have hvalue : (ts.map Tree.value).getD i .null = ts[i].value := by simp [hi]
        rw [hfound, Option.map_some, Option.toList_some, hvalue] at hitems
        have hbelow := ctx.find_rest_of_nothing hst hrest hitems hfind
        have hne : l ≠ [] := by
          rintro rfl
          cases hbelow
        have hlies' := hparts.of_mem (List.getElem_mem hi)
        obtain ⟨u, r, hedit, hturn, hgrown⟩ := ctx.editPart_grown s₀ hrest hlies' fun _ =>
          update_grown v hrest hlies' (part i _ hfound hget) hbelow
        exact ctx.updateParts_edits s₀ hst hrest hne hlies hi hnames hitems hedit hturn hgrown

/-! ### Building -/

theorem mem_waypoints {m : Location} (hm : m ∈ waypoints l) : m <+: l := by
  obtain ⟨i, -, rfl⟩ := List.mem_map.mp hm
  exact List.take_prefix ..

section Graft

variable {built node : Value} {m : Location} {ms : List Location}

/-- A part of the location that is there is left alone. -/
theorem graft_of_found {p : Found} {ps : List Found}
    (hfind : ctx.find (Location.path s m) node s = (.ok (p :: ps), s)) :
    ctx.graft built (m :: ms) node s = ctx.graft built ms node s := by
  rw [graft, Eval.run_bind_of_ok (Eval.run_store s)]
  exact Eval.run_bind_of_ok hfind

/-- The first part that is missing is taken from the structure. -/
theorem graft_of_missing {p : Found} {ps : List Found}
    (hfind : ctx.find (Location.path s m) node s = (.ok [], s))
    (hbuilt : ctx.find (Location.path s m) built s = (.ok (p :: ps), s)) :
    ctx.graft built (m :: ms) node s = ctx.update (Location.path s m) node (.value p.2) s := by
  rw [graft, Eval.run_bind_of_ok (Eval.run_store s)]
  exact (Eval.run_bind_of_ok hfind).trans (Eval.run_bind_of_ok hbuilt)

/-- What the structure does not have either stays missing. -/
theorem graft_of_nothing (hfind : ctx.find (Location.path s m) node s = (.ok [], s))
    (hbuilt : ctx.find (Location.path s m) built s = (.ok [], s)) :
    ctx.graft built (m :: ms) node s = (.ok node, s) := by
  rw [graft, Eval.run_bind_of_ok (Eval.run_store s)]
  exact (Eval.run_bind_of_ok hfind).trans (Eval.run_bind_of_ok hbuilt)

end Graft

/-- What is missing of a location is added to the tree. -/
theorem graft_grown (built : Value) (hl : ∀ st ∈ l, st.Exact) : ∀ {ms : List Location},
    (∀ m ∈ ms, m <+: l) → ∀ {s : Store} {t : Tree}, Lies s [t] → t.Clear s l →
    ∃ u s', ctx.graft built ms t.value s = (.ok u.value, s') ∧ Turns s [t] s' [u] ∧ t.Grown u
  | [], _, s, t, hlies, _ => ⟨t, s, rfl, .refl hlies, .refl t⟩
  | m :: ms, hms, s, t, hlies, hclear => by
    obtain ⟨hm, hms⟩ := List.forall_mem_cons.mp hms
    have hexact : ∀ st ∈ m, st.Exact := fun st hst => hl st (hm.subset hst)
    obtain ⟨o, hfind⟩ := ctx.find_exact hexact s t.value s
    cases o with
    | some x =>
      rw [ctx.graft_of_found hfind]
      exact graft_grown built hl hms hlies hclear
    | none =>
      obtain ⟨part, hpart⟩ := ctx.find_exact hexact s built s
      cases part with
      | none => exact ⟨t, s, ctx.graft_of_nothing hfind hpart, .refl hlies, .refl t⟩
      | some x =>
        rw [ctx.graft_of_missing hfind hpart]
        exact ctx.update_grown s x hexact hlies (hclear.of_prefix hm) hfind

/-- **Building keeps what is at the leaves of a tree**, but for nulls, if the path goes into no text and
into no bytes: at each place and by the same steps the same value is found there afterwards. -/
theorem build_keeps {path : String} {e : PathExpression}
    (hparse : PathExpression.parse path = .ok e) (hsegs : e.segments = Location.path s l)
    (hl : ∀ st ∈ l, st.Exact) (hlies : Lies s [t]) (hclear : t.Clear s l) :
    ∃ u s', ctx.buildPath (.value t.value) path s = (.ok u.value, s') ∧ Turns s [t] s' [u] ∧
      ∀ p v, v ≠ .null → t.at? p = some (.leaf v) →
        u.at? p = some (.leaf v) ∧ u.location p = t.location p := by
  obtain ⟨d, r, hbuild, hnew, -⟩ := ctx.buildDefault_tree (unfiltered_path hl s) s
  have hgrown := Turns.of_grows hnew.grows hlies
  -- The structure is built beside the tree, so the path is as clear as before.
  have hclear' := hclear.retains hnew.grows.retains
  obtain ⟨o, hfind⟩ := ctx.find_exact hl s d.value r
  have hrun : ctx.buildPath (.value t.value) path s =
      ((o.map fun v => (l, v)).toList.foldlM
        (fun node (p : Found) => ctx.graft d.value (waypoints p.1) node) t.value : Eval Value) r := by
    rw [buildPath, Eval.run_bind_of_ok (readPath_of_parse hparse), hsegs, Eval.run_bind_of_ok hbuild]
    have hroot : (liftM ((Root.value t.value).resolve (Location.path s l)) : Eval Value) r =
        (.ok t.value, r) := rfl
    rw [Eval.run_bind_of_ok hroot, Eval.run_bind_of_ok hfind]
  cases o with
  | none => exact ⟨t, r, hrun, hgrown, fun _ _ _ hp => ⟨hp, rfl⟩⟩
  | some x =>
    rw [Option.map_some, Option.toList_some, List.foldlM_cons] at hrun
    simp only [List.foldlM_nil, bind_pure] at hrun
    obtain ⟨u, s', hgraft, hturns, hu⟩ :=
      ctx.graft_grown d.value hl (fun _ => mem_waypoints) hgrown.lies hclear'
    exact ⟨u, s', hrun.trans hgraft, hgrown.trans hturns, fun _ _ hv hp => hu.at? hv hp⟩

end Context

/-! ### Texts on the way -/

/-- A null that is written behind the end of a text becomes part of the text. -/
theorem setChild_behind_text {text : String} {i : Nat} (hi : text.length ≤ i) (s : Store) :
    setChild (.str text) (NamedPlace.slot i).step .null s = (.str (text ++ "None"), s) := by
  have hjoin : "".intercalate ((s.elements (.str text) ++ [Value.null]).map s.text) =
      text ++ "None" := by
    have hcharacters : (s.elements (.str text)).map s.text =
        text.toList.map fun c => String.ofList [c] := List.map_map ..
    have htext := (Store.join_characters text.toList).trans String.ofList_toList
    rw [List.map_append, hcharacters]
    by_cases hempty : text.toList = []
    · rw [String.toList_eq_nil_iff.mp hempty]
      rfl
    · rw [String.intercalate_append_of_ne_nil (by simpa using hempty) (by simp), htext,
        String.append_empty]
      rfl
  have hlength : ((s.elements (.str text)).length : Int) ≤ (i : Int) := by
    show ((text.toList.map _).length : Int) ≤ i
    rw [List.length_map, String.length_toList]
    exact Int.ofNat_le.mpr hi
  have hindexed : s.isIndexed (.str text) = true := rfl
  show setIndexed (.str text) i .null s = _
  unfold setIndexed
  rw [StoreM.run_bind, StoreM.run_get, hindexed, if_pos rfl]
  dsimp only
  rw [if_pos hlength]
  show (Value.str ("".intercalate ((s.elements (.str text) ++ [Value.null]).map s.text)), s) = _
  rw [hjoin]

namespace Context

variable (ctx : Context)

/-- Behind the end of a text nothing is found. -/
theorem items_behind_text {text : String} {i : Nat} (hi : text.length ≤ i) (s : Store) :
    ctx.items (NamedPlace.slot i).segment (.str text) s = (.ok [], s) := by
  have hnone : s.elementAt? (.str text) i = none := by
    have hindex : resolveIndex? text.length i = none := by
      rw [Option.eq_none_iff_forall_ne_some]
      intro j hj
      have hbounds := (isSome_resolveIndex? text.length i).mp (by rw [hj]; rfl)
      omega
    show (resolveIndex? text.length i).bind _ = none
    rw [hindex, Option.bind_none]
  have hraw : candidates .slot (.literal (.int i)) (.str text) s = ([], s) := by
    show (((s.elementAt? (.str text) i).map (Value.int i, ·)).toList, s) = _
    rw [hnone]
    rfl
  rw [NamedPlace.segment, Segment.literal, ctx.items_of_candidates hraw]
  rfl

/-- An update there puts the text with the literal form of null at its end into the dict. -/
theorem update_behind_text {es : List (Value × Value)} (hd : s.get? h = some (.dict es))
    {key text : String} (hkey : s.lookup? es (.str key) = some (.str text)) {i : Nat}
    (hi : text.length ≤ i) :
    ctx.update ([NamedPlace.key key, .slot i].map NamedPlace.segment) (.ref h) (.value .null) s =
      (.ok (.ref h), s.set h (.dict (s.insertEntry es (.str key) (.str (text ++ "None"))))) := by
  have hitems : ctx.items (NamedPlace.key key).segment (.ref h) s =
      (.ok [((NamedPlace.key key).step, .str text)], s) := by
    refine (ctx.items_keySegment hd key).trans ?_
    rw [hkey]
    rfl
  have hedit : ctx.editPart (ctx.pathEdit ([NamedPlace.slot i].map NamedPlace.segment) .done) false
      (.value .null) (.str text) s = (.ok (.str (text ++ "None")), s) := by
    have henter : s.isEnterable (.str text) = true := rfl
    show (ctx.pathEdit [(NamedPlace.slot i).segment] .done).update false false (.value .null)
      (.str text) s = _
    rw [ctx.update_unfiltered (NamedPlace.slot i).unfiltered, updateParts, Eval.run_bind_of_ok (Eval.run_store s), henter]
    show ctx.upsert (NamedPlace.slot i).segment (.str text) .null s = _
    rw [upsert_place, setChild_behind_text hi]
  obtain ⟨hend, hstarts, -⟩ := ctx.rest_places (.slot i) []
  show (ctx.pathEdit ((NamedPlace.key key).segment :: [NamedPlace.slot i].map NamedPlace.segment)
    .done).update false false (.value .null) (.ref h) s = _
  rw [ctx.update_unfiltered (NamedPlace.key key).unfiltered,
    ctx.updateParts_single (NamedPlace.key key).unfiltered (Store.isEnterable_of_get? hd) hend hstarts
      hitems hedit]
  exact congrArg (fun p => (Except.ok p.1, p.2)) (setChild_key hd key _)

/-- **Building behind the end of a text changes the text**: for a key of a dict that holds a text, and
an index that is not below its length, the text ends in the literal form of null afterwards. -/
theorem build_behind_text {es : List (Value × Value)} (hd : s.get? h = some (.dict es))
    {key text : String} (hkey : s.lookup? es (.str key) = some (.str text)) {i : Nat}
    (hi : text.length ≤ i) {path : String} {e : PathExpression}
    (hparse : PathExpression.parse path = .ok e)
    (hsegs : e.segments = [NamedPlace.key key, .slot i].map NamedPlace.segment) :
    ∃ s' es', ctx.buildPath (.value (.ref h)) path s = (.ok (.ref h), s') ∧
      s'.get? h = some (.dict es') ∧
      s'.lookup? es' (.str key) = some (.str (text ++ "None")) := by
  let l := [NamedPlace.key key, .slot i].map NamedPlace.step
  obtain ⟨d, r, hbuild, hgrows, hlaid⟩ := ctx.buildDefault_laid [.slot i] (.key key) s
  have hd' := hgrows h _ hd
  have hkey' : r.lookup? es (.str key) = some (.str text) := by
    rw [Store.lookup?_str] at hkey ⊢
    exact hkey
  have hitems : ctx.items (NamedPlace.key key).segment (.ref h) r =
      (.ok [((NamedPlace.key key).step, .str text)], r) := by
    refine (ctx.items_keySegment hd' key).trans ?_
    rw [hkey']
    rfl
  -- The root has the text at the key, but nothing behind it, while the structure has both places.
  have htext : ctx.find [(NamedPlace.key key).segment] (.ref h) r =
      (.ok [([(NamedPlace.key key).step], .str text)], r) := by
    have hrest (base : Location) : ctx.walkPath [] Walk.done base (.str text) r =
        (.ok ⟨[(base, .str text)], false⟩, r) := rfl
    rw [find, Eval.run_bind_of_ok (ctx.walkPath_through hitems (hrest _))]
    rfl
  have hmissing : ctx.find ([NamedPlace.key key, .slot i].map NamedPlace.segment) (.ref h) r =
      (.ok [], r) := by
    have hrest (base : Location) :
        ctx.walkPath [(NamedPlace.slot i).segment] Walk.done base (.str text) r =
          (.ok ⟨[], false⟩, r) := by
      rw [walkPath_place, Eval.run_bind_of_ok (ctx.items_behind_text hi r)]
      rfl
    rw [find, List.map_cons, List.map_singleton,
      Eval.run_bind_of_ok (ctx.walkPath_through hitems (hrest _))]
    rfl
  have hfound : ctx.find ([NamedPlace.key key, .slot i].map NamedPlace.segment) d r =
      (.ok [(l, .null)], r) := by
    rw [find, Eval.run_bind_of_ok (ctx.walkPath_laid hlaid [])]
    rfl
  have hgraft : ctx.graft d (waypoints l) (.ref h) r =
      ctx.update ([NamedPlace.key key, .slot i].map NamedPlace.segment) (.ref h) (.value .null) r := by
    have hways : waypoints l = [[(NamedPlace.key key).step], l] := rfl
    have hstart : Location.path r [(NamedPlace.key key).step] = [(NamedPlace.key key).segment] := rfl
    have hpath : Location.path r l = [NamedPlace.key key, .slot i].map NamedPlace.segment := rfl
    rw [← hstart] at htext
    rw [← hpath] at hmissing hfound ⊢
    rw [hways, ctx.graft_of_found htext, ctx.graft_of_missing hmissing hfound]
  refine ⟨_, r.insertEntry es (.str key) (.str (text ++ "None")), ?_,
    Store.get?_set_self _ (Store.lt_size_of_get? hd'), Store.lookup?_insertEntry_self r _ es key _⟩
  have hroot : (liftM ((Root.value (.ref h)).resolve e.segments) : Eval Value) r =
      (.ok (.ref h), r) := rfl
  rw [buildPath, Eval.run_bind_of_ok (readPath_of_parse hparse)]
  rw [hsegs] at hroot ⊢
  refine (Eval.run_bind_of_ok hbuild).trans ?_
  rw [Eval.run_bind_of_ok hroot, Eval.run_bind_of_ok hfound, List.foldlM_cons]
  simp only [List.foldlM_nil, bind_pure]
  rw [hgraft, ctx.update_behind_text hd' hkey' hi]

end Context

end DottedPath
