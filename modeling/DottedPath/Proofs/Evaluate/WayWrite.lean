import DottedPath.Evaluate.Edit
import DottedPath.Proofs.Evaluate.Retake
import DottedPath.Proofs.Evaluate.Slots
import DottedPath.Proofs.Value.Ways

/-!
# Writing at the end of a way

The literal path of a location that is a way into a tree takes the same steps again, also after other
places have been written: so an update along it puts its value at the place that the way leads to
(`Context.update_way`).

What this rests on is that the literal of a step has the slot as its only candidate
(`Context.SlotLiteral`).
-/

namespace DottedPath

namespace Context

open DottedPath.Tree DottedPath.Forest

variable {ctx : Context} {s s' : Store} {h : Handle} {f : Form} {n i : Nat} {step : Step}
  {vs : List Value} {child node v w : Value} {accessor : Accessor} {l : Literal}

/-! ### The literal of a step -/

/-- The segment of the step to a slot is a literal that has the slot as its only candidate. -/
structure SlotLiteral (s : Store) (h : Handle) (f : Form) (n : Nat) (step : Step) (i : Nat)
    (child : Value) (accessor : Accessor) (l : Literal) : Prop where
  segment : step.segment s = .literal accessor l
  candidates : candidates accessor (.literal l) (.ref h) s =
    ([((l.toValue s).1, child)], (l.toValue s).2)
  names : f.Names (l.toValue s).2 n (accessor.step (l.toValue s).2 (l.toValue s).1) i

/-- An index that names an element is a literal of it. -/
theorem slotLiteral_element (hc : s.get? h = some (f.fill vs)) (hf : f = .list ∨ f = .tuple)
    {k : Int} (hstep : step = .key (.int k) ∨ step = .slot (.int k))
    (hk : resolveIndex? vs.length k = some i) (hchild : vs[i]? = some child) :
    ∃ accessor l, SlotLiteral s h f vs.length step i child accessor l := by
  obtain ⟨-, hindexed, helements, hlength⟩ := sequence_of_fill hc hf
  have helement : s.elementAt? (.ref h) k = some child := by
    rw [Store.elementAt?, if_pos hindexed, Store.position?, hlength, helements, Option.bind_some, hk]
    exact hchild
  have hnames {step : Step} (hstep : step = .key (.int k) ∨ step = .slot (.int k)) :
      f.Names s vs.length step i := by
    rcases hf with rfl | rfl
    · exact ⟨k, hstep, hk⟩
    · exact ⟨k, hstep, hk⟩
  have hliteral := keyLiteral_of_shows (shows_int s k)
  rcases hstep with rfl | rfl
  · exact ⟨.key, .int k, congrArg (Segment.literal .key) hliteral,
      candidates_index .key (by decide) helement, hnames (.inl rfl)⟩
  · exact ⟨.slot, .int k, congrArg (Segment.literal .slot) hliteral,
      candidates_index .slot (by decide) helement, hnames (.inr rfl)⟩

/-- A key that is the same as one of some keys finds the value of that one. -/
theorem lookup?_zip {keys : List Value} (hkeys : ∀ k ∈ keys, s.IsKey k)
    (hlength : keys.length = vs.length) {k : Value} (hl : l.Shows s k)
    (hk : keys.findIdx? (s.sameKey k) = some i) (hchild : vs[i]? = some child) :
    s.lookup? (keys.zip vs) k = some child := by
  obtain ⟨hi, hsame, hother⟩ := List.findIdx?_eq_some_iff_getElem.mp hk
  have hi' : i < vs.length := by omega
  have hzip : (keys.zip vs).length = keys.length := by simp [hlength]
  have hfind : (keys.zip vs).find? (fun e => s.findsKey keys.length k e.1) =
      some (keys[i], vs[i]) := by
    rw [List.find?_eq_some_iff_getElem]
    refine ⟨?_, i, by omega, by simp, fun j hj => ?_⟩
    · obtain ⟨m, hm, hself⟩ := (hkeys _ (List.getElem_mem hi)).shows
      rw [Store.sameKey, Literal.equalsWithin_of_shows l m hl hm (hself true) hl.height_lt] at hsame
      rw [findsKey_of_shows hl hm hself]
      cases keys.length != 1 with
      | true => exact hsame
      | false => exact Literal.sameAs_of_asKey l m hsame
    · have hcount : (keys.length != 1) = true := bne_iff_ne.mpr (by omega)
      have hdiffers := hother j hj
      rw [Store.findsKey, hcount]
      simpa [Store.sameKey] using hdiffers
  rw [Store.lookup?, hzip]
  rw [List.getElem?_eq_getElem hi'] at hchild
  cases hchild
  exact congrArg (Option.map Prod.snd) hfind

/-- A key that names an entry has a literal of it. -/
theorem slotLiteral_entry {keys : List Value} (hc : s.get? h = some (.dict (keys.zip vs)))
    (hkeys : ∀ k ∈ keys, s.IsKey k) (hlength : keys.length = vs.length) {k : Value}
    (hstep : step = .key k ∨ step = .slot k) (hl : l.Shows s k)
    (hk : ∀ t, s.Retains t → keys.findIdx? (t.sameKey k) = some i) (hchild : vs[i]? = some child) :
    ∃ accessor l, SlotLiteral s h (.dict keys) vs.length step i child accessor l := by
  have hentries : ∀ e ∈ keys.zip vs, s.IsKey e.1 := fun e he => hkeys e.1 (List.of_mem_zip he).1
  have hfound := lookup?_zip hkeys hlength hl (hk s (.refl s)) hchild
  obtain ⟨hgrows, hshows⟩ := l.toValue_shows s
  -- The value of the literal is the same key as the one it was made of.
  have hsame (t : Store) (ht : (l.toValue s).2.Retains t) (x : Value) (hx : x ∈ keys) :
      t.sameKey (l.toValue s).1 x = t.sameKey k x := by
    obtain ⟨m, hm, hself⟩ := (hkeys x hx).shows
    have hst := hgrows.retains.trans ht
    have hl' := hl.keeps hst.keepsCopied
    have hm' := hm.keeps hst.keepsCopied
    have hshows' := hshows.keeps ht.keepsCopied
    rw [Store.sameKey, Store.sameKey,
      Literal.equalsWithin_of_shows l m hl' hm' (hself true) hl'.height_lt,
      Literal.equalsWithin_of_shows l m hshows' hm' (hself true) hl'.height_lt]
  have hnames (t : Store) (ht : (l.toValue s).2.Retains t) :
      keys.findIdx? (t.sameKey (l.toValue s).1) = some i := by
    obtain ⟨hi, hhere, hother⟩ :=
      List.findIdx?_eq_some_iff_getElem.mp (hk t (hgrows.retains.trans ht))
    refine List.findIdx?_eq_some_iff_getElem.mpr ⟨hi, ?_, fun j hj => ?_⟩
    · rwa [hsame t ht _ (List.getElem_mem hi)]
    · rw [hsame t ht _ (List.getElem_mem _)]
      exact hother j hj
  have hcandidates (accessor : Accessor) (haccessor : accessor ≠ .attr) :
      candidates accessor (.literal l) (.ref h) s =
        ([((l.toValue s).1, child)], (l.toValue s).2) :=
    candidates_entry accessor haccessor hc fun t k' ht hk' => by
      rw [lookup?_of_shows hentries hl ht hk', hfound]
  have hliteral := keyLiteral_of_shows hl
  rcases hstep with rfl | rfl
  · exact ⟨.key, l, congrArg (Segment.literal .key) hliteral, hcandidates .key (by decide),
      _, .inl rfl, hnames⟩
  · exact ⟨.slot, l, congrArg (Segment.literal .slot) hliteral, hcandidates .slot (by decide),
      _, .inr rfl, hnames⟩

/-- A name finds the value beside it. -/
theorem lookup_zip {attr : String} : ∀ (names : List String) (vs : List Value) (i : Nat),
    names.findIdx? (· == attr) = some i → vs[i]? = some child →
    (names.zip vs).lookup attr = some child
  | [], _, _, hattr, _ => by cases hattr
  | _ :: _, [], _, _, hchild => by cases hchild
  | name :: names, v :: vs, i, hattr, hchild => by
    rw [List.findIdx?_cons] at hattr
    rw [List.zip_cons_cons, List.lookup_cons]
    cases hname : name == attr with
    | true =>
      rw [hname, if_pos rfl] at hattr
      cases hattr
      rw [beq_iff_eq.mpr (eq_of_beq hname).symm]
      exact hchild
    | false =>
      rw [hname, if_neg Bool.false_ne_true] at hattr
      obtain ⟨j, hj, rfl⟩ := Option.map_eq_some_iff.mp hattr
      have hother : (attr == name) = false := by
        rw [beq_eq_false_iff_ne] at hname ⊢
        exact hname.symm
      rw [hother]
      exact lookup_zip names vs j hj hchild

/-- The name of an attribute is a literal of it. -/
theorem slotLiteral_attr {name attr : String} {names : List String} {frozen : Bool}
    (hc : s.get? h = some (.object name (names.zip vs) frozen))
    (hattr : names.findIdx? (· == attr) = some i) (hchild : vs[i]? = some child) :
    SlotLiteral s h (.object name names frozen) vs.length (.attr attr) i child .attr (.str attr) :=
  ⟨rfl, candidates_attr hc (lookup_zip names vs i hattr hchild), attr, rfl, hattr⟩

/-- The step to a slot has a literal of it. -/
theorem exists_slotLiteral (hc : s.get? h = some (f.fill vs)) (hsuits : f.Suits s vs.length)
    (hkeyed : f.Keyed s) (hnames : f.Names s vs.length step i) (hliteral : step.IsLiteral s)
    (hchild : vs[i]? = some child) :
    ∃ accessor l, SlotLiteral s h f vs.length step i child accessor l := by
  cases f with
  | list =>
    obtain ⟨k, hstep, hk⟩ := hnames
    exact slotLiteral_element hc (.inl rfl) hstep hk hchild
  | tuple =>
    obtain ⟨k, hstep, hk⟩ := hnames
    exact slotLiteral_element hc (.inr rfl) hstep hk hchild
  | dict keys =>
    obtain ⟨k, hstep, hk⟩ := hnames
    obtain ⟨l, hl⟩ : ∃ l : Literal, l.Shows s k := by
      rcases hstep with rfl | rfl
      · exact hliteral
      · exact hliteral
    exact slotLiteral_entry hc hkeyed hsuits.1 hstep hl hk hchild
  | object name names frozen =>
    obtain ⟨attr, rfl, hattr⟩ := hnames
    exact ⟨.attr, .str attr, slotLiteral_attr hc hattr hchild⟩

/-- The literal of a step to a slot stays its literal. -/
theorem exists_slotLiteral_grows (hc : s.get? h = some (f.fill vs)) (hsuits : f.Suits s vs.length)
    (hkeyed : f.Keyed s) (hnames : f.Names s vs.length step i) (hliteral : step.IsLiteral s)
    (hchild : vs[i]? = some child) :
    ∃ accessor l, ∀ t, s.GrowsTo t → SlotLiteral t h f vs.length step i child accessor l := by
  obtain ⟨accessor, l, hslot⟩ := exists_slotLiteral hc hsuits hkeyed hnames hliteral hchild
  refine ⟨accessor, l, fun t hst => ?_⟩
  have hretains := hst.retains
  obtain ⟨accessor', l', hslot'⟩ := exists_slotLiteral (hst h _ hc) (hsuits.retains hretains)
    (hkeyed.retains hretains) (hnames.retains hretains) (hliteral.retains hretains) hchild
  -- Both literals are that of the step, which is the same in both stores.
  have hsame : Segment.literal accessor' l' = .literal accessor l := by
    rw [← hslot'.segment, hliteral.segment hretains, hslot.segment]
  cases hsame
  exact hslot'

/-! ### Updates -/

/-- At the end of a path the value is written at the slot. -/
theorem update_last_literal (ctx : Context) (hc : s.get? h = some (f.fill vs))
    (hslot : SlotLiteral s h f n step i child accessor l) (w : Value) :
    ∃ step' u, s.GrowsTo u ∧ f.Names u n step' i ∧
      ctx.update [.literal accessor l] (.ref h) (.value w) s =
        (.ok (setChild (.ref h) step' w u).1, (setChild (.ref h) step' w u).2) := by
  refine ⟨_, _, (l.toValue_shows s).1, hslot.names, ?_⟩
  show ctx.updateParts (.literal accessor l) .done ⟨false, false, false⟩ (.value w) (.ref h) s = _
  have hend : Edit.done.isEnd = true := rfl
  rw [updateParts, Eval.run_bind_of_ok (Eval.run_store s), Store.isEnterable_of_get? hc,
    Bool.not_true, if_neg Bool.false_ne_true, hend, if_pos rfl, if_neg Bool.false_ne_true]
  exact ctx.upsert_literal accessor l false (.ref h) w s

/-- A literal that leads to a container is followed, and what the rest of the path makes of it is
stored back. -/
theorem update_followed_literal (ctx : Context) (hc : s.get? h = some (f.fill vs)) {g : Handle}
    (hslot : ∀ t, s.GrowsTo t → SlotLiteral t h f n step i (.ref g) accessor l) (seg : Segment)
    (segs : List Segment) (w : Value) :
    ∃ step' u, s.GrowsTo u ∧ f.Names u n step' i ∧
      ∀ v s', ctx.update (seg :: segs) (.ref g) (.value w) u = (.ok v, s') →
        ctx.update (.literal accessor l :: seg :: segs) (.ref h) (.value w) s =
          (.ok (setChild (.ref h) step' v s').1, (setChild (.ref h) step' v s').2) := by
  have hgrows := (l.toValue_shows s).1
  have hitems : ctx.items (.literal accessor l) (.ref h) s = _ :=
    items_literal (hslot s (.refl s)).candidates
  have hagain : ctx.items (.literal accessor l) (.ref h) (l.toValue s).2 = _ :=
    items_literal (hslot _ hgrows).candidates
  refine ⟨_, _, hgrows.trans (l.toValue_shows _).1, (hslot _ hgrows).names, fun v s' hrest => ?_⟩
  -- The parts are listed twice, once to see whether there are any; each time the store grows by the
  -- value of the literal.
  have hselects : ctx.selectsNothing (.literal accessor l) (.ref h) s =
      (.ok false, (l.toValue s).2) := by
    show (do pure (← ctx.items (.literal accessor l) (.ref h)).isEmpty : Eval Bool) s = _
    rw [Eval.run_bind_of_ok hitems]
    rfl
  have hend : (ctx.pathEdit (seg :: segs) .done).isEnd = false := rfl
  show ctx.updateParts (.literal accessor l) (ctx.pathEdit (seg :: segs) .done)
    ⟨false, false, false⟩ (.value w) (.ref h) s = _
  rw [updateParts, Eval.run_bind_of_ok (Eval.run_store s), Store.isEnterable_of_get? hc,
    Bool.not_true, if_neg Bool.false_ne_true, hend, if_neg Bool.false_ne_true,
    Eval.run_bind_of_ok hselects, Bool.and_false, if_neg Bool.false_ne_true,
    Eval.run_bind_of_ok hagain, List.foldlM_cons]
  simp only [List.foldlM_nil, bind_pure, pure_bind]
  rw [update] at hrest
  rw [Eval.run_bind_of_ok hrest, Eval.run_lift]

/-! ### Ways -/

/-- **An update along a way puts its value at the place.**  The way may have been told before other
writes, as long as it still is one. -/
theorem update_way {s₀ : Store} {t : Tree} {l : Location} {p : List Nat} (hway : Way s₀ t l p)
    (w : Value) : ∀ {s : Store}, s₀.Retains s → Lies s [t] → t.Keyed s →
      ∃ u s', ctx.update (l.path s₀) t.value (.value w) s = (.ok u.value, s') ∧
        Turns s [t] s' [u] ∧ Put w p t u := by
  -- The way goes down to the place, and what is written there is stored back on the way up.
  induction hway with
  | @nil t =>
    intro s _ _ _
    exact ⟨.leaf w, s, rfl, .leaf [t] w s, .here⟩
  | @cons h f ts t step i l p hpart hnames hliteral more ih =>
    intro s hs hlies hkeyed
    obtain ⟨before, after, rfl, rfl⟩ : ∃ before after, ts = before ++ t :: after ∧
        before.length = i := by
      obtain ⟨hi, rfl⟩ := List.getElem?_eq_some_iff.mp hpart
      exact ⟨ts.take i, ts.drop (i + 1), by simp, by simp [Nat.le_of_lt hi]⟩
    obtain ⟨hc, hsuits, hparts, -⟩ := hlies.parts
    have hlength : ((before ++ t :: after).map value).length = (before ++ t :: after).length :=
      List.length_map _
    have hchild : ((before ++ t :: after).map value)[before.length]? = some t.value := by simp
    cases hkeyed with
    | node hkeys hkeyeds =>
      obtain ⟨accessor, literal, hslot⟩ := exists_slotLiteral_grows hc (hlength ▸ hsuits) hkeys
        (hlength ▸ hnames.retains hs) (hliteral.retains hs) hchild
      rw [hlength] at hslot
      have hsegment : step.segment s₀ = .literal accessor literal := by
        rw [← hliteral.segment hs, (hslot s (.refl s)).segment]
      have hpath : Location.path s₀ (step :: l) = .literal accessor literal :: l.path s₀ := by
        rw [Location.path, List.map_cons, hsegment]
        rfl
      have hlies' := hparts.of_mem (t := t) (by simp)
      rw [hpath]
      cases more with
      | nil =>
        obtain ⟨step', u, hsu, hnames', hupdate⟩ :=
          ctx.update_last_literal hc (hslot s (.refl s)) w
        have hturn : Turns s [t] u [.leaf w] :=
          (Turns.of_grows hsu hlies').trans (.leaf [t] w u)
        obtain ⟨h', s', hset, hsame, hturn'⟩ := Turns.write hlies hturn hnames'
        have hset' : setChild (.ref h) step' w u = (.ref h', s') := hset
        rw [hset'] at hupdate
        exact ⟨.node h' f (before ++ .leaf w :: after), s', hupdate, hturn', .inside hsame .here⟩
      | @cons g f' ts' t' step₂ i' l' p' hpart' hnames₂ hliteral₂ more' =>
        obtain ⟨step', u, hsu, hnames', hupdate⟩ := ctx.update_followed_literal hc hslot
          (step₂.segment s₀) (Location.path s₀ l') w
        have hturn₁ := Turns.of_grows hsu hlies'
        obtain ⟨t₂, s', hrest, hturn₂, hput⟩ := ih (hs.trans hsu.retains) hturn₁.lies
          ((hkeyeds _ (by simp)).retains hsu.retains)
        have hturn := hturn₁.trans hturn₂
        obtain ⟨h', s'', hset, hsame, hturn'⟩ :=
          Turns.write hlies hturn (hnames'.retains hturn₂.retains)
        have hrun := hupdate _ _ hrest
        rw [hset] at hrun
        exact ⟨.node h' f (before ++ t₂ :: after), s'', hrun, hturn', .inside hsame hput⟩

end Context

end DottedPath
