import DottedPath.Evaluate.Walk
import DottedPath.Proofs.Evaluate.Descent
import DottedPath.Proofs.Transform.Builtin

/-!
# Reported locations are real

What a path reports can be found again: the literal path of a location that was reported leads to
the value that was reported with it, and to nothing else (`Context.find_reported`).

A walk is sound if from a place of a root it only reports places of this root (`Walk.Sound`).  The
end of a path is, and each segment keeps what comes after it sound (`walkSegment_sound`): its parts,
or what it goes through, are places of the value that it is read in.  That a place can be found
again from its location is `Context.walkPath_of_leads`.
-/

namespace DottedPath

open Eval (Grows Yields)

variable {ctx : Context} {inside : Handle → Prop} {s t : Store} {root node : Value}
  {base : Location}

/-- What a visit has found are places of the root. -/
def Visit.AllPlaces (ctx : Context) (inside : Handle → Prop) (root : Value) (visit : Visit)
    (s : Store) : Prop :=
  ∀ p ∈ visit.found, ctx.Place inside s root p

/-- At a place of a root the walk finds places of this root. -/
def Walk.Sound (ctx : Context) (inside : Handle → Prop) (w : Walk) : Prop :=
  ∀ s root base node, s.ValueGraph inside → ctx.Place inside s root (base, node) →
    (w base node).Yields s (Visit.AllPlaces ctx inside root)

namespace Visit

theorem allPlaces_nothing : Visit.nothing.AllPlaces ctx inside root s :=
  fun p hp => by cases hp

theorem AllPlaces.grows {visit : Visit} (hst : s.GrowsTo t)
    (h : visit.AllPlaces ctx inside root s) : visit.AllPlaces ctx inside root t :=
  fun p hp => (h p hp).grows hst

theorem AllPlaces.of_subset {visit : Visit} (h : visit.AllPlaces ctx inside root s)
    {found : List Found} {halted : Bool} (hfound : found ⊆ visit.found) :
    Visit.AllPlaces ctx inside root ⟨found, halted⟩ s :=
  fun p hp => h p (hfound hp)

theorem AllPlaces.append {visit more : Visit} (h : visit.AllPlaces ctx inside root s)
    (hmore : more.AllPlaces ctx inside root s) {halted : Bool} :
    Visit.AllPlaces ctx inside root ⟨visit.found ++ more.found, halted⟩ s := by
  intro p hp
  rcases List.mem_append.mp hp with hp | hp
  · exact h p hp
  · exact hmore p hp

end Visit

namespace Walk

/-! ### Places one after the other -/

theorem done_sound : Walk.done.Sound ctx inside := fun _ _ _ _ _ hplace =>
  .pure fun p hp => by
    rw [List.mem_singleton.mp hp]
    exact hplace

/-- Going on from places of a value keeps a walk sound. -/
theorem Sound.each {next : Walk} (hnext : next.Sound ctx inside) : ∀ (places : List Found)
    (s : Store), s.ValueGraph inside → ctx.Place inside s root (base, node) →
    (∀ p ∈ places, ctx.Place inside s node p) →
    (next.each base places).Yields s (Visit.AllPlaces ctx inside root)
  | [], _, _, _, _ => .pure Visit.allPlaces_nothing
  | (l, v) :: rest, s, hg, hplace, hplaces => by
    have hhere := hplace.append (hplaces (l, v) (List.mem_cons_self ..))
    rw [Walk.each]
    refine (hnext s root _ _ hg hhere).bind fun visit t hst hvisit => ?_
    split
    · exact .pure hvisit
    · have hrest : ∀ p ∈ rest, ctx.Place inside t node p := fun p hp =>
        (hplaces p (List.mem_cons_of_mem _ hp)).grows hst
      refine (hnext.each rest t (hg.grows hst) (hplace.grows hst) hrest).bind
        fun more u htu hmore => .pure ?_
      exact (hvisit.grows htu).append hmore

/-- So does going on from those places that pass a test. -/
theorem Sound.eachPassing {next : Walk} (hnext : next.Sound ctx inside) {pass : Value → Eval Bool}
    (hpass : ∀ v, Grows (pass v)) : ∀ (places : List Found) (s : Store), s.ValueGraph inside →
    ctx.Place inside s root (base, node) → (∀ p ∈ places, ctx.Place inside s node p) →
    (next.eachPassing pass base places).Yields s (Visit.AllPlaces ctx inside root)
  | [], _, _, _, _ => .pure Visit.allPlaces_nothing
  | (l, v) :: rest, s, hg, hplace, hplaces => by
    -- places that have been found stay places, as reading only adds containers
    have hrest (visit : Visit) (t : Store) (hst : s.GrowsTo t)
        (hvisit : visit.AllPlaces ctx inside root t) :
        (if visit.halted then pure visit
          else do
            let more ← next.eachPassing pass base rest
            pure ⟨visit.found ++ more.found, more.halted⟩ : Eval Visit).Yields t
          (Visit.AllPlaces ctx inside root) := by
      split
      · exact .pure hvisit
      · have hplaces' : ∀ p ∈ rest, ctx.Place inside t node p := fun p hp =>
          (hplaces p (List.mem_cons_of_mem _ hp)).grows hst
        refine (hnext.eachPassing hpass rest t (hg.grows hst) (hplace.grows hst) hplaces').bind
          fun more u htu hmore => .pure ?_
        exact (hvisit.grows htu).append hmore
    rw [Walk.eachPassing]
    refine (hpass v s).bind fun hit t hst _ => ?_
    split
    · have hhere := hplace.append (hplaces (l, v) (List.mem_cons_self ..))
      refine (hnext t root _ _ (hg.grows hst) (hhere.grows hst)).bind fun visit u htu hvisit => ?_
      exact hrest visit u (hst.trans htu) hvisit
    · refine (Yields.pure (Q := Visit.AllPlaces ctx inside root) Visit.allPlaces_nothing).bind
        fun visit u htu hvisit => ?_
      exact hrest visit u (hst.trans htu) hvisit

/-! ### Branches -/

/-- A group of alternatives only reports what one of them does. -/
theorem alternatives_sound (first : Bool) : ∀ (branches : List (Cut × Walk))
    (hidden : List Location), (∀ b ∈ branches, b.2.Sound ctx inside) →
    Walk.Sound ctx inside (Walk.alternatives first branches hidden)
  | [], _, _ => fun _ _ _ _ _ _ => .pure Visit.allPlaces_nothing
  | (cut, walk) :: rest, hidden, hbranches => fun s root base node hg hplace => by
    have hrest (hidden : List Location) := alternatives_sound first rest hidden
      fun b hb => hbranches b (List.mem_cons_of_mem _ hb)
    rw [Walk.alternatives]
    refine (hbranches (cut, walk) (List.mem_cons_self ..) s root base node hg hplace).bind
      fun visit t hst hvisit => ?_
    refine (Yields.store rfl).bind (Q := fun r u => r = u) fun r u htu hr => ?_
    subst hr
    have hkept {p : Found → Bool} :
        Visit.AllPlaces ctx inside root ⟨visit.found.filter p, false⟩ r :=
      (hvisit.grows htu).of_subset List.filter_sublist.subset
    have hgr := hg.grows (hst.trans htu)
    have hplacer := hplace.grows (hst.trans htu)
    have hmore {p : Found → Bool} (hidden : List Location) :
        (do
          let more ← Walk.alternatives first rest hidden base node
          pure ⟨visit.found.filter p ++ more.found, more.halted⟩ : Eval Visit).Yields r
          (Visit.AllPlaces ctx inside root) := by
      refine (hrest hidden r root base node hgr hplacer).bind fun more w hrw hmore => .pure ?_
      exact (hkept.grows hrw).append hmore
    dsimp only
    split
    · exact hrest hidden r root base node hgr hplacer
    · split
      · exact .pure (hkept.of_subset (List.take_subset 1 _))
      · split
        · exact .pure (hkept.of_subset (List.Subset.refl _))
        · split
          · exact hmore _
          · exact hmore hidden

/-- A conjunction only reports what one of its terms does. -/
theorem conjunction_sound : ∀ (branches : List (Cut × Walk)) (s : Store),
    (∀ b ∈ branches, b.2.Sound ctx inside) → s.ValueGraph inside →
    ctx.Place inside s root (base, node) →
    (Walk.conjunction branches base node).Yields s fun answer t =>
      ∀ visit, answer = some visit → visit.AllPlaces ctx inside root t
  | [], _, _, _, _ => .pure fun visit hvisit => by
    cases hvisit
    exact Visit.allPlaces_nothing
  | (cut, walk) :: rest, s, hbranches, hg, hplace => by
    rw [Walk.conjunction]
    refine (hbranches (cut, walk) (List.mem_cons_self ..) s root base node hg hplace).bind
      fun visit t hst hvisit => ?_
    split
    · exact .pure fun visit hnone => by cases hnone
    · refine (conjunction_sound rest t (fun b hb => hbranches b (List.mem_cons_of_mem _ hb))
        (hg.grows hst) (hplace.grows hst)).bind fun answer u htu hanswer => .pure ?_
      intro joined hjoined
      obtain ⟨more, hmore, rfl⟩ := Option.map_eq_some_iff.mp hjoined
      split
      · exact hvisit.grows htu
      · exact (hvisit.grows htu).append (hanswer more hmore)

end Walk

namespace Context

/-! ### Segments -/

theorem placesOf_reaches {parts : List (Step × Value)}
    (h : ∀ p ∈ parts, ctx.Reaches inside s node p) :
    ∀ p ∈ placesOf parts, ctx.Place inside s node p := by
  intro p hp
  obtain ⟨part, hpart, rfl⟩ := List.mem_map.mp hp
  exact (h part hpart).place

/-- What a complement selects is reached in real steps. -/
theorem complement_is_real (hreg : ctx.registry.Grows) (bs : List Branch)
    (hg : s.ValueGraph inside) (htame : Tame inside s node) :
    (ctx.complement bs node).Yields s fun found t => ∀ p ∈ found, ctx.Reaches inside t node p := by
  unfold complement
  split
  · exact .pure fun p hp => by cases hp
  · rename_i leaf more _
    refine (Grows.mapM (fun seg => items_grows hreg seg node) (leaf :: more) s).bind
      fun excluded t hst _ => ?_
    refine (Yields.store rfl).bind (Q := fun r t => r = t) fun r u htu hr => .pure fun p hp => ?_
    subst hr
    have hst' := hst.trans htu
    exact universe_is_real (hg.grows hst') (htame.grows hst') leaf p (List.mem_filter.mp hp).1

/-- Going on with the parts that a segment selects keeps a walk sound. -/
theorem parts_sound {next : Walk} (hnext : next.Sound ctx inside)
    (select : Value → Eval (List (Step × Value)))
    (hselect : ∀ s node, s.ValueGraph inside → Tame inside s node →
      (select node).Yields s fun found t => ∀ p ∈ found, ctx.Reaches inside t node p) :
    Walk.Sound ctx inside fun base node => (do next.each base (placesOf (← select node))) := by
  intro s root base node hg hplace
  refine (hselect s node hg hplace.tame).bind fun found t hst hfound => ?_
  exact hnext.each _ t (hg.grows hst) (hplace.grows hst) (placesOf_reaches hfound)

mutual

/-- A segment keeps what comes after it sound. -/
theorem walkSegment_sound (hreg : ctx.registry.Grows) : ∀ (seg : Segment) (next : Walk), seg.hasSliceFilter = false →
    next.Sound ctx inside → Walk.Sound ctx inside (ctx.walkSegment seg next)
  | .group kind branches first, next, hfilter, hnext => by
    intro s root base node hg hplace
    have hbranches := walkBranches_sound hreg branches next hfilter hnext
    rw [walkSegment]
    cases kind with
    | or => exact Walk.alternatives_sound first _ _ hbranches s root base node hg hplace
    | and =>
      refine (Walk.conjunction_sound _ s hbranches hg hplace).bind
        fun answer t _ hanswer => .pure ?_
      cases answer with
      | none => exact Visit.allPlaces_nothing
      | some visit => exact (hanswer visit rfl).of_subset (firstOnly_sublist first _).subset
    | not =>
      refine (complement_is_real hreg branches hg hplace.tame).bind fun found t hst hfound => ?_
      refine (hnext.each _ t (hg.grows hst) (hplace.grows hst) (placesOf_reaches hfound)).bind
        fun visit u _ hvisit => .pure ?_
      exact hvisit.of_subset (firstOnly_sublist first _).subset
  | .recursive key branches depth filter first, next, hfilter, hnext => by
    intro s root base node hg hplace
    rw [walkSegment]
    refine (collect_places hreg (r := ⟨key, branches, depth, filter, first⟩) hfilter hg
      hplace.tame).bind fun found t hst hfound => ?_
    exact hnext.each found t (hg.grows hst) (hplace.grows hst) hfound
  | .nop inner, next, hfilter, hnext => by
    rw [walkSegment]
    exact walkSegment_sound hreg inner next hfilter hnext
  | .restrict inner kinds, next, hfilter, hnext => by
    intro s root base node hg hplace
    rw [walkSegment]
    refine (Yields.store rfl).bind (Q := fun r t => r = t) fun r t hst hr => ?_
    subst hr
    split
    · exact walkSegment_sound hreg inner next hfilter hnext r root base node (hg.grows hst)
        (hplace.grows hst)
    · exact .pure Visit.allPlaces_nothing
  | .guard inner test, next, hfilter, hnext => by
    rw [walkSegment]
    -- a guarded group or descent is walked to its own end before its places are tested
    by_cases hcompound : inner.isCompound = true
    · intro s root base node hg hplace
      dsimp only
      rw [if_pos hcompound]
      refine (walkSegment_sound hreg inner Walk.done hfilter Walk.done_sound s node [] node hg
        (.here hplace.tame)).bind fun reached t hst hreached => ?_
      refine (hnext.eachPassing (guardHolds_grows hreg test) reached.found t (hg.grows hst)
        (hplace.grows hst) hreached).bind fun visit u _ hvisit => .pure ?_
      exact hvisit.of_subset (List.Subset.refl _)
    · intro s root base node hg hplace
      dsimp only
      rw [if_neg hcompound]
      exact parts_sound hnext (ctx.items (.guard inner test))
        (fun _ _ => items_are_real hreg (.guard inner test) hfilter) s root base node hg
        hplace
  | .root, next, hfilter, hnext =>
    parts_sound hnext _ fun _ _ => items_are_real hreg .root hfilter
  | .invert, next, hfilter, hnext =>
    parts_sound hnext _ fun _ _ => items_are_real hreg .invert hfilter
  | .access accessor key filter first, next, hfilter, hnext =>
    parts_sound hnext _ fun _ _ =>
      items_are_real hreg (.access accessor key filter first) hfilter
  | .append unique, next, hfilter, hnext =>
    parts_sound hnext _ fun _ _ => items_are_real hreg (.append unique) hfilter
  | .slice range, next, hfilter, hnext =>
    parts_sound hnext _ fun _ _ => items_are_real hreg (.slice range) hfilter
  | .sliceFilter _ _, _, hfilter, _ => by cases hfilter

/-- Reading segments one after the other keeps what comes after them sound. -/
theorem walkPath_sound (hreg : ctx.registry.Grows) : ∀ (segs : List Segment) (next : Walk),
    Segment.haveSliceFilter segs = false → next.Sound ctx inside →
    Walk.Sound ctx inside (ctx.walkPath segs next)
  | [], next, _, hnext => by
    rw [walkPath]
    exact hnext
  | seg :: segs, next, hfilter, hnext => by
    rw [Segment.haveSliceFilter, Bool.or_eq_false_iff] at hfilter
    rw [walkPath]
    exact walkSegment_sound hreg seg _ hfilter.1 (walkPath_sound hreg segs next hfilter.2 hnext)

/-- So does each branch of a group. -/
theorem walkBranches_sound (hreg : ctx.registry.Grows) : ∀ (bs : List Branch) (next : Walk),
    Branch.haveSliceFilter bs = false → next.Sound ctx inside →
    ∀ b ∈ ctx.walkBranches bs next, b.2.Sound ctx inside
  | [], next, _, _ => by
    intro b hb
    rw [walkBranches] at hb
    cases hb
  | .mk segs cut :: bs, next, hfilter, hnext => by
    rw [Branch.haveSliceFilter, Bool.or_eq_false_iff] at hfilter
    intro b hb
    rw [walkBranches] at hb
    rcases List.mem_cons.mp hb with rfl | hb
    · exact walkPath_sound hreg segs next hfilter.1 hnext
    · exact walkBranches_sound hreg bs next hfilter.2 hnext b hb

end

/-! ### Reading a location again -/

/-- What a path reports in a value of the graph are places of this value. -/
theorem find_places (hreg : ctx.registry.Grows) {segs : List Segment}
    (hfilter : Segment.haveSliceFilter segs = false) (hg : s.ValueGraph inside)
    (hroot : root.Inside inside) :
    (ctx.find segs root).Yields s fun found t => ∀ p ∈ found, ctx.Place inside t root p := by
  have hwalk := walkPath_sound hreg segs Walk.done hfilter Walk.done_sound s root [] root hg
    (.here (.inl hroot))
  exact hwalk.bind fun visit t _ hvisit => .pure hvisit

/-- **Reported locations are real.**  The literal path of a location that a path reports in a value
finds one place of this value: the same location, with the same value.  A location that ends with a
slice makes its sequence anew, so that there it is one of the same kind with the same elements. -/
theorem find_reported (hreg : ctx.registry.Grows) (segs : List Segment)
    (hfilter : Segment.haveSliceFilter segs = false) (hg : s.ValueGraph inside)
    (hroot : root.Inside inside) {found : List Found} {s₁ : Store}
    (hfind : ctx.find segs root s = (.ok found, s₁)) {l : Location} {v : Value}
    (hmem : (l, v) ∈ found) (ht : s₁.GrowsTo t) :
    ∃ l' v' u, ctx.find (l.path t) root t = (.ok [(l', v')], u) ∧ l.same u l' = true ∧
      (v' = v ∨ l.endsInSlice = true ∧ u.Alike v v') := by
  have hplaces := find_places hreg hfilter hg hroot
  have hplace := hplaces.answer found (by rw [hfind]) (l, v) hmem
  rw [hfind] at hplace
  obtain ⟨l', v', u, hwalk, -, hsame, halike, hexact⟩ := walkPath_of_leads hplace.leads ht
    false [] ht (.refl t root) fun _ => rfl
  refine ⟨l', v', u, ?_, hsame u (.refl u), ?_⟩
  · rw [find, Eval.run_bind_of_ok hwalk]
    rfl
  · by_cases hslice : l.endsInSlice = true
    · exact .inr ⟨hslice, halike⟩
    · rw [Bool.not_eq_true, ← Location.endsInSliceFrom_false] at hslice
      exact .inl (hexact hslice)

end Context

/-- A list that holds a dict, which holds the list. -/
def cyclicStore : Store :=
  ⟨#[.list [.ref ⟨1⟩, .int 5], .dict [(.str "up", .ref ⟨0⟩)]]⟩

/-- The handles of `cyclicStore` are a graph: the list and the dict hold each other. -/
theorem cyclicStore_valueGraph : cyclicStore.ValueGraph (· ∈ [⟨0⟩, ⟨1⟩]) := by
  have hcases {P : Handle → Prop} (h0 : P ⟨0⟩) (h1 : P ⟨1⟩) (h : Handle)
      (hh : h ∈ [(⟨0⟩ : Handle), ⟨1⟩]) : P h := by
    rcases List.mem_cons.mp hh with rfl | hh
    · exact h0
    · exact List.mem_singleton.mp hh ▸ h1
  constructor
  · exact hcases ⟨_, rfl⟩ ⟨_, rfl⟩
  · refine fun h c hh => hcases (P := fun h => cyclicStore.get? h = some c →
      ∀ g, .ref g ∈ c.parts → g ∈ [(⟨0⟩ : Handle), ⟨1⟩]) ?_ ?_ h hh
    · intro hc g hg
      obtain rfl : .list [.ref ⟨1⟩, .int 5] = c := Option.some.inj hc
      rcases List.mem_cons.mp hg with h | h
      · cases h
        decide
      · cases List.mem_singleton.mp h
    · intro hc g hg
      obtain rfl : .dict [(.str "up", .ref ⟨0⟩)] = c := Option.some.inj hc
      rcases List.mem_cons.mp hg with h | h
      · cases h
      · cases List.mem_singleton.mp h
        decide
  · refine fun h es hh => hcases (P := fun h => cyclicStore.get? h = some (.dict es) →
      ∀ e ∈ es, cyclicStore.IsKey e.1) (fun hc => by cases hc) ?_ h hh
    rintro ⟨⟩ e he
    rw [List.mem_singleton.mp he]
    exact .scalar (by decide)
  · refine fun h es hh => hcases (P := fun h => cyclicStore.get? h = some (.dict es) →
      es.Pairwise fun a b => cyclicStore.sameKey b.1 a.1 = false) (fun hc => by cases hc) ?_ h hh
    rintro ⟨⟩
    exact List.pairwise_singleton _ _
  · refine fun h name attrs frozen hh => hcases
      (P := fun h => cyclicStore.get? h = some (.object name attrs frozen) →
        (attrs.map Prod.fst).Nodup) (fun hc => by cases hc) (fun hc => by cases hc) h hh

/-- The first elements of the lists at any depth below the list of `cyclicStore`. -/
theorem find_reported_cycle :
    let ctx : Context := ⟨.builtin, false⟩
    let slice : SliceRange := ⟨some (.index 0), some (.index 1), none⟩
    let l : Location := [.slot (.int 0), .key (.str "up"), .slice slice]
    ctx.find [.recursive .wildcard [] .unbounded none false, .slice slice] (.ref ⟨0⟩) cyclicStore =
        (.ok [(l, .ref ⟨2⟩)], cyclicStore.push (.list [.ref ⟨1⟩])) ∧
      ∃ l' v' u, ctx.find (l.path (cyclicStore.push (.list [.ref ⟨1⟩]))) (.ref ⟨0⟩)
          (cyclicStore.push (.list [.ref ⟨1⟩])) = (.ok [(l', v')], u) ∧ l.same u l' = true ∧
        (v' = .ref ⟨2⟩ ∨ l.endsInSlice = true ∧ u.Alike (.ref ⟨2⟩) v') := by
  have hroot : (Value.ref ⟨0⟩).Inside (· ∈ [⟨0⟩, ⟨1⟩]) := by
    rintro h ⟨⟩
    exact List.mem_cons_self ..
  refine ⟨rfl, ?_⟩
  exact Context.find_reported Registry.builtin_grows
    [.recursive .wildcard [] .unbounded none false, .slice _] rfl
    cyclicStore_valueGraph hroot rfl (List.mem_singleton_self _) (.refl _)

end DottedPath
