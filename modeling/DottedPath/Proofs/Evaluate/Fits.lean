import DottedPath.Proofs.Evaluate.WriteBack

/-!
# Parts that fit where they were read

A part that a segment selects is at a place of its value (`Fits`): the value itself, an element, an
entry, an attribute, or a new sequence of elements.  To write the part back there, or a copy of it,
keeps all containers (`Fits.write`).

## Main statements

- `Fits.write`: a part that is written back leaves everything as it was.
- `Context.Selected.fits`: the parts that a segment selects are at places of the value.
-/

namespace DottedPath

/-! ### Keys without doubles -/

namespace Literal

mutual

/-- A double is the literal or inside of it. -/
def hasDouble : Literal → Bool
  | scalar x => x.kind == .float
  | tuple ls => itemsHaveDouble ls

def itemsHaveDouble : List Literal → Bool
  | [] => false
  | l :: ls => l.hasDouble || itemsHaveDouble ls

end

variable {s : Store}

mutual

theorem Shows.isKey : ∀ {l : Literal} {v : Value}, l.hasDouble = false → l.Shows s v → s.IsKey v
  | scalar x, v, hl, h => by
    rw [Shows] at h
    rw [hasDouble, beq_eq_false_iff_ne] at hl
    rw [h]
    exact .scalar hl
  | tuple ls, v, hl, h => by
    rw [Shows] at h
    rw [hasDouble] at hl
    obtain ⟨g, vs, rfl, hc, hls⟩ := h
    exact .tuple hc (hls.isKey hl)

theorem ItemsShow.isKey : ∀ {ls : List Literal} {vs : List Value}, itemsHaveDouble ls = false →
    ItemsShow s ls vs → ∀ v ∈ vs, s.IsKey v
  | [], vs, _, h => by
    rw [ItemsShow] at h
    rw [h]
    exact fun v hv => by cases hv
  | l :: ls, vs, hls, h => by
    rw [ItemsShow] at h
    rw [itemsHaveDouble, Bool.or_eq_false_iff] at hls
    obtain ⟨w, ws, rfl, hw, hws⟩ := h
    intro v hv
    rcases List.mem_cons.mp hv with rfl | hv
    · exact hw.isKey hls.1
    · exact hws.isKey hls.2 v hv

end

end Literal

namespace Store

variable {s t : Store}

/-- What a key finds among keys is where a write goes. -/
theorem findIdx?_of_lookup? {es : List (Value × Value)} {k x : Value} (hk : s.IsKey k)
    (hkeys : ∀ e ∈ es, s.IsKey e.1) (h : s.lookup? es k = some x) :
    ∃ i, es.findIdx? (fun e => s.sameKey k e.1) = some i ∧ (es.map Prod.snd)[i]? = some x := by
  rw [lookup?, Option.map_eq_some_iff] at h
  obtain ⟨e, hfind, rfl⟩ := h
  have hsame : es.find? (fun e => s.sameKey k e.1) = some e := by
    by_cases hcount : es.length = 1
    · -- A single key is compared by equality alone.
      obtain ⟨e', rfl⟩ := List.length_eq_one_iff.mp hcount
      have hfound := List.find?_some hfind
      have hsame : s.sameKey k e.1 = true :=
        equalsWithin_asKey _ hk (hkeys e (List.mem_of_find?_eq_some hfind)) hfound
      cases List.mem_singleton.mp (List.mem_of_find?_eq_some hfind)
      rw [List.find?_cons_of_pos (by exact hsame)]
    · have hfinds : (fun e : Value × Value => s.findsKey es.length k e.1) =
          fun e => s.sameKey k e.1 := by
        funext e
        rw [findsKey, bne_iff_ne.mpr hcount, sameKey]
      rw [← hfinds]
      exact hfind
  rw [List.find?_eq_bind_findIdx?_getElem?, Option.bind_eq_some_iff] at hsame
  obtain ⟨i, hi, hget⟩ := hsame
  exact ⟨i, hi, by rw [List.getElem?_map, hget]; rfl⟩

/-- Among distinct keys a key finds its own entry. -/
theorem findIdx?_of_mem {es : List (Value × Value)} {e : Value × Value} (hmem : e ∈ es)
    (hk : s.IsKey e.1) (hdistinct : es.Pairwise fun a b => s.sameKey b.1 a.1 = false) :
    ∃ i, es.findIdx? (fun e' => s.sameKey e.1 e'.1) = some i ∧
      (es.map Prod.snd)[i]? = some e.2 := by
  obtain ⟨i, hlt, rfl⟩ := List.getElem_of_mem hmem
  refine ⟨i, ?_, by rw [List.getElem?_map, List.getElem?_eq_getElem hlt]; rfl⟩
  rw [List.findIdx?_eq_some_iff_getElem]
  refine ⟨hlt, hk.sameKey_self, fun j hj => ?_⟩
  rw [List.pairwise_iff_getElem.mp hdistinct j i (by omega) hlt hj]
  exact Bool.false_ne_true

end Store

/-- Among different names a name finds its own attribute. -/
theorem findIdx?_of_mem_names {attrs : List (String × Value)} {a : String × Value}
    (hmem : a ∈ attrs) (hnodup : (attrs.map Prod.fst).Nodup) :
    ∃ i, attrs.findIdx? (fun a' => a'.1 == a.1) = some i ∧
      (attrs.map Prod.snd)[i]? = some a.2 := by
  obtain ⟨i, hlt, rfl⟩ := List.getElem_of_mem hmem
  refine ⟨i, ?_, by rw [List.getElem?_map, List.getElem?_eq_getElem hlt]; rfl⟩
  rw [List.findIdx?_eq_some_iff_getElem]
  refine ⟨hlt, beq_self_eq_true _, fun j hj => ?_⟩
  rw [List.nodup_iff_pairwise_ne, List.pairwise_map] at hnodup
  rw [beq_iff_eq]
  exact List.pairwise_iff_getElem.mp hnodup j i (by omega) hlt hj

/-- A position that is told by the first components depends on nothing else. -/
theorem findIdx?_eq_of_map {α β : Type} (p : α → Bool) (pairs : List (α × β)) :
    pairs.findIdx? (fun e => p e.1) = (pairs.map Prod.fst).findIdx? p := by
  rw [List.findIdx?_map]
  rfl

/-- While no tuple is edited a key keeps its place among the same keys. -/
theorem Store.findIdx?_of_keys {s t : Store} (hst : s.KeepsCopied t) {es fs : List (Value × Value)}
    {k : Value} (hk : s.IsKey k) (hkeys : ∀ e ∈ es, s.IsKey e.1)
    (hfst : es.map Prod.fst = fs.map Prod.fst) :
    fs.findIdx? (fun e => t.sameKey k e.1) = es.findIdx? fun e => s.sameKey k e.1 := by
  have hsame : (es.map Prod.fst).map (t.sameKey k) = (es.map Prod.fst).map (s.sameKey k) := by
    refine List.map_congr_left fun a ha => ?_
    obtain ⟨e, he, rfl⟩ := List.mem_map.mp ha
    exact sameKey_of_keeps hst hk (hkeys e he)
  have hid (p : Value → Bool) (keys : List Value) : keys.findIdx? p = (keys.map p).findIdx? id := by
    rw [List.findIdx?_map]
    rfl
  rw [findIdx?_eq_of_map (t.sameKey k), findIdx?_eq_of_map (s.sameKey k), ← hfst,
    hid (t.sameKey k), hsame, ← hid]

/-! ### Places of parts -/

/-- A part is what a step leads to in a value: the value itself, an element, the value of an entry or
of an attribute, or the slice that has just been taken. -/
inductive Fits (s : Store) (node : Value) : Step → Value → Prop where
  | root : Fits s node .root node
  | element {step i x} (hstep : step = .key (.int i) ∨ step = .slot (.int i))
    (he : s.elementAt? node i = some x) : Fits s node step x
  | entry {step h es k i x} (hstep : step = .key k ∨ step = .slot k) (hnode : node = .ref h)
    (hc : s.get? h = some (.dict es)) (hk : s.IsKey k) (hkeys : ∀ e ∈ es, s.IsKey e.1)
    (hi : es.findIdx? (fun e => s.sameKey k e.1) = some i)
    (hx : (es.map Prod.snd)[i]? = some x) : Fits s node step x
  | attr {h name attrs frozen attr i x} (hnode : node = .ref h)
    (hc : s.get? h = some (.object name attrs frozen))
    (hi : attrs.findIdx? (fun a => a.1 == attr) = some i)
    (hx : (attrs.map Prod.snd)[i]? = some x) : Fits s node (.attr attr) x
  | slice {start range x} (hi : start.isIndexed node = true)
    (hslice : sliceOf range node start = (x, s)) : Fits s node (.slice range) x

section Fits

open Store

variable {s t : Store} {inside : Handle → Prop} {node now x y : Value} {step : Step}

theorem setChild_of_step {k : Value} (hstep : step = .key k ∨ step = .slot k) :
    setChild now step y = setKeyed now k y := by
  rcases hstep with rfl | rfl <;> rfl

/-- An index that names an element names a copy of it in a copy of the sequence. -/
theorem elementAt?_of_copies (hst : s.Keeps t) (hnow : t.Copies node now) {i : Int}
    (he : s.elementAt? node i = some x) : ∃ z, t.elementAt? now i = some z ∧ t.Copies x z := by
  obtain ⟨j, hresolve, hj⟩ := position_of_elementAt? he
  obtain ⟨hi, hall⟩ := hnow.sequence hst (isIndexed_of_elementAt? he)
  obtain ⟨z, hz, hxz⟩ := hall.get? hj
  refine ⟨z, ?_, hxz⟩
  rw [elementAt?, if_pos hi, position?, length?_of_isIndexed hi, Option.bind_some, ← hall.1,
    hresolve, Option.bind_some, hz]

/-- **A part that is written back where it was read, or a copy of it, leaves everything as it
was.** -/
theorem Fits.write (hg : s.PlainGraph inside) (hnode : node.Inside inside)
    (hfits : Fits s node step x) (hst : s.Keeps t) (hnow : t.Copies node now) (hy : t.Copies x y) :
    t.Keeps (setChild now step y t).2 ∧
      (setChild now step y t).2.Copies now (setChild now step y t).1 := by
  cases hfits with
  | root => exact ⟨.refl t, hnow.symm.trans hy⟩
  | element hstep he =>
    obtain ⟨z, hz, hxz⟩ := elementAt?_of_copies hst hnow he
    rw [setChild_of_step hstep]
    exact setKeyed_index_keeps hz (hxz.symm.trans hy)
  | @entry step h es k i x hstep hnode hc hk hkeys hi hx =>
    subst hnode
    obtain ⟨d, hd, hlike⟩ := hst.like h _ hc
    obtain ⟨fs, rfl⟩ : ∃ fs, d = .dict fs := by
      have hframe := hlike.frame
      cases d with
      | dict fs => exact ⟨fs, rfl⟩
      | _ => cases hframe
    -- the keys are what they were, so the key finds the same entry
    have hfst := Container.keys_of_frame hlike.frame
    have hfound : fs.findIdx? (fun e => t.sameKey k e.1) = some i := by
      rw [findIdx?_of_keys hst.copied hk hkeys hfst, hi]
    obtain ⟨z, hz, hxz⟩ := hlike.slots.get? hx
    have hnow' : now = .ref h := hnow.eq_of_get? hd rfl
    have hwrite := setKeyed_entry_keeps hd hfound hz (hxz.symm.trans hy)
    rw [setChild_of_step hstep, hnow', hwrite.2]
    exact ⟨hwrite.1, .refl _⟩
  | @attr h name attrs frozen attr i x hnode hc hi hx =>
    subst hnode
    obtain ⟨k, rfl⟩ := hnow.exists_ref
    obtain ⟨d, hd, hlike⟩ := hst.like_of_copies hc hnow
    obtain ⟨others, rfl⟩ : ∃ others, d = .object name others frozen := by
      have hframe := hlike.frame
      cases d with
      | object name' others frozen' =>
        obtain ⟨rfl, -, rfl⟩ := Container.object.inj hframe
        exact ⟨others, rfl⟩
      | _ => cases hframe
    have hfst := Container.names_of_frame hlike.frame
    have hfound : others.findIdx? (fun a => a.1 == attr) = some i := by
      rw [findIdx?_eq_of_map (fun n => n == attr) others, ← hfst, ← findIdx?_eq_of_map, hi]
    obtain ⟨z, hz, hxz⟩ := hlike.slots.get? hx
    exact replaceAttrs_keeps hd hfound hz (hxz.symm.trans hy)
  | slice hi hslice =>
    obtain ⟨hgrows, hvalue⟩ := setSlice_keeps hg hnode hi hslice hst hnow hy
    show t.Keeps (setSlice now _ y t).2 ∧ (setSlice now _ y t).2.Copies now (setSlice now _ y t).1
    rw [hvalue]
    exact ⟨.of_grows hgrows, .refl _⟩

end Fits

/-! ### What a segment selects -/

/-- The pattern is no literal with a double in it. -/
def KeyPattern.isExact : KeyPattern → Bool
  | .literal l => !l.hasDouble
  | _ => true

/-- The segment selects parts of a value, by keys that are no doubles: it is no group, no descent, no
inversion and no slice filter. -/
def Segment.selects : Segment → Bool
  | .root => true
  | .access _ key _ _ => key.isExact
  | .append _ => true
  | .slice _ => true
  | .nop inner => inner.selects
  | .guard inner _ => inner.selects
  | .restrict inner _ => inner.selects
  | .invert => false
  | .sliceFilter _ _ => false
  | .recursive .. => false
  | .group .. => false

namespace Segment

variable {seg : Segment}

end Segment

section Selected

open Store

variable {start s : Store} {inside : Handle → Prop} {node x : Value} {step : Step}

/-- A part of a value of a graph is a value of a graph, and it fits where it was read. -/
structure Store.FitsIn (s : Store) (node : Value) (step : Step) (x : Value)
    (inside : Handle → Prop) : Prop where
  graph : s.PlainGraph inside
  whole : node.Inside inside
  part : x.Inside inside
  fits : Fits s node step x

theorem Candidate.fitsIn (hg : s.PlainGraph inside) (hnode : node.Inside inside)
    {accessor : Accessor} {key : KeyPattern} {part : Value × Value} (hkey : key.isExact = true)
    (h : Candidate s node accessor key part) :
    s.FitsIn node (accessor.step s part.1) part.2 inside := by
  have htame : Tame inside s node := .inl hnode
  have hstep (k : Value) (haccessor : accessor ≠ .attr) :
      accessor.step s k = .key k ∨ accessor.step s k = .slot k := by
    cases accessor with
    | key => exact .inl rfl
    | slot => exact .inr rfl
    | attr => exact absurd rfl haccessor
  cases h with
  | element haccessor he =>
    have hinside := htame.inside_of_mem_elements hg.toValueGraph (isIndexed_of_elementAt? he)
      (mem_elements_of_elementAt? he)
    exact ⟨hg, hnode, hinside, .element (hstep _ haccessor) he⟩
  | @entry accessor key es k x haccessor hc hmem =>
    obtain ⟨g, rfl, hinside, hd⟩ := htame.of_dict hc
    have hkeys := hg.keys g es hinside hd
    obtain ⟨i, hi, hx⟩ := findIdx?_of_mem hmem (hkeys _ hmem) (hg.distinct g es hinside hd)
    exact ⟨hg, hnode, Tame.inside_of_mem_entries hg.toValueGraph hinside hd hmem,
      .entry (hstep _ haccessor) rfl hd (hkeys _ hmem) hkeys hi hx⟩
  -- a literal without doubles is a key, so its entry has the position where the key is found
  | @found accessor l es k x haccessor hc hk hfound =>
    obtain ⟨g, rfl, hinside, hd⟩ := htame.of_dict hc
    have hkeys := hg.keys g es hinside hd
    rw [KeyPattern.isExact, Bool.not_eq_true'] at hkey
    have hkey' := hk.isKey hkey
    obtain ⟨i, hi, hx⟩ := findIdx?_of_lookup? hkey' hkeys hfound
    obtain ⟨e, hmem, rfl⟩ := mem_of_lookup? hfound
    exact ⟨hg, hnode, Tame.inside_of_mem_entries hg.toValueGraph hinside hd hmem,
      .entry (hstep _ haccessor) rfl hd hkey' hkeys hi hx⟩
  | @attr key name attrs frozen attr x hc hmem =>
    obtain ⟨g, rfl, hinside, ho⟩ := htame.of_object hc
    obtain ⟨i, hi, hx⟩ := findIdx?_of_mem_names hmem (hg.names g name attrs frozen hinside ho)
    exact ⟨hg, hnode, Tame.inside_of_mem_attrs hg.toValueGraph hinside ho hmem,
      .attr rfl ho hi hx⟩

/-- A slice of a value of a graph is a value of the graph together with the slice. -/
theorem slice_fitsIn (hg : start.PlainGraph inside) (hnode : node.Inside inside)
    (hi : start.isIndexed node = true) (range : SliceRange) :
    ∃ inside', (sliceOf range node start).2.FitsIn node (.slice range) (sliceOf range node start).1
      inside' := by
  have hfits : Fits (sliceOf range node start).2 node (.slice range) (sliceOf range node start).1 :=
    .slice hi rfl
  have hgraph := hg.grows (sliceOf_grows range node start)
  rcases cases_of_isIndexed hi with ⟨text, rfl⟩ | ⟨bs, rfl⟩ | ⟨g, xs, rfl, hc⟩
  · exact ⟨inside, hgraph, hnode, by rintro h ⟨⟩, hfits⟩
  · exact ⟨inside, hgraph, hnode, by rintro h ⟨⟩, hfits⟩
  · have hpicked : ∀ x ∈ range.pick xs, Comparable inside x := fun x hx => by
      obtain ⟨i, hi⟩ := List.getElem?_of_mem (SliceRange.mem_of_mem_pick hx)
      exact hc.elim (fun hc => comparable_of_slot hg.toValueGraph hg.nan (hnode g rfl) hc hi)
        fun hc => comparable_of_slot hg.toValueGraph hg.nan (hnode g rfl) hc hi
    have hnode' : (Value.ref g).Inside fun h => inside h ∨ h = start.next :=
      fun h hh => .inl (hnode h hh)
    rcases hc with hc | hc
    · have hlist : start.container? (.ref g) = some (.list xs) := hc
      rw [sliceOf_list range hlist] at hfits hgraph ⊢
      exact ⟨_, hgraph.with_sequence (.inl (get?_push_next start _)) hpicked, hnode',
        by rintro h ⟨⟩; exact .inr rfl, hfits⟩
    · have htuple : start.container? (.ref g) = some (.tuple xs) := hc
      rw [sliceOf_tuple range htuple] at hfits hgraph ⊢
      exact ⟨_, hgraph.with_sequence (.inr (get?_push_next start _)) hpicked, hnode',
        by rintro h ⟨⟩; exact .inr rfl, hfits⟩

/-- The parts that a segment selects fit where they were read. -/
theorem Context.Selected.fits {seg : Segment} {p : Step × Value} (hg : start.PlainGraph inside)
    (hnode : node.Inside inside) (hst : start.GrowsTo s) (hseg : seg.selects = true)
    (h : Selected start s node seg p) :
    ∃ s₀ inside', start.GrowsTo s₀ ∧ s₀.GrowsTo s ∧ s₀.FitsIn node p.1 p.2 inside' := by
  induction h with
  | root => exact ⟨start, inside, .refl _, hst, hg, hnode, hnode, .root⟩
  | invert => cases hseg
  | access hstart hs h =>
    exact ⟨_, inside, hstart, hs, h.fitsIn (hg.grows hstart) hnode hseg⟩
  | append he =>
    have hinside := Tame.inside_of_mem_elements hg.toValueGraph (.inl hnode)
      (isIndexed_of_elementAt? he) (mem_elements_of_elementAt? he)
    exact ⟨start, inside, .refl _, hst, hg, hnode, hinside, .element (.inr rfl) he⟩
  | @slice range hi hs =>
    obtain ⟨inside', hfits⟩ := slice_fitsIn hg hnode hi range
    exact ⟨_, inside', sliceOf_grows range node start, hs, hfits⟩
  | nop _ ih => exact ih hseg
  | guard _ ih => exact ih hseg
  | restrict _ ih => exact ih hseg

end Selected

end DottedPath
