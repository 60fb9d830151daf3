import DottedPath.Proofs.Evaluate.CopyEquality

/-!
# Graphs that writes keep

While the containers of a graph are kept, the graph together with the copies of its containers is one
again (`PlainGraph.keeps`), and so it is with a new sequence of its values
(`PlainGraph.with_sequence`).  So a write that goes on from a value of a graph always is at a value of
some graph.
-/

namespace DottedPath

namespace Container

/-- A part is in a slot or belongs to the frame. -/
theorem mem_slots_or_frame {c : Container} {x : Value} (hx : x ∈ c.parts) :
    x ∈ c.slots ∨ x ∈ c.frame.parts := by
  cases c with
  | dict es =>
    obtain ⟨e, he, hx⟩ := List.mem_flatMap.mp hx
    rcases List.mem_cons.mp hx with rfl | hx
    · exact .inr (List.mem_flatMap.mpr ⟨(e.1, .null), List.mem_map_of_mem he, by simp⟩)
    · exact .inl (List.mem_map.mpr ⟨e, he, (List.mem_singleton.mp hx).symm⟩)
  | set ms => exact .inr hx
  | frozenset ms => exact .inr hx
  | _ => exact .inl hx

/-- The handles in a frame are those of keys and members. -/
theorem ref_mem_parts_of_frame {c : Container} {h : Handle} (hh : .ref h ∈ c.frame.parts) :
    .ref h ∈ c.parts := by
  cases c with
  | dict es =>
    obtain ⟨_, hmem, hh⟩ := List.mem_flatMap.mp hh
    obtain ⟨e, he, rfl⟩ := List.mem_map.mp hmem
    rcases List.mem_cons.mp hh with hh | hh
    · exact List.mem_flatMap.mpr ⟨e, he, by rw [hh]; simp⟩
    · cases List.mem_singleton.mp hh
  | set ms => exact hh
  | frozenset ms => exact hh
  | object name attrs frozen =>
    obtain ⟨a, ha, heq⟩ := List.mem_map.mp hh
    obtain ⟨a, -, rfl⟩ := List.mem_map.mp ha
    cases heq
  | list xs =>
    obtain ⟨a, -, heq⟩ := List.mem_map.mp hh
    cases heq
  | tuple xs =>
    obtain ⟨a, -, heq⟩ := List.mem_map.mp hh
    cases heq

/-- A dict of the frame of a dict has the same keys. -/
theorem keys_of_frame {es fs : List (Value × Value)} (h : (dict es).frame = (dict fs).frame) :
    es.map Prod.fst = fs.map Prod.fst := by
  have hkeys := congrArg (List.map Prod.fst) (Container.dict.inj h)
  simpa only [List.map_map, Function.comp_def] using hkeys

/-- An object of the frame of an object has the same names. -/
theorem names_of_frame {name name' : String} {as bs : List (String × Value)} {f f' : Bool}
    (h : (object name as f).frame = (object name' bs f').frame) :
    as.map Prod.fst = bs.map Prod.fst := by
  have hnames := congrArg (List.map Prod.fst) (Container.object.inj h).2.1
  simpa only [List.map_map, Function.comp_def] using hnames

end Container

namespace Store

variable {s t : Store} {inside : Handle → Prop} {v w : Value}

/-- A graph without NaN. -/
structure PlainGraph (s : Store) (inside : Handle → Prop) : Prop extends s.ValueGraph inside where
  nan : s.NoNaN inside

/-- The containers of a graph and their copies. -/
def CopiesOf (s : Store) (inside : Handle → Prop) (h : Handle) : Prop :=
  ∃ g, inside g ∧ s.Copies (.ref g) (.ref h)

theorem inside_copiesOf (hv : v.Inside inside) (h : s.Copies v w) :
    w.Inside (s.CopiesOf inside) := by
  rintro k rfl
  cases v with
  | scalar a => cases h.eq_of_scalar
  | ref g => exact ⟨g, hv g rfl, h⟩

/-- A copy of a container that is kept is like what the container was. -/
theorem Keeps.like_of_copies (hst : s.Keeps t) {g h : Handle} {c : Container}
    (hc : s.get? g = some c) (hcopy : t.Copies (.ref g) (.ref h)) :
    ∃ d, t.get? h = some d ∧ t.Like c d := by
  obtain ⟨d, hd, hlike⟩ := hst.like g c hc
  cases hcopy with
  | refl => exact ⟨d, hd, hlike⟩
  | @copy _ _ c' e hc' he _ hframe hslots =>
    cases hd.symm.trans hc'
    have hlengths : d.slots.length = e.slots.length := by
      rw [d.length_slots, hframe, ← e.length_slots]
    exact ⟨e, he, hlike.trans ⟨hframe, hlengths, hslots⟩⟩

/-- What the copy of a container of a graph holds, and what that is like. -/
theorem ValueGraph.like_of_copiesOf (hg : s.ValueGraph inside) (hst : s.Keeps t) {h : Handle}
    {d : Container} (hh : t.CopiesOf inside h) (hd : t.get? h = some d) :
    ∃ g c, inside g ∧ s.get? g = some c ∧ t.Like c d := by
  obtain ⟨g, hinside, hcopy⟩ := hh
  obtain ⟨c, hc⟩ := hg.held g hinside
  obtain ⟨d', hd', hlike⟩ := hst.like_of_copies hc hcopy
  cases hd.symm.trans hd'
  exact ⟨g, c, hinside, hc, hlike⟩

theorem ValueGraph.keeps (hg : s.ValueGraph inside) (hst : s.Keeps t) :
    t.ValueGraph (t.CopiesOf inside) := by
  refine ⟨?_, ?_, ?_, ?_, ?_⟩
  · rintro h ⟨g, hinside, hcopy⟩
    obtain ⟨c, hc⟩ := hg.held g hinside
    obtain ⟨d, hd, -⟩ := hst.like_of_copies hc hcopy
    exact ⟨d, hd⟩
  · intro h d hh hd k hk
    obtain ⟨g, c, hinside, hc, hlike⟩ := hg.like_of_copiesOf hst hh hd
    -- what stands in a slot may have become a copy, what stands in the frame is the same
    rcases Container.mem_slots_or_frame hk with hk | hk
    · obtain ⟨i, hi⟩ := List.getElem?_of_mem hk
      obtain ⟨x, hx, hcopy⟩ := hlike.slots.symm.get? hi
      have hmem := Container.mem_parts_of_mem_slots (List.mem_of_getElem? hx)
      exact inside_copiesOf (fun g' hg' => hg.closed g c hinside hc g' (hg' ▸ hmem)) hcopy.symm k rfl
    · rw [← hlike.frame] at hk
      exact ⟨k, hg.closed g c hinside hc k (Container.ref_mem_parts_of_frame hk), .refl _⟩
  · intro h fs hh hd e he
    obtain ⟨g, c, hinside, hc, hlike⟩ := hg.like_of_copiesOf hst hh hd
    have hframe := hlike.frame
    cases c with
    | dict es =>
      have hkey : e.1 ∈ es.map Prod.fst := by
        rw [Container.keys_of_frame hframe]
        exact List.mem_map_of_mem he
      obtain ⟨e', he', heq⟩ := List.mem_map.mp hkey
      rw [← heq]
      exact (hg.keys g es hinside hc e' he').keeps hst.copied
    | _ => cases hframe
  · intro h fs hh hd
    obtain ⟨g, c, hinside, hc, hlike⟩ := hg.like_of_copiesOf hst hh hd
    have hframe := hlike.frame
    cases c with
    | dict es =>
      have hkeys := hg.keys g es hinside hc
      have hdistinct : (es.map Prod.fst).Pairwise fun a b => t.sameKey b a = false := by
        refine List.pairwise_map.mpr ((hg.distinct g es hinside hc).imp_of_mem ?_)
        intro a b ha hb hab
        rw [sameKey_of_keeps hst.copied (hkeys b hb) (hkeys a ha), hab]
      rw [Container.keys_of_frame hframe] at hdistinct
      exact List.pairwise_map.mp hdistinct
    | _ => cases hframe
  · intro h name bs frozen hh hd
    obtain ⟨g, c, hinside, hc, hlike⟩ := hg.like_of_copiesOf hst hh hd
    have hframe := hlike.frame
    cases c with
    | object name' as frozen' =>
      rw [← Container.names_of_frame hframe]
      exact hg.names g name' as frozen' hinside hc
    | _ => cases hframe

namespace PlainGraph

/-- A graph that is kept is one together with its copies. -/
theorem keeps (hg : s.PlainGraph inside) (hst : s.Keeps t) : t.PlainGraph (t.CopiesOf inside) := by
  refine ⟨hg.toValueGraph.keeps hst, fun h d hh hd a ha => ?_⟩
  obtain ⟨g, c, hinside, hc, hlike⟩ := hg.toValueGraph.like_of_copiesOf hst hh hd
  obtain ⟨i, hi⟩ := List.getElem?_of_mem ha
  obtain ⟨x, hx, hcopy⟩ := hlike.slots.symm.get? hi
  rw [hcopy.eq_of_scalar] at hx
  exact hg.nan g c hinside hc a (List.mem_of_getElem? hx)

/-- A graph stays one when the store grows. -/
theorem grows (hg : s.PlainGraph inside) (hst : s.GrowsTo t) : t.PlainGraph inside := by
  refine ⟨hg.toValueGraph.grows hst, fun h d hh hd a ha => ?_⟩
  obtain ⟨c, hc⟩ := hg.held h hh
  cases hd.symm.trans (hst h c hc)
  exact hg.nan h d hh hc a ha

/-- A graph is one together with a sequence of its values. -/
theorem with_sequence (hg : s.PlainGraph inside) {k : Handle} {xs : List Value}
    (hk : s.get? k = some (.list xs) ∨ s.get? k = some (.tuple xs))
    (hxs : ∀ x ∈ xs, Comparable inside x) : s.PlainGraph fun h => inside h ∨ h = k := by
  have hseq : ∀ c, s.get? k = some c → c = .list xs ∨ c = .tuple xs := fun c hc =>
    hk.imp (fun hk => Option.some.inj (hc.symm.trans hk)) fun hk =>
      Option.some.inj (hc.symm.trans hk)
  refine ⟨⟨?_, ?_, ?_, ?_, ?_⟩, ?_⟩
  · rintro h (hh | rfl)
    · exact hg.held h hh
    · exact hk.elim (fun hk => ⟨_, hk⟩) fun hk => ⟨_, hk⟩
  · rintro h c (hh | rfl) hc g hmem
    · exact .inl (hg.closed h c hh hc g hmem)
    · rcases hseq c hc with rfl | rfl
      · exact .inl ((hxs _ hmem).tame g rfl)
      · exact .inl ((hxs _ hmem).tame g rfl)
  · rintro h es (hh | rfl) hc
    · exact hg.keys h es hh hc
    · rcases hseq _ hc with heq | heq <;> cases heq
  · rintro h es (hh | rfl) hc
    · exact hg.distinct h es hh hc
    · rcases hseq _ hc with heq | heq <;> cases heq
  · rintro h name attrs frozen (hh | rfl) hc
    · exact hg.names h name attrs frozen hh hc
    · rcases hseq _ hc with heq | heq <;> cases heq
  · rintro h c (hh | rfl) hc a ha
    · exact hg.nan h c hh hc a ha
    · rcases hseq c hc with rfl | rfl
      · exact (hxs _ ha).scalar a rfl
      · exact (hxs _ ha).scalar a rfl

end PlainGraph

end Store

end DottedPath
