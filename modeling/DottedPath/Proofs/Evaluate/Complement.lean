import DottedPath.Proofs.Evaluate.Retake
import DottedPath.Proofs.Evaluate.SelectedSlots
import DottedPath.Proofs.Value.Meaning

/-!
# What a complement selects

The segments of a complement group select parts of a container, each in one slot (`Form.Part`).  The
complement counts the slots by the steps that the container itself has, and leaves out those that a
selected part is at.  A key that is equal to the one of the entry is such a step, and so is an index;
but an index from the end is not told to be the same (`Form.countsFromEnd`), so that the element
which it selects is also in the complement.

## Main statements

- `Context.find_complement`: the slots that a complement reports, for all segments of one kind.
- `Context.find_complement_partition`: without indexes from the end these are just the slots that are
  not selected, in their order.
- `Context.find_complement_fromEnd`: if all segments are indexes from the end, these are all slots.
-/

namespace DottedPath

variable {s t u : Store} {f : Form} {n i j : Nat} {st : Step}

/-! ### Keys -/

namespace Store

variable {a b c : Value} {keys : List Value}

theorem itemsEqual_trans {eq : Value → Value → Bool} : ∀ {xs ys zs : List Value},
    (∀ x ∈ xs, ∀ y ∈ ys, ∀ z ∈ zs, eq x y = true → eq y z = true → eq x z = true) →
    equalsWithin.itemsEqual eq xs ys = true → equalsWithin.itemsEqual eq ys zs = true →
    equalsWithin.itemsEqual eq xs zs = true
  | [], [], _, _, _, h => h
  | [], y :: ys, _, _, h, _ => by cases h
  | x :: xs, [], _, _, h, _ => by cases h
  | x :: xs, y :: ys, [], _, _, h => by cases h
  | x :: xs, y :: ys, z :: zs, htrans, hxy, hyz => by
    rw [equalsWithin.itemsEqual, Bool.and_eq_true] at hxy hyz ⊢
    refine ⟨htrans x (List.mem_cons_self ..) y (List.mem_cons_self ..) z (List.mem_cons_self ..)
      hxy.1 hyz.1, itemsEqual_trans (fun x' hx y' hy z' hz => ?_) hxy.2 hyz.2⟩
    exact htrans x' (List.mem_cons_of_mem _ hx) y' (List.mem_cons_of_mem _ hy) z'
      (List.mem_cons_of_mem _ hz)

/-- Keys that are equal to one key are equal. -/
theorem equalsWithin_trans : ∀ (n : Nat) {a b c : Value}, s.IsKey a → s.IsKey b → s.IsKey c →
    s.equalsWithin n false a b = true → s.equalsWithin n false b c = true →
    s.equalsWithin n false a c = true
  | 0, _, _, _, _, _, _, hab, _ => by
    rw [equalsWithin] at hab
    cases hab
  | n + 1, _, _, _, .scalar hx, .scalar hy, .scalar hz, hab, hbc => by
    rw [equalsWithin] at hab hbc ⊢
    have hxy := (scalar_iff_layer (α := Unit) hx hy false).mp hab
    have hyz := (scalar_iff_layer (α := Unit) hy hz false).mp hbc
    exact (scalar_iff_layer (α := Unit) hx hz false).mpr (hxy.trans hyz)
  | n + 1, _, _, _, .scalar _, .tuple _ _, _, hab, _ => by simp [equalsWithin] at hab
  | n + 1, _, _, _, .tuple _ _, .scalar _, _, hab, _ => by simp [equalsWithin] at hab
  | n + 1, _, _, _, _, .scalar _, .tuple _ _, _, hbc => by simp [equalsWithin] at hbc
  | n + 1, _, _, _, _, .tuple _ _, .scalar _, _, hbc => by simp [equalsWithin] at hbc
  | n + 1, _, _, _, .tuple (h := g) hg hitems, .tuple (h := g') hg' hitems',
      .tuple (h := g'') hg'' hitems'', hab, hbc => by
    rw [equalsWithin, hg, hg', Bool.or_eq_true, beq_iff_eq] at hab
    rw [equalsWithin, hg', hg'', Bool.or_eq_true, beq_iff_eq] at hbc
    rw [equalsWithin, hg, hg'', Bool.or_eq_true, beq_iff_eq]
    -- A tuple is equal to itself without a look at its items.
    rcases hab with rfl | hab
    · cases hg.symm.trans hg'
      exact hbc
    · rcases hbc with rfl | hbc
      · cases hg'.symm.trans hg''
        exact .inr hab
      · refine .inr (itemsEqual_trans (fun x hx y hy z hz => ?_) hab hbc)
        exact equalsWithin_trans n (hitems x hx) (hitems' y hy) (hitems'' z hz)

/-- A key without doubles is equal to those that it is the same as. -/
theorem IsKey.equals_eq_sameKey (ha : s.IsKey a) (hb : s.IsKey b) :
    s.equals a b = s.sameKey a b := ha.findsKey_eq hb 1

/-- Of keys that are apart a key is equal to the one that it is found at. -/
theorem Apart.equals_iff (h : s.Apart keys) (hkeys : ∀ k ∈ keys, s.IsKey k) (ha : s.IsKey a)
    (hfound : keys.findIdx? (s.sameKey a) = some i) (hj : j < keys.length) :
    s.equals a keys[j] = true ↔ j = i := by
  obtain ⟨hi, hsame, -⟩ := List.findIdx?_eq_some_iff_getElem.mp hfound
  have hki := hkeys _ (List.getElem_mem hi)
  have hkj := hkeys _ (List.getElem_mem hj)
  rw [← ha.equals_eq_sameKey hki] at hsame
  refine ⟨fun heq => ?_, fun hij => ?_⟩
  · by_contra hij
    have hback : s.equals keys[i] a = true := by
      rw [equals, equalsWithin_comm _ hki ha]
      exact hsame
    have hboth : s.equals keys[i] keys[j] = true := equalsWithin_trans _ hki ha hkj hback heq
    rw [h.equals_of_ne hkeys hi hj (Ne.symm hij)] at hboth
    cases hboth
  · subst hij
    exact hsame

end Store

/-! ### Steps to a slot -/

/-- The step is an index from the end of a sequence. -/
def Form.countsFromEnd (st : Step) : Form → Bool
  | .dict _ => false
  | .object _ _ _ => false
  | _ => st.index?.any (· < 0)

section Steps

variable {accessor : Accessor}

theorem equals_int (s : Store) (k l : Int) : s.equals (.int k) (.int l) = (k == l) := by
  rw [Store.equals, Store.comparisonDepth]
  show s.equalsWithin _ false (.scalar (.int k)) (.scalar (.int l)) = (k == l)
  rw [Store.equalsWithin]
  rfl

/-- An index from the start is the position that it names. -/
theorem eq_natCast_iff {k : Int} (hk : resolveIndex? n k = some i) (j : Nat) :
    k = j ↔ j = i ∧ ¬k < 0 := by
  rw [resolveIndex?] at hk
  split at hk
  · have hi : (fromStart n k).toNat = i := Option.some.inj hk
    unfold fromStart at *
    omega
  · cases hk

/-- **A step to a slot is the step that the container has**, unless it counts from the end. -/
theorem Form.Suits.sameChild_label (hf : f.Suits s n) (hkeyed : f.Keyed s)
    (htakes : f.takesPatterns accessor = true) (hnames : f.Names s n st i) (hkey : st.HasKey s)
    (u : Store) (hj : j < n) :
    st.sameChild s (accessor.step u (f.label j)) = true ↔ j = i ∧ f.countsFromEnd st = false := by
  cases f with
  | dict keys =>
    obtain ⟨k, hst, hfound⟩ := hnames
    obtain ⟨rfl, hapart⟩ := hf
    have hk : s.IsKey k := by rcases hst with rfl | rfl <;> exact hkey
    have hiff := hapart.equals_iff hkeyed hk (hfound s (.refl s)) hj
    have hsame : st.sameChild s (accessor.step u ((Form.dict keys).label j)) =
        s.equals k keys[j] := by
      rw [Form.label, List.getD_eq_getElem _ _ hj]
      cases accessor with
      | attr => cases htakes
      | key => rcases hst with rfl | rfl <;> rfl
      | slot => rcases hst with rfl | rfl <;> rfl
    rw [hsame, hiff]
    exact (and_iff_left rfl).symm
  | object name names frozen =>
    obtain ⟨attr, rfl, hfound⟩ := hnames
    obtain ⟨rfl, hnodup⟩ := hf
    obtain ⟨hi, hattr, -⟩ := List.findIdx?_eq_some_iff_getElem.mp hfound
    rw [beq_iff_eq] at hattr
    have hsame : (Step.attr attr).sameChild s
        (accessor.step u ((Form.object name names frozen).label j)) = (attr == names[j]) := by
      rw [Form.label, List.getD_eq_getElem _ _ hj]
      cases accessor with
      | attr => rfl
      | _ => cases htakes
    have hslot : attr = names[j] ↔ j = i := by
      rw [← hattr]
      exact (List.getElem_inj hnodup).trans eq_comm
    rw [hsame, beq_iff_eq, hslot]
    exact (and_iff_left rfl).symm
  | _ =>
    -- The container counts from the start, so an index from the end is none of its steps.
    obtain ⟨k, hst, hindex⟩ := hnames
    have hsame : st.sameChild s (accessor.step u (.int j)) = (k == (j : Int)) := by
      rw [← equals_int s]
      cases accessor with
      | slot => rcases hst with rfl | rfl <;> rfl
      | _ => cases htakes
    have hcounts : st.index?.any (· < 0) = decide (k < 0) := by rcases hst with rfl | rfl <;> rfl
    show st.sameChild s (accessor.step u (.int j)) = true ↔ j = i ∧ st.index?.any (· < 0) = false
    rw [hsame, hcounts, beq_iff_eq, decide_eq_false_iff_not]
    exact eq_natCast_iff hindex j

end Steps

/-! ### Parts in slots -/

/-- The part is what a slot of the container holds, at a step that leads to it. -/
structure Form.Part (s : Store) (f : Form) (vs : List Value) (i : Nat) (p : Step × Value) :
    Prop where
  lt : i < vs.length
  names : f.Names s vs.length p.1 i
  key : p.1.HasKey s
  value : p.2 = vs.getD i .null

theorem Form.Part.retains {vs : List Value} {p : Step × Value} (hst : s.Retains t)
    (h : f.Part s vs i p) : f.Part t vs i p :=
  ⟨h.lt, h.names.retains hst, h.key.retains hst, h.value⟩

/-- The index that a literal names is one from the end. -/
def KeyPattern.countsFromEnd : KeyPattern → Bool
  | .literal (.int k) => k < 0
  | _ => false

/-- A list or a tuple, whose slots have indexes. -/
def Form.isSequence : Form → Bool
  | .list => true
  | .tuple => true
  | _ => false

/-- The parts in some slots, as the places that an access reports. -/
def Form.placesAt (s : Store) (accessor : Accessor) (vs : List Value) (f : Form) (is : List Nat) :
    List Found :=
  Context.placesOf (is.map fun i => (accessor.step s (f.label i), vs.getD i .null))

section Fill

variable {h : Handle} {vs : List Value} {accessor : Accessor} {key : KeyPattern}

/-- The parts among which an access selects are those in the slots. -/
theorem siblings_fill (hc : s.get? h = some (f.fill vs)) (hf : f.Suits s vs.length)
    (htakes : f.takesPatterns accessor = true) (key : KeyPattern) :
    siblings s accessor key (.ref h) =
      (List.range vs.length).map fun i => (accessor.step s (f.label i), vs.getD i .null) := by
  have hkind := Form.kind_of_fill hc
  have hslots (es : List (Value × Value)) (hes : es = f.labelled vs) :
      (es.map fun e => (accessor.step s e.1, e.2)) =
        (List.range vs.length).map fun i => (accessor.step s (f.label i), vs.getD i .null) := by
    rw [hes, Form.labelled, List.map_map]
    rfl
  cases f with
  | dict keys =>
    have hentries := hslots _ (entries_dict hc hf.1)
    cases accessor with
    | attr => cases htakes
    | key =>
      rw [siblings, Store.isKeyed, hkind]
      exact hentries
    | slot =>
      rw [siblings, Store.isKeyed, hkind]
      exact hentries
  | object name names frozen =>
    have hentries := hslots _ (entries_object hc hf.1)
    cases accessor with
    | attr =>
      rw [siblings, Store.isAttributed, hkind]
      exact hentries
    | _ => cases htakes
  | list =>
    have hnumbered := hslots _ (numbered_fill hc (.inl rfl))
    cases accessor with
    | slot =>
      rw [siblings, Store.isKeyed, Store.isIndexed, hkind]
      exact hnumbered
    | _ => cases htakes
  | tuple =>
    have hnumbered := hslots _ (numbered_fill hc (.inr rfl))
    cases accessor with
    | slot =>
      rw [siblings, Store.isKeyed, Store.isIndexed, hkind]
      exact hnumbered
    | _ => cases htakes

/-- The candidates of a sequence have indexes, which count from the end if the literal does. -/
theorem candidates_sequence (hc : s.get? h = some (f.fill vs)) (hf : f.isSequence = true)
    (htakes : f.takesPatterns accessor = true) :
    ∀ e ∈ (candidates accessor key (.ref h) s).1,
      ∃ k : Int, e.1 = .int k ∧ decide (k < 0) = key.countsFromEnd := by
  have hsequence : f = .list ∨ f = .tuple := by
    cases f with
    | list => exact .inl rfl
    | tuple => exact .inr rfl
    | _ => cases hf
  obtain ⟨hkeyed, hindexed, -, -⟩ := sequence_of_fill hc hsequence
  have hslot : accessor = .slot := by
    rcases hsequence with rfl | rfl <;> cases accessor <;> first | rfl | cases htakes
  by_cases hpattern : key.isPattern = true
  · intro e he
    have hsuits : f.Suits s vs.length := by rcases hsequence with rfl | rfl <;> trivial
    rw [candidates_pattern hpattern hc hsuits] at he
    obtain ⟨i, -, rfl⟩ := List.mem_map.mp he
    refine ⟨i, by rcases hsequence with rfl | rfl <;> rfl, ?_⟩
    -- A pattern is matched with the positions, which count from the start.
    have hkey : key.countsFromEnd = false := by
      cases key with
      | literal l => cases hpattern
      | _ => rfl
    rw [hkey, decide_eq_false_iff_not]
    exact Int.not_lt.mpr (Int.natCast_nonneg i)
  · cases key with
    | wildcard => exact absurd rfl hpattern
    | regex re => exact absurd rfl hpattern
    | literal l =>
      intro e he
      by_cases hint : ∃ k : Int, l = .int k
      · obtain ⟨k, rfl⟩ := hint
        rw [candidates_int (by rw [hslot]; decide) hindexed] at he
        obtain ⟨v, -, rfl⟩ := Option.map_eq_some_iff.mp (Option.mem_toList.mp he)
        exact ⟨k, rfl, rfl⟩
      · have hnone := candidates_of_no_index (l := l) (by rw [hslot]; decide : accessor ≠ .attr)
          hkeyed hindexed fun k hk => hint ⟨k, hk⟩
        rw [hnone] at he
        cases he

end Fill

namespace Context

open Eval (Yields)

variable {ctx : Context} {h : Handle} {vs : List Value} {accessor : Accessor} {key : KeyPattern}

/-- What an access selects are parts in slots. -/
theorem items_slotParts (hreg : ctx.registry.Grows) (hkey : key.HasNoDouble)
    (htakes : f.takesPatterns accessor = true) (filter : Option Filter) (first : Bool)
    (hc : s.get? h = some (f.fill vs)) (hf : f.Suits s vs.length) (hkeyed : f.Keyed s) :
    (ctx.items (.access accessor key filter first) (.ref h)).Yields s fun found t =>
      ∀ p ∈ found, ∃ i, f.Part t vs i p ∧
        f.countsFromEnd p.1 = (f.isSequence && key.countsFromEnd) := by
  obtain ⟨label, s₁, hraw, hgrows, hpicks⟩ := candidates_fill accessor hkey hc hf hkeyed
  have hindex (hsequence : f.isSequence = true) :
      ∀ e ∈ (candidates accessor key (.ref h) s).1,
        ∃ k : Int, e.1 = .int k ∧ decide (k < 0) = key.countsFromEnd :=
    candidates_sequence hc hsequence htakes
  have hcandidates : (liftM (candidates accessor key (.ref h)) : Eval _).Yields s fun raw t =>
      raw = (f.slots s accessor key vs.length).map (fun i => (label i, vs.getD i .null)) ∧
        t = s₁ :=
    .lift (candidates_grows accessor key (.ref h) s) (by rw [hraw]; exact ⟨rfl, rfl⟩)
  rw [items]
  refine hcandidates.bind fun raw t _ hrun => ?_
  obtain ⟨rfl, rfl⟩ := hrun
  -- the filter and the mark for the first part only leave parts out, so slots stay slots
  refine (filterItems_sublist hreg filter Prod.snd _ t).bind fun kept u htu hkept => ?_
  refine (Yields.store rfl).bind (Q := fun r w => r = w) fun r w huw hr => .pure fun p hp => ?_
  obtain ⟨part, hpart, rfl⟩ := List.mem_map.mp hp
  have hmem := hkept.subset ((firstOnly_sublist first kept).subset hpart)
  obtain ⟨i, hi, rfl⟩ := List.mem_map.mp hmem
  obtain ⟨hlt, hnames⟩ := (hpicks r).names i hi
  have hpart : f.Part t vs i (accessor.step r (label i), vs.getD i .null) :=
    ⟨hlt, hnames, (hpicks r).keys i hi, rfl⟩
  refine ⟨i, hpart.retains (htu.trans huw).retains, ?_⟩
  rw [hraw] at hindex
  cases f with
  | dict keys => rfl
  | object name names frozen => rfl
  | _ =>
    obtain ⟨k, hk, hcounts⟩ := hindex rfl _ hmem
    have hstep : (accessor.step r (label i)).index?.any (· < 0) = decide (k < 0) := by
      rw [show label i = .int k from hk]
      cases accessor with
      | slot => rfl
      | _ => cases htakes
    exact hstep.trans (hcounts.trans (Bool.true_and _).symm)

/-! ### Groups -/

/-- The branches of a group begin with accesses of one kind, whose literals have no doubles in them
and whose keys satisfy a predicate. -/
structure Accesses (accessor : Accessor) (P : KeyPattern → Prop) (branches : List Branch) :
    Prop where
  nonempty : Branch.leaders branches ≠ []
  access : ∀ seg ∈ Branch.leaders branches, ∃ key filter first,
    seg = .access accessor key filter first ∧ key.HasNoDouble ∧ P key

variable {P : KeyPattern → Prop} {branches : List Branch} {found : List (List (Step × Value))}

/-- What the segments of a group select are parts in slots. -/
theorem leaders_slotParts (hreg : ctx.registry.Grows) (hinner : Accesses accessor P branches)
    (htakes : f.takesPatterns accessor = true) (hc : s.get? h = some (f.fill vs))
    (hf : f.Suits s vs.length) (hkeyed : f.Keyed s)
    (hfound : (Branch.leaders branches).mapM (fun seg => ctx.items seg (.ref h)) s =
      (.ok found, t)) :
    s.GrowsTo t ∧ ∀ p ∈ found.flatten, ∃ i key, f.Part t vs i p ∧ P key ∧
      f.countsFromEnd p.1 = (f.isSequence && key.countsFromEnd) := by
  have hselect : ∀ seg ∈ Branch.leaders branches, ∀ r, s.GrowsTo r →
      (ctx.items seg (.ref h)).Yields r fun parts u => ∀ p ∈ parts, ∃ i key, f.Part u vs i p ∧
        P key ∧ f.countsFromEnd p.1 = (f.isSequence && key.countsFromEnd) := by
    intro seg hseg r hr
    obtain ⟨key, filter, first, rfl, hkey, hP⟩ := hinner.access seg hseg
    refine (items_slotParts hreg hkey htakes filter first (hr h _ hc) (hf.retains hr.retains)
      (hkeyed.retains hr.retains)).mono fun parts u _ hparts p hp => ?_
    obtain ⟨i, hpart, hcounts⟩ := hparts p hp
    exact ⟨i, key, hpart, hP, hcounts⟩
  have hall := Yields.mapM (fun parts u w huw hparts p hp => by
    obtain ⟨i, key, hpart, hP, hcounts⟩ := hparts p hp
    exact ⟨i, key, hpart.retains huw.retains, hP, hcounts⟩) _ hselect
  have hgrows := hall.grows
  have hanswer := hall.answer found (by rw [hfound])
  rw [hfound] at hgrows hanswer
  refine ⟨hgrows, fun p hp => ?_⟩
  obtain ⟨parts, hparts, hp⟩ := List.mem_flatten.mp hp
  exact hanswer parts hparts p hp

/-- A complement takes the parts among which its first segment selects, without those that a segment
selects. -/
theorem complement_eq {seg : Segment} {segs : List Segment} {node : Value}
    (hleaders : Branch.leaders branches = seg :: segs)
    (hfound : (Branch.leaders branches).mapM (fun seg => ctx.items seg node) s = (.ok found, t)) :
    ctx.complement branches node s = (.ok ((seg.universe t node).filter fun part =>
      !found.flatten.any fun p => p.1.sameChild t part.1), t) := by
  rw [hleaders] at hfound
  rw [complement, hleaders]
  dsimp only
  rw [Eval.run_bind_of_ok hfound, Eval.run_bind_of_ok (Eval.run_store t)]
  rfl

/-- **What a complement selects**: the slots that no segment selects, and those that are selected by
an index from the end alone. -/
theorem complement_slots (hreg : ctx.registry.Grows) (hinner : Accesses accessor P branches)
    (htakes : f.takesPatterns accessor = true) (hc : s.get? h = some (f.fill vs))
    (hf : f.Suits s vs.length) (hkeyed : f.Keyed s)
    (hfound : (Branch.leaders branches).mapM (fun seg => ctx.items seg (.ref h)) s =
      (.ok found, t)) :
    ∃ left : List Nat, left.Pairwise (· < ·) ∧
      (∀ j, j ∈ left ↔ j < vs.length ∧
        ∀ p ∈ found.flatten, f.Part t vs j p → f.countsFromEnd p.1 = true) ∧
      ctx.complement branches (.ref h) s =
        (.ok (left.map fun j => (accessor.step t (f.label j), vs.getD j .null)), t) := by
  obtain ⟨hgrows, hparts⟩ := leaders_slotParts hreg hinner htakes hc hf hkeyed hfound
  have hc' := hgrows h _ hc
  have hf' := hf.retains hgrows.retains
  have hkeyed' := hkeyed.retains hgrows.retains
  let outside := fun j => !found.flatten.any fun p =>
    p.1.sameChild t (accessor.step t (f.label j))
  refine ⟨(List.range vs.length).filter outside, List.pairwise_lt_range.sublist List.filter_sublist,
    fun j => ?_, ?_⟩
  · rw [List.mem_filter, List.mem_range]
    refine and_congr_right fun hj => ?_
    have hout : outside j = true ↔ ∀ p ∈ found.flatten,
        ¬p.1.sameChild t (accessor.step t (f.label j)) = true := by
      simp only [outside, Bool.not_eq_true', List.any_eq_false]
    rw [hout]
    refine forall₂_congr fun p hp => ?_
    obtain ⟨i, -, hpart, -⟩ := hparts p hp
    -- The slot of a part is known from its step.
    have hiff (k : Nat) (hpart : f.Part t vs k p) :=
      hf'.sameChild_label hkeyed' htakes hpart.names hpart.key t hj
    constructor
    · intro hnot hpart
      by_contra hcounts
      exact hnot ((hiff j hpart).mpr ⟨rfl, Bool.eq_false_of_not_eq_true hcounts⟩)
    · intro himp hsame
      obtain ⟨rfl, hcounts⟩ := (hiff i hpart).mp hsame
      rw [himp hpart] at hcounts
      cases hcounts
  · cases hleaders : Branch.leaders branches with
    | nil => exact absurd hleaders hinner.nonempty
    | cons seg segs =>
      obtain ⟨key, filter, first, rfl, -⟩ :=
        hinner.access seg (by rw [hleaders]; exact List.mem_cons_self ..)
      rw [complement_eq hleaders hfound, Segment.universe, siblings_fill hc' hf' htakes,
        List.filter_map]
      rfl

/-- Reading a complement reports the parts that it selects. -/
theorem find_complement_of_eq {node : Value} {parts : List (Step × Value)}
    (hparts : ctx.complement branches node s = (.ok parts, t)) :
    ctx.find [.group .not branches false] node s = (.ok (placesOf parts), t) := by
  have hwalk : ctx.walkPath [.group .not branches false] Walk.done [] node s =
      (.ok ⟨placesOf parts, false⟩, t) := by
    rw [walkPath, walkPath, walkSegment]
    dsimp only
    rw [Eval.run_bind_of_ok hparts, Eval.run_bind_of_ok (Walk.each_done t _)]
    rfl
  rw [find, Eval.run_bind_of_ok hwalk]
  rfl

/-- **What a complement reports**: the slots that no segment selects, and those that are selected by
indexes from the end alone. -/
theorem find_complement (hreg : ctx.registry.Grows) (hinner : Accesses accessor P branches)
    (htakes : f.takesPatterns accessor = true) (hc : s.get? h = some (f.fill vs))
    (hf : f.Suits s vs.length) (hkeyed : f.Keyed s)
    (hfound : (Branch.leaders branches).mapM (fun seg => ctx.items seg (.ref h)) s =
      (.ok found, t)) :
    ∃ left : List Nat, left.Pairwise (· < ·) ∧
      (∀ j, j ∈ left ↔ j < vs.length ∧
        ∀ p ∈ found.flatten, f.Part t vs j p → f.countsFromEnd p.1 = true) ∧
      ctx.find [.group .not branches false] (.ref h) s =
        (.ok (f.placesAt t accessor vs left), t) := by
  obtain ⟨left, hascending, hleft, hcomplement⟩ :=
    complement_slots hreg hinner htakes hc hf hkeyed hfound
  exact ⟨left, hascending, hleft, find_complement_of_eq hcomplement⟩

/-- **Without indexes from the end the complement is what is not selected**: each selected part is in
a slot, and the slots that are reported are the others, in the order of the container. -/
theorem find_complement_partition (hreg : ctx.registry.Grows)
    (hinner : Accesses accessor (fun key => (f.isSequence && key.countsFromEnd) = false) branches)
    (htakes : f.takesPatterns accessor = true) (hc : s.get? h = some (f.fill vs))
    (hf : f.Suits s vs.length) (hkeyed : f.Keyed s)
    (hfound : (Branch.leaders branches).mapM (fun seg => ctx.items seg (.ref h)) s =
      (.ok found, t)) :
    (∀ p ∈ found.flatten, ∃ i, f.Part t vs i p) ∧
      ∃ left : List Nat, left.Pairwise (· < ·) ∧
        (∀ j, j ∈ left ↔ j < vs.length ∧ ∀ p ∈ found.flatten, ¬f.Part t vs j p) ∧
        ctx.find [.group .not branches false] (.ref h) s =
          (.ok (f.placesAt t accessor vs left), t) := by
  obtain ⟨-, hparts⟩ := leaders_slotParts hreg hinner htakes hc hf hkeyed hfound
  obtain ⟨left, hascending, hleft, hfind⟩ := find_complement hreg hinner htakes hc hf hkeyed hfound
  refine ⟨fun p hp => ?_, left, hascending, fun j => ?_, hfind⟩
  · obtain ⟨i, -, hpart, -⟩ := hparts p hp
    exact ⟨i, hpart⟩
  · rw [hleft]
    refine and_congr_right fun _ => forall₂_congr fun p hp => ?_
    obtain ⟨-, key, -, hkey, hcounts⟩ := hparts p hp
    rw [hcounts, hkey]
    exact imp_congr_right fun _ => iff_of_false Bool.false_ne_true id

/-- **Indexes from the end leave everything in the complement** of a list or a tuple. -/
theorem find_complement_fromEnd (hreg : ctx.registry.Grows)
    (hinner : Accesses accessor (fun key => key.countsFromEnd = true) branches)
    (htakes : f.takesPatterns accessor = true) (hsequence : f.isSequence = true)
    (hc : s.get? h = some (f.fill vs)) (hf : f.Suits s vs.length) (hkeyed : f.Keyed s)
    (hfound : (Branch.leaders branches).mapM (fun seg => ctx.items seg (.ref h)) s =
      (.ok found, t)) :
    ctx.find [.group .not branches false] (.ref h) s =
      (.ok (f.placesAt t accessor vs (List.range vs.length)), t) := by
  obtain ⟨-, hparts⟩ := leaders_slotParts hreg hinner htakes hc hf hkeyed hfound
  obtain ⟨left, hascending, hleft, hfind⟩ := find_complement hreg hinner htakes hc hf hkeyed hfound
  have hall (j : Nat) : j ∈ left ↔ j ∈ List.range vs.length := by
    rw [hleft, List.mem_range]
    refine and_iff_left fun p hp _ => ?_
    obtain ⟨-, key, -, hkey, hcounts⟩ := hparts p hp
    rw [hcounts, hsequence, hkey]
    rfl
  have hrange : left = List.range vs.length :=
    hascending.eq_of_mem_iff List.pairwise_lt_range hall
  rw [hfind, hrange]

end Context

end DottedPath
