import DottedPath.Proofs.Evaluate.Alike
import DottedPath.Proofs.Evaluate.Items

/-!
# Steps that can be taken again

A step from a value to a part of it is real if the segment that it is turned into selects this part
alone, in the value or one like it, now and in every later store.  The lemmas here say which steps
are real: indexes of sequences, keys and attributes that are there, slices, and the steps that stay
where they are.  A location of real steps leads back to what it was reported for
(`walkPath_of_leads`).
-/

namespace DottedPath

namespace Step

/-- Goes nowhere. -/
def stays : Step → Bool
  | root => true
  | invert => true
  | _ => false

/-- Goes to a new sequence of parts. -/
def isSlice : Step → Bool
  | slice _ => true
  | _ => false

end Step

/-- A step and its part have been found again from a value like the first. -/
structure Retaken (t : Store) (step step' : Step) (node child node' child' : Value) : Prop where
  same : ∀ u, t.GrowsTo u → step.same u step' = true
  alike : t.Alike child child'
  exact : step.isSlice = false → (step.stays = true → node' = node) → child' = child

/-- The step leads to the part, and its segment leads there again. -/
def Context.Real (ctx : Context) (s : Store) (node : Value) (step : Step) (child : Value) : Prop :=
  ∃ seg, (∀ t, s.GrowsTo t → step.segment t = seg) ∧
    ∀ t node', s.GrowsTo t → t.Alike node node' →
      ∃ step' child' u, ctx.items seg node' t = (.ok [(step', child')], u) ∧ t.GrowsTo u ∧
        Retaken u step step' node child node' child'

namespace Context

variable {ctx : Context} {s t : Store} {node child : Value}

theorem Real.grows {step : Step} (hst : s.GrowsTo t) (h : ctx.Real s node step child) :
    ctx.Real t node step child := by
  obtain ⟨seg, hseg, hagain⟩ := h
  exact ⟨seg, fun u htu => hseg u (hst.trans htu), fun u node' htu => hagain u node' (hst.trans htu)⟩

/-! ### Accesses -/

/-- A literal selects its only candidate. -/
theorem items_literal {accessor : Accessor} {l : Literal} {k : Value}
    (hcandidates : candidates accessor (.literal l) node s = ([(k, child)], t)) :
    ctx.items (.literal accessor l) node s = (.ok [(accessor.step t k, child)], t) :=
  ctx.items_of_candidates hcandidates

/-- A step is real if its literal has the part as its only candidate. -/
theorem Real.of_candidates {accessor : Accessor} {l : Literal} {step : Step}
    (hseg : ∀ t, s.GrowsTo t → step.segment t = .literal accessor l)
    (hcandidates : ∀ t node', s.GrowsTo t → t.Alike node node' →
      ∃ k u, candidates accessor (.literal l) node' t = ([(k, child)], u) ∧ t.GrowsTo u ∧
        ∀ u', u.GrowsTo u' → step.same u' (accessor.step u k) = true) :
    ctx.Real s node step child := by
  refine ⟨.literal accessor l, hseg, fun t node' hst halike => ?_⟩
  obtain ⟨k, u, hrun, htu, hsame⟩ := hcandidates t node' hst halike
  exact ⟨accessor.step u k, child, u, items_literal hrun, htu, hsame, .refl _ _, fun _ _ => rfl⟩

theorem keyLiteral_of_shows {l : Literal} {k : Value} (h : l.Shows s k) : s.keyLiteral k = l := by
  rw [Store.keyLiteral, Literal.ofValue?_of_shows h]
  rfl

/-- Two values of a literal that is equal to itself are equal. -/
theorem equals_of_shows {l : Literal} {a b : Value} (ha : l.Shows s a) (hb : l.Shows s b)
    (hself : l.sameAs false l = true) : s.equals a b = true := by
  rw [Store.equals, Literal.equalsWithin_of_shows l l ha hb hself ha.height_lt, hself]

theorem shows_int (s : Store) (i : Int) : (Literal.int i).Shows s (.int i) := by
  show (Literal.scalar (.int i)).Shows s (.scalar (.int i))
  rw [Literal.Shows]

theorem sameAs_int (i : Int) : (Literal.int i).sameAs false (.int i) = true := by
  show (Literal.scalar (.int i)).sameAs false (.scalar (.int i)) = true
  rw [Literal.sameAs]
  exact beq_self_eq_true i

/-- The candidate of an index is the element there. -/
theorem candidates_index (accessor : Accessor) (haccessor : accessor ≠ .attr) {i : Int}
    (he : s.elementAt? node i = some child) :
    candidates accessor (.literal (.int i)) node s = ([(.int i, child)], s) := by
  rw [candidates_int haccessor (Store.isIndexed_of_elementAt? he), he]
  rfl

/-- An index leads to the element there, as a key or as a slot. -/
theorem real_index {i : Int} (he : s.elementAt? node i = some child) :
    ctx.Real s node (.key (.int i)) child ∧ ctx.Real s node (.slot (.int i)) child := by
  have hi := Store.isIndexed_of_elementAt? he
  have hagain : ∀ t node', s.GrowsTo t → t.Alike node node' →
      t.elementAt? node' i = some child := fun t node' hst halike => by
    have hsame := (Store.SameSequence.of_grows hst (Store.holds_of_isIndexed hi)).trans
      halike.sameSequence
    rw [← hsame.elementAt?, he]
  have hequals : ∀ u : Store, u.equals (.int i) (.int i) = true := fun u =>
    equals_of_shows (shows_int u i) (shows_int u i) (sameAs_int i)
  constructor
  · refine .of_candidates (l := .int i) (fun t _ => ?_) fun t node' hst halike =>
      ⟨.int i, t, candidates_index .key (by decide) (hagain t node' hst halike), .refl t,
        ?_⟩
    · rw [Step.segment, keyLiteral_of_shows (shows_int t i)]
    · exact fun u _ => hequals u
  · refine .of_candidates (l := .int i) (fun t _ => ?_) fun t node' hst halike =>
      ⟨.int i, t, candidates_index .slot (by decide) (hagain t node' hst halike), .refl t,
        ?_⟩
    · rw [Step.segment, keyLiteral_of_shows (shows_int t i)]
    · exact fun u _ => hequals u

/-! ### Keys of dicts -/

section Keys

variable {es : List (Value × Value)} {l : Literal} {k : Value}

/-- A stored key is found by the values of a literal as it is by their literal. -/
theorem findsKey_of_shows {m : Literal} {stored : Value} (hk : l.Shows s k)
    (hstored : m.Shows s stored) (hself : ∀ asKey, m.sameAs asKey m = true) (count : Nat) :
    s.findsKey count k stored = l.sameAs (count != 1) m :=
  Literal.equalsWithin_of_shows l m hk hstored (hself _) hk.height_lt

/-- What a value of a literal finds in a dict, every other one finds later on. -/
theorem lookup?_of_shows (hkeys : ∀ e ∈ es, s.IsKey e.1) (hk : l.Shows s k) (hst : s.GrowsTo t)
    {k' : Value} (hk' : l.Shows t k') : t.lookup? es k' = s.lookup? es k := by
  rw [Store.lookup?, Store.lookup?]
  congr 1
  refine List.find?_congr fun e he => ?_
  obtain ⟨m, hm, hself⟩ := (hkeys e he).shows
  show t.findsKey es.length k' e.1 = s.findsKey es.length k e.1
  rw [findsKey_of_shows hk hm hself, findsKey_of_shows hk' (hm.grows hst) hself]

/-- What finds a key is equal to itself. -/
theorem sameAs_self_of_lookup? (hkeys : ∀ e ∈ es, s.IsKey e.1) (hk : l.Shows s k)
    (hfound : s.lookup? es k = some child) : l.sameAs false l = true := by
  rw [Store.lookup?, Option.map_eq_some_iff] at hfound
  obtain ⟨e, hfind, -⟩ := hfound
  obtain ⟨m, hm, hself⟩ := (hkeys e (List.mem_of_find?_eq_some hfind)).shows
  have hsame : s.findsKey es.length k e.1 = true := by
    have := List.find?_some hfind
    exact this
  rw [findsKey_of_shows hk hm hself] at hsame
  exact Literal.sameAs_self l m hsame

/-- The key of an entry finds this entry: the keys before it are other ones. -/
theorem lookup?_of_mem (hkeys : ∀ e ∈ es, s.IsKey e.1)
    (hdistinct : es.Pairwise fun a b => s.sameKey b.1 a.1 = false) (hmem : (k, child) ∈ es) :
    s.lookup? es k = some child := by
  obtain ⟨before, after, rfl⟩ := List.append_of_mem hmem
  obtain ⟨l, hl, hself⟩ := (hkeys _ hmem).shows
  have hbefore : ∀ e ∈ before, s.findsKey (before ++ (k, child) :: after).length k e.1 = false := by
    intro e he
    rw [List.pairwise_append] at hdistinct
    have hother := hdistinct.2.2 e he (k, child) (List.mem_cons_self ..)
    have hcount : (before ++ (k, child) :: after).length ≠ 1 := by
      have := List.length_pos_of_mem he
      rw [List.length_append, List.length_cons]
      omega
    rw [Store.findsKey, bne_iff_ne.mpr hcount]
    exact hother
  have hhere : s.findsKey (before ++ (k, child) :: after).length k k = true := by
    rw [findsKey_of_shows hl hl hself, hself]
  rw [Store.lookup?, List.find?_append, List.find?_eq_none.mpr, Option.none_or,
    List.find?_cons_of_pos (by exact hhere)]
  · rfl
  · intro e he
    rw [Bool.not_eq_true]
    exact hbefore e he

/-- The candidate of a literal key is the value that the dict has for it. -/
theorem candidates_entry (accessor : Accessor) (haccessor : accessor ≠ .attr) {h : Handle}
    (hd : s.get? h = some (.dict es))
    (hfound : ∀ t k, s.GrowsTo t → l.Shows t k → t.lookup? es k = some child) :
    candidates accessor (.literal l) (.ref h) s =
      ([((l.toValue s).1, child)], (l.toValue s).2) := by
  obtain ⟨hgrows, hshows⟩ := l.toValue_shows s
  have hkeyed := Store.isKeyed_of_get? hd
  have hget : (l.toValue s).2.dictGet? (.ref h) (l.toValue s).1 = some child := by
    have hc : (l.toValue s).2.container? (.ref h) = some (.dict es) := hgrows h _ hd
    rw [Store.dictGet?, hc]
    exact hfound _ _ hgrows hshows
  have hrun : keyedCandidates (.literal l) (.ref h) s =
      ([((l.toValue s).1, child)], (l.toValue s).2) := by
    rw [keyedCandidates_literal hkeyed, hget]
    rfl
  cases accessor with
  | attr => exact absurd rfl haccessor
  | key => exact hrun
  | slot =>
    have hi : s.isIndexed (.ref h) = false := by
      rw [Store.isIndexed, Store.kind, hd]
      rfl
    exact (slotCandidates_of_isIndexed_eq_false (.literal l) hi).trans hrun

/-- A key that finds an entry leads to its value, as a key or as a slot. -/
theorem real_entry {h : Handle} (hd : s.get? h = some (.dict es)) (hkeys : ∀ e ∈ es, s.IsKey e.1)
    (hk : l.Shows s k) (hfound : s.lookup? es k = some child) :
    ctx.Real s (.ref h) (.key k) child ∧ ctx.Real s (.ref h) (.slot k) child := by
  have hself := sameAs_self_of_lookup? hkeys hk hfound
  have hcandidates : ∀ accessor, accessor ≠ .attr → ∀ t node', s.GrowsTo t →
      t.Alike (.ref h) node' → candidates accessor (.literal l) node' t =
        ([((l.toValue t).1, child)], (l.toValue t).2) := by
    intro accessor haccessor t node' hst halike
    have hc : t.container? (.ref h) = some (.dict es) := hst h _ hd
    rw [halike.eq_of_container? hc (by rintro ⟨⟩) (by rintro ⟨⟩)]
    refine candidates_entry accessor haccessor (hst h _ hd) fun u k' htu hk' => ?_
    rw [lookup?_of_shows hkeys hk (hst.trans htu) hk', hfound]
  have hequals : ∀ t u : Store, s.GrowsTo t → (l.toValue t).2.GrowsTo u →
      u.equals k (l.toValue t).1 = true := by
    intro t u hst htu
    obtain ⟨hgrows, hshows⟩ := l.toValue_shows t
    exact equals_of_shows (hk.grows (hst.trans (hgrows.trans htu))) (hshows.grows htu) hself
  constructor
  · refine .of_candidates (l := l) (fun t hst => ?_) fun t node' hst halike =>
      ⟨_, _, hcandidates .key (by decide) t node' hst halike, (l.toValue_shows t).1, ?_⟩
    · rw [Step.segment, keyLiteral_of_shows (hk.grows hst)]
    · exact fun u hu => hequals t u hst hu
  · refine .of_candidates (l := l) (fun t hst => ?_) fun t node' hst halike =>
      ⟨_, _, hcandidates .slot (by decide) t node' hst halike, (l.toValue_shows t).1, ?_⟩
    · rw [Step.segment, keyLiteral_of_shows (hk.grows hst)]
    · exact fun u hu => hequals t u hst hu

end Keys

/-! ### Attributes -/

/-- The candidate of a literal name is the value of the attribute. -/
theorem candidates_attr {h : Handle} {name : String} {attrs : List (String × Value)}
    {frozen : Bool} {attr : String} (ho : s.get? h = some (.object name attrs frozen))
    (hfound : attrs.lookup attr = some child) :
    candidates .attr (.literal (.str attr)) (.ref h) s = ([(.str attr, child)], s) := by
  have hc : s.container? (.ref h) = some (.object name attrs frozen) := ho
  have hattr : s.isAttributed (.ref h) = true := by
    rw [Store.isAttributed, Store.kind, ho]
    rfl
  rw [candidates, attrCandidates, StoreM.run_bind, StoreM.run_get, hattr, if_pos rfl]
  show (((s.attrGet? (.ref h) attr).map (Value.str attr, ·)).toList, s) = _
  rw [Store.attrGet?, hc]
  show (((attrs.lookup attr).map (Value.str attr, ·)).toList, s) = _
  rw [hfound]
  rfl

/-- The name of an attribute leads to its value. -/
theorem real_attr {h : Handle} {name : String} {attrs : List (String × Value)} {frozen : Bool}
    {attr : String} (ho : s.get? h = some (.object name attrs frozen))
    (hfound : attrs.lookup attr = some child) : ctx.Real s (.ref h) (.attr attr) child := by
  refine .of_candidates (l := .str attr) (fun t _ => rfl) fun t node' hst halike =>
    ⟨.str attr, t, ?_, .refl t, fun u _ => beq_self_eq_true attr⟩
  have hc : t.container? (.ref h) = some (.object name attrs frozen) := hst h _ ho
  rw [halike.eq_of_container? hc (by rintro ⟨⟩) (by rintro ⟨⟩)]
  exact candidates_attr (hst h _ ho) hfound

/-! ### Slices -/

/-- Steps that stay lead to the value itself. -/
theorem real_stays {step : Step} (hstep : step.stays = true) : ctx.Real s node step node := by
  cases step with
  | root =>
    exact ⟨.root, fun _ _ => rfl, fun t node' _ halike =>
      ⟨.root, node', t, rfl, .refl t, fun _ _ => rfl, halike, fun _ h => h rfl⟩⟩
  | invert =>
    exact ⟨.invert, fun _ _ => rfl, fun t node' _ halike =>
      ⟨.invert, node', t, rfl, .refl t, fun _ _ => rfl, halike, fun _ h => h rfl⟩⟩
  | _ => cases hstep

theorem items_slice {range : SliceRange} (ctx : Context) (hi : s.isIndexed node = true) :
    ctx.items (.slice range) node s =
      (.ok [(.slice range, (sliceOf range node s).1)], (sliceOf range node s).2) := by
  rw [items, Eval.run_bind_of_ok (Eval.run_store s), hi, if_pos rfl,
    Eval.run_bind_of_ok (Eval.run_lift _ s)]
  rfl

/-- A slice is real if, when it is taken again from a like value, it is like itself. -/
theorem Real.of_slice {range : SliceRange} (hi : s.isIndexed node = true)
    (hagain : ∀ t node', s.GrowsTo t → t.Alike node node' →
      t.GrowsTo (sliceOf range node' t).2 ∧
        (sliceOf range node' t).2.Alike child (sliceOf range node' t).1) :
    ctx.Real s node (.slice range) child := by
  refine ⟨.slice range, fun _ _ => rfl, fun t node' hst halike => ?_⟩
  have hsame := (Store.SameSequence.of_grows hst (Store.holds_of_isIndexed hi)).trans
    halike.sameSequence
  obtain ⟨hgrows, hchild⟩ := hagain t node' hst halike
  exact ⟨_, _, _, ctx.items_slice (by rw [← hsame.isIndexed, hi]), hgrows,
    fun _ _ => beq_self_eq_true range, hchild, fun h => by cases h⟩

/-- A slice leads to a sequence like the one that was taken. -/
theorem real_slice {range : SliceRange} (hi : s.isIndexed node = true) :
    ctx.Real (sliceOf range node s).2 node (.slice range) (sliceOf range node s).1 := by
  have hgrows := sliceOf_grows range node s
  have hi' : (sliceOf range node s).2.isIndexed node = true := by
    rw [← (Store.SameSequence.of_grows hgrows (Store.holds_of_isIndexed hi)).isIndexed, hi]
  refine .of_slice hi' fun t node' hst halike => ⟨sliceOf_grows range node' t, ?_⟩
  rcases Store.cases_of_isIndexed hi with ⟨text, rfl⟩ | ⟨bs, rfl⟩ | ⟨h, xs, rfl, hc | hc⟩
  · rw [show node' = .str text from halike.eq_of_scalar, sliceOf_str range text s t]
    exact .refl _ _
  · rw [show node' = .bytes bs from halike.eq_of_scalar, sliceOf_bytes range bs s t]
    exact .refl _ _
  · have hslice := sliceOf_list range (show s.container? (.ref h) = some (.list xs) from hc)
    have hslice' := sliceOf_list range (halike.container?_eq (hst h _ (hgrows h _ hc)))
    rw [hslice] at hst
    rw [hslice, hslice']
    exact .inr ⟨_, .inl rfl, Store.GrowsTo.push t _ _ _ (hst _ _ (Store.get?_push_next s _)),
      Store.get?_push_next t _⟩
  · have hslice := sliceOf_tuple range (show s.container? (.ref h) = some (.tuple xs) from hc)
    have hslice' := sliceOf_tuple range (halike.container?_eq (hst h _ (hgrows h _ hc)))
    rw [hslice] at hst
    rw [hslice, hslice']
    exact .inr ⟨_, .inr rfl, Store.GrowsTo.push t _ _ _ (hst _ _ (Store.get?_push_next s _)),
      Store.get?_push_next t _⟩

/-! ### Locations -/

/-- The location leads from a value to another one in real steps. -/
inductive Leads (ctx : Context) (s : Store) : Value → Location → Value → Prop where
  | nil {v} : Leads ctx s v [] v
  | cons {node step child rest v} (real : ctx.Real s node step child)
    (more : Leads ctx s child rest v) : Leads ctx s node (step :: rest) v

namespace Leads

variable {root v w : Value} {l m : Location}

theorem grows (hst : s.GrowsTo t) (h : Leads ctx s root l v) : Leads ctx t root l v := by
  induction h with
  | nil => exact .nil
  | cons real _ ih => exact .cons (real.grows hst) ih

theorem append (h : Leads ctx s root l v) (h' : Leads ctx s v m w) :
    Leads ctx s root (l ++ m) w := by
  induction h with
  | nil => exact h'
  | cons real _ ih => exact .cons real (ih h')

theorem single {step : Step} (h : ctx.Real s node step child) : Leads ctx s node [step] child :=
  .cons h .nil

end Leads

end Context

namespace Location

/-- The last step that goes anywhere is a slice. -/
def endsInSlice (l : Location) : Bool :=
  (l.filter fun step => !step.stays).getLast?.any Step.isSlice

/-- Whether a location ends in a slice if what is before it does so as `sliced` says. -/
def endsInSliceFrom (sliced : Bool) : Location → Bool
  | [] => sliced
  | step :: rest => endsInSliceFrom (step.isSlice || sliced && step.stays) rest

theorem endsInSliceFrom_eq (l : Location) : ∀ sliced, l.endsInSliceFrom sliced =
    ((l.filter fun step => !step.stays).getLast?.map Step.isSlice).getD sliced := by
  induction l with
  | nil => exact fun sliced => rfl
  | cons step rest ih =>
    intro sliced
    rw [endsInSliceFrom, ih]
    by_cases hstays : step.stays = true
    · have hslice : step.isSlice = false := by
        cases step <;> first | rfl | cases hstays
      rw [List.filter_cons_of_neg (by rw [hstays]; decide), hstays, hslice, Bool.false_or,
        Bool.and_true]
    · rw [Bool.not_eq_true] at hstays
      rw [List.filter_cons_of_pos (by rw [hstays]; rfl), hstays, Bool.and_false, Bool.or_false,
        List.getLast?_cons]
      cases (rest.filter fun step => !step.stays).getLast? with
      | none => rfl
      | some last => rfl

theorem endsInSliceFrom_false (l : Location) : l.endsInSliceFrom false = l.endsInSlice := by
  rw [endsInSliceFrom_eq, endsInSlice]
  cases (l.filter fun step => !step.stays).getLast? with
  | none => rfl
  | some last => rfl

end Location

/-- What ends at some places finds these places. -/
theorem Walk.each_done (s : Store) : ∀ places : List Found,
    Walk.each Walk.done [] places s = (.ok ⟨places, false⟩, s)
  | [] => rfl
  | (l, v) :: places => by
    have hhead : Walk.done ([] ++ l) v s = (.ok ⟨[(l, v)], false⟩, s) := rfl
    rw [Walk.each, Eval.run_bind_of_ok hhead, if_neg Bool.false_ne_true,
      Eval.run_bind_of_ok (Walk.each_done s places)]
    rfl

namespace Context

variable {ctx : Context} {s t : Store}

/-- The segment of a step selects parts: it is no group and no descent. -/
theorem walkSegment_segment (ctx : Context) (s : Store) (step : Step) (next : Walk)
    (base : Location) (node : Value) :
    ctx.walkSegment (step.segment s) next base node =
      (do next.each base (placesOf (← ctx.items (step.segment s) node))) := by
  cases step <;> rfl

theorem each_singleton {next : Walk} {base l : Location} {v : Value} {s t : Store} {found}
    (h : next (base ++ l) v s = (.ok ⟨found, false⟩, t)) :
    next.each base [(l, v)] s = (.ok ⟨found, false⟩, t) := by
  rw [Walk.each, Eval.run_bind_of_ok h, if_neg Bool.false_ne_true, Walk.each]
  show ((Except.ok ⟨found ++ [], false⟩, t) : Except Error Visit × Store) = _
  rw [List.append_nil]

/-- **A location of real steps leads back.**  Its path finds one place: the same location, and the
value that was reported or, where it ends with a slice, one like it. -/
theorem walkPath_of_leads {root v : Value} {l : Location} (h : Leads ctx s root l v) {r : Store}
    (hsr : s.GrowsTo r) : ∀ {t : Store} {root' : Value} (sliced : Bool) (base : Location),
    s.GrowsTo t → t.Alike root root' → (sliced = false → root' = root) →
    ∃ l' v' u, ctx.walkPath (l.path r) Walk.done base root' t = (.ok ⟨[(base ++ l', v')], false⟩, u) ∧
      t.GrowsTo u ∧ (∀ w, u.GrowsTo w → Location.same w l l' = true) ∧ u.Alike v v' ∧
      (l.endsInSliceFrom sliced = false → v' = v) := by
  induction h with
  | @nil root =>
    intro t root' sliced base _ halike hexact
    refine ⟨[], root', t, ?_, .refl t, fun _ _ => rfl, halike, hexact⟩
    rw [List.append_nil]
    rfl
  | @cons node step child rest v real more ih =>
    intro t node' sliced base hst halike hexact
    obtain ⟨seg, hseg, hagain⟩ := real
    obtain ⟨step', child', t₁, hitems, htt₁, hretaken⟩ := hagain t node' hst halike
    -- behind a slice the value is only one like it, until a step goes to one of its elements
    have hexact' : (step.isSlice || sliced && step.stays) = false → child' = child := by
      intro hmark
      rw [Bool.or_eq_false_iff, Bool.and_eq_false_iff] at hmark
      refine hretaken.exact hmark.1 fun hstays => hexact ?_
      rcases hmark.2 with hsliced | hgoes
      · exact hsliced
      · rw [hstays] at hgoes
        cases hgoes
    obtain ⟨l', v', u, hwalk, ht₁u, hsame, hv, hv'⟩ :=
      ih _ (base ++ [step']) (hst.trans htt₁) hretaken.alike hexact'
    refine ⟨step' :: l', v', u, ?_, htt₁.trans ht₁u, fun w huw => ?_, hv, hv'⟩
    · rw [← hseg r hsr] at hitems
      show ctx.walkSegment (step.segment r) (ctx.walkPath (Location.path r rest) Walk.done) base node' t = _
      rw [walkSegment_segment, Eval.run_bind_of_ok hitems]
      refine (each_singleton (l := [step']) hwalk).trans ?_
      rw [List.append_assoc, List.singleton_append]
    · rw [Location.same, hretaken.same w (ht₁u.trans huw), hsame w huw, Bool.and_self]

end Context

end DottedPath
