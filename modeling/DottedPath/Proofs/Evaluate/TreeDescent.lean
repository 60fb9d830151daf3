import DottedPath.Proofs.Evaluate.Descent
import DottedPath.Proofs.Evaluate.Retake
import DottedPath.Proofs.Evaluate.Slots
import DottedPath.Proofs.Value.Places

/-!
# Descents into trees

What a recursive segment reports in a tree of dicts and lists: the places that its key and its depth
window select, and whose values pass its filter and a guard (`Recursion.hits`).  The depth is counted
from the root, and the conditions do not depend on what containers hold; so what is reported can be
told from the tree alone.

## Main statements

- `Context.find_recursion`: reading reports the places that are hit, each before those inside of it.
-/

namespace DottedPath

/-! ### Conditions on values -/

/-- A condition says of each value what a predicate does, whatever the store holds. -/
def Eval.Says (cond : Value → Eval Bool) (pass : Value → Bool) : Prop :=
  ∀ s v, ∃ t, cond v s = (.ok (pass v), t) ∧ s.GrowsTo t

/-- A guard, if there is one, says of each value what a predicate does. -/
def Context.GuardSays (ctx : Context) : Option ValueTest → (Value → Bool) → Prop
  | none, pass => ∀ v, pass v = true
  | some test, pass => Eval.Says (ctx.guardHolds test) pass

/-- The descent goes by its key to all places in a window of depths below the root, and its filter
says of each value what a predicate does. -/
structure Context.TestsValues (ctx : Context) (r : Recursion) (pass : Value → Bool) : Prop where
  passes : Eval.Says (ctx.passes r.filter) pass
  branches : r.branches = []
  window : r.depth.hasNegative = false
  all : r.first = false

theorem Context.testsValues_unfiltered (ctx : Context) {r : Recursion} (hfilter : r.filter = none)
    (hbranches : r.branches = []) (hwindow : r.depth.hasNegative = false) (hall : r.first = false) :
    ctx.TestsValues r fun _ => true where
  passes := hfilter ▸ fun s _ => ⟨s, rfl, .refl s⟩
  branches := hbranches
  window := hwindow
  all := hall

/-- A scalar is equal to a value, whatever the store holds. -/
def Scalar.equalsValue (x : Scalar) : Value → Bool
  | .scalar y => x.equals y
  | .ref _ => false

theorem Store.equals_scalar (s : Store) (x : Scalar) (v : Value) :
    s.equals (.scalar x) v = x.equalsValue v := by
  rw [Store.equals, Store.comparisonDepth]
  cases v with
  | scalar y =>
    rw [Store.equalsWithin, if_neg Bool.false_ne_true]
    rfl
  | ref h =>
    rw [Store.equalsWithin]
    · rfl
    all_goals
      intro _ _ hleft hright
      cases hleft <;> cases hright

/-- A guard that compares with a literal scalar says what the comparison does. -/
theorem Context.guardSays_scalar (ctx : Context) {c : Comparison} (hc : c.isOrdering = false)
    (x : Scalar) : ctx.GuardSays (some ⟨[], c, .literal (.scalar x)⟩)
      fun v => x.equalsValue v != (c == .ne) := by
  intro s v
  have hcompares : s.compares c (.literal (.scalar x)) v = x.equalsValue v := by
    rw [Store.compares, hc, if_neg Bool.false_ne_true]
    exact s.equals_scalar x v
  refine ⟨s, ?_, .refl s⟩
  dsimp only
  rw [← hcompares]
  rfl

/-- A scalar is selected as a key. -/
def KeyPattern.takes : KeyPattern → Value → Bool
  | .literal (.scalar y), v => y.equalsValue v
  | .wildcard, _ => true
  | .regex re, .scalar x => re.matches x.text
  | _, _ => false

theorem keyMatches_scalar (s : Store) (p : KeyPattern) (x : Scalar) :
    s.keyMatches p (.scalar x) = p.takes (.scalar x) := by
  cases p with
  | literal l =>
    cases l with
    | scalar y => exact s.equals_scalar y (.scalar x)
    | tuple ls =>
      obtain ⟨-, hshows⟩ := (Literal.tuple ls).toValue_shows s
      rw [Literal.Shows] at hshows
      obtain ⟨g, vs, hg, -⟩ := hshows
      show ((Literal.tuple ls).toValue s).2.equals ((Literal.tuple ls).toValue s).1 _ = false
      rw [hg]
      simp [Store.equals, Store.comparisonDepth, Store.equalsWithin]
  | wildcard => rfl
  | regex re => rfl

/-! ### Slots that a descent goes to -/

namespace Recursion

/-- The descent reports what is in a slot, if it passes the conditions. -/
def marks (r : Recursion) : Form → Nat → Bool
  | .dict keys, i => r.key.takes (keys.getD i .null)
  | .object .., _ => false
  | _, i => r.key.takes (.int i)

/-- The descent goes on to what is in a slot. -/
def enters (r : Recursion) : Form → Nat → Bool
  | .dict keys, i => r.key.takes (keys.getD i .null)
  | .object .., _ => false
  | _, _ => true

/-- Places that the descent reports in a tree at a depth. -/
def hits (r : Recursion) (pass : Value → Bool) : Nat → Tree → List Nat → Bool
  | depth, .node _ f ts, i :: p =>
    ts[i]?.any fun t =>
      if p.isEmpty then r.marks f i && pass t.value && r.depth.contains depth 0
      else r.enters f i && r.hits pass (depth + 1) t p
  | _, _, _ => false

/-- What is in a slot is reported at the depth of the container. -/
theorem hits_slot {r : Recursion} {pass : Value → Bool} {depth i : Nat} {h : Handle} {f : Form}
    {ts : List Tree} {t : Tree} (hi : ts[i]? = some t) :
    r.hits pass depth (.node h f ts) [i] =
      (r.marks f i && pass t.value && r.depth.contains depth 0) := by
  rw [hits, hi]
  rfl

/-- What is inside of a slot is reported one level deeper. -/
theorem hits_inside {r : Recursion} {pass : Value → Bool} {depth i : Nat} {h : Handle} {f : Form}
    {ts : List Tree} {t : Tree} (hi : ts[i]? = some t) {p : List Nat} (hp : p ≠ []) :
    r.hits pass depth (.node h f ts) (i :: p) =
      (r.enters f i && r.hits pass (depth + 1) t p) := by
  cases p with
  | nil => exact absurd rfl hp
  | cons j p =>
    rw [hits, hi]
    rfl

theorem enters_of_marks {r : Recursion} {f : Form} {i : Nat} (h : r.marks f i = true) :
    r.enters f i = true := by
  cases f with
  | dict keys => exact h
  | object name names frozen => cases h
  | _ => rfl

end Recursion

/-- A tree of dicts and lists, with scalars as keys and as leaves. -/
inductive Tree.Plain : Tree → Prop where
  | leaf (x : Scalar) : Plain (.leaf (.scalar x))
  | list {h : Handle} {ts : List Tree} (parts : ∀ t ∈ ts, Plain t) : Plain (.node h .list ts)
  | dict {h : Handle} {keys : List Value} {ts : List Tree} (scalars : ∀ k ∈ keys, ∃ x, k = .scalar x)
    (parts : ∀ t ∈ ts, Plain t) : Plain (.node h (.dict keys) ts)

namespace Tree.Plain

variable {h : Handle} {f : Form} {ts : List Tree}

theorem part (hplain : Plain (.node h f ts)) : ∀ t ∈ ts, t.Plain := by
  cases hplain with
  | list parts => exact parts
  | dict scalars parts => exact parts

theorem isCopied (hplain : Plain (.node h f ts)) : f.isCopied = false := by
  cases hplain <;> rfl

/-- The container that a tree is comes before those inside of it. -/
theorem handles_eq {t : Tree} (hplain : t.Plain) {k : Handle} (hk : t.value.handle? = some k) :
    t.handles = k :: t.handles.tail := by
  cases hplain with
  | leaf x => cases hk
  | list parts =>
    cases hk
    rw [handles, List.tail_cons]
  | dict scalars parts =>
    cases hk
    rw [handles, List.tail_cons]

/-- A way that goes on into a tree meets none of its containers again. -/
theorem not_mem_above {s : Store} {t : Tree} (hplain : t.Plain) (hlies : Forest.Lies s [t])
    {above : List Handle} (habove : ∀ k ∈ t.handles, k ∉ above) :
    ∀ k ∈ t.handles.tail, k ∉ t.value.handle?.toList ++ above := by
  intro k hk hmem
  rcases List.mem_append.mp hmem with hself | hmem
  · have hapart := hlies.apart
    rw [Forest.handles_singleton, hplain.handles_eq (Option.mem_toList.mp hself),
      List.nodup_cons] at hapart
    exact hapart.1 hk
  · exact habove k (List.mem_of_mem_tail hk) hmem

end Tree.Plain

namespace Context

open DottedPath.Tree

variable {ctx : Context} {r : Recursion} {s : Store} {h : Handle} {f : Form} {ts : List Tree}

/-- The parts of a container that a descent goes to, by their slots. -/
def slotChildren (r : Recursion) (f : Form) (parts : List (Tree × Nat)) : List Child :=
  (parts.filter fun (_, i) => r.enters f i).map fun (t, i) => ⟨f.step i, t.value, r.marks f i⟩

theorem slotChildren_cons {parts : List (Tree × Nat)} {i : Nat} (henters : r.enters f i = true) :
    slotChildren r f ((t, i) :: parts) =
      ⟨f.step i, t.value, r.marks f i⟩ :: slotChildren r f parts := by
  rw [slotChildren, List.filter_cons_of_pos (by exact henters), List.map_cons, slotChildren]

theorem slotChildren_skip {parts : List (Tree × Nat)} {i : Nat} (henters : ¬ r.enters f i = true) :
    slotChildren r f ((t, i) :: parts) = slotChildren r f parts := by
  rw [slotChildren, List.filter_cons_of_neg (by exact henters), slotChildren]

/-- What a descent goes to from a node. -/
theorem plainChildren_node (hplain : Plain (node h f ts)) (hlies : Forest.Lies s [node h f ts]) :
    plainChildren s r.key (.ref h) = slotChildren r f ts.zipIdx := by
  obtain ⟨hc, hsuits, -, -⟩ := hlies.parts
  cases hplain with
  | list parts =>
    obtain ⟨hkeyed, -, helements, -⟩ := sequence_of_fill hc (.inl rfl)
    have hlist : s.isListLike (.ref h) = true := by
      rw [Store.isListLike, Form.kind_of_fill hc]
      rfl
    have hall : ts.zipIdx.filter (fun (_, i) => r.enters .list i) = ts.zipIdx :=
      List.filter_eq_self.mpr fun _ _ => rfl
    rw [plainChildren, hkeyed, if_neg Bool.false_ne_true, hlist, if_pos rfl, Store.numbered,
      helements, slotChildren, hall, List.zipIdx_map, List.map_map, List.map_map]
    refine List.map_congr_left ?_
    rintro ⟨t, i⟩ -
    -- all elements are gone into, and the key only tells which of them are reported
    show Child.mk _ _ (s.keyMatches r.key (.scalar (.int i))) = _
    rw [keyMatches_scalar]
    rfl
  | @dict _ keys _ scalars parts =>
    have hlength : keys.length = ts.length := hsuits.1
    have hentries : s.entries (.ref h) =
        ts.zipIdx.map fun (t, i) => (keys.getD i .null, t.value) := by
      have hdict : s.container? (.ref h) = some (.dict (keys.zip (ts.map value))) := hc
      rw [Store.entries, hdict]
      refine List.ext_getElem (by simp [hlength]) fun i hi _ => ?_
      have hi' : i < keys.length := by
        rw [List.length_zip] at hi
        omega
      simp [hi']
    have hmatch (part : Tree × Nat) (hpart : part ∈ ts.zipIdx) :
        s.keyMatches r.key (keys.getD part.2 .null) = r.key.takes (keys.getD part.2 .null) := by
      have hi : part.2 < keys.length := by
        have hlt := (List.mem_zipIdx' hpart).1
        omega
      obtain ⟨x, hx⟩ := scalars _ (List.getElem_mem hi)
      rw [List.getD_eq_getElem _ _ hi, hx, keyMatches_scalar]
    rw [plainChildren, Store.isKeyed_of_get? hc, if_pos rfl, hentries, List.filter_map, List.map_map,
      slotChildren]
    -- entries are gone into only if their key matches, and then they are reported too
    have hkept : ts.zipIdx.filter (fun (_, i) => r.enters (.dict keys) i) =
        ts.zipIdx.filter ((fun e => s.keyMatches r.key e.1) ∘
          fun (t, i) => (keys.getD i .null, t.value)) :=
      List.filter_congr fun part hpart => (hmatch part hpart).symm
    rw [hkept]
    refine List.map_congr_left fun part hpart => ?_
    obtain ⟨hpart, hentered⟩ := List.mem_filter.mp hpart
    have hmarked : r.marks (.dict keys) part.2 = true := (hmatch part hpart).symm.trans hentered
    show Child.mk _ _ true = Child.mk _ _ (r.marks (.dict keys) part.2)
    rw [hmarked, Form.step]

/-- What a descent goes to from a leaf. -/
theorem children_leaf (hbranches : r.branches = []) (x : Scalar) :
    ctx.children r (.scalar x) s = (.ok [], s) := by
  have hplain : plainChildren s r.key (.scalar x) = [] := by
    cases x <;> rfl
  rw [children, Eval.run_bind_of_ok (Eval.run_store s)]
  split
  · rfl
  · rw [hbranches, List.isEmpty_nil, if_pos rfl, hplain]
    rfl

/-- What a descent goes to from a node. -/
theorem children_node (hbranches : r.branches = []) (hplain : Plain (node h f ts))
    (hlies : Forest.Lies s [node h f ts]) :
    ctx.children r (.ref h) s = (.ok (slotChildren r f ts.zipIdx), s) := by
  obtain ⟨hc, -, -, -⟩ := hlies.parts
  have htext : s.isText (.ref h) = false := by
    rw [Store.isText, Form.kind_of_fill hc]
    cases f <;> rfl
  rw [children, Eval.run_bind_of_ok (Eval.run_store s), htext, if_neg Bool.false_ne_true, hbranches,
    List.isEmpty_nil, if_pos rfl, plainChildren_node hplain hlies]
  rfl

/-! ### What a descent reports -/

variable {pass : Value → Bool} {t : Tree}

theorem reports_says (htests : ctx.TestsValues r pass) (depth : Nat) :
    Eval.Says (fun v => ctx.reports r v depth) fun v => pass v && r.depth.contains depth 0 := by
  intro s v
  obtain ⟨t, hrun, hst⟩ := htests.passes s v
  refine ⟨t, ?_, hst⟩
  show ctx.reports r v depth s = (.ok (pass v && r.depth.contains depth 0), t)
  rw [reports, Eval.run_bind_of_ok hrun]
  cases pass v with
  | false => rfl
  | true =>
    rw [if_pos rfl, htests.window]
    rfl

/-- The places that a descent reports in a tree, with their locations going on from another one. -/
def hitsFound (r : Recursion) (pass : Value → Bool) (base : Location) (depth : Nat) (t : Tree) :
    List Found :=
  (t.places.filter (r.hits pass depth t)).map fun p => (base ++ (t.found p).1, (t.found p).2)

/-- What a descent reports in a slot and below it. -/
theorem hitsFound_slot {i : Nat} (hi : ts[i]? = some t) (base : Location) (depth : Nat) :
    ((([i] :: t.places.map (i :: ·)).filter (r.hits pass depth (node h f ts))).map fun p =>
        (base ++ ((node h f ts).found p).1, ((node h f ts).found p).2)) =
      (if r.marks f i && (pass t.value && r.depth.contains depth 0) then
        [(base ++ [f.step i], t.value)] else []) ++
      if r.enters f i then hitsFound r pass (base ++ [f.step i]) (depth + 1) t else [] := by
  have hbelow : (t.places.map (i :: ·)).filter (r.hits pass depth (node h f ts)) =
      if r.enters f i then (t.places.filter (r.hits pass (depth + 1) t)).map (i :: ·) else [] := by
    have hinside (p : List Nat) (hp : p ∈ t.places) :
        (r.hits pass depth (node h f ts) ∘ (i :: ·)) p =
          (r.enters f i && r.hits pass (depth + 1) t p) :=
      Recursion.hits_inside hi (ne_nil_of_mem_places hp)
    rw [List.filter_map, List.filter_congr hinside]
    cases r.enters f i with
    | false => simp
    | true => simp
  rw [List.filter_cons, Recursion.hits_slot hi, hbelow, Bool.and_assoc, hitsFound]
  split_ifs <;> simp [found_cons hi, found_nil]

theorem hitsFound_node (base : Location) (depth : Nat) :
    hitsFound r pass base depth (node h f ts) = ts.zipIdx.flatMap fun (t, i) =>
      (if r.marks f i && (pass t.value && r.depth.contains depth 0) then
        [(base ++ [f.step i], t.value)] else []) ++
      if r.enters f i then hitsFound r pass (base ++ [f.step i]) (depth + 1) t else [] := by
  rw [hitsFound, places_node, List.filter_flatMap, List.map_flatMap]
  refine List.flatMap_congr ?_
  rintro ⟨t, i⟩ hpart
  exact hitsFound_slot (List.mk_mem_zipIdx_iff_getElem?.mp hpart) base depth

theorem descends_step (f : Form) (i : Nat) : (f.step i).descends = true := by
  cases f <;> rfl

/-- A step of a descent reports what is in the slot, and then what is below it. -/
theorem descendChild_slot (htests : ctx.TestsValues r pass) {n i depth : Nat} {above : List Handle}
    {base : Location}
    (habove : ∀ k, t.value.handle? = some k → k ∉ above)
    (hbelow : ∀ (found : List Found) (s' : Store), s.GrowsTo s' →
      ∃ s'', ctx.descend r n (t.value.handle?.toList ++ above) (base ++ [f.step i]) (depth + 1)
        t.value found s' =
          (.ok (found ++ hitsFound r pass (base ++ [f.step i]) (depth + 1) t), s'') ∧
        s'.GrowsTo s'') (found : List Found) :
    ∃ s', ctx.descendChild r n above base depth found ⟨f.step i, t.value, r.marks f i⟩ s =
      (.ok (found ++ ((if r.marks f i && (pass t.value && r.depth.contains depth 0) then
        [(base ++ [f.step i], t.value)] else []) ++
          hitsFound r pass (base ++ [f.step i]) (depth + 1) t)), s') ∧ s.GrowsTo s' := by
  -- neither a cycle nor the step keeps the descent from going on
  have henter (hit : Bool) (found : List Found) :
      ctx.enterChild r n above base depth ⟨f.step i, t.value, hit⟩ found =
        ctx.descend r n (t.value.handle?.toList ++ above) (base ++ [f.step i]) (depth + 1) t.value
          found := by
    refine if_neg ?_
    rw [descends_step, Bool.not_true, Bool.or_false]
    cases hh : t.value.handle? with
    | none => exact Bool.false_ne_true
    | some k => simpa using habove k hh
  rw [descendChild, htests.all, Bool.false_and, if_neg Bool.false_ne_true]
  simp only [henter, reportsChild]
  cases r.marks f i with
  | false =>
    obtain ⟨s', hrun, hs'⟩ := hbelow found s (.refl s)
    refine ⟨s', ?_, hs'⟩
    simpa using hrun
  | true =>
    obtain ⟨s₁, hhit, hs₁⟩ := reports_says htests depth s t.value
    obtain ⟨s', hrun, hs'⟩ := hbelow (if pass t.value && r.depth.contains depth 0 then
      found ++ [(base ++ [f.step i], t.value)] else found) s₁ hs₁
    refine ⟨s', ?_, hs₁.trans hs'⟩
    rw [if_pos rfl, Eval.run_bind_of_ok hhit, hrun, Bool.true_and]
    split_ifs <;> simp

/-- What a slot needs for a descent: the way there is not closed, and the descent reports from there
on what is hit, whatever it has found before. -/
structure SlotDescends (ctx : Context) (r : Recursion) (pass : Value → Bool) (s : Store) (n : Nat)
    (above : List Handle) (base : Location) (depth : Nat) (f : Form) (t : Tree) (i : Nat) :
    Prop where
  apart : ∀ k, t.value.handle? = some k → k ∉ above
  below : ∀ (found : List Found) (s' : Store), s.GrowsTo s' →
    ∃ s'', ctx.descend r n (t.value.handle?.toList ++ above) (base ++ [f.step i]) (depth + 1) t.value
        found s' = (.ok (found ++ hitsFound r pass (base ++ [f.step i]) (depth + 1) t), s'') ∧
      s'.GrowsTo s''

/-- A descent goes through the slots one after the other; the store only grows. -/
theorem descendSlots (htests : ctx.TestsValues r pass) {n depth : Nat} {above : List Handle}
    {base : Location} :
    ∀ (parts : List (Tree × Nat)) (found : List Found) (s' : Store), s.GrowsTo s' →
      (∀ part ∈ parts, r.enters f part.2 = true →
        SlotDescends ctx r pass s n above base depth f part.1 part.2) →
      ∃ s'', (slotChildren r f parts).foldlM (ctx.descendChild r n above base depth) found s' =
        (.ok (found ++ parts.flatMap fun (t, i) =>
          (if r.marks f i && (pass t.value && r.depth.contains depth 0) then
            [(base ++ [f.step i], t.value)] else []) ++
          if r.enters f i then hitsFound r pass (base ++ [f.step i]) (depth + 1) t else []), s'') ∧
        s'.GrowsTo s'' := by
  intro parts
  induction parts with
  | nil =>
    intro found s' _ _
    exact ⟨s', by simp [slotChildren, Eval.run_pure], .refl s'⟩
  | cons part parts ih =>
    obtain ⟨t, i⟩ := part
    intro found s' hs hslots
    obtain ⟨hslot, hrest⟩ := List.forall_mem_cons.mp hslots
    rw [List.flatMap_cons]
    by_cases henters : r.enters f i = true
    · obtain ⟨hapart, hbelow⟩ := hslot henters
      obtain ⟨s₁, hstep, hs₁⟩ := descendChild_slot htests hapart
        (fun found s'' hs'' => hbelow found s'' (hs.trans hs'')) found
      obtain ⟨s₂, hrun, hs₂⟩ := ih _ s₁ (hs.trans hs₁) hrest
      refine ⟨s₂, ?_, hs₁.trans hs₂⟩
      rw [slotChildren_cons henters, List.foldlM_cons, Eval.run_bind_of_ok hstep, hrun]
      simp [henters]
    -- what is not gone into is not reported
    · have hmarks : ¬ r.marks f i = true := mt Recursion.enters_of_marks henters
      obtain ⟨s'', hrun, hs''⟩ := ih found s' hs hrest
      exact ⟨s'', by simpa [slotChildren_skip henters, henters, hmarks] using hrun, hs''⟩

/-- A descent into a tree reports the places that it hits. -/
theorem descend_plain (htests : ctx.TestsValues r pass) (hplain : t.Plain) :
    ∀ {s : Store} {n : Nat} {above : List Handle} (base : Location) (depth : Nat)
      (found : List Found), Forest.Lies s [t] → (∀ k ∈ t.handles.tail, k ∉ above) →
      t.handles.length < n →
      ∃ s', ctx.descend r n above base depth t.value found s =
        (.ok (found ++ hitsFound r pass base depth t), s') ∧ s.GrowsTo s' := by
  induction t using Tree.induction with
  | leaf v =>
    intro s n above base depth found _ _ hn
    cases hplain with
    | leaf x =>
      obtain ⟨m, rfl⟩ := Nat.exists_eq_succ_of_ne_zero (Nat.ne_of_gt (Nat.zero_lt_of_lt hn))
      refine ⟨s, ?_, .refl s⟩
      show ctx.descend r (m + 1) above base depth (.scalar x) found s = _
      rw [descend_succ, Eval.run_bind_of_ok (children_leaf htests.branches x), List.foldlM_nil]
      simp [hitsFound, places, Eval.run_pure]
  | node h f ts ih =>
    intro s n above base depth found hlies habove hn
    obtain ⟨m, rfl⟩ := Nat.exists_eq_succ_of_ne_zero (Nat.ne_of_gt (Nat.zero_lt_of_lt hn))
    obtain ⟨-, -, hparts, -⟩ := hlies.parts
    rw [handles, List.tail_cons] at habove
    -- the handles of a part are fewer, so one level less is enough, and none of them is above
    have hslots (part : Tree × Nat) (hpart : part ∈ ts.zipIdx) :
        SlotDescends ctx r pass s m above base depth f part.1 part.2 := by
      obtain ⟨t, i⟩ := part
      have ht : t ∈ ts := List.mem_of_getElem? (List.mk_mem_zipIdx_iff_getElem?.mp hpart)
      have htplain := hplain.part t ht
      have hinside (k : Handle) (hk : k ∈ t.handles) : k ∉ above :=
        habove k (List.mem_flatMap.mpr ⟨t, ht, hk⟩)
      have hlt : t.handles.length < (node h f ts).handles.length := length_handles_lt ht
      refine ⟨fun k hk => hinside k (htplain.handles_eq hk ▸ List.mem_cons_self ..),
        fun found s' hs' => ?_⟩
      have htlies : Forest.Lies s' [t] := (Forest.Turns.of_grows hs' hparts).lies.of_mem ht
      exact ih t ht htplain _ _ found htlies (htplain.not_mem_above htlies hinside) (by omega)
    obtain ⟨s', hrun, hs'⟩ := descendSlots htests ts.zipIdx found s (.refl s)
      fun part hpart _ => hslots part hpart
    refine ⟨s', ?_, hs'⟩
    show ctx.descend r (m + 1) above base depth (.ref h) found s = _
    rw [descend_succ, Eval.run_bind_of_ok (children_node htests.branches hplain hlies),
      hitsFound_node]
    exact hrun

/-! ### Reading -/

/-- What is collected in a tree are the places that are hit. -/
theorem collect_plain (htests : ctx.TestsValues r pass) (hplain : t.Plain)
    (hlies : Forest.Lies s [t]) :
    ∃ s', ctx.collect r t.value s = (.ok ((t.places.filter (r.hits pass 0 t)).map t.found), s') ∧
      s.GrowsTo s' := by
  have habove : ∀ k ∈ t.handles.tail, k ∉ t.value.handle?.toList ++ [] :=
    hplain.not_mem_above hlies fun _ _ => List.not_mem_nil
  rw [List.append_nil] at habove
  have hlength : t.handles.length < s.size + 2 := by
    have hle := hlies.length_le
    rw [Forest.handles_singleton] at hle
    omega
  obtain ⟨s', hrun, hs'⟩ :=
    descend_plain htests hplain [] 0 [] hlies habove hlength
  refine ⟨s', ?_, hs'⟩
  rw [collect, Eval.run_bind_of_ok (Eval.run_store s), Eval.run_bind_of_ok hrun, htests.all]
  rfl

theorem eachPassing_done {cond : Value → Eval Bool} {keeps : Value → Bool}
    (hcond : Eval.Says cond keeps) : ∀ (places : List Found) (s : Store),
    ∃ s', Walk.eachPassing cond Walk.done [] places s =
      (.ok ⟨places.filter fun p => keeps p.2, false⟩, s') ∧ s.GrowsTo s'
  | [], s => ⟨s, rfl, .refl s⟩
  | (l, v) :: places, s => by
    obtain ⟨s₁, hrun, hs₁⟩ := hcond s v
    obtain ⟨s₂, hrest, hs₂⟩ := eachPassing_done hcond places s₁
    refine ⟨s₂, ?_, hs₁.trans hs₂⟩
    rw [Walk.eachPassing, Eval.run_bind_of_ok hrun]
    cases hv : keeps v with
    | false =>
      rw [if_neg Bool.false_ne_true, pure_bind]
      dsimp only [Visit.nothing]
      rw [if_neg Bool.false_ne_true, Eval.run_bind_of_ok hrest,
        List.filter_cons_of_neg (by simp [hv])]
      rfl
    | true =>
      rw [if_pos rfl, Walk.done, pure_bind]
      dsimp only
      rw [if_neg Bool.false_ne_true, Eval.run_bind_of_ok hrest,
        List.filter_cons_of_pos (by simp [hv])]
      rfl

theorem find_singleton {seg : Segment} {v : Value} {visit : Visit} {s' : Store}
    (hwalk : ctx.walkSegment seg Walk.done [] v s = (.ok visit, s')) :
    ctx.find [seg] v s = (.ok visit.found, s') := by
  show (do pure (← ctx.walkSegment seg Walk.done [] v).found) s = _
  rw [Eval.run_bind_of_ok hwalk]
  rfl

end Context

namespace Recursion

/-- The recursive segment of a descent. -/
def segment (r : Recursion) : Segment :=
  .recursive r.key r.branches r.depth r.filter r.first

/-- The segment of a descent under a guard, if there is one. -/
def guarded (r : Recursion) : Option ValueTest → Segment
  | none => r.segment
  | some test => .guard r.segment test

/-- One more condition on values keeps the places with values that pass it. -/
theorem hits_and (r : Recursion) (pass keeps : Value → Bool) : ∀ {t : Tree} {p : List Nat}
    (depth : Nat), p ∈ t.places →
    r.hits (fun v => pass v && keeps v) depth t p =
      (r.hits pass depth t p && keeps (t.found p).2) := by
  intro t
  induction t using Tree.induction with
  | leaf v => exact fun _ hp => by cases hp
  | node h f ts ih =>
    intro p depth hp
    obtain ⟨i, t, hi, rfl | ⟨q, hq, rfl⟩⟩ := Tree.mem_places_node.mp hp
    · rw [hits_slot hi, hits_slot hi, Tree.found_cons hi, Tree.found_nil]
      ac_rfl
    · have hne := Tree.ne_nil_of_mem_places hq
      rw [hits_inside hi hne, hits_inside hi hne, ih t (List.mem_of_getElem? hi) _ hq,
        Tree.found_cons hi, Bool.and_assoc]

end Recursion

/-- **Reading a recursive segment in a tree reports the places that it hits.** -/
theorem Context.find_recursion {ctx : Context} {r : Recursion} {guard : Option ValueTest}
    {pass keeps : Value → Bool} {s : Store} {t : Tree}
    (htests : ctx.TestsValues r pass) (hguard : ctx.GuardSays guard keeps) (hplain : t.Plain)
    (hlies : Forest.Lies s [t]) :
    ∃ s', ctx.find [r.guarded guard] t.value s =
      (.ok ((t.places.filter (r.hits (fun v => pass v && keeps v) 0 t)).map t.found), s') ∧
      s.GrowsTo s' := by
  obtain ⟨s₁, hcollect, hs₁⟩ := collect_plain htests hplain hlies
  -- the guard is asked after the descent: what passes both is what the guard leaves
  have hboth : (t.places.filter (r.hits (fun v => pass v && keeps v) 0 t)).map t.found =
      ((t.places.filter (r.hits pass 0 t)).map t.found).filter fun p => keeps p.2 := by
    rw [List.filter_map, List.filter_filter]
    congr 1
    refine List.filter_congr fun p hp => ?_
    rw [r.hits_and pass keeps 0 hp, Bool.and_comm]
    rfl
  have hwalk : ctx.walkSegment r.segment Walk.done [] t.value s =
      (.ok ⟨(t.places.filter (r.hits pass 0 t)).map t.found, false⟩, s₁) := by
    show (do Walk.done.each [] (← ctx.collect r t.value)) s = _
    rw [Eval.run_bind_of_ok hcollect, Walk.each_done]
  cases guard with
  | none =>
    refine ⟨s₁, ?_, hs₁⟩
    rw [hboth, List.filter_eq_self.mpr fun p _ => hguard p.2]
    exact find_singleton hwalk
  | some test =>
    obtain ⟨s₂, hpassing, hs₂⟩ :=
      eachPassing_done hguard ((t.places.filter (r.hits pass 0 t)).map t.found) s₁
    refine ⟨s₂, ?_, hs₁.trans hs₂⟩
    have hguarded : ctx.walkSegment (.guard r.segment test) Walk.done [] t.value s =
        (.ok ⟨((t.places.filter (r.hits pass 0 t)).map t.found).filter fun p => keeps p.2, false⟩,
          s₂) := by
      rw [walkSegment]
      show (if r.segment.isCompound then _ else _ : Eval Visit) s = _
      rw [if_pos (show r.segment.isCompound = true from rfl), Eval.run_bind_of_ok hwalk,
        Eval.run_bind_of_ok hpassing]
      rfl
    rw [hboth]
    exact find_singleton hguarded

end DottedPath
