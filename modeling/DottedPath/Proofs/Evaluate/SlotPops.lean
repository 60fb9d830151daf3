import DottedPath.Proofs.Evaluate.SelectedSlots

/-!
# Removal of several slots

Slots that are removed together go one after the other.  In a list, a tuple or an object the last one
goes first, so that the others keep their steps; the entries of a dict may go in any order, since each
is told by its key.  In both cases the slots that stay keep their order (`Forest.Turns.popPicked`).
-/

namespace DottedPath

open Forest

variable {s : Store} {h : Handle} {f : Form} {is : List Nat} {vs : List Value}

/-! ### Positions that stay -/

/-- What a predicate keeps that goes by the positions. -/
theorem filter_eq_without {α : Type} {positions : List Int} {p : α → Bool} {xs : List α}
    (hp : ∀ i (hi : i < xs.length), p xs[i] = !positions.contains (i : Int)) :
    xs.filter p = without positions xs := by
  conv_lhs => rw [← List.zipIdx_map_fst 0 xs, List.filter_map]
  refine congrArg (List.map Prod.fst) (List.filter_congr ?_)
  rintro ⟨x, i⟩ hmem
  obtain ⟨hi, rfl⟩ := List.getElem?_eq_some_iff.mp (List.mk_mem_zipIdx_iff_getElem?.mp hmem)
  exact hp i hi

theorem map_without {α β : Type} (g : α → β) (positions : List Int) (xs : List α) :
    (without positions xs).map g = without positions (xs.map g) := by
  rw [without, without, List.zipIdx_map, List.filter_map, List.map_map, List.map_map]
  rfl

theorem without_sublist {α : Type} (positions : List Int) (xs : List α) :
    (without positions xs).Sublist xs := by
  conv_rhs => rw [← List.zipIdx_map_fst 0 xs]
  exact List.filter_sublist.map Prod.fst

/-- How many stay goes by the positions. -/
theorem length_without {α β : Type} (positions : List Int) {xs : List α} {ys : List β}
    (hlength : xs.length = ys.length) :
    (without positions xs).length = (without positions ys).length := by
  rw [← List.length_map fun _ => (), map_without, List.map_const', hlength, ← List.map_const',
    ← map_without, List.length_map]

theorem Form.Suits.without {n : Nat} (hf : f.Suits s n) (positions : List Int) {α : Type}
    {xs : List α} (hlength : xs.length = n) :
    (f.without positions).Suits s (DottedPath.without positions xs).length := by
  cases f with
  | dict keys =>
    exact ⟨length_without positions (hf.1.trans hlength.symm),
      hf.2.sublist (without_sublist positions keys)⟩
  | object name names frozen =>
    exact ⟨length_without positions (hf.1.trans hlength.symm),
      hf.2.sublist (without_sublist positions names)⟩
  | _ => trivial

/-- The positions of some slots, from the last to the first. -/
def downward (is : List Nat) : List Int :=
  (is.map Int.ofNat).reverse

theorem downward_descending (hasc : is.Pairwise (· < ·)) : (downward is).Pairwise (· > ·) := by
  rw [downward, List.pairwise_reverse, List.pairwise_map]
  exact hasc.imp Int.ofNat_lt.mpr

theorem downward_bounds {n : Nat} (hlt : ∀ i ∈ is, i < n) : ∀ p ∈ downward is, 0 ≤ p ∧ p < n := by
  intro p hp
  obtain ⟨i, hi, rfl⟩ := List.mem_map.mp (List.mem_reverse.mp hp)
  exact ⟨Int.natCast_nonneg i, Int.ofNat_lt.mpr (hlt i hi)⟩

theorem map_downward {α : Type} (g : Nat → α) (is : List Nat) :
    (downward is).map (fun p => g p.toNat) = (is.map g).reverse := by
  rw [downward, List.map_reverse, List.map_map]
  rfl

theorem contains_downward (is : List Nat) (i : Nat) :
    (downward is).contains (i : Int) = is.contains i := by
  rw [Bool.eq_iff_iff, List.contains_iff_mem, List.contains_iff_mem, downward, List.mem_reverse]
  refine ⟨fun h => ?_, fun h => List.mem_map_of_mem h⟩
  obtain ⟨j, hj, heq⟩ := List.mem_map.mp h
  exact Int.ofNat.inj heq ▸ hj

/-- Of names with values, some go with their values. -/
theorem zip_without {α : Type} {names : List α} (hlength : names.length = vs.length)
    {positions : List Int} (hdesc : positions.Pairwise (· > ·))
    (hbound : ∀ p ∈ positions, 0 ≤ p ∧ p < vs.length) :
    without positions (names.zip vs) = (without positions names).zip (without positions vs) := by
  have hfold : ∀ (ps : List Int) (names : List α) (vs : List Value),
      ps.foldl (fun ys p => ys.eraseIdx p.toNat) (names.zip vs) =
        (ps.foldl (fun ys p => ys.eraseIdx p.toNat) names).zip
          (ps.foldl (fun ys p => ys.eraseIdx p.toNat) vs) := by
    intro ps
    induction ps with
    | nil => exact fun _ _ => rfl
    | cons p ps ih =>
      intro names vs
      rw [List.foldl_cons, List.foldl_cons, List.foldl_cons, zip_eraseIdx, ih]
  rw [← foldl_eraseIdx_eq_without hdesc (by simpa [hlength] using hbound),
    ← foldl_eraseIdx_eq_without hdesc (by simpa [hlength] using hbound),
    ← foldl_eraseIdx_eq_without hdesc hbound, hfold]

/-! ### Orders of removal -/

section Orders

variable {node : Value} {step a b : Nat → Step}

/-- The order in which the steps to some slots are removed: from the last position to the first. -/
def popOrder (s : Store) (node : Value) (step : Nat → Step) (is : List Nat) : List Nat :=
  (((is.map fun i => ((step i).position? s node, i)).mergeSort
    fun a b => positionLE a.1 b.1).map Prod.snd).reverse

theorem popSteps_eq (s : Store) (node : Value) (step : Nat → Step) (is : List Nat) :
    popSteps node (is.map step) s =
      (popOrder s node step is).foldlM (fun node i => popChild node (step i)) node s := by
  have hsorted : ((is.map step).map fun st => (st.position? s node, st)).mergeSort
        (fun a b => positionLE a.1 b.1) =
      ((is.map fun i => ((step i).position? s node, i)).mergeSort
        fun a b => positionLE a.1 b.1).map fun p => (p.1, step p.2) := by
    rw [List.map_mergeSort (f := fun p : Option Nat × Nat => (p.1, step p.2))
      (s := fun a b => positionLE a.1 b.1) fun _ _ _ _ => rfl, List.map_map, List.map_map]
    rfl
  unfold popSteps
  rw [StoreM.run_bind, StoreM.run_get]
  dsimp only
  rw [hsorted, popOrder, ← List.map_reverse, ← List.map_reverse, List.foldlM_map, List.foldlM_map]

theorem popOrder_perm (s : Store) (node : Value) (step : Nat → Step) (is : List Nat) :
    (popOrder s node step is).Perm is := by
  have hnumbers : (is.map fun i => ((step i).position? s node, i)).map Prod.snd = is := by
    rw [List.map_map]
    exact List.map_id _
  refine (List.reverse_perm _).trans (((List.mergeSort_perm _ _).map Prod.snd).trans ?_)
  rw [hnumbers]

theorem popOrder_congr (hab : ∀ i ∈ is, (a i).index? = (b i).index?) :
    popOrder s node a is = popOrder s node b is := by
  have hpositions : (is.map fun i => ((a i).position? s node, i)) =
      is.map fun i => ((b i).position? s node, i) :=
    List.map_congr_left fun i hi => by rw [Step.position?, Step.position?, hab i hi]
  rw [popOrder, popOrder, hpositions]

/-- Slots that are in the order of their positions are removed from the last to the first. -/
theorem popOrder_of_pairwise (hsorted : is.Pairwise fun i j =>
    positionLE ((step i).position? s node) ((step j).position? s node)) :
    popOrder s node step is = is.reverse := by
  have hordered : (is.map fun i => ((step i).position? s node, i)).Pairwise
      fun a b => positionLE a.1 b.1 := List.pairwise_map.mpr hsorted
  rw [popOrder, List.mergeSort_of_pairwise hordered, List.map_map]
  exact congrArg List.reverse (List.map_id is)

/-- Steps that are as good as others are removed as these. -/
theorem popSteps_congr (hab : ∀ i ∈ is, (a i).PopsAs (b i)) (node : Value) :
    popSteps node (is.map a) s = popSteps node (is.map b) s := by
  have hfold : ∀ (js : List Nat), (∀ i ∈ js, i ∈ is) → ∀ node : Value,
      js.foldlM (fun node i => popChild node (a i)) node =
        js.foldlM (fun node i => popChild node (b i)) node := by
    intro js
    induction js with
    | nil => exact fun _ _ => rfl
    | cons i js ih =>
      intro hjs node
      obtain ⟨hhead, hrest⟩ := List.forall_mem_cons.mp hjs
      rw [List.foldlM_cons, List.foldlM_cons, (hab i hhead).pop, funext (ih hrest)]
  rw [popSteps_eq, popSteps_eq, popOrder_congr fun i hi => (hab i hi).index,
    hfold _ fun i hi => (popOrder_perm s node b is).mem_iff.mp hi]

/-- If nothing is removed at any of the steps, nothing is removed. -/
theorem popSteps_idle {steps : List Step}
    (hidle : ∀ step ∈ steps, popChild node step s = (node, s)) :
    popSteps node steps s = (node, s) := by
  have hfold : ∀ numbered : List (Option Nat × Step), (∀ p ∈ numbered, p.2 ∈ steps) →
      numbered.foldlM (fun node p => popChild node p.2) node s = (node, s) := by
    intro numbered
    induction numbered with
    | nil => exact fun _ => rfl
    | cons p numbered ih =>
      intro hmem
      obtain ⟨hhead, hrest⟩ := List.forall_mem_cons.mp hmem
      rw [List.foldlM_cons, StoreM.run_bind, hidle _ hhead]
      exact ih hrest
  unfold popSteps
  rw [StoreM.run_bind, StoreM.run_get]
  refine hfold _ fun p hp => ?_
  have hnumbered := (List.mergeSort_perm _ _).mem_iff.mp (List.mem_reverse.mp hp)
  obtain ⟨step, hstep, rfl⟩ := List.mem_map.mp hnumbered
  exact hstep

end Orders

/-! ### Entries -/

section Entries

variable {keys : List Value} {es : List (Value × Value)}

/-- Whether two keys without doubles are the same does not depend on their order. -/
theorem Store.IsKey.sameKey_comm {a b : Value} (ha : s.IsKey a) (hb : s.IsKey b) :
    s.sameKey a b = s.sameKey b a := by
  rw [← ha.findsKey_eq hb 1, ← hb.findsKey_eq ha 1]
  exact Store.equalsWithin_comm _ ha hb

/-- Of keys that are apart each is the same as itself only. -/
theorem Store.Apart.sameKey_getElem (hapart : s.Apart keys) (hkeys : ∀ k ∈ keys, s.IsKey k)
    {i j : Nat} (hi : i < keys.length) (hj : j < keys.length) :
    s.sameKey keys[i] keys[j] = decide (i = j) := by
  obtain ⟨hself, hother⟩ := hapart s (.refl s)
  have hlater {i j : Nat} (hi : i < keys.length) (hj : j < keys.length) (hlt : i < j) :
      s.sameKey keys[j] keys[i] = false :=
    List.pairwise_iff_getElem.mp hother i j hi hj hlt
  rcases Nat.lt_trichotomy i j with hlt | rfl | hgt
  · rw [(hkeys _ (List.getElem_mem hi)).sameKey_comm (hkeys _ (List.getElem_mem hj)),
      hlater hi hj hlt, decide_eq_false (Nat.ne_of_lt hlt)]
  · rw [hself _ (List.getElem_mem hi), decide_eq_true rfl]
  · rw [hlater hj hi hgt, decide_eq_false (Nat.ne_of_gt hgt)]

/-- The entry of a key is taken away as the one with the same key. -/
theorem Store.eraseEntry_eq_filter (hkeys : ∀ k ∈ es.map Prod.fst, s.IsKey k)
    (hapart : s.Apart (es.map Prod.fst)) {k : Value} (hk : k ∈ es.map Prod.fst) :
    s.eraseEntry es k = es.filter fun e => !s.sameKey k e.1 := by
  obtain ⟨i, hi, rfl⟩ := List.mem_iff_getElem.mp hk
  have hi' : i < es.length := by simpa using hi
  rw [Store.eraseEntry, hapart.keyIndex? hi]
  dsimp only
  rw [← without_singleton hi', filter_eq_without]
  intro j hj
  have hj' : j < (es.map Prod.fst).length := by simpa using hj
  have hkey : es[j].1 = (es.map Prod.fst)[j] := (List.getElem_map ..).symm
  rw [hkey, hapart.sameKey_getElem hkeys hi hj']
  simp
  omega

/-- Entries are removed by their keys in whatever order. -/
theorem foldlM_popChild_entries : ∀ {ks : List Value} {s : Store} {es : List (Value × Value)},
    s.get? h = some (.dict es) → (∀ k ∈ es.map Prod.fst, s.IsKey k) → s.Apart (es.map Prod.fst) →
    (∀ k ∈ ks, k ∈ es.map Prod.fst) → ks.Pairwise (fun a b => s.sameKey a b = false) →
    (ks.map Step.key).foldlM (fun node step => popChild node step) (.ref h) s =
      (.ref h, s.set h (.dict (es.filter fun e => ks.all fun k => !s.sameKey k e.1)))
  | [], s, es, hd, _, _, _, _ => by
    have hall : es.filter (fun e => ([] : List Value).all fun k => !s.sameKey k e.1) = es :=
      List.filter_eq_self.mpr fun _ _ => rfl
    rw [hall, Store.set_of_get? hd]
    rfl
  | k :: ks, s, es, hd, hkeys, hapart, hks, hother => by
    obtain ⟨hk, hks⟩ := List.forall_mem_cons.mp hks
    obtain ⟨hfirst, hother⟩ := List.pairwise_cons.mp hother
    have hpop : popChild (.ref h) (.key k) s =
        (.ref h, s.set h (.dict (es.filter fun e => !s.sameKey k e.1))) := by
      rw [← Store.eraseEntry_eq_filter hkeys hapart hk]
      exact popKeyed_dict hd k
    have hretains := Store.Retains.set hd rfl (.dict (es.filter fun e => !s.sameKey k e.1))
    have hd' := Store.get?_set_self (.dict (es.filter fun e => !s.sameKey k e.1))
      (Store.lt_size_of_get? hd)
    -- The keys are compared in the new store as in the old one.
    have hsame {a b : Value} (ha : a ∈ es.map Prod.fst) (hb : b ∈ es.map Prod.fst) :=
      Store.sameKey_of_keeps hretains.keepsCopied (hkeys a ha) (hkeys b hb)
    have hsub : ((es.filter fun e => !s.sameKey k e.1).map Prod.fst).Sublist (es.map Prod.fst) :=
      List.filter_sublist.map _
    have hrest := foldlM_popChild_entries hd'
      (fun k' hk' => (hkeys k' (hsub.subset hk')).keeps hretains.keepsCopied)
      ((hapart.retains hretains).sublist hsub) (fun k' hk' => ?_)
      (hother.imp_of_mem fun {a b} ha hb hab => (hsame (hks a ha) (hks b hb)).trans hab)
    · rw [List.map_cons, List.foldlM_cons, StoreM.run_bind, hpop]
      refine hrest.trans (Prod.ext rfl ?_)
      rw [Store.set_set, List.filter_filter]
      refine congrArg (fun es => s.set h (.dict es)) (List.filter_congr fun e he => ?_)
      rw [List.all_cons, Bool.and_comm]
      refine congrArg (!s.sameKey k e.1 && ·) ?_
      rw [Bool.eq_iff_iff, List.all_eq_true, List.all_eq_true]
      refine forall₂_congr fun k' hk' => ?_
      rw [hsame (hks k' hk') (List.mem_map_of_mem he)]
    · obtain ⟨e, he, rfl⟩ := List.mem_map.mp (hks k' hk')
      refine List.mem_map_of_mem (List.mem_filter.mpr ⟨he, ?_⟩)
      rw [hfirst _ hk', Bool.not_false]

end Entries

/-! ### Slots -/

/-- A step removes the slot that it names, as the step that the container itself has for it. -/
theorem popChild_names {step : Step} {i : Nat} (hc : s.get? h = some (f.fill vs))
    (hsuits : f.Suits s vs.length) (hkeyed : f.Keyed s) (hnames : f.Names s vs.length step i)
    (hkey : step.HasKey s) : popChild (.ref h) step s = popChild (.ref h) (f.step i) s := by
  have hpop {k : Value} (hstep : step = .key k ∨ step = .slot k) :
      popChild (.ref h) step = popKeyed (.ref h) k := by
    rcases hstep with rfl | rfl <;> rfl
  -- An index from the end names the same position as the one from the start.
  have hindex (hf : f = .list ∨ f = .tuple) {k : Int} (hk : resolveIndex? vs.length k = some i) :
      popKeyed (.ref h) (.int k) s = popKeyed (.ref h) (.int i) s := by
    obtain ⟨hnot, -, -, hlength⟩ := sequence_of_fill hc hf
    rw [popKeyed_index hnot, popKeyed_index hnot, Store.position?, Store.position?, hlength,
      Option.bind_some, Option.bind_some, hk, resolveIndex?_natCast (resolveIndex?_lt hk)]
  cases f with
  | list =>
    obtain ⟨k, hstep, hk⟩ := hnames
    rw [hpop hstep]
    exact hindex (.inl rfl) hk
  | tuple =>
    obtain ⟨k, hstep, hk⟩ := hnames
    rw [hpop hstep]
    exact hindex (.inr rfl) hk
  | object name names frozen =>
    obtain ⟨attr, rfl, hattr⟩ := hnames
    obtain ⟨hi, hname, -⟩ := List.findIdx?_eq_some_iff_getElem.mp hattr
    rw [Form.step, List.getD_eq_getElem _ _ hi, beq_iff_eq.mp hname]
  | dict keys =>
    obtain ⟨k, hstep, hk⟩ := hnames
    have hliteral : s.IsKey k := by
      rcases hstep with rfl | rfl <;> exact hkey
    obtain ⟨hlength, hapart⟩ := hsuits
    have hfound := hk s (.refl s)
    obtain ⟨hi, -, -⟩ := List.findIdx?_eq_some_iff_getElem.mp hfound
    have hfirst : (keys.zip vs).map Prod.fst = keys := List.map_fst_zip (Nat.le_of_eq hlength)
    have hposition : s.keyIndex? keys k = s.keyIndex? keys keys[i] := by
      rw [hapart.keyIndex? hi, Store.keyIndex?, ← hfound]
      exact findIdx?_congr_of_mem fun k' hk' => hliteral.findsKey_eq (hkeyed k' hk') _
    have herase : s.eraseEntry (keys.zip vs) k = s.eraseEntry (keys.zip vs) keys[i] := by
      rw [Store.eraseEntry, Store.eraseEntry, hfirst, hposition]
    rw [hpop hstep, Form.step, List.getD_eq_getElem _ _ hi]
    show popKeyed (.ref h) k s = popKeyed (.ref h) keys[i] s
    rw [popKeyed_dict hc, popKeyed_dict hc, herase]

/-! ### Nodes of trees -/

namespace Forest

open DottedPath.Tree

variable {ts : List Tree}

/-- Slots whose positions are in their order are removed from the last to the first. -/
theorem Turns.popSlots_of_pairwise (hlies : Lies s [Tree.node h f ts]) (hasc : is.Pairwise (· < ·))
    (hlt : ∀ i ∈ is, i < ts.length) (hsorted : is.Pairwise fun i j =>
      positionLE ((f.step i).position? s (.ref h)) ((f.step j).position? s (.ref h))) :
    ∃ h' s', popSteps (.ref h) (is.map f.step) s = (.ref h', s') ∧ (f.isCopied = false → h' = h) ∧
      Turns s [Tree.node h f ts] s'
        [Tree.node h' (f.without (downward is)) (without (downward is) ts)] := by
  have hlift : ∀ (steps : List Step) (node : Value) (s : Store),
      (steps.foldlM (fun node step => (popChild node step : StoreM Value)) node : Eval Value) s =
        (.ok (steps.foldlM popChild node s).1, (steps.foldlM popChild node s).2) := by
    intro steps
    induction steps with
    | nil => exact fun _ _ => rfl
    | cons step steps ih =>
      intro node s
      rw [List.foldlM_cons, Eval.run_bind_of_ok (Eval.run_lift _ s), ih, List.foldlM_cons,
        StoreM.run_bind]
  obtain ⟨h', s', hrun, hsame, hturn⟩ :=
    Turns.popAll hlies (downward_descending hasc) (downward_bounds hlt)
  rw [map_downward, hlift] at hrun
  obtain ⟨hvalue, hstore⟩ := Prod.mk.inj hrun
  refine ⟨h', s', ?_, hsame, hturn⟩
  rw [popSteps_eq, popOrder_of_pairwise hsorted, ← List.foldlM_map, List.map_reverse]
  exact Prod.ext (Except.ok.inj hvalue) hstore

/-- Entries are removed in whatever order. -/
theorem Turns.popSlots_dict {keys : List Value} (hlies : Lies s [Tree.node h (.dict keys) ts])
    (hkeyed : (Form.dict keys).Keyed s) (hasc : is.Pairwise (· < ·)) (hlt : ∀ i ∈ is, i < ts.length) :
    ∃ s', popSteps (.ref h) (is.map (Form.dict keys).step) s = (.ref h, s') ∧
      Turns s [Tree.node h (.dict keys) ts] s'
        [Tree.node h ((Form.dict keys).without (downward is)) (without (downward is) ts)] := by
  obtain ⟨hc, hsuits, hparts, -⟩ := hlies.parts
  have ⟨hlength, hapart⟩ := hsuits
  have hperm := popOrder_perm s (.ref h) (Form.dict keys).step is
  rw [popSteps_eq]
  generalize popOrder s (.ref h) (Form.dict keys).step is = js at hperm ⊢
  have hjs : ∀ j ∈ js, j < keys.length := fun j hj => hlength ▸ hlt j (hperm.mem_iff.mp hj)
  have hkey {j : Nat} (hj : j < keys.length) : keys.getD j .null = keys[j] :=
    List.getD_eq_getElem _ _ hj
  have hfirst : (keys.zip (ts.map value)).map Prod.fst = keys :=
    List.map_fst_zip (by simp [hlength])
  have hdistinct : (js.map (keys.getD · .null)).Pairwise fun a b => s.sameKey a b = false := by
    have hnodup : js.Nodup := hperm.nodup_iff.mpr (hasc.imp Nat.ne_of_lt)
    refine List.pairwise_map.mpr (hnodup.imp_of_mem fun {i j} hi hj hij => ?_)
    rw [hkey (hjs i hi), hkey (hjs j hj), hapart.sameKey_getElem hkeyed, decide_eq_false hij]
  have hmem : ∀ k ∈ js.map (keys.getD · .null), k ∈ (keys.zip (ts.map value)).map Prod.fst := by
    intro k hk
    obtain ⟨j, hj, rfl⟩ := List.mem_map.mp hk
    rw [hfirst, hkey (hjs j hj)]
    exact List.getElem_mem _
  have hrun := foldlM_popChild_entries hc (hfirst.symm ▸ hkeyed) (hfirst.symm ▸ hapart) hmem hdistinct
  -- What is left are the entries at the other positions.
  have hleft : ((keys.zip (ts.map value)).filter fun e =>
      (js.map (keys.getD · .null)).all fun k => !s.sameKey k e.1) =
        (without (downward is) keys).zip ((without (downward is) ts).map value) := by
    rw [map_without, ← zip_without (by simpa using hlength) (downward_descending hasc)
      (by simpa using downward_bounds hlt), filter_eq_without]
    intro i hi
    have hi' : i < keys.length := Nat.lt_of_lt_of_le hi (by simp)
    have hsame : ∀ j ∈ js, s.sameKey (keys.getD j .null) keys[i] = decide (j = i) := fun j hj => by
      rw [hkey (hjs j hj), hapart.sameKey_getElem hkeyed]
    rw [contains_downward, List.all_map, List.getElem_zip, Bool.eq_iff_iff, List.all_eq_true,
      Bool.not_eq_true', Bool.eq_false_iff, ne_eq, List.contains_iff_mem, ← hperm.mem_iff]
    refine ⟨fun hall hmem => ?_, fun hnot j hj => ?_⟩
    · have hi := hall i hmem
      rw [Function.comp_apply, hsame i hmem, decide_eq_true rfl] at hi
      cases hi
    · have hne : j ≠ i := fun heq => hnot (heq ▸ hj)
      rw [Function.comp_apply, hsame j hj, decide_eq_false hne, Bool.not_false]
  obtain ⟨h', hvalue, hsame, hnode⟩ := Turns.node hlies
    (.sublist (without_sublist (downward is) ts) hparts) (hsuits.without (downward is) rfl)
  obtain rfl := hsame rfl
  refine ⟨_, ?_, hnode⟩
  rw [List.map_map, List.foldlM_map] at hrun
  rw [hleft] at hrun
  exact hrun

/-- Slots are removed at the steps that the container itself has for them. -/
theorem Turns.popSlots (hlies : Lies s [Tree.node h f ts]) (hkeyed : f.Keyed s)
    (hasc : is.Pairwise (· < ·)) (hlt : ∀ i ∈ is, i < ts.length) :
    ∃ h' s', popSteps (.ref h) (is.map f.step) s = (.ref h', s') ∧ (f.isCopied = false → h' = h) ∧
      Turns s [Tree.node h f ts] s'
        [Tree.node h' (f.without (downward is)) (without (downward is) ts)] := by
  obtain ⟨hc, -, -, -⟩ := hlies.parts
  -- In a sequence the position of a slot is its number.
  have hsequence (hf : f = .list ∨ f = .tuple) (hstep : ∀ i : Nat, f.step i = .slot (.int i)) :
      is.Pairwise fun i j =>
        positionLE ((f.step i).position? s (.ref h)) ((f.step j).position? s (.ref h)) := by
    obtain ⟨-, -, -, hlength⟩ := sequence_of_fill hc hf
    have hposition {i : Nat} (hi : i ∈ is) :
        (Step.slot (.int i)).position? s (.ref h) = some i := by
      show s.position? (.ref h) i = some i
      rw [Store.position?, hlength, Option.bind_some, List.length_map,
        resolveIndex?_natCast (hlt i hi)]
    refine hasc.imp_of_mem fun {i j} hi hj hij => ?_
    rw [hstep, hstep, hposition hi, hposition hj]
    exact decide_eq_true hij.le
  cases f with
  | list => exact popSlots_of_pairwise hlies hasc hlt (hsequence (.inl rfl) fun _ => rfl)
  | tuple => exact popSlots_of_pairwise hlies hasc hlt (hsequence (.inr rfl) fun _ => rfl)
  | object name names frozen =>
    exact popSlots_of_pairwise hlies hasc hlt (hasc.imp fun _ => rfl)
  | dict keys =>
    obtain ⟨s', hrun, hturn⟩ := popSlots_dict hlies hkeyed hasc hlt
    exact ⟨h, s', hrun, fun _ => rfl, hturn⟩

/-- **Picked slots are removed**, and the others stay in their order. -/
theorem Turns.popPicked {step : Nat → Step} (hlies : Lies s [Tree.node h f ts])
    (hkeyed : f.Keyed s) (hpicks : f.Picks s ts.length is step) :
    ∃ h' s', popSteps (.ref h) (is.map step) s = (.ref h', s') ∧ (f.isCopied = false → h' = h) ∧
      Turns s [Tree.node h f ts] s'
        [Tree.node h' (f.without (downward is)) (without (downward is) ts)] := by
  obtain ⟨hc, hsuits, -, -⟩ := hlies.parts
  have hsame : popSteps (.ref h) (is.map step) s = popSteps (.ref h) (is.map f.step) s := by
    rcases hpicks.pops with hle | hpops
    · match is, hle, hpicks with
      | [], _, _ => rfl
      | [i], _, hpicks =>
        obtain ⟨-, hnames⟩ := hpicks.names i (List.mem_singleton_self i)
        have hlength : (ts.map value).length = ts.length := List.length_map ..
        have hpop := popChild_names hc (hlength.symm ▸ hsuits) hkeyed (hlength.symm ▸ hnames)
          (hpicks.keys i (List.mem_singleton_self i))
        have hsingle (step : Nat → Step) :
            popSteps (.ref h) ([i].map step) s = popChild (.ref h) (step i) s := by
          have horder := List.perm_singleton.mp (popOrder_perm s (.ref h) step [i])
          rw [popSteps_eq, horder, List.foldlM_cons, StoreM.run_bind]
          rfl
        rw [hsingle, hsingle, hpop]
    · exact popSteps_congr hpops (.ref h)
  rw [hsame]
  exact popSlots hlies hkeyed hpicks.ascending fun i hi => (hpicks.names i hi).1

end Forest

end DottedPath
