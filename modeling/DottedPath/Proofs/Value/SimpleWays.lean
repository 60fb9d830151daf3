import DottedPath.Evaluate.Location
import DottedPath.Proofs.Value.Growth
import Mathlib.Data.List.Nodup

/-!
# Simple ways through a store

A way goes from a value to its parts and on to theirs.  It is simple if it enters no container
twice; the value that it ends at may still be one of those that it has entered.  A way is told by
the positions of the parts that it takes, and by these positions the ways are in order: a way comes
before those that go on from it, and those that part are ordered by where they do.

The ways of a store with cycles are listed by `Store.waysWithin`, which gives up after a number of
levels.  A simple way enters at most as many containers as there are, so that enough levels can be
told beforehand (`Store.mem_waysWithin`).

## Main statements

- `Store.mem_waysWithin`: the listing has exactly the simple ways that are not empty.
- `Store.waysWithin_sorted`: each of them once, and in order.
- `Store.SimpleWay.way_eq`: if the keys of dicts differ, the steps of a way tell its positions.
-/

namespace DottedPath

/-- The parts of a container that a way can go to, each with the step to it: the values of a dict by
their keys, the elements of a list or tuple by their positions. -/
def Container.exits : Container → List (Step × Value)
  | dict es => es.map fun (k, v) => (.key k, v)
  | list xs => xs.zipIdx.map fun (x, i) => (.slot (.int i), x)
  | tuple xs => xs.zipIdx.map fun (x, i) => (.slot (.int i), x)
  | _ => []

/-- Each exit leads to a part of the container. -/
theorem Container.mem_parts_of_mem_exits {c : Container} {e : Step × Value} (he : e ∈ c.exits) :
    e.2 ∈ c.parts := by
  have helement {xs : List Value}
      (he : e ∈ xs.zipIdx.map fun p : Value × Nat => (Step.slot (.int p.2), p.1)) : e.2 ∈ xs := by
    obtain ⟨⟨x, i⟩, hmem, rfl⟩ := List.mem_map.mp he
    exact List.fst_mem_of_mem_zipIdx hmem
  cases c with
  | list xs => exact helement he
  | tuple xs => exact helement he
  | dict es =>
    obtain ⟨⟨k, v⟩, hmem, rfl⟩ := List.mem_map.mp he
    exact List.mem_flatMap.mpr ⟨(k, v), hmem, by simp⟩
  | set ms => cases he
  | frozenset ms => cases he
  | object name attrs frozen => cases he

namespace Store

variable {s : Store}

/-- `SimpleWay s above v way l x`: from `v` the way leads in the steps `l` to `x`.  The containers
that it enters are pairwise different, and none of them is `above`. -/
inductive SimpleWay (s : Store) : List Handle → Value → List Nat → Location → Value → Prop where
  | here (above : List Handle) (v : Value) : SimpleWay s above v [] [] v
  | enter {above : List Handle} {h : Handle} {c : Container} {i : Nat} {step : Step} {v : Value}
    {way : List Nat} {l : Location} {x : Value} (hfresh : h ∉ above) (hc : s.get? h = some c)
    (hexit : c.exits[i]? = some (step, v)) (hrest : SimpleWay s (h :: above) v way l x) :
    SimpleWay s above (.ref h) (i :: way) (step :: l) x

namespace SimpleWay

variable {above : List Handle} {h : Handle} {v x x' : Value} {way way' : List Nat} {l l' : Location}

/-- Each entered container is there and is another one, so no way is longer than the store. -/
theorem length_le (hway : s.SimpleWay above v way l x) (hnodup : above.Nodup)
    (hlt : ∀ h ∈ above, h.index < s.size) : above.length + way.length ≤ s.size := by
  induction hway with
  | here above v => simpa using length_le_size hnodup hlt
  | enter hfresh hc _ _ ih =>
    have hle := ih (List.nodup_cons.mpr ⟨hfresh, hnodup⟩)
      (List.forall_mem_cons.mpr ⟨lt_size_of_get? hc, hlt⟩)
    simp only [List.length_cons] at hle ⊢
    omega

/-- The positions of a way tell its steps and where it ends. -/
theorem found_eq (hway : s.SimpleWay above v way l x) (hway' : s.SimpleWay above v way l' x') :
    l = l' ∧ x = x' := by
  induction hway generalizing l' with
  | here above v =>
    cases hway'
    exact ⟨rfl, rfl⟩
  | enter hfresh hc hexit _ ih =>
    cases hway' with
    | enter _ hc' hexit' hrest' =>
      cases hc.symm.trans hc'
      cases hexit.symm.trans hexit'
      obtain ⟨rfl, rfl⟩ := ih hrest'
      exact ⟨rfl, rfl⟩

/-- A way does not go on from a container above. -/
theorem eq_nil_of_mem (hway : s.SimpleWay above (.ref h) way l x) (hh : h ∈ above) : way = [] := by
  cases hway with
  | here => rfl
  | enter hfresh => exact absurd hh hfresh

/-- A way only goes on from a container. -/
theorem eq_nil_of_container? (hway : s.SimpleWay above v way l x) (hv : s.container? v = none) :
    way = [] := by
  cases hway with
  | here => rfl
  | enter _ hc => exact absurd (hv.symm.trans hc) (by simp)

end SimpleWay

/-! ### Keys that differ -/

/-- No dict has a key twice. -/
def KeysDiffer (s : Store) : Prop :=
  ∀ h es, s.get? h = some (.dict es) → (es.map Prod.fst).Nodup

/-- The steps from a container tell the positions that they lead to. -/
theorem KeysDiffer.exits_nodup (hkeys : s.KeysDiffer) {h : Handle} {c : Container}
    (hc : s.get? h = some c) : (c.exits.map Prod.fst).Nodup := by
  have hpositions (xs : List Value) :
      ((xs.zipIdx.map fun p : Value × Nat => (Step.slot (.int p.2), p.1)).map Prod.fst).Nodup := by
    have hsteps : (xs.zipIdx.map fun p : Value × Nat => (Step.slot (.int p.2), p.1)).map Prod.fst =
        (List.range xs.length).map fun i : Nat => Step.slot (.int i) := by
      rw [List.range_eq_range', ← List.zipIdx_map_snd 0 xs, List.map_map, List.map_map]
      rfl
    rw [hsteps]
    refine List.Nodup.map (fun i j he => ?_) List.nodup_range
    injection he with he
    injection he with he
    injection he with he
    exact Int.ofNat_inj.mp he
  cases c with
  | list xs => exact hpositions xs
  | tuple xs => exact hpositions xs
  | dict es =>
    have hsteps : (Container.exits (.dict es)).map Prod.fst = (es.map Prod.fst).map Step.key := by
      rw [Container.exits, List.map_map, List.map_map]
      rfl
    rw [hsteps]
    exact List.Nodup.map (fun k k' he => Step.key.inj he) (hkeys h es hc)
  | set ms => exact List.nodup_nil
  | frozenset ms => exact List.nodup_nil
  | object name attrs frozen => exact List.nodup_nil

/-- If the keys of dicts differ, the steps of a way tell its positions. -/
theorem SimpleWay.way_eq (hkeys : s.KeysDiffer) {above : List Handle} {v x x' : Value}
    {way way' : List Nat} {l : Location} (hway : s.SimpleWay above v way l x)
    (hway' : s.SimpleWay above v way' l x') : way = way' := by
  induction hway generalizing way' with
  | here above v =>
    cases hway'
    rfl
  | @enter above h c i step w way l x hfresh hc hexit _ ih =>
    cases hway' with
    | @enter _ _ _ j _ w' _ _ _ _ hc' hexit' hrest' =>
      cases hc.symm.trans hc'
      have hi : (c.exits.map Prod.fst)[i]? = some step := by rw [List.getElem?_map, hexit]; rfl
      have hj : (c.exits.map Prod.fst)[j]? = some step := by rw [List.getElem?_map, hexit']; rfl
      have hij : i = j := by
        obtain ⟨hlt, -⟩ := List.getElem?_eq_some_iff.mp hi
        exact (List.getElem?_inj hlt (hkeys.exits_nodup hc)).mp (hi.trans hj.symm)
      subst hij
      cases hexit.symm.trans hexit'
      rw [ih hrest']

/-! ### Listing the ways -/

/-- The ways that begin with an exit, from those that go on from where it leads. -/
def waysThrough (i : Nat) (step : Step) (v : Value) (below : List (List Nat × Found)) :
    List (List Nat × Found) :=
  ([i], [step], v) :: below.map fun w => (i :: w.1, step :: w.2.1, w.2.2)

/-- The parts that a way can go to from a value. -/
def exits (s : Store) (v : Value) : List (Step × Value) :=
  (s.container? v).elim [] Container.exits

theorem mem_exits {h : Handle} {i : Nat} {e : Step × Value} :
    (s.exits (.ref h))[i]? = some e ↔ ∃ c, s.get? h = some c ∧ c.exits[i]? = some e := by
  show ((s.get? h).elim [] Container.exits)[i]? = some e ↔ _
  cases s.get? h with
  | none => simp
  | some c => simp

/-- The ways from a value that are not empty, each with where it leads, at most the given number of
levels down. -/
def waysWithin (s : Store) : Nat → List Handle → Value → List (List Nat × Found)
  | 0, _, _ => []
  | _ + 1, _, .scalar _ => []
  | n + 1, above, .ref h =>
    if h ∈ above then []
    else
      (s.exits (.ref h)).zipIdx.flatMap fun e =>
        waysThrough e.2 e.1.1 e.1.2 (waysWithin s n (h :: above) e.1.2)

/-- The ways from a container go through its exits. -/
theorem mem_waysWithin_ref {n : Nat} {above : List Handle} {h : Handle} {w : List Nat × Found} :
    w ∈ s.waysWithin (n + 1) above (.ref h) ↔
      h ∉ above ∧ ∃ c i step v, s.get? h = some c ∧ c.exits[i]? = some (step, v) ∧
        w ∈ waysThrough i step v (s.waysWithin n (h :: above) v) := by
  rw [waysWithin]
  by_cases hh : h ∈ above
  · simp [hh]
  · rw [if_neg hh, List.mem_flatMap]
    constructor
    · rintro ⟨⟨⟨step, v⟩, i⟩, hexit, hw⟩
      obtain ⟨c, hc, hi⟩ := mem_exits.mp (List.mk_mem_zipIdx_iff_getElem?.mp hexit)
      exact ⟨hh, c, i, step, v, hc, hi, hw⟩
    · rintro ⟨-, c, i, step, v, hc, hi, hw⟩
      exact ⟨((step, v), i), List.mk_mem_zipIdx_iff_getElem?.mpr (mem_exits.mpr ⟨c, hc, hi⟩), hw⟩

/-- What is listed are ways. -/
theorem simpleWay_of_mem : ∀ {n : Nat} {above : List Handle} {v : Value} {w : List Nat × Found},
    w ∈ s.waysWithin n above v → w.1 ≠ [] ∧ s.SimpleWay above v w.1 w.2.1 w.2.2
  | 0, _, _, _, hmem => by cases hmem
  | n + 1, above, .scalar a, _, hmem => by cases hmem
  | n + 1, above, .ref h, w, hmem => by
    obtain ⟨hfresh, c, i, step, v, hc, hexit, hthrough⟩ := mem_waysWithin_ref.mp hmem
    rcases List.mem_cons.mp hthrough with rfl | hthrough
    · exact ⟨List.cons_ne_nil _ _, .enter hfresh hc hexit (.here ..)⟩
    · obtain ⟨w', hrest, rfl⟩ := List.mem_map.mp hthrough
      exact ⟨List.cons_ne_nil _ _, .enter hfresh hc hexit (simpleWay_of_mem hrest).2⟩

/-- A way that fits the levels is listed. -/
theorem mem_of_simpleWay {n : Nat} {above : List Handle} {v x : Value} {way : List Nat}
    {l : Location} (hway : s.SimpleWay above v way l x) (hne : way ≠ []) (hn : way.length ≤ n) :
    (way, l, x) ∈ s.waysWithin n above v := by
  induction hway generalizing n with
  | here => exact absurd rfl hne
  | @enter above h c i step w way l x hfresh hc hexit hrest ih =>
    have hpos : 0 < n := Nat.lt_of_lt_of_le (by simp) hn
    obtain ⟨m, rfl⟩ := Nat.exists_eq_succ_of_ne_zero (Nat.ne_of_gt hpos)
    refine mem_waysWithin_ref.mpr ⟨hfresh, c, i, step, w, hc, hexit, ?_⟩
    by_cases hnil : way = []
    · subst hnil
      cases hrest
      exact List.mem_cons_self ..
    · have hmem := ih hnil (Nat.le_of_succ_le_succ hn)
      exact List.mem_cons_of_mem _ (List.mem_map.mpr ⟨(way, l, x), hmem, rfl⟩)

/-- **The listing has exactly the simple ways that are not empty**, if it may go as many levels down
as there are containers. -/
theorem mem_waysWithin {n : Nat} (hn : s.size ≤ n) {v : Value} {w : List Nat × Found} :
    w ∈ s.waysWithin n [] v ↔ w.1 ≠ [] ∧ s.SimpleWay [] v w.1 w.2.1 w.2.2 := by
  constructor
  · exact simpleWay_of_mem
  · rintro ⟨hne, hway⟩
    have hle := hway.length_le List.nodup_nil (by simp)
    rw [List.length_nil, Nat.zero_add] at hle
    exact mem_of_simpleWay hway hne (Nat.le_trans hle hn)

/-- **Each way is listed once, and they are in order.** -/
theorem waysWithin_sorted : ∀ (n : Nat) (above : List Handle) (v : Value),
    ((s.waysWithin n above v).map Prod.fst).Pairwise (· < ·)
  | 0, _, _ => List.Pairwise.nil
  | _ + 1, _, .scalar _ => List.Pairwise.nil
  | n + 1, above, .ref h => by
    rw [waysWithin]
    split
    · exact List.Pairwise.nil
    rw [List.map_flatMap, List.pairwise_flatMap]
    constructor
    -- through one exit: the exit itself, and then what goes on from there
    · rintro ⟨⟨step, v⟩, i⟩ -
      rw [waysThrough, List.map_cons, List.map_map, List.pairwise_cons]
      constructor
      · intro way hway
        obtain ⟨w, hmem, rfl⟩ := List.mem_map.mp hway
        obtain ⟨hne, -⟩ := simpleWay_of_mem hmem
        obtain ⟨j, rest, hw⟩ := List.exists_cons_of_ne_nil hne
        show [i] < i :: w.1
        rw [hw]
        exact List.cons_lt_cons_self.mpr (List.nil_lt_cons ..)
      · have hbelow := waysWithin_sorted n (h :: above) v
        rw [List.pairwise_map] at hbelow ⊢
        exact hbelow.imp fun hlt => List.cons_lt_cons_self.mpr hlt
    -- through two exits: the positions of the exits decide
    · have hpositions : (s.exits (.ref h)).zipIdx.Pairwise fun a b => a.2 < b.2 := by
        rw [← List.pairwise_map (f := Prod.snd), List.zipIdx_map_snd]
        exact List.pairwise_lt_range'
      have hhead {i : Nat} {step : Step} {v : Value} {below : List (List Nat × Found)}
          {way : List Nat} (hway : way ∈ (waysThrough i step v below).map Prod.fst) :
          ∃ rest, way = i :: rest := by
        rw [waysThrough, List.map_cons, List.map_map] at hway
        rcases List.mem_cons.mp hway with rfl | hway
        · exact ⟨[], rfl⟩
        · obtain ⟨w, -, rfl⟩ := List.mem_map.mp hway
          exact ⟨w.1, rfl⟩
      refine hpositions.imp fun {a b} hlt way hway way' hway' => ?_
      obtain ⟨rest, rfl⟩ := hhead hway
      obtain ⟨rest', rfl⟩ := hhead hway'
      exact List.cons_lt_cons_iff.mpr (.inl hlt)

end Store

end DottedPath
