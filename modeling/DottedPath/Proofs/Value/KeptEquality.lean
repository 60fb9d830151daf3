import DottedPath.Proofs.Value.Meaning
import DottedPath.Proofs.Value.Tree
import DottedPath.Proofs.Value.Ways

/-!
# Equality of values that have not changed

Whether two values are equal depends on what they reach only.  If one of them has finitely many levels
and neither reaches a container that has changed, they compare as before
(`Store.equals_of_unchanged`), although a comparison may go down further in a larger store.
-/

namespace DottedPath

namespace Store

open Relation (TransGen)

variable {s t : Store} {v x a b : Value} {n m : Nat}

/-! ### Levels -/

theorem Levels.mono : ∀ {n m : Nat} {v : Value}, s.Levels n v → n ≤ m → s.Levels m v
  | 0, _, _, h, _ => h.elim
  | _ + 1, 0, _, _, hle => absurd hle (Nat.not_succ_le_zero _)
  | _ + 1, _ + 1, .scalar _, _, _ => trivial
  | _ + 1, _ + 1, .ref _, ⟨c, hc, hparts⟩, hle =>
    ⟨c, hc, fun x hx => (hparts x hx).mono (Nat.le_of_succ_le_succ hle)⟩

/-- A part has one level less. -/
theorem Levels.part (h : s.Levels (n + 1) v) (hpart : s.Part v x) : s.Levels n x := by
  obtain ⟨c, hc, hx⟩ := hpart
  cases v with
  | scalar y => cases hc
  | ref g =>
    obtain ⟨d, hd, hparts⟩ := h
    cases hc.symm.trans hd
    exact hparts x hx

theorem Levels.reaches (h : s.Levels n v) (hx : s.Reaches v x) : s.Levels n x := by
  refine hx.of_closed h fun y z hy hpart => ?_
  cases n with
  | zero => exact hy.elim
  | succ n => exact (hy.part hpart).mono (Nat.le_succ n)

theorem Levels.holds (h : s.Levels n v) : s.Holds v := by
  rintro g rfl
  cases n with
  | zero => exact h.elim
  | succ n =>
    obtain ⟨c, hc, -⟩ := h
    exact lt_size_of_get? hc

/-- What has levels is not inside of itself. -/
theorem Levels.not_transGen : ∀ {n : Nat} {v : Value}, s.Levels n v → ¬TransGen s.Part v v
  | 0, _, h => h.elim
  | _ + 1, v, h => fun hcycle => by
    obtain ⟨y, hpart, hback⟩ := TransGen.head'_iff.mp hcycle
    exact ((h.part hpart).reaches hback).not_transGen hcycle

/-- It has no more levels than the store has containers, and one for scalars. -/
theorem Levels.of_size (h : s.Levels n v) : s.Levels (s.size + 1) v :=
  levels_of_isAcyclic (fun _ hx => (h.reaches hx).holds) fun _ hx => (h.reaches hx).not_transGen

/-- Levels of finitely many values have a common bound. -/
theorem exists_levels {xs : List Value} (hxs : ∀ x ∈ xs, ∃ n, s.Levels n x) :
    ∃ n, ∀ x ∈ xs, s.Levels n x := by
  induction xs with
  | nil => exact ⟨0, nofun⟩
  | cons x xs ih =>
    obtain ⟨⟨n, hx⟩, hxs⟩ := List.forall_mem_cons.mp hxs
    obtain ⟨m, hm⟩ := ih hxs
    exact ⟨max n m, List.forall_mem_cons.mpr
      ⟨hx.mono (le_max_left n m), fun y hy => (hm y hy).mono (le_max_right n m)⟩⟩

/-! ### Comparisons -/

theorem itemsEqual_congr {eq eq' : Value → Value → Bool} : ∀ {xs ys : List Value},
    (∀ x ∈ xs, ∀ y ∈ ys, eq x y = eq' x y) →
    equalsWithin.itemsEqual eq xs ys = equalsWithin.itemsEqual eq' xs ys
  | [], [], _ => rfl
  | [], _ :: _, _ => rfl
  | _ :: _, [], _ => rfl
  | x :: xs, y :: ys, heq => by
    have hrest : equalsWithin.itemsEqual eq xs ys = equalsWithin.itemsEqual eq' xs ys :=
      itemsEqual_congr fun x' hx' y' hy' =>
        heq x' (List.mem_cons_of_mem _ hx') y' (List.mem_cons_of_mem _ hy')
    rw [equalsWithin.itemsEqual, equalsWithin.itemsEqual, hrest,
      heq x (List.mem_cons_self ..) y (List.mem_cons_self ..)]

theorem findsEntry_congr {κ : Type} {eqKey eqKey' : κ → κ → Bool} {eq eq' : Value → Value → Bool}
    {e : κ × Value} : ∀ {fs : List (κ × Value)}, (∀ f ∈ fs, eqKey e.1 f.1 = eqKey' e.1 f.1) →
    (∀ f ∈ fs, eq f.2 e.2 = eq' f.2 e.2) → findsEntry eqKey eq fs e = findsEntry eqKey' eq' fs e
  | [], _, _ => rfl
  | f :: fs, hkeys, hvalues => by
    obtain ⟨hkey, hkeys⟩ := List.forall_mem_cons.mp hkeys
    obtain ⟨hvalue, hvalues⟩ := List.forall_mem_cons.mp hvalues
    have hrest : findsEntry eqKey eq fs e = findsEntry eqKey' eq' fs e :=
      findsEntry_congr hkeys hvalues
    rw [findsEntry, findsEntry] at hrest ⊢
    rw [List.find?_cons, List.find?_cons, hkey]
    cases eqKey' e.1 f.1 with
    | true => exact hvalue
    | false => exact hrest

/-- The containers that the value reaches hold what they held. -/
def Unchanged (s t : Store) (v : Value) : Prop :=
  ∀ h, s.Reaches v (.ref h) → t.get? h = s.get? h

theorem Unchanged.part (h : s.Unchanged t v) (hpart : s.Part v x) : s.Unchanged t x :=
  fun g hg => h g (hpart.reaches.trans hg)

theorem all_congr_mem {α : Type} {p q : α → Bool} {xs : List α} (h : ∀ x ∈ xs, p x = q x) :
    xs.all p = xs.all q := by
  rw [Bool.eq_iff_iff, List.all_eq_true, List.all_eq_true]
  exact forall₂_congr fun x hx => by rw [h x hx]

theorem any_congr_mem {α : Type} {p q : α → Bool} {xs : List α} (h : ∀ x ∈ xs, p x = q x) :
    xs.any p = xs.any q := by
  rw [Bool.eq_iff_iff, List.any_eq_true, List.any_eq_true]
  exact exists_congr fun x => and_congr_right fun hx => by rw [h x hx]

/-- A comparison of containers that have not changed goes by their parts: if these compare as before, in
either order, then so do the containers. -/
theorem equalsWithin_of_parts {g h : Handle} {c d : Container} {asKey : Bool} (hne : g ≠ h)
    (hc : s.get? g = some c) (hd : s.get? h = some d) (hc' : t.get? g = some c)
    (hd' : t.get? h = some d)
    (hparts : ∀ {asKey x y}, x ∈ c.parts → y ∈ d.parts →
      t.equalsWithin m asKey x y = s.equalsWithin n asKey x y ∧
        t.equalsWithin m asKey y x = s.equalsWithin n asKey y x) :
    t.equalsWithin (m + 1) asKey (.ref g) (.ref h) =
      s.equalsWithin (n + 1) asKey (.ref g) (.ref h) := by
  have hmembers {xs ys : List Value} (hxs : c = .set xs ∨ c = .frozenset xs)
      (hys : d = .set ys ∨ d = .frozenset ys) : t.equalsWithin (m + 1) asKey (.ref g) (.ref h) =
        s.equalsWithin (n + 1) asKey (.ref g) (.ref h) := by
    have hxs' : c.parts = xs := by rcases hxs with rfl | rfl <;> rfl
    have hys' : d.parts = ys := by rcases hys with rfl | rfl <;> rfl
    rw [equalsWithin_members hc hd hne hxs hys, equalsWithin_members hc' hd' hne hxs hys]
    exact congrArg (xs.length == ys.length && ·) (all_congr_mem fun x hx =>
      any_congr_mem fun y hy => (hparts (hxs' ▸ hx) (hys' ▸ hy)).1)
  cases c with
  | list xs =>
    cases d with
    | list ys =>
      simp only [equalsWithin, hc, hd, hc', hd']
      exact congrArg (g == h || ·) (itemsEqual_congr fun x hx y hy => (hparts hx hy).1)
    | _ => simp only [equalsWithin, hc, hd, hc', hd']
  | tuple xs =>
    cases d with
    | tuple ys =>
      simp only [equalsWithin, hc, hd, hc', hd']
      exact congrArg (g == h || ·) (itemsEqual_congr fun x hx y hy => (hparts hx hy).1)
    | _ => simp only [equalsWithin, hc, hd, hc', hd']
  | dict es =>
    cases d with
    | dict fs =>
      rw [equalsWithin_dict hc hd hne, equalsWithin_dict hc' hd' hne]
      refine congrArg (es.length == fs.length && ·) (all_congr_mem fun e he => ?_)
      have hkey : e.1 ∈ (Container.dict es).parts := List.mem_flatMap.mpr ⟨e, he, by simp⟩
      have hvalue : e.2 ∈ (Container.dict es).parts := List.mem_flatMap.mpr ⟨e, he, by simp⟩
      -- keys are compared in the order of the dicts, values in the opposite one
      exact findsEntry_congr
        (fun f hf => (hparts hkey (List.mem_flatMap.mpr ⟨f, hf, by simp⟩)).1)
        fun f hf => (hparts hvalue (List.mem_flatMap.mpr ⟨f, hf, by simp⟩)).2
    | _ => simp only [equalsWithin, hc, hd, hc', hd']
  | object name as frozen =>
    cases d with
    | object other bs frozen' =>
      rw [equalsWithin_object hc hd hne, equalsWithin_object hc' hd' hne]
      refine congrArg (fun b => name == other && (as.length == bs.length && b))
        (all_congr_mem fun e he => findsEntry_congr (fun _ _ => rfl) fun f hf => ?_)
      exact (hparts (List.mem_map_of_mem he) (List.mem_map_of_mem hf)).2
    | _ => simp only [equalsWithin, hc, hd, hc', hd']
  | set xs =>
    cases d with
    | set ys => exact hmembers (.inl rfl) (.inl rfl)
    | frozenset ys => exact hmembers (.inl rfl) (.inr rfl)
    | _ => simp only [equalsWithin, hc, hd, hc', hd']
  | frozenset xs =>
    cases d with
    | set ys => exact hmembers (.inr rfl) (.inl rfl)
    | frozenset ys => exact hmembers (.inr rfl) (.inr rfl)
    | _ => simp only [equalsWithin, hc, hd, hc', hd']

/-- **Values of which nothing has changed compare as before**, to every depth that is enough. -/
theorem equalsWithin_unchanged : ∀ (k : Nat) {n m : Nat} {a b : Value} (asKey : Bool),
    k ≤ n → k ≤ m → s.Levels k a ∨ s.Levels k b → s.Unchanged t a → s.Unchanged t b →
    t.equalsWithin m asKey a b = s.equalsWithin n asKey a b
  | 0, _, _, _, _, _, _, _, hlevels, _, _ => hlevels.elim False.elim False.elim
  | k + 1, 0, _, _, _, _, hn, _, _, _, _ => absurd hn (Nat.not_succ_le_zero k)
  | k + 1, _, 0, _, _, _, _, hm, _, _, _ => absurd hm (Nat.not_succ_le_zero k)
  | k + 1, n + 1, m + 1, .scalar x, .scalar y, asKey, _, _, _, _, _ => by
    rw [equalsWithin, equalsWithin]
  | k + 1, n + 1, m + 1, .scalar x, .ref h, asKey, _, _, _, _, _ => by simp only [equalsWithin]
  | k + 1, n + 1, m + 1, .ref g, .scalar y, asKey, _, _, _, _, _ => by simp only [equalsWithin]
  | k + 1, n + 1, m + 1, .ref g, .ref h, asKey, hn, hm, hlevels, ha, hb => by
    by_cases hne : g = h
    · rw [hne, equalsWithin, equalsWithin, beq_self_eq_true, Bool.true_or, Bool.true_or]
    have hg := ha g (.refl s _)
    have hh := hb h (.refl s _)
    cases hc : s.get? g with
    | none => simp only [equalsWithin, hg, hc]
    | some c =>
    cases hd : s.get? h with
    | none => simp only [equalsWithin, hg, hh, hc, hd]
    | some d =>
    refine equalsWithin_of_parts hne hc hd (hg.trans hc) (hh.trans hd) fun {asKey x y} hx hy => ?_
    have hpx : s.Part (.ref g) x := ⟨c, hc, hx⟩
    have hpy : s.Part (.ref h) y := ⟨d, hd, hy⟩
    -- whichever of the values has the levels, its parts have one less
    have hparts := hlevels.imp (·.part hpx) (·.part hpy)
    have hxy : t.equalsWithin m asKey x y = s.equalsWithin n asKey x y :=
      equalsWithin_unchanged k asKey (by omega) (by omega) hparts (ha.part hpx) (hb.part hpy)
    have hyx : t.equalsWithin m asKey y x = s.equalsWithin n asKey y x :=
      equalsWithin_unchanged k asKey (by omega) (by omega) hparts.symm (hb.part hpy) (ha.part hpx)
    exact ⟨hxy, hyx⟩

/-- **Values of which nothing has changed are equal if they were**, one of them with finitely many
levels. -/
theorem equals_of_unchanged (hsize : s.size ≤ t.size) (hb : s.Levels n b) (ha' : s.Unchanged t a)
    (hb' : s.Unchanged t b) : t.equals a b = s.equals a b := by
  have hdepth := s.size_lt_comparisonDepth
  have hdepth' := t.size_lt_comparisonDepth
  exact equalsWithin_unchanged (s.size + 1) false (by omega) (by omega) (.inr hb.of_size) ha' hb'

end Store

/-! ### Keys and trees -/

namespace Store.IsKey

variable {s t : Store} {k : Value}

theorem exists_levels (hk : s.IsKey k) : ∃ n, s.Levels n k := by
  induction hk with
  | scalar h => exact ⟨1, trivial⟩
  | @tuple h items hc _ ih =>
    obtain ⟨n, hn⟩ := Store.exists_levels ih
    exact ⟨n + 1, _, hc, hn⟩

/-- A key without doubles stays what it is. -/
theorem unchanged (hst : s.KeepsCopied t) (hk : s.IsKey k) : s.Unchanged t k := by
  intro h hreach
  have hh : s.IsKey (.ref h) := hreach.of_closed hk fun y z hy ⟨c, hc, hz⟩ => by
    cases hy with
    | scalar => cases hc
    | tuple hget hitems =>
      cases hc.symm.trans hget
      exact hitems z hz
  cases hh with
  | tuple hget _ => rw [hget, hst h _ hget rfl]

end Store.IsKey

/-- A part of a container is in one of its slots, or a key. -/
theorem Form.mem_parts_fill {f : Form} {vs : List Value} {x : Value} (hx : x ∈ (f.fill vs).parts) :
    x ∈ vs ∨ ∃ keys, f = .dict keys ∧ x ∈ keys := by
  cases f with
  | list => exact .inl hx
  | tuple => exact .inl hx
  | dict keys =>
    obtain ⟨⟨k, v⟩, he, hx⟩ := List.mem_flatMap.mp hx
    obtain ⟨hk, hv⟩ := List.of_mem_zip he
    rcases List.mem_pair.mp hx with rfl | rfl
    · exact .inr ⟨keys, rfl, hk⟩
    · exact .inl hv
  | object name names frozen =>
    obtain ⟨⟨k, v⟩, he, rfl⟩ := List.mem_map.mp hx
    exact .inl (List.of_mem_zip he).2

namespace Tree

variable {s t : Store} {u : Tree} {P : Scalar → Prop}

/-- The leaves are scalars of which something holds. -/
inductive Leaves (P : Scalar → Prop) : Tree → Prop where
  | leaf {x : Scalar} (h : P x) : Leaves P (.leaf (.scalar x))
  | node {h : Handle} {f : Form} {ts : List Tree} (parts : ∀ u ∈ ts, Leaves P u) :
    Leaves P (.node h f ts)

/-- A tree has finitely many levels. -/
theorem Stored.exists_levels (hstored : u.Stored s) (hkeyed : u.Keyed s) (hleaves : u.Leaves P) :
    ∃ n, s.Levels n u.value := by
  induction hleaves with
  | leaf => exact ⟨1, trivial⟩
  | @node h f ts parts ih =>
    cases hstored with
    | node content _ stored =>
      cases hkeyed with
      | node keys keyed =>
        have hparts : ∀ x ∈ (f.fill (ts.map value)).parts, ∃ n, s.Levels n x := by
          intro x hx
          rcases Form.mem_parts_fill hx with hvalue | ⟨names, rfl, hkey⟩
          · obtain ⟨w, hw, rfl⟩ := List.mem_map.mp hvalue
            exact ih w hw (stored w hw) (keyed w hw)
          · exact (keys x hkey).exists_levels
        obtain ⟨n, hn⟩ := Store.exists_levels hparts
        exact ⟨n + 1, _, content, hn⟩

/-- A tree that lies in both stores has not changed. -/
theorem Stored.unchanged (hst : s.KeepsCopied t) (hs : u.Stored s) (ht : u.Stored t)
    (hkeyed : u.Keyed s) (hleaves : u.Leaves P) : s.Unchanged t u.value := by
  intro h hreach
  -- what is reached from a tree is a part of the tree or a key in it
  have hh : (∃ w : Tree, w.value = .ref h ∧ w.Stored s ∧ w.Stored t ∧ w.Keyed s ∧ w.Leaves P) ∨
      s.IsKey (.ref h) := by
    refine hreach.of_closed
      (P := fun x => (∃ w : Tree, w.value = x ∧ w.Stored s ∧ w.Stored t ∧ w.Keyed s ∧ w.Leaves P) ∨
        s.IsKey x) (.inl ⟨u, rfl, hs, ht, hkeyed, hleaves⟩) fun y z hy ⟨c, hc, hz⟩ => ?_
    rcases hy with ⟨w, rfl, hws, hwt, hwk, hwl⟩ | hy
    · cases hwl with
      | leaf => cases hc
      | node parts =>
        cases hws with
        | node content _ stored =>
          cases hwt with
          | node _ _ stored' =>
            cases hwk with
            | node keys keyed =>
              cases hc.symm.trans content
              rcases Form.mem_parts_fill hz with hvalue | ⟨names, rfl, hkey⟩
              · obtain ⟨w, hw, rfl⟩ := List.mem_map.mp hvalue
                exact .inl ⟨w, rfl, stored w hw, stored' w hw, keyed w hw, parts w hw⟩
              · exact .inr (keys z hkey)
    · cases hy with
      | scalar => cases hc
      | tuple hget hitems =>
        cases hc.symm.trans hget
        exact .inr (hitems z hz)
  rcases hh with ⟨w, hvalue, hws, hwt, -, hwl⟩ | hk
  · cases hwl with
    | leaf => cases hvalue
    | node =>
      cases hws with
      | node content _ _ =>
        cases hwt with
        | node content' _ _ =>
          cases hvalue
          rw [content, content']
  · exact hk.unchanged hst h (.refl s _)

end Tree

end DottedPath
