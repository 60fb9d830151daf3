import DottedPath.Evaluate.Location
import DottedPath.Proofs.Value.LiteralValue
import DottedPath.Proofs.Value.Collections
import Mathlib.Data.List.GetD

/-!
# The form of a container and the values in its slots

A container is its form, filled with values: a list or a tuple is nothing but its values, a dict has
keys besides, an object names.  A write replaces or removes the value of a slot, and a step names a
slot by the form alone (`Form.Names`).

The keys of a dict have to tell its entries apart (`Store.Apart`).  They do so as long as the
containers that cannot be edited, tuples among them, hold what they held (`Store.Retains`).
-/

namespace DottedPath

namespace Store

variable {s t u : Store}

/-! ### Containers that cannot be edited -/

/-- The containers that cannot be edited hold what they held. -/
def Retains (s t : Store) : Prop :=
  ∀ h c, s.get? h = some c → c.isMutable = false → t.get? h = some c

namespace Retains

theorem refl (s : Store) : s.Retains s := fun _ _ hc _ => hc

theorem trans (hst : s.Retains t) (htu : t.Retains u) : s.Retains u :=
  fun h c hc hfixed => htu h c (hst h c hc hfixed) hfixed

theorem set {h : Handle} {c : Container} (hc : s.get? h = some c) (hmutable : c.isMutable = true)
    (d : Container) : s.Retains (s.set h d) := by
  intro g e he hfixed
  have hne : g ≠ h := by
    rintro rfl
    cases hc.symm.trans he
    rw [hmutable] at hfixed
    cases hfixed
  rw [get?_set_ne d hne, he]

theorem keepsCopied (hst : s.Retains t) : s.KeepsCopied t := by
  intro h c hc hcopied
  refine hst h c hc ?_
  cases c with
  | tuple xs => rfl
  | object name attrs frozen =>
    rw [Container.isCopied] at hcopied
    rw [Container.isMutable, hcopied]
    rfl
  | _ => cases hcopied

end Retains

theorem GrowsTo.retains (hst : s.GrowsTo t) : s.Retains t := fun h c hc _ => hst h c hc

/-! ### Keys -/

/-- What is the same key as itself is found by itself. -/
theorem findsKey_self {k : Value} (h : s.sameKey k k = true) (count : Nat) :
    s.findsKey count k k = true := by
  rw [findsKey, comparisonDepth]
  cases k with
  | scalar x =>
    rw [sameKey, comparisonDepth, equalsWithin, if_pos rfl] at h
    rw [equalsWithin]
    split
    · exact h
    · rw [Scalar.sameKey, Bool.and_eq_true] at h
      exact h.1
  | ref g => rw [equalsWithin, beq_self_eq_true, Bool.true_or]

/-- The keys are different ones, each the same as itself, while no container that cannot be edited
changes. -/
def Apart (s : Store) (keys : List Value) : Prop :=
  ∀ t, s.Retains t → (∀ k ∈ keys, t.sameKey k k = true) ∧
    keys.Pairwise fun a b => t.sameKey b a = false

namespace Apart

variable {keys : List Value}

theorem retains (hst : s.Retains t) (h : s.Apart keys) : t.Apart keys :=
  fun u htu => h u (hst.trans htu)

theorem sublist {more : List Value} (hsub : keys.Sublist more) (h : s.Apart more) :
    s.Apart keys := fun t hst =>
  ⟨fun k hk => (h t hst).1 k (hsub.subset hk), (h t hst).2.sublist hsub⟩

/-- Each key is found at its own position. -/
theorem findIdx? (h : s.Apart keys) (hst : s.Retains t) {i : Nat} (hi : i < keys.length) :
    keys.findIdx? (t.sameKey keys[i]) = some i := by
  obtain ⟨hself, hother⟩ := h t hst
  rw [List.findIdx?_eq_some_iff_getElem]
  refine ⟨hi, hself _ (List.getElem_mem hi), fun j hj => ?_⟩
  rw [List.pairwise_iff_getElem.mp hother j i (by omega) hi hj]
  exact Bool.false_ne_true

/-- So it is if it is looked up, also as a single key, which is compared by equality alone. -/
theorem keyIndex? (h : s.Apart keys) {i : Nat} (hi : i < keys.length) :
    s.keyIndex? keys keys[i] = some i := by
  by_cases hsingle : keys.length = 1
  · obtain ⟨k, rfl⟩ := List.length_eq_one_iff.mp hsingle
    obtain rfl : i = 0 := by simpa using hi
    have hself : s.findsKey 1 k k = true := findsKey_self ((h s (.refl s)).1 k (by simp)) 1
    rw [Store.keyIndex?, List.length_singleton, List.getElem_cons_zero, List.findIdx?_cons,
      if_pos hself]
  · have hfinds : s.findsKey keys.length keys[i] = s.sameKey keys[i] := by
      funext k
      rw [findsKey, bne_iff_ne.mpr hsingle, sameKey]
    rw [Store.keyIndex?, hfinds, h.findIdx? (.refl s) hi]

/-- Keys without doubles that are different ones stay apart. -/
theorem of_isKey (hkeys : ∀ k ∈ keys, s.IsKey k)
    (hother : keys.Pairwise fun a b => s.sameKey b a = false) : s.Apart keys := by
  intro t hst
  refine ⟨fun k hk => ?_, hother.imp_of_mem fun {a b} ha hb hab => ?_⟩
  · obtain ⟨l, hl, hself⟩ := ((hkeys k hk).keeps hst.keepsCopied).shows
    rw [sameKey, Literal.equalsWithin_of_shows l l hl hl (hself true) hl.height_lt, hself]
  · rw [sameKey_of_keeps hst.keepsCopied (hkeys b hb) (hkeys a ha), hab]

/-- Nor are keys without doubles equal as values. -/
theorem equals_of_ne (h : s.Apart keys) (hkeys : ∀ k ∈ keys, s.IsKey k) {i j : Nat}
    (hi : i < keys.length) (hj : j < keys.length) (hij : i ≠ j) :
    s.equals keys[i] keys[j] = false := by
  have hlater {i j : Nat} (hi : i < keys.length) (hj : j < keys.length) (hlt : i < j) :
      s.equals keys[j] keys[i] = false := by
    have hother := List.pairwise_iff_getElem.mp (h s (.refl s)).2 i j hi hj hlt
    rw [Bool.eq_false_iff] at hother ⊢
    exact fun heq => hother (equalsWithin_asKey _ (hkeys _ (List.getElem_mem hj))
      (hkeys _ (List.getElem_mem hi)) heq)
  rcases Nat.lt_or_gt_of_ne hij with hlt | hlt
  · rw [equals, equalsWithin_comm _ (hkeys _ (List.getElem_mem hi)) (hkeys _ (List.getElem_mem hj))]
    exact hlater hi hj hlt
  · exact hlater hj hi hlt

end Apart

end Store

/-! ### Forms -/

/-- What a container is but for the values in its slots. -/
inductive Form where
  | list
  | tuple
  | dict (keys : List Value)
  | object (name : String) (names : List String) (frozen : Bool)

namespace Form

variable {s t : Store}

/-- The container of a form that holds the given values. -/
def fill : Form → List Value → Container
  | list, vs => .list vs
  | tuple, vs => .tuple vs
  | dict keys, vs => .dict (keys.zip vs)
  | object name names frozen, vs => .object name (names.zip vs) frozen

def kind : Form → Kind
  | list => .list
  | tuple => .tuple
  | dict _ => .dict
  | object _ _ _ => .object

/-- A write makes a copy of the container, since it cannot edit it. -/
def isCopied : Form → Bool
  | tuple => true
  | object _ _ frozen => frozen
  | _ => false

/-- The step to a slot. -/
def step : Form → Nat → Step
  | dict keys, i => .key (keys.getD i .null)
  | object _ names _, i => .attr (names.getD i "")
  | _, i => .slot (.int i)

/-- The form without a slot. -/
def erase (i : Nat) : Form → Form
  | dict keys => dict (keys.eraseIdx i)
  | object name names frozen => object name (names.eraseIdx i) frozen
  | f => f

/-- The form without some of its slots. -/
def without (positions : List Int) : Form → Form
  | dict keys => dict (DottedPath.without positions keys)
  | object name names frozen => object name (DottedPath.without positions names) frozen
  | f => f

/-- The form is one for a number of values, and its keys or names tell them apart. -/
def Suits (s : Store) (n : Nat) : Form → Prop
  | dict keys => keys.length = n ∧ s.Apart keys
  | object _ names _ => names.length = n ∧ names.Nodup
  | _ => True

/-- A slot before one that is removed keeps its step. -/
theorem step_erase {i j : Nat} (h : i < j) (f : Form) : (f.erase j).step i = f.step i := by
  cases f with
  | dict keys =>
    rw [erase, step, step, List.getD_eq_getElem?_getD, List.getElem?_eraseIdx_of_lt h,
      List.getD_eq_getElem?_getD]
  | object name names frozen =>
    rw [erase, step, step, List.getD_eq_getElem?_getD, List.getElem?_eraseIdx_of_lt h,
      List.getD_eq_getElem?_getD]
  | list => rfl
  | tuple => rfl

theorem Suits.retains {n : Nat} {f : Form} (hst : s.Retains t) (h : f.Suits s n) : f.Suits t n := by
  cases f with
  | dict keys => exact ⟨h.1, h.2.retains hst⟩
  | object name names frozen => exact h
  | _ => trivial

@[simp] theorem isMutable_fill (f : Form) (vs : List Value) :
    (f.fill vs).isMutable = !f.isCopied := by
  cases f <;> rfl

@[simp] theorem isCopied_erase (i : Nat) (f : Form) : (f.erase i).isCopied = f.isCopied := by
  cases f <;> rfl

@[simp] theorem without_nil (f : Form) : f.without [] = f := by
  cases f <;> simp [without]

theorem Suits.erase {n i : Nat} {f : Form} (h : f.Suits s n) (hi : i < n) :
    (f.erase i).Suits s (n - 1) := by
  cases f with
  | dict keys =>
    obtain ⟨rfl, hapart⟩ := h
    exact ⟨List.length_eraseIdx_of_lt hi, hapart.sublist (List.eraseIdx_sublist ..)⟩
  | object name names frozen =>
    obtain ⟨rfl, hnodup⟩ := h
    exact ⟨List.length_eraseIdx_of_lt hi, hnodup.sublist (List.eraseIdx_sublist ..)⟩
  | _ => trivial

/-- A key that is another one than those that are there may come behind them. -/
theorem Suits.concat_key {n : Nat} {keys : List Value} {k : Value} (h : (dict keys).Suits s n)
    (hkeys : ∀ k' ∈ keys ++ [k], s.IsKey k') (hnone : keys.findIdx? (s.sameKey k) = none) :
    (dict (keys ++ [k])).Suits s (n + 1) := by
  obtain ⟨rfl, hapart⟩ := h
  refine ⟨by simp, .of_isKey hkeys (List.pairwise_append.mpr ?_)⟩
  refine ⟨(hapart s (.refl s)).2, List.pairwise_singleton _ _, fun a ha b hb => ?_⟩
  rw [List.mem_singleton.mp hb]
  exact List.findIdx?_eq_none_iff.mp hnone a ha

/-- So may a name. -/
theorem Suits.concat_name {n : Nat} {name attr : String} {names : List String} {frozen : Bool}
    (h : (object name names frozen).Suits s n) (hnone : names.findIdx? (· == attr) = none) :
    (object name (names ++ [attr]) frozen).Suits s (n + 1) := by
  obtain ⟨rfl, hnodup⟩ := h
  refine ⟨by simp, List.nodup_append.mpr ⟨hnodup, by simp, ?_⟩⟩
  rintro a ha b hb rfl
  have hother := List.findIdx?_eq_none_iff.mp hnone a ha
  rw [List.mem_singleton.mp hb, beq_self_eq_true] at hother
  cases hother

/-- Slots that are removed one by one, from the last to the first, are those that they were. -/
theorem foldl_erase {n : Nat} {f : Form} (h : f.Suits s n) {positions : List Int}
    (hdesc : positions.Pairwise (· > ·)) (hbound : ∀ p ∈ positions, 0 ≤ p ∧ p < n) :
    positions.foldl (fun f p => f.erase p.toNat) f = f.without positions := by
  have hfold {α : Type} (build : List α → Form)
      (hbuild : ∀ i xs, (build xs).erase i = build (xs.eraseIdx i)) : ∀ (ps : List Int) (xs : List α),
      ps.foldl (fun f p => f.erase p.toNat) (build xs) =
        build (ps.foldl (fun ys p => ys.eraseIdx p.toNat) xs) := by
    intro ps
    induction ps with
    | nil => exact fun _ => rfl
    | cons p ps ih =>
      intro xs
      rw [List.foldl_cons, List.foldl_cons, hbuild, ih]
  cases f with
  | dict keys =>
    obtain ⟨rfl, -⟩ := h
    rw [hfold dict fun _ _ => rfl, foldl_eraseIdx_eq_without hdesc hbound, without]
  | object name names frozen =>
    obtain ⟨rfl, -⟩ := h
    rw [hfold (object name · frozen) fun _ _ => rfl, foldl_eraseIdx_eq_without hdesc hbound, without]
  | list => exact hfold (fun _ : List Unit => list) (fun _ _ => rfl) positions []
  | tuple => exact hfold (fun _ : List Unit => tuple) (fun _ _ => rfl) positions []

theorem kind_of_fill {h : Handle} {f : Form} {vs : List Value} (hc : s.get? h = some (f.fill vs)) :
    s.kind (.ref h) = f.kind := by
  rw [Store.kind, hc]
  cases f <;> rfl

/-- A step leads to a slot, of a container that has a number of them. -/
def Names (s : Store) (n : Nat) (step : Step) (i : Nat) : Form → Prop
  | dict keys => ∃ k, (step = .key k ∨ step = .slot k) ∧
      ∀ t, s.Retains t → keys.findIdx? (t.sameKey k) = some i
  | object _ names _ => ∃ attr, step = .attr attr ∧ names.findIdx? (· == attr) = some i
  | _ => ∃ k, (step = .key (.int k) ∨ step = .slot (.int k)) ∧ resolveIndex? n k = some i

/-- The step to a slot leads there. -/
theorem Suits.names {n i : Nat} {f : Form} (h : f.Suits s n) (hi : i < n) :
    f.Names s n (f.step i) i := by
  cases f with
  | list => exact ⟨i, .inr rfl, resolveIndex?_natCast hi⟩
  | tuple => exact ⟨i, .inr rfl, resolveIndex?_natCast hi⟩
  | dict keys =>
    obtain ⟨rfl, hapart⟩ := h
    refine ⟨keys[i], .inl ?_, fun t hst => hapart.findIdx? hst hi⟩
    rw [step, List.getD_eq_getElem _ _ hi]
  | object name names frozen =>
    obtain ⟨rfl, hnodup⟩ := h
    refine ⟨names[i], ?_, ?_⟩
    · rw [step, List.getD_eq_getElem _ _ hi]
    · rw [List.findIdx?_eq_some_iff_getElem]
      refine ⟨hi, beq_self_eq_true _, fun j hj => ?_⟩
      rw [beq_iff_eq]
      exact List.pairwise_iff_getElem.mp hnodup j i (by omega) hi hj

end Form

end DottedPath
