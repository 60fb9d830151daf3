import DottedPath.Proofs.Evaluate.Mirror
import DottedPath.Proofs.Value.Reach
import Mathlib

/-!
# What values mean to equality

Equality looks at numbers as integers, at dicts and sets without regard to order, and at objects
without regard to whether they are frozen.  What is left of a value is its meaning (`Store.meaning`):
layers of scalars, lists, and multisets of meanings.

## Main statements

`Store.equalsWithin_iff_meaning`: values without doubles that do not hold themselves are equal just
if they mean the same, as values and as keys alike, to every depth that is enough.
-/

namespace DottedPath

/-- One layer of a meaning, over the meanings of the parts. -/
inductive Layer (α : Type) where
  | null
  | number (i : Int)
  | text (t : String)
  | bytes (bs : List UInt8)
  | list (items : List α)
  | tuple (items : List α)
  | dict (entries : Multiset (α × α))
  | set (members : Multiset α)
  | object (name : String) (attrs : Multiset (String × α))
  /-- A double, or a container that is not there. -/
  | unknown

/-- Meanings of a number of layers. -/
def Meaning : Nat → Type
  | 0 => Unit
  | n + 1 => Layer (Meaning n)

/-- The layer of a scalar: booleans count as integers. -/
def Scalar.layer {α : Type} : Scalar → Layer α
  | .null => .null
  | .bool b => .number (if b then 1 else 0)
  | .int i => .number i
  | .float _ => .unknown
  | .str t => .text t
  | .bytes bs => .bytes bs

/-- The layer of a container, given what its parts mean. -/
def Container.layer {α : Type} (meaning : Value → α) : Container → Layer α
  | .list xs => .list (xs.map meaning)
  | .tuple xs => .tuple (xs.map meaning)
  | .dict es => .dict (es.map fun e => (meaning e.1, meaning e.2) : List (α × α))
  | .set ms => .set (ms.map meaning : List α)
  | .frozenset ms => .set (ms.map meaning : List α)
  | .object name attrs _ => .object name (attrs.map fun a => (a.1, meaning a.2) : List (String × α))

/-- The names of the attributes of an object. -/
def Container.attrNames : Container → List String
  | .object _ attrs _ => attrs.map Prod.fst
  | _ => []

namespace Store

variable {s : Store} {v a b x : Value} {n m : Nat}

/-- What a value means, down to a number of layers. -/
def meaning (s : Store) : (n : Nat) → Value → Meaning n
  | 0, _ => ()
  | _ + 1, .scalar x => x.layer
  | n + 1, .ref h =>
    match s.get? h with
    | some c => c.layer (s.meaning n)
    | none => .unknown

/-- A value that does not hold itself and has no doubles in it.  The keys of each of its dicts differ
from one another, and so do the members of each set and the attributes of each object. -/
structure Equatable (s : Store) (v : Value) : Prop where
  holdsGraph : s.HoldsGraph v
  acyclic : s.IsAcyclic v
  noFloat : ∀ f, ¬s.Reaches v (.float f)
  distinct : ∀ h c, s.Reaches v (.ref h) → s.get? h = some c →
    c.hashed.Pairwise fun a b => s.sameKey b a = false
  named : ∀ h c, s.Reaches v (.ref h) → s.get? h = some c → c.attrNames.Nodup

theorem Equatable.of_reaches (hv : s.Equatable v) (hx : s.Reaches v x) : s.Equatable x where
  holdsGraph := hv.holdsGraph.of_reaches hx
  acyclic := hv.acyclic.of_reaches hx
  noFloat := fun f hf => hv.noFloat f (hx.trans hf)
  distinct := fun h c hh => hv.distinct h c (hx.trans hh)
  named := fun h c hh => hv.named h c (hx.trans hh)

theorem Equatable.levels (hv : s.Equatable v) : s.Levels (s.size + 1) v :=
  levels_of_isAcyclic hv.holdsGraph hv.acyclic

/-- Scalars other than doubles are equal, or the same key, if they mean the same. -/
theorem scalar_iff_layer {α : Type} {x y : Scalar} (hx : x.kind ≠ .float) (hy : y.kind ≠ .float)
    (asKey : Bool) :
    (if asKey then x.sameKey y else x.equals y) = true ↔ (x.layer : Layer α) = y.layer := by
  have hkey : (if asKey then x.sameKey y else x.equals y) = x.equals y := by
    cases asKey with
    | false => rfl
    | true =>
      rw [if_pos rfl, Bool.eq_iff_iff]
      exact ⟨fun h => (Bool.and_eq_true_iff.mp h).1, Scalar.sameKey_of_equals hx hy⟩
  rw [hkey]
  cases x with
  | float f => exact absurd rfl hx
  | _ => cases y with
    | float f => exact absurd rfl hy
    | _ => simp [Scalar.equals, Scalar.toInt?, Scalar.toFloat?, Scalar.layer]

/-! ### Lists of parts -/

section

variable {α β κ μ : Type}

theorem itemsEqual_iff_map {eq : Value → Value → Bool} {f : Value → α} : ∀ {xs ys : List Value},
    (∀ x ∈ xs, ∀ y ∈ ys, (eq x y = true ↔ f x = f y)) →
    (equalsWithin.itemsEqual eq xs ys = true ↔ xs.map f = ys.map f)
  | [], [], _ => by simp [equalsWithin.itemsEqual]
  | [], y :: ys, _ => by simp [equalsWithin.itemsEqual]
  | x :: xs, [], _ => by simp [equalsWithin.itemsEqual]
  | x :: xs, y :: ys, heq => by
    have hhead := heq x (List.mem_cons_self ..) y (List.mem_cons_self ..)
    have htail : equalsWithin.itemsEqual eq xs ys = true ↔ xs.map f = ys.map f :=
      itemsEqual_iff_map fun x hx y hy =>
        heq x (List.mem_cons_of_mem _ hx) y (List.mem_cons_of_mem _ hy)
    rw [equalsWithin.itemsEqual, Bool.and_eq_true, hhead, htail, List.map_cons, List.map_cons,
      List.cons.injEq]

/-- Of two lists of one length, one without repetitions inside of the other is a rearrangement. -/
theorem perm_iff_subset {xs ys : List α} (hnodup : xs.Nodup) :
    xs.length = ys.length ∧ xs ⊆ ys ↔ xs.Perm ys := by
  constructor
  · rintro ⟨hlength, hsubset⟩
    exact (List.subperm_of_subset hnodup hsubset).perm_of_length_le hlength.ge
  · intro hperm
    exact ⟨hperm.length_eq, hperm.subset⟩

/-- The members of one are found in the other, and they are as many. -/
theorem members_iff_perm {xs ys : List α} {eq : α → α → Bool} {f : α → β}
    (heq : ∀ x ∈ xs, ∀ y ∈ ys, (eq x y = true ↔ f x = f y)) (hnodup : (xs.map f).Nodup) :
    (xs.length == ys.length && xs.all fun x => ys.any fun y => eq x y) = true ↔
      (xs.map f).Perm (ys.map f) := by
  rw [← perm_iff_subset hnodup, List.length_map, List.length_map, Bool.and_eq_true, beq_iff_eq,
    List.all_eq_true]
  refine and_congr_right fun _ => ?_
  simp only [List.any_eq_true]
  constructor
  · intro hall z hz
    obtain ⟨x, hx, rfl⟩ := List.mem_map.mp hz
    obtain ⟨y, hy, hxy⟩ := hall x hx
    exact List.mem_map.mpr ⟨y, hy, ((heq x hx y hy).mp hxy).symm⟩
  · intro hsubset x hx
    obtain ⟨y, hy, hxy⟩ := List.mem_map.mp (hsubset (List.mem_map_of_mem hx))
    exact ⟨y, hy, (heq x hx y hy).mpr hxy.symm⟩

/-- The value that is found at the key of an entry is the one of the entry. -/
def findsEntry (eqKey : κ → κ → Bool) (eqValue : μ → μ → Bool) (fs : List (κ × μ)) (e : κ × μ) :
    Bool :=
  match fs.find? fun f => eqKey e.1 f.1 with
  | some f => eqValue f.2 e.2
  | none => false

theorem findsEntry_iff_mem {fs : List (κ × μ)} {e : κ × μ} {eqKey : κ → κ → Bool}
    {eqValue : μ → μ → Bool} {key : κ → α} {value : μ → β}
    (hkey : ∀ f ∈ fs, (eqKey e.1 f.1 = true ↔ key e.1 = key f.1))
    (hvalue : ∀ f ∈ fs, (eqValue f.2 e.2 = true ↔ value f.2 = value e.2))
    (hnodup : (fs.map fun f => key f.1).Nodup) :
    findsEntry eqKey eqValue fs e = true ↔
      (key e.1, value e.2) ∈ fs.map fun f => (key f.1, value f.2) := by
  rw [findsEntry]
  cases hfind : fs.find? fun f => eqKey e.1 f.1 with
  | none =>
    refine iff_of_false Bool.false_ne_true fun hmem => ?_
    obtain ⟨f, hf, hpair⟩ := List.mem_map.mp hmem
    obtain ⟨hsame, -⟩ := Prod.mk.inj hpair
    exact List.find?_eq_none.mp hfind f hf ((hkey f hf).mpr hsame.symm)
  | some f =>
    have hf := List.mem_of_find?_eq_some hfind
    have hfound : key e.1 = key f.1 := (hkey f hf).mp (by simpa using List.find?_some hfind)
    refine (hvalue f hf).trans ⟨fun hsame => ?_, fun hmem => ?_⟩
    · exact List.mem_map.mpr ⟨f, hf, by rw [hfound, hsame]⟩
    · obtain ⟨g, hg, hpair⟩ := List.mem_map.mp hmem
      obtain ⟨hsame, hvalues⟩ := Prod.mk.inj hpair
      -- The keys differ, so that the entry which is found is the one that was there.
      have hgf : g = f := List.inj_on_of_nodup_map hnodup hg hf (hsame.trans hfound)
      rw [← hvalues, hgf]

/-- The entries of one are found in the other, and they are as many. -/
theorem entries_iff_perm {es fs : List (κ × μ)} {eqKey : κ → κ → Bool} {eqValue : μ → μ → Bool}
    {key : κ → α} {value : μ → β}
    (hkey : ∀ e ∈ es, ∀ f ∈ fs, (eqKey e.1 f.1 = true ↔ key e.1 = key f.1))
    (hvalue : ∀ e ∈ es, ∀ f ∈ fs, (eqValue f.2 e.2 = true ↔ value f.2 = value e.2))
    (hes : (es.map fun e => key e.1).Nodup) (hfs : (fs.map fun f => key f.1).Nodup) :
    (es.length == fs.length && es.all (findsEntry eqKey eqValue fs)) = true ↔
      (es.map fun e => (key e.1, value e.2)).Perm (fs.map fun f => (key f.1, value f.2)) := by
  have hnodup : (es.map fun e => (key e.1, value e.2)).Nodup := by
    have hkeys : ((es.map fun e => (key e.1, value e.2)).map Prod.fst).Nodup := by
      rwa [List.map_map]
    exact hkeys.of_map
  rw [← perm_iff_subset hnodup, List.length_map, List.length_map, Bool.and_eq_true, beq_iff_eq,
    List.all_eq_true]
  refine and_congr_right fun _ => ?_
  constructor
  · intro hall z hz
    obtain ⟨e, he, rfl⟩ := List.mem_map.mp hz
    exact (findsEntry_iff_mem (hkey e he) (hvalue e he) hfs).mp (hall e he)
  · intro hsubset e he
    exact (findsEntry_iff_mem (hkey e he) (hvalue e he) hfs).mpr
      (hsubset (List.mem_map_of_mem he))

end

/-! ### Equality -/

theorem equalsWithin_dict {g h : Handle} {es fs : List (Value × Value)} {asKey : Bool}
    (hg : s.get? g = some (.dict es)) (hh : s.get? h = some (.dict fs)) (hne : g ≠ h) :
    s.equalsWithin (n + 1) asKey (.ref g) (.ref h) =
      (es.length == fs.length && es.all (findsEntry (s.equalsWithin n (asKey || fs.length != 1))
        (s.equalsWithin n asKey) fs)) := by
  simp only [equalsWithin, beq_false_of_ne hne, Bool.false_or, hg, hh]
  congr 2
  funext e
  rw [findsEntry]
  cases fs.find? fun f => s.equalsWithin n (asKey || fs.length != 1) e.1 f.1 <;> rfl

theorem lookup_eq_find? {β : Type} (name : String) : ∀ attrs : List (String × β),
    attrs.lookup name = (attrs.find? fun a => name == a.1).map Prod.snd
  | [] => rfl
  | (key, v) :: attrs => by
    rw [List.lookup, List.find?]
    cases name == key with
    | true => rfl
    | false => exact lookup_eq_find? name attrs

theorem equalsWithin_object {g h : Handle} {name other : String} {as bs : List (String × Value)}
    {frozen frozen' asKey : Bool} (hg : s.get? g = some (.object name as frozen))
    (hh : s.get? h = some (.object other bs frozen')) (hne : g ≠ h) :
    s.equalsWithin (n + 1) asKey (.ref g) (.ref h) =
      (name == other && (as.length == bs.length &&
        as.all (findsEntry (· == ·) (s.equalsWithin n asKey) bs))) := by
  simp only [equalsWithin, beq_false_of_ne hne, Bool.false_or, hg, hh, Bool.and_assoc]
  congr 3
  funext a
  rw [findsEntry, lookup_eq_find?]
  cases bs.find? fun b => a.1 == b.1 <;> rfl

theorem equalsWithin_members {g h : Handle} {c d : Container} {xs ys : List Value} {asKey : Bool}
    (hg : s.get? g = some c) (hh : s.get? h = some d) (hne : g ≠ h)
    (hc : c = .set xs ∨ c = .frozenset xs) (hd : d = .set ys ∨ d = .frozenset ys) :
    s.equalsWithin (n + 1) asKey (.ref g) (.ref h) =
      (xs.length == ys.length && xs.all fun x =>
        ys.any fun y => s.equalsWithin n (asKey || ys.length != 1) x y) := by
  rcases hc with rfl | rfl <;> rcases hd with rfl | rfl <;>
    simp only [equalsWithin, beq_false_of_ne hne, Bool.false_or, hg, hh, equalsWithin.membersEqual]

/-- **Two containers are equal if their layers are**, where the parts are equal if they mean the
same. -/
theorem equalsWithin_iff_layer {α : Type} {f : Value → α} {g h : Handle} {c d : Container}
    {asKey : Bool} (hg : s.get? g = some c) (hh : s.get? h = some d) (hne : g ≠ h)
    (hforth : ∀ asKey, ∀ x ∈ c.parts, ∀ y ∈ d.parts, (s.equalsWithin n asKey x y = true ↔ f x = f y))
    (hback : ∀ asKey, ∀ x ∈ c.parts, ∀ y ∈ d.parts, (s.equalsWithin n asKey y x = true ↔ f y = f x))
    (hc : (c.hashed.map f).Nodup) (hd : (d.hashed.map f).Nodup)
    (hcnames : c.attrNames.Nodup) (hdnames : d.attrNames.Nodup) :
    s.equalsWithin (n + 1) asKey (.ref g) (.ref h) = true ↔ c.layer f = d.layer f := by
  have members {xs ys : List Value} (hxs : c = .set xs ∨ c = .frozenset xs)
      (hys : d = .set ys ∨ d = .frozenset ys) :
      s.equalsWithin (n + 1) asKey (.ref g) (.ref h) = true ↔ (xs.map f).Perm (ys.map f) := by
    have hnodup : (xs.map f).Nodup := by rcases hxs with rfl | rfl <;> exact hc
    rw [equalsWithin_members hg hh hne hxs hys]
    refine members_iff_perm (fun x hx y hy => ?_) hnodup
    refine hforth _ x ?_ y ?_
    · rcases hxs with rfl | rfl <;> exact hx
    · rcases hys with rfl | rfl <;> exact hy
  cases c with
  | list xs =>
    cases d with
    | list ys =>
      simp only [equalsWithin, beq_false_of_ne hne, Bool.false_or, hg, hh, Container.layer,
        Layer.list.injEq]
      exact itemsEqual_iff_map (hforth asKey)
    | _ => simp [equalsWithin, hne, hg, hh, Container.layer]
  | tuple xs =>
    cases d with
    | tuple ys =>
      simp only [equalsWithin, beq_false_of_ne hne, Bool.false_or, hg, hh, Container.layer,
        Layer.tuple.injEq]
      exact itemsEqual_iff_map (hforth asKey)
    | _ => simp [equalsWithin, hne, hg, hh, Container.layer]
  | dict es =>
    cases d with
    | dict fs =>
      have hkeyOf {e : Value × Value} {es : List (Value × Value)} (he : e ∈ es) :
          e.1 ∈ (Container.dict es).parts := List.mem_flatMap.mpr ⟨e, he, by simp⟩
      have hvalueOf {e : Value × Value} {es : List (Value × Value)} (he : e ∈ es) :
          e.2 ∈ (Container.dict es).parts := List.mem_flatMap.mpr ⟨e, he, by simp⟩
      rw [equalsWithin_dict hg hh hne, Container.layer, Container.layer, Layer.dict.injEq,
        Multiset.coe_eq_coe]
      refine entries_iff_perm (fun e he e' he' => ?_) (fun e he e' he' => ?_) ?_ ?_
      · exact hforth _ _ (hkeyOf he) _ (hkeyOf he')
      · exact hback _ _ (hvalueOf he) _ (hvalueOf he')
      · rwa [Container.hashed, List.map_map] at hc
      · rwa [Container.hashed, List.map_map] at hd
    | _ => simp [equalsWithin, hne, hg, hh, Container.layer]
  | set xs =>
    cases d with
    | set ys => exact (members (.inl rfl) (.inl rfl)).trans (by simp [Container.layer])
    | frozenset ys => exact (members (.inl rfl) (.inr rfl)).trans (by simp [Container.layer])
    | _ => simp [equalsWithin, hne, hg, hh, Container.layer]
  | frozenset xs =>
    cases d with
    | set ys => exact (members (.inr rfl) (.inl rfl)).trans (by simp [Container.layer])
    | frozenset ys => exact (members (.inr rfl) (.inr rfl)).trans (by simp [Container.layer])
    | _ => simp [equalsWithin, hne, hg, hh, Container.layer]
  | object name as frozen =>
    cases d with
    | object other bs frozen' =>
      rw [equalsWithin_object hg hh hne, Container.layer, Container.layer, Layer.object.injEq,
        Multiset.coe_eq_coe, Bool.and_eq_true, beq_iff_eq]
      refine and_congr_right fun _ => ?_
      have has : (as.map fun a => id a.1).Nodup := hcnames
      have hbs : (bs.map fun b => id b.1).Nodup := hdnames
      refine entries_iff_perm (fun a _ b _ => ?_) (fun a ha b hb => ?_) has hbs
      · exact beq_iff_eq
      · exact hback _ _ (List.mem_map_of_mem ha) _ (List.mem_map_of_mem hb)
    | _ => simp [equalsWithin, hne, hg, hh, Container.layer]

/-- A scalar means something else than a container. -/
theorem layer_ne_layer {α : Type} (x : Scalar) (c : Container) (f : Value → α) :
    x.layer ≠ c.layer f := by
  cases x <;> cases c <;> simp [Scalar.layer, Container.layer]

theorem hashed_subset_parts (c : Container) : c.hashed ⊆ c.parts := by
  cases c with
  | dict es =>
    intro k hk
    obtain ⟨e, he, rfl⟩ := List.mem_map.mp hk
    exact List.mem_flatMap.mpr ⟨e, he, by simp⟩
  | set ms => exact fun _ h => h
  | frozenset ms => exact fun _ h => h
  | list xs => simp [Container.hashed]
  | tuple xs => simp [Container.hashed]
  | object name attrs frozen => simp [Container.hashed]

theorem Equatable.kind_ne_float {x : Scalar} (h : s.Equatable (.scalar x)) : x.kind ≠ .float := by
  cases x with
  | float f => exact absurd (.refl s _) (h.noFloat f)
  | _ => rintro ⟨⟩

/-- **Values are equal if they mean the same**, to every depth that is enough for them. -/
theorem equalsWithin_iff_meaning : ∀ (n : Nat) {m : Nat} {a b : Value} (asKey : Bool),
    n ≤ s.comparisonDepth → n ≤ m → s.Levels n a → s.Levels n b → s.Equatable a →
    s.Equatable b → (s.equalsWithin m asKey a b = true ↔ s.meaning n a = s.meaning n b)
  | 0, _, _, _, _, _, _, ha, _, _, _ => ha.elim
  | n + 1, 0, _, _, _, _, hm, _, _, _, _ => absurd hm (Nat.not_succ_le_zero n)
  | n + 1, m + 1, .scalar x, .scalar y, asKey, _, _, _, _, hx, hy => by
    rw [equalsWithin]
    exact scalar_iff_layer hx.kind_ne_float hy.kind_ne_float asKey
  | n + 1, m + 1, .scalar x, .ref h, asKey, _, _, _, hlevels, _, _ => by
    obtain ⟨d, hh, -⟩ := hlevels
    simp only [equalsWithin, meaning, hh]
    exact iff_of_false Bool.false_ne_true (layer_ne_layer x d _)
  | n + 1, m + 1, .ref g, .scalar y, asKey, _, _, hlevels, _, _, _ => by
    obtain ⟨c, hg, -⟩ := hlevels
    simp only [equalsWithin, meaning, hg]
    exact iff_of_false Bool.false_ne_true (layer_ne_layer y c _).symm
  | n + 1, m + 1, .ref g, .ref h, asKey, hdepth, hm, hlevels, hlevels', ha, hb => by
    by_cases hne : g = h
    · rw [hne, equalsWithin, beq_self_eq_true, Bool.true_or]
      exact iff_of_true rfl rfl
    have ih {k : Nat} {x y : Value} (asKey : Bool) (hk : n ≤ k) :=
      equalsWithin_iff_meaning n (m := k) (a := x) (b := y) asKey (by omega) hk
    obtain ⟨c, hg, hc⟩ := hlevels
    obtain ⟨d, hh, hd⟩ := hlevels'
    have part {v : Value} {r : Handle} {e : Container} (hv : s.Equatable (.ref r))
        (hr : s.get? r = some e) (hv' : v ∈ e.parts) : s.Equatable v :=
      hv.of_reaches (Part.reaches ⟨e, hr, hv'⟩)
    -- Different keys of one container are compared by the same test, so they differ in meaning.
    have differ {r : Handle} {e : Container} (hv : s.Equatable (.ref r))
        (hr : s.get? r = some e) (he : ∀ x ∈ e.parts, s.Levels n x) :
        (e.hashed.map (s.meaning n)).Nodup := by
      refine List.pairwise_map.mpr ((hv.distinct r e (.refl s _) hr).imp_of_mem ?_)
      intro x y hx hy hxy hsame
      have hx := hashed_subset_parts e hx
      have hy := hashed_subset_parts e hy
      have hkey : s.sameKey y x = true :=
        (ih true (by omega) (he y hy) (he x hx) (part hv hr hy) (part hv hr hx)).mpr hsame.symm
      rw [hxy] at hkey
      exact Bool.false_ne_true hkey
    simp only [meaning, hg, hh]
    refine equalsWithin_iff_layer hg hh hne ?_ ?_ (differ ha hg hc) (differ hb hh hd)
      (ha.named g c (.refl s _) hg) (hb.named h d (.refl s _) hh)
    · intro asKey x hx y hy
      exact ih asKey (by omega) (hc x hx) (hd y hy) (part ha hg hx) (part hb hh hy)
    · intro asKey x hx y hy
      exact ih asKey (by omega) (hd y hy) (hc x hx) (part hb hh hy) (part ha hg hx)

/-- The meaning of a value, with all of its layers. -/
def fullMeaning (s : Store) (v : Value) : Meaning (s.size + 1) := s.meaning (s.size + 1) v

/-- Values without doubles that do not hold themselves are equal if they mean the same. -/
theorem equals_iff_meaning (ha : s.Equatable a) (hb : s.Equatable b) :
    s.equals a b = true ↔ s.fullMeaning a = s.fullMeaning b :=
  equalsWithin_iff_meaning _ false s.size_lt_comparisonDepth s.size_lt_comparisonDepth
    ha.levels hb.levels ha hb

/-- So they are the same key, however a collection looks them up. -/
theorem findsKey_iff_meaning (ha : s.Equatable a) (hb : s.Equatable b) (count : Nat) :
    s.findsKey count a b = true ↔ s.fullMeaning a = s.fullMeaning b :=
  equalsWithin_iff_meaning _ _ s.size_lt_comparisonDepth s.size_lt_comparisonDepth
    ha.levels hb.levels ha hb

/-! ### Containers with equal parts -/

section

variable {α β γ : Type} {R : α → β → Prop} {f : α → γ} {g : β → γ}

theorem forall₂_iff_map_eq : ∀ {xs : List α} {ys : List β},
    (∀ x ∈ xs, ∀ y ∈ ys, (R x y ↔ f x = g y)) → (List.Forall₂ R xs ys ↔ xs.map f = ys.map g)
  | [], [], _ => by simp
  | [], y :: ys, _ => by simp
  | x :: xs, [], _ => by simp
  | x :: xs, y :: ys, h => by
    have hhead := h x (List.mem_cons_self ..) y (List.mem_cons_self ..)
    have htail : List.Forall₂ R xs ys ↔ xs.map f = ys.map g :=
      forall₂_iff_map_eq fun x hx y hy =>
        h x (List.mem_cons_of_mem _ hx) y (List.mem_cons_of_mem _ hy)
    rw [List.forall₂_cons, hhead, htail, List.map_cons, List.map_cons, List.cons.injEq]

/-- The first list can be rearranged so that it is related to the second one by one. -/
theorem exists_perm_forall₂_iff {xs : List α} {ys : List β}
    (h : ∀ x ∈ xs, ∀ y ∈ ys, (R x y ↔ f x = g y)) :
    (∃ zs, xs.Perm zs ∧ List.Forall₂ R zs ys) ↔ (xs.map f).Perm (ys.map g) := by
  have hzs {zs : List α} (hperm : xs.Perm zs) : List.Forall₂ R zs ys ↔ zs.map f = ys.map g :=
    forall₂_iff_map_eq fun z hz y hy => h z (hperm.mem_iff.mpr hz) y hy
  constructor
  · rintro ⟨zs, hperm, hrel⟩
    rw [← (hzs hperm).mp hrel]
    exact hperm.map f
  · intro hperm
    have hcomp : Relation.Comp (· = List.map f ·) List.Perm (ys.map g) xs := by
      rw [List.eq_map_comp_perm]
      exact hperm.symm
    obtain ⟨zs, hmap, hxs⟩ := hcomp
    exact ⟨zs, hxs.symm, (hzs hxs.symm).mpr hmap.symm⟩

end

end Store

/-- The containers hold parts that are the same in a sense: lists and tuples in order, the others in
any order.  A set may be frozen, and so may an object. -/
def Container.Agrees (same : Value → Value → Prop) : Container → Container → Prop
  | .list xs, .list ys => List.Forall₂ same xs ys
  | .tuple xs, .tuple ys => List.Forall₂ same xs ys
  | .dict es, .dict fs =>
    ∃ es', es.Perm es' ∧ List.Forall₂ (fun e f => same e.1 f.1 ∧ same e.2 f.2) es' fs
  | .set xs, .set ys | .set xs, .frozenset ys | .frozenset xs, .set ys
  | .frozenset xs, .frozenset ys => ∃ xs', xs.Perm xs' ∧ List.Forall₂ same xs' ys
  | .object name as _, .object other bs _ =>
    name = other ∧ ∃ as', as.Perm as' ∧ List.Forall₂ (fun a b => a.1 = b.1 ∧ same a.2 b.2) as' bs
  | _, _ => False

namespace Store

variable {s : Store} {a b : Value}

/-- Layers are the same if the containers hold parts of the same meaning. -/
theorem layer_eq_iff_agrees {α : Type} {f : Value → α} {same : Value → Value → Prop}
    {c d : Container} (hsame : ∀ x ∈ c.parts, ∀ y ∈ d.parts, (same x y ↔ f x = f y)) :
    c.layer f = d.layer f ↔ c.Agrees same d := by
  have members {xs ys : List Value} (hmem : ∀ x ∈ xs, ∀ y ∈ ys, (same x y ↔ f x = f y)) :
      (Layer.set (xs.map f : List α) : Layer α) = Layer.set (ys.map f : List α) ↔
        ∃ xs', xs.Perm xs' ∧ List.Forall₂ same xs' ys := by
    rw [Layer.set.injEq, Multiset.coe_eq_coe, exists_perm_forall₂_iff hmem]
  cases c with
  | list xs =>
    cases d with
    | list ys => exact Layer.list.injEq _ _ ▸ (forall₂_iff_map_eq hsame).symm
    | _ => simp [Container.layer, Container.Agrees]
  | tuple xs =>
    cases d with
    | tuple ys => exact Layer.tuple.injEq _ _ ▸ (forall₂_iff_map_eq hsame).symm
    | _ => simp [Container.layer, Container.Agrees]
  | dict es =>
    cases d with
    | dict fs =>
      have hpart {e : Value × Value} {es : List (Value × Value)} (he : e ∈ es) :
          e.1 ∈ (Container.dict es).parts ∧ e.2 ∈ (Container.dict es).parts :=
        ⟨List.mem_flatMap.mpr ⟨e, he, by simp⟩, List.mem_flatMap.mpr ⟨e, he, by simp⟩⟩
      rw [Container.layer, Container.layer, Layer.dict.injEq, Multiset.coe_eq_coe, Container.Agrees]
      refine (exists_perm_forall₂_iff fun e he e' he' => ?_).symm
      rw [Prod.mk.injEq, hsame _ (hpart he).1 _ (hpart he').1, hsame _ (hpart he).2 _ (hpart he').2]
    | _ => simp [Container.layer, Container.Agrees]
  | set xs =>
    cases d with
    | set ys => exact members hsame
    | frozenset ys => exact members hsame
    | _ => simp [Container.layer, Container.Agrees]
  | frozenset xs =>
    cases d with
    | set ys => exact members hsame
    | frozenset ys => exact members hsame
    | _ => simp [Container.layer, Container.Agrees]
  | object name as frozen =>
    cases d with
    | object other bs frozen' =>
      rw [Container.layer, Container.layer, Layer.object.injEq, Multiset.coe_eq_coe,
        Container.Agrees]
      refine and_congr_right fun _ => (exists_perm_forall₂_iff fun a ha b hb => ?_).symm
      rw [Prod.mk.injEq, hsame _ (List.mem_map_of_mem ha) _ (List.mem_map_of_mem hb)]
    | _ => simp [Container.layer, Container.Agrees]

/-- **Containers are equal if they hold equal parts.** -/
theorem equals_iff_agrees (ha : s.Equatable a) (hb : s.Equatable b) {c d : Container}
    (hc : s.container? a = some c) (hd : s.container? b = some d) :
    s.equals a b = true ↔ c.Agrees (fun x y => s.equals x y = true) d := by
  have opened {v : Value} {c : Container} (hv : s.Equatable v) (hc : s.container? v = some c) :
      s.fullMeaning v = c.layer (s.meaning s.size) ∧
        ∀ x ∈ c.parts, s.Levels s.size x ∧ s.Equatable x := by
    cases v with
    | scalar x => cases hc
    | ref h =>
      have hh : s.get? h = some c := hc
      obtain ⟨c', hc', hparts⟩ := hv.levels
      cases hh.symm.trans hc'
      refine ⟨by rw [fullMeaning, meaning, hh], fun x hx => ⟨hparts x hx, ?_⟩⟩
      exact hv.of_reaches (Part.reaches ⟨c, hc, hx⟩)
  obtain ⟨hmeans, hx⟩ := opened ha hc
  obtain ⟨hmeans', hy⟩ := opened hb hd
  rw [equals_iff_meaning ha hb, hmeans, hmeans']
  refine layer_eq_iff_agrees fun x hxc y hyd => ?_
  have hdepth := Nat.le_of_lt s.size_lt_comparisonDepth
  exact equalsWithin_iff_meaning _ false hdepth hdepth (hx x hxc).1 (hy y hyd).1 (hx x hxc).2
    (hy y hyd).2

end Store

end DottedPath
