import DottedPath.Proofs.Evaluate.FencedCopy
import DottedPath.Proofs.Value.LiteralValue
import DottedPath.Proofs.Value.Unfolding

/-!
# Values and what copying has made of them

While a value is being copied, the copy of a list, a dict, a set or an object is known by its note,
even if it is not filled yet.  A tuple or a frozen set has been copied by a new one whose parts are
copies (`Copies.Mirrors`); there may be several such copies of it.

Copies of keys are the same keys as the originals are (`Copies.equalsWithin_of_mirrors`), so a dict
or a set that is filled with copies takes each of them as a new key.
-/

namespace DottedPath

/-- The container at a handle is a list, a dict, a set or an object. -/
def Store.OpenAt (s : Store) (h : Handle) : Prop :=
  ∃ c, s.get? h = some c ∧ c.isOpen = true

@[simp] theorem Container.isOpen_blank (c : Container) : c.blank.isOpen = c.isOpen := by
  cases c <;> rfl

theorem Container.Alike.isOpen_eq {R : Value → Value → Prop} {c d : Container} (h : Alike R c d) :
    d.isOpen = c.isOpen := by
  rw [← c.isOpen_blank, h.blank, d.isOpen_blank]

namespace Copies

/-- The second value is what copying has made, or has begun to make, of the first one. -/
inductive Mirrors (m : Copies) (s t : Store) : Value → Value → Prop where
  | scalar (a : Scalar) : Mirrors m s t (.scalar a) (.scalar a)
  | noted {h : Handle} {w : Value} (hopen : s.OpenAt h) (hw : m.lookup h = some w) :
    Mirrors m s t (.ref h) w
  | closed {h g : Handle} {c d : Container} (hc : s.get? h = some c) (hclosed : c.isOpen = false)
    (hd : t.get? g = some d) (hnew : s.size ≤ g.index) (hblank : c.blank = d.blank)
    (hparts : ∀ (i : Nat) x y, c.parts[i]? = some x → d.parts[i]? = some y → Mirrors m s t x y) :
    Mirrors m s t (.ref h) (.ref g)

variable {m m' m'' : Copies} {s t t' t'' : Store} {v w a b a' b' : Value} {c d : Container}

/-- The notes of open containers stay, and so do the closed containers. -/
structure Carries (s : Store) (m : Copies) (t : Store) (m' : Copies) (t' : Store) : Prop where
  notes : ∀ h w, s.OpenAt h → m.lookup h = some w → m'.lookup h = some w
  cells : ∀ g d, t.get? g = some d → d.isOpen = false → t'.get? g = some d

theorem Mirrors.carry (hcarry : Carries s m t m' t') (h : m.Mirrors s t v w) :
    m'.Mirrors s t' v w := by
  induction h with
  | scalar a => exact .scalar a
  | noted hopen hw => exact .noted hopen (hcarry.notes _ _ hopen hw)
  | @closed h g c d hc hclosed hd hnew hblank _ ih =>
    refine .closed hc hclosed (hcarry.cells g d hd ?_) hnew hblank ih
    rw [← d.isOpen_blank, ← hblank, c.isOpen_blank, hclosed]

theorem length_parts_of_blank (h : c.blank = d.blank) : c.parts.length = d.parts.length := by
  have hlength (c : Container) : c.blank.parts.length = c.parts.length := by
    cases c <;> simp [Container.blank, Container.parts]
  rw [← hlength, h, hlength]

/-- A closed container has been copied by one that is alike. -/
theorem Mirrors.alike_of_closed {h : Handle} (hmirror : m.Mirrors s t (.ref h) w)
    (hc : s.get? h = some c) (hclosed : c.isOpen = false) :
    ∃ g d, w = .ref g ∧ t.get? g = some d ∧ s.size ≤ g.index ∧
      Container.Alike (m.Mirrors s t) c d := by
  cases hmirror with
  | noted hopen hw =>
    obtain ⟨c', hc', hopen⟩ := hopen
    cases hc.symm.trans hc'
    rw [hclosed] at hopen
    cases hopen
  | @closed _ g c' d hc' _ hd hnew hblank hparts =>
    cases hc.symm.trans hc'
    refine ⟨g, d, rfl, hd, hnew, hblank, ?_⟩
    refine List.forall₂_of_length_eq_of_get (length_parts_of_blank hblank) fun i hi hi' => ?_
    exact hparts i _ _ (List.getElem?_eq_getElem hi) (List.getElem?_eq_getElem hi')

/-- A container that is alike and closed is a copy. -/
theorem mirrors_of_alike {h g : Handle} (hc : s.get? h = some c) (hclosed : c.isOpen = false)
    (hd : t.get? g = some d) (hnew : s.size ≤ g.index)
    (halike : Container.Alike (m.Mirrors s t) c d) : m.Mirrors s t (.ref h) (.ref g) := by
  refine .closed hc hclosed hd hnew halike.blank fun i x y hx hy => ?_
  have hpart := halike.part i
  rw [hx, hy] at hpart
  cases hpart with
  | some hxy => exact hxy

end Copies

/-! ### Keys -/

/-- What is looked up in a container by its hash: the keys of a dict, the members of a set. -/
def Container.hashed : Container → List Value
  | dict es => es.map Prod.fst
  | set ms => ms
  | frozenset ms => ms
  | _ => []

namespace Store

variable {s t : Store} {r : Value}

/-- Scalars other than doubles, and tuples and frozen sets of such keys. -/
inductive IsHashable (s : Store) : Value → Prop where
  | scalar {x : Scalar} (h : x.kind ≠ .float) : IsHashable s (.scalar x)
  | container {h : Handle} {c : Container} (hc : s.get? h = some c) (hclosed : c.isOpen = false)
    (hparts : ∀ x ∈ c.parts, IsHashable s x) : IsHashable s (.ref h)

/-- The dicts and sets that a value reaches have such keys, each another one than those before. -/
structure KeyedGraph (s : Store) (v : Value) : Prop where
  hashable : ∀ h c, s.Reaches v (.ref h) → s.get? h = some c → ∀ k ∈ c.hashed, s.IsHashable k
  distinct : ∀ h c, s.Reaches v (.ref h) → s.get? h = some c →
    c.hashed.Pairwise fun a b => s.sameKey b a = false

theorem IsHashable.equalsWithin_self {k : Value} (h : s.IsHashable k) (n : Nat) (asKey : Bool) :
    s.equalsWithin (n + 1) asKey k k = true := by
  cases h with
  | scalar hx =>
    rw [equalsWithin]
    cases asKey with
    | false => exact Scalar.equals_self hx
    | true => exact Scalar.sameKey_self hx
  | container hc => rw [equalsWithin, beq_self_eq_true, Bool.true_or]

/-- Equality of two tuples or two frozen sets by a test for their parts. -/
def closedEqual (eq : Bool → Value → Value → Bool) (asKey : Bool) : Container → Container → Bool
  | .tuple xs, .tuple ys => equalsWithin.itemsEqual (eq asKey) xs ys
  | .frozenset xs, .frozenset ys => xs.length == ys.length && xs.all fun x =>
      ys.any fun y => eq (asKey || ys.length != 1) x y
  | _, _ => false

theorem itemsEqual_self {eq : Value → Value → Bool} : ∀ {xs : List Value},
    (∀ x ∈ xs, eq x x = true) → equalsWithin.itemsEqual eq xs xs = true
  | [], _ => rfl
  | x :: xs, hself => by
    rw [equalsWithin.itemsEqual, hself x (List.mem_cons_self ..), Bool.true_and]
    exact itemsEqual_self fun y hy => hself y (List.mem_cons_of_mem _ hy)

theorem closedEqual_self {eq : Bool → Value → Value → Bool} {asKey : Bool} {c : Container}
    (hclosed : c.isOpen = false) (hself : ∀ asKey, ∀ x ∈ c.parts, eq asKey x x = true) :
    closedEqual eq asKey c c = true := by
  cases c with
  | tuple xs => exact itemsEqual_self (hself asKey)
  | frozenset xs =>
    rw [closedEqual, beq_self_eq_true, Bool.true_and, List.all_eq_true]
    exact fun x hx => List.any_eq_true.mpr ⟨x, hx, hself _ x hx⟩
  | _ => cases hclosed

/-- Tuples and frozen sets whose parts are equal to themselves are compared part by part, also if
they have the same handle. -/
theorem equalsWithin_closed {g h : Handle} {c d : Container} {n : Nat} {asKey : Bool}
    (hg : s.get? g = some c) (hh : s.get? h = some d) (hc : c.isOpen = false)
    (hd : d.isOpen = false) (hself : ∀ asKey, ∀ x ∈ c.parts, s.equalsWithin n asKey x x = true) :
    s.equalsWithin (n + 1) asKey (.ref g) (.ref h) = closedEqual (s.equalsWithin n) asKey c d := by
  by_cases he : g = h
  · subst he
    cases hg.symm.trans hh
    rw [equalsWithin, beq_self_eq_true, Bool.true_or, closedEqual_self hc hself]
  · rw [equalsWithin, beq_eq_false_iff_ne.mpr he, Bool.false_or, hg, hh]
    cases c with
    | tuple xs =>
      cases d with
      | tuple ys => rfl
      | frozenset ys => rfl
      | _ => cases hd
    | frozenset xs =>
      cases d with
      | tuple ys => rfl
      | frozenset ys => rw [closedEqual, ← equalsWithin.membersEqual]
      | _ => cases hd
    | _ => cases hc

theorem all_eq_of_forall₂ {α β : Type} {R : α → β → Prop} {p : α → Bool} {q : β → Bool}
    (hpq : ∀ x y, R x y → p x = q y) {xs : List α} {ys : List β} (h : List.Forall₂ R xs ys) :
    xs.all p = ys.all q := by
  have hmap := congrArg (List.all · id) (Container.Alike.map_eq hpq h)
  rwa [List.all_map, List.all_map] at hmap

theorem any_eq_of_forall₂ {α β : Type} {R : α → β → Prop} {p : α → Bool} {q : β → Bool}
    (hpq : ∀ x y, R x y → p x = q y) {xs : List α} {ys : List β} (h : List.Forall₂ R xs ys) :
    xs.any p = ys.any q := by
  have hmap := congrArg (List.any · id) (Container.Alike.map_eq hpq h)
  rwa [List.any_map, List.any_map] at hmap

theorem itemsEqual_eq_of_forall₂ {R R' : Value → Value → Prop} {eq eq' : Value → Value → Bool}
    (heq : ∀ x x' y y', R x x' → R' y y' → eq x y = eq' x' y') {xs xs' : List Value}
    (hx : List.Forall₂ R xs xs') : ∀ {ys ys' : List Value}, List.Forall₂ R' ys ys' →
    equalsWithin.itemsEqual eq xs ys = equalsWithin.itemsEqual eq' xs' ys' := by
  induction hx with
  | nil => rintro _ _ (_ | _) <;> rfl
  | cons hx _ ih =>
    rintro _ _ (_ | ⟨hy, hys⟩)
    · rfl
    · rw [equalsWithin.itemsEqual, equalsWithin.itemsEqual, heq _ _ _ _ hx hy, ih hys]

theorem exists_tuple_of_alike {R : Value → Value → Prop} {xs : List Value} {c : Container}
    (h : Container.Alike R (.tuple xs) c) : ∃ ys, c = .tuple ys ∧ List.Forall₂ R xs ys := by
  have hblank := h.blank
  cases c with
  | tuple ys => exact ⟨ys, rfl, h.parts⟩
  | _ => cases hblank

theorem exists_frozenset_of_alike {R : Value → Value → Prop} {xs : List Value} {c : Container}
    (h : Container.Alike R (.frozenset xs) c) : ∃ ys, c = .frozenset ys ∧ List.Forall₂ R xs ys := by
  have hblank := h.blank
  cases c with
  | frozenset ys => exact ⟨ys, rfl, h.parts⟩
  | _ => cases hblank

/-- What is alike part by part compares alike. -/
theorem closedEqual_of_alike {R R' : Value → Value → Prop} {eq eq' : Bool → Value → Value → Bool}
    (heq : ∀ asKey x x' y y', R x x' → R' y y' → eq asKey x y = eq' asKey x' y')
    {c c' d d' : Container} (hc : Container.Alike R c c') (hd : Container.Alike R' d d')
    (hcclosed : c.isOpen = false) (hdclosed : d.isOpen = false) (asKey : Bool) :
    closedEqual eq asKey c d = closedEqual eq' asKey c' d' := by
  -- containers of different kinds are unequal on both sides, whatever is in them
  cases c with
  | tuple xs =>
    obtain ⟨xs', rfl, hxs⟩ := exists_tuple_of_alike hc
    cases d with
    | tuple ys =>
      obtain ⟨ys', rfl, hys⟩ := exists_tuple_of_alike hd
      exact itemsEqual_eq_of_forall₂ (heq asKey) hxs hys
    | frozenset ys =>
      obtain ⟨ys', rfl, -⟩ := exists_frozenset_of_alike hd
      rfl
    | _ => cases hdclosed
  | frozenset xs =>
    obtain ⟨xs', rfl, hxs⟩ := exists_frozenset_of_alike hc
    cases d with
    | tuple ys =>
      obtain ⟨ys', rfl, -⟩ := exists_tuple_of_alike hd
      rfl
    | frozenset ys =>
      obtain ⟨ys', rfl, hys⟩ := exists_frozenset_of_alike hd
      rw [closedEqual, closedEqual, hxs.length_eq, hys.length_eq]
      refine congrArg _ (all_eq_of_forall₂ (fun x x' hx => ?_) hxs)
      exact any_eq_of_forall₂ (fun y y' hy => heq _ x x' y y' hx hy) hys
    | _ => cases hdclosed
  | _ => cases hcclosed

end Store

namespace Copies

variable {m : Copies} {s t : Store} {r : Value}

/-- A copy of a key is equal to itself. -/
theorem Mirrors.equalsWithin_self {k k' : Value} (hmirror : m.Mirrors s t k k')
    (hk : s.IsHashable k) (n : Nat) (asKey : Bool) : t.equalsWithin (n + 1) asKey k' k' = true := by
  cases hk with
  | scalar hx =>
    cases hmirror
    exact (Store.IsHashable.scalar (s := t) hx).equalsWithin_self n asKey
  | container hc hclosed _ =>
    obtain ⟨g, d, rfl, -⟩ := hmirror.alike_of_closed hc hclosed
    rw [Store.equalsWithin, beq_self_eq_true, Bool.true_or]

/-- What is in a copy of a key is equal to itself. -/
theorem equalsWithin_self_of_alike {c d : Container} (halike : c.Alike (m.Mirrors s t) d)
    (hparts : ∀ x ∈ c.parts, s.IsHashable x) {k : Nat} (hk : ∀ x ∈ c.parts, s.nesting x < k)
    (asKey : Bool) : ∀ x' ∈ d.parts, t.equalsWithin k asKey x' x' = true := by
  intro x' hx'
  obtain ⟨x, hx, hxx⟩ := halike.exists_left hx'
  obtain ⟨i, rfl⟩ : ∃ i, k = i + 1 := ⟨k - 1, by have := hk x hx; omega⟩
  exact hxx.equalsWithin_self (hparts x hx) i asKey

/-- **Copies of keys compare as the keys do**, to every depth that they do not exceed. -/
theorem equalsWithin_of_mirrors (hapart : s.ClosedApart r) {a : Value}
    (ha : s.IsHashable a) : ∀ {a' b b' : Value} {n k : Nat}, s.Reaches r a → s.IsHashable b →
    m.Mirrors s t a a' → m.Mirrors s t b b' → s.nesting a < n → s.nesting a < k → ∀ asKey,
    s.equalsWithin n asKey a b = t.equalsWithin k asKey a' b' := by
  induction ha with
  | @scalar x hx =>
    intro a' b b' n k _ hb haa hbb hn hk asKey
    obtain ⟨n, rfl⟩ : ∃ i, n = i + 1 := ⟨n - 1, by omega⟩
    obtain ⟨k, rfl⟩ : ∃ i, k = i + 1 := ⟨k - 1, by omega⟩
    cases haa
    cases hb with
    | scalar hy =>
      cases hbb
      rw [Store.equalsWithin, Store.equalsWithin]
    | container hc hclosed _ =>
      obtain ⟨g, d, rfl, -⟩ := hbb.alike_of_closed hc hclosed
      simp [Store.equalsWithin]
  | @container h c hc hclosed hparts ih =>
    intro a' b b' n k hra hb haa hbb hn hk asKey
    obtain ⟨n, rfl⟩ : ∃ i, n = i + 1 := ⟨n - 1, by omega⟩
    obtain ⟨k, rfl⟩ : ∃ i, k = i + 1 := ⟨k - 1, by omega⟩
    obtain ⟨g, d, rfl, hd, -, hcd⟩ := haa.alike_of_closed hc hclosed
    have hless {x : Value} (hx : x ∈ c.parts) : s.nesting x < n ∧ s.nesting x < k := by
      have hlt := Store.nesting_lt (hapart h hra) (Store.lt_size_of_get? hc) hc hclosed hx
      omega
    cases hb with
    | scalar hy =>
      cases hbb
      simp [Store.equalsWithin]
    | @container h₂ c₂ hc₂ hclosed₂ hparts₂ =>
      obtain ⟨g₂, d₂, rfl, hd₂, -, hcd₂⟩ := hbb.alike_of_closed hc₂ hclosed₂
      -- equal handles make containers equal before their parts are looked at; as the parts equal
      -- themselves, comparing the parts comes to the same
      have hself : ∀ asKey, ∀ x ∈ c.parts, s.equalsWithin n asKey x x = true := by
        intro asKey x hx
        obtain ⟨i, rfl⟩ : ∃ i, n = i + 1 := ⟨n - 1, by have := hless hx; omega⟩
        exact (hparts x hx).equalsWithin_self i asKey
      have hself' := equalsWithin_self_of_alike hcd hparts fun x hx => (hless hx).2
      rw [Store.equalsWithin_closed hc hc₂ hclosed hclosed₂ hself,
        Store.equalsWithin_closed hd hd₂ (hcd.isOpen_eq.trans hclosed)
          (hcd₂.isOpen_eq.trans hclosed₂) hself']
      refine Store.closedEqual_of_alike (fun asKey x x' y y' hx hy => ?_) hcd.mem_left
        hcd₂.mem_left hclosed hclosed₂ asKey
      exact ih x hx.1 (hra.part ⟨c, hc, hx.1⟩) (hparts₂ y hy.1) hx.2 hy.2 (hless hx.1).1
        (hless hx.1).2 asKey

/-- Copies of keys are the same key where the keys are. -/
theorem sameKey_of_mirrors (hapart : s.ClosedApart r)
    (hsize : s.size ≤ t.size) {a a' b b' : Value} (hra : s.Reaches r a) (ha : s.IsHashable a)
    (hb : s.IsHashable b) (haa : m.Mirrors s t a a') (hbb : m.Mirrors s t b b') :
    t.sameKey a' b' = s.sameKey a b := by
  have hdepth {n : Nat} (hn : s.size ≤ n) : s.nesting a < (n + 1) * (n + 1) + 1 := by
    have hle := (s.nesting_le a).trans (hn.trans (Nat.le_succ n))
    exact Nat.lt_succ_of_le (hle.trans (Nat.le_mul_self _))
  exact (equalsWithin_of_mirrors hapart ha hra hb haa hbb (hdepth (Nat.le_refl _))
    (hdepth hsize) true).symm

end Copies

end DottedPath
