import DottedPath.Path.Literal
import DottedPath.Proofs.Value.Copies
import DottedPath.Proofs.Value.Reach
import DottedPath.Value.Comparison

/-!
# Values of literals

A value shows a literal if it is its scalar, or a tuple of values that show its items.  Such a value
has one literal (`shows_unique`), which is found again (`ofValue?_of_shows`), and two of them are
equal as their literals are (`equalsWithin_of_shows`).  Keys that are scalars or tuples of keys show
literals, and are equal to themselves unless there is a double in them (`IsKey.shows`).
-/

namespace DottedPath

namespace Literal

mutual

/-- The value is the one of a literal. -/
def Shows (s : Store) : Literal → Value → Prop
  | scalar x, v => v = .scalar x
  | tuple ls, v => ∃ h vs, v = .ref h ∧ s.get? h = some (.tuple vs) ∧ ItemsShow s ls vs

/-- The values are those of literals. -/
def ItemsShow (s : Store) : List Literal → List Value → Prop
  | [], vs => vs = []
  | l :: ls, vs => ∃ w ws, vs = w :: ws ∧ Shows s l w ∧ ItemsShow s ls ws

end

mutual

/-- How deep the tuples of a literal are nested. -/
def height : Literal → Nat
  | scalar _ => 0
  | tuple ls => itemsHeight ls + 1

def itemsHeight : List Literal → Nat
  | [] => 0
  | l :: ls => max (height l) (itemsHeight ls)

end

mutual

/-- Equality of literals as values, or as keys. -/
def sameAs (asKey : Bool) : Literal → Literal → Bool
  | scalar x, scalar y => if asKey then x.sameKey y else x.equals y
  | tuple ls, tuple ms => itemsSameAs asKey ls ms
  | _, _ => false

def itemsSameAs (asKey : Bool) : List Literal → List Literal → Bool
  | [], [] => true
  | l :: ls, m :: ms => sameAs asKey l m && itemsSameAs asKey ls ms
  | _, _ => false

end

variable {s t : Store}

mutual

/-- A value shows one literal at most. -/
theorem shows_unique : ∀ (l m : Literal) {v : Value}, l.Shows s v → m.Shows s v → l = m
  | scalar x, scalar y, v, hl, hm => by
    rw [Shows] at hl hm
    cases hl.symm.trans hm
    rfl
  | scalar x, tuple ms, v, hl, hm => by
    rw [Shows] at hl
    rw [Shows] at hm
    obtain ⟨h, vs, hv, -, -⟩ := hm
    cases hl.symm.trans hv
  | tuple ls, scalar y, v, hl, hm => by
    rw [Shows] at hl
    rw [Shows] at hm
    obtain ⟨h, vs, hv, -, -⟩ := hl
    cases hm.symm.trans hv
  | tuple ls, tuple ms, v, hl, hm => by
    rw [Shows] at hl hm
    obtain ⟨h, vs, rfl, hc, hls⟩ := hl
    obtain ⟨h', ws, hh, hc', hms⟩ := hm
    cases hh
    cases hc.symm.trans hc'
    rw [itemsShow_unique ls ms hls hms]

theorem itemsShow_unique : ∀ (ls ms : List Literal) {vs : List Value}, ItemsShow s ls vs →
    ItemsShow s ms vs → ls = ms
  | [], [], _, _, _ => rfl
  | [], m :: ms, vs, hl, hm => by
    rw [ItemsShow] at hl
    rw [ItemsShow] at hm
    obtain ⟨w, ws, rfl, -, -⟩ := hm
    cases hl
  | l :: ls, [], vs, hl, hm => by
    rw [ItemsShow] at hl
    rw [ItemsShow] at hm
    obtain ⟨w, ws, rfl, -, -⟩ := hl
    cases hm
  | l :: ls, m :: ms, vs, hl, hm => by
    rw [ItemsShow] at hl hm
    obtain ⟨w, ws, rfl, hw, hws⟩ := hl
    obtain ⟨w', ws', he, hw', hws'⟩ := hm
    cases he
    rw [shows_unique l m hw hw', itemsShow_unique ls ms hws hws']

end

mutual

/-- A value goes on showing its literal while no tuple is edited. -/
theorem Shows.keeps (hst : s.KeepsCopied t) : ∀ {l : Literal} {v : Value}, l.Shows s v → l.Shows t v
  | scalar x, v, h => by
    rw [Shows] at h ⊢
    exact h
  | tuple ls, v, h => by
    rw [Shows] at h ⊢
    obtain ⟨g, vs, rfl, hc, hls⟩ := h
    exact ⟨g, vs, rfl, hst g _ hc rfl, hls.keeps hst⟩

theorem ItemsShow.keeps (hst : s.KeepsCopied t) : ∀ {ls : List Literal} {vs : List Value},
    ItemsShow s ls vs → ItemsShow t ls vs
  | [], vs, h => by
    rw [ItemsShow] at h ⊢
    exact h
  | l :: ls, vs, h => by
    rw [ItemsShow] at h ⊢
    obtain ⟨w, ws, rfl, hw, hws⟩ := h
    exact ⟨w, ws, rfl, hw.keeps hst, hws.keeps hst⟩

end

theorem Shows.grows (hst : s.GrowsTo t) {l : Literal} {v : Value} (h : l.Shows s v) : l.Shows t v :=
  h.keeps hst.keepsCopied

theorem ItemsShow.grows (hst : s.GrowsTo t) {ls : List Literal} {vs : List Value}
    (h : ItemsShow s ls vs) : ItemsShow t ls vs :=
  h.keeps hst.keepsCopied

mutual

/-- Building a literal adds what its value needs. -/
theorem toValue_shows : ∀ (l : Literal) (s : Store),
    s.GrowsTo (l.toValue s).2 ∧ l.Shows (l.toValue s).2 (l.toValue s).1
  | scalar x, s => by
    rw [toValue, Shows]
    exact ⟨.refl s, rfl⟩
  | tuple ls, s => by
    obtain ⟨hgrows, hshows⟩ := itemValues_show ls s
    have hpush := Store.GrowsTo.push (itemValues ls s).2 (.tuple (itemValues ls s).1)
    have hrun : (tuple ls).toValue s =
        (.ref (itemValues ls s).2.next, (itemValues ls s).2.push (.tuple (itemValues ls s).1)) := by
      rw [toValue]
      rfl
    rw [hrun, Shows]
    exact ⟨hgrows.trans hpush, _, _, rfl, Store.get?_push_next _ _, hshows.grows hpush⟩

theorem itemValues_show : ∀ (ls : List Literal) (s : Store),
    s.GrowsTo (itemValues ls s).2 ∧ ItemsShow (itemValues ls s).2 ls (itemValues ls s).1
  | [], s => by
    rw [itemValues, ItemsShow]
    exact ⟨.refl s, rfl⟩
  | l :: ls, s => by
    obtain ⟨hgrows, hshows⟩ := toValue_shows l s
    obtain ⟨hgrows', hshows'⟩ := itemValues_show ls (l.toValue s).2
    have hrun : itemValues (l :: ls) s =
        ((l.toValue s).1 :: (itemValues ls (l.toValue s).2).1, (itemValues ls (l.toValue s).2).2) := by
      rw [itemValues]
      rfl
    rw [hrun, ItemsShow]
    exact ⟨hgrows.trans hgrows', _, _, rfl, hshows.grows hgrows', hshows'⟩

end

/-! ### Depth -/

/-- The handle of a tuple, and the height of the literal that it shows. -/
def Ranked (s : Store) (h : Handle) (n : Nat) : Prop :=
  ∃ l : Literal, l.Shows s (.ref h) ∧ l.height = n

theorem eq_height_of_ranked {l : Literal} {h : Handle} (hl : l.Shows s (.ref h)) (n : Nat)
    (hn : Ranked s h n) : n = l.height := by
  obtain ⟨m, hm, rfl⟩ := hn
  rw [shows_unique l m hl hm]

theorem lt_size_of_ranked (h : Handle) (n : Nat) (hn : Ranked s h n) (hpos : 0 < n) :
    h.index < s.size := by
  obtain ⟨l, hl, rfl⟩ := hn
  cases l with
  | scalar x =>
    rw [height] at hpos
    exact absurd hpos (Nat.lt_irrefl _)
  | tuple ls =>
    rw [Shows] at hl
    obtain ⟨g, vs, he, hc, -⟩ := hl
    cases he
    exact Store.lt_size_of_get? hc

mutual

theorem height_add_length_le : ∀ (l : Literal) {v : Value} {above : List Handle}, l.Shows s v →
    Store.Trail (Ranked s) above l.height → l.height + above.length ≤ s.size
  | scalar x, v, above, _, htrail => by
    rw [height, Nat.zero_add]
    exact htrail.length_le lt_size_of_ranked
  | tuple ls, v, above, hl, htrail => by
    have hshows := hl
    rw [Shows] at hl
    obtain ⟨h, vs, rfl, hc, hls⟩ := hl
    have hcons := htrail.cons (eq_height_of_ranked hshows) ⟨_, hshows, rfl⟩
      (show itemsHeight ls < (tuple ls).height by rw [height]; omega)
    have hle := itemsHeight_add_length_le ls hls hcons
    rw [List.length_cons] at hle
    rw [height]
    omega

theorem itemsHeight_add_length_le : ∀ (ls : List Literal) {vs : List Value} {above : List Handle},
    ItemsShow s ls vs → Store.Trail (Ranked s) above (itemsHeight ls) →
    itemsHeight ls + above.length ≤ s.size
  | [], vs, above, _, htrail => by
    rw [itemsHeight, Nat.zero_add]
    exact htrail.length_le lt_size_of_ranked
  | l :: ls, vs, above, hls, htrail => by
    rw [ItemsShow] at hls
    obtain ⟨w, ws, rfl, hw, hws⟩ := hls
    rw [itemsHeight] at htrail ⊢
    have hl := height_add_length_le l hw (htrail.mono (Nat.le_max_left _ _))
    have hr := itemsHeight_add_length_le ls hws (htrail.mono (Nat.le_max_right _ _))
    omega

end

/-- A store has a tuple for each level of a literal that a value shows. -/
theorem Shows.height_le {l : Literal} {v : Value} (h : l.Shows s v) : l.height ≤ s.size :=
  height_add_length_le l h (.nil _)

mutual

theorem ofValueWithin?_of_shows : ∀ (l : Literal) {v : Value} {n : Nat}, l.Shows s v →
    l.height ≤ n → ofValueWithin? s n v = some l
  | scalar x, v, n, hl, _ => by
    rw [Shows] at hl
    rw [hl, ofValueWithin?]
  | tuple ls, v, n, hl, hn => by
    rw [Shows] at hl
    obtain ⟨h, vs, rfl, hc, hls⟩ := hl
    rw [height] at hn
    obtain ⟨n, rfl⟩ : ∃ m, n = m + 1 := ⟨n - 1, by omega⟩
    rw [ofValueWithin?, hc]
    show (vs.mapM (ofValueWithin? s n)).map tuple = some (tuple ls)
    rw [mapM_ofValueWithin?_of_show ls hls (by omega)]
    rfl

theorem mapM_ofValueWithin?_of_show : ∀ (ls : List Literal) {vs : List Value} {n : Nat},
    ItemsShow s ls vs → itemsHeight ls ≤ n → vs.mapM (ofValueWithin? s n) = some ls
  | [], vs, n, hls, _ => by
    rw [ItemsShow] at hls
    rw [hls]
    rfl
  | l :: ls, vs, n, hls, hn => by
    rw [ItemsShow] at hls
    obtain ⟨w, ws, rfl, hw, hws⟩ := hls
    rw [itemsHeight] at hn
    rw [List.mapM_cons, ofValueWithin?_of_shows l hw (by omega),
      mapM_ofValueWithin?_of_show ls hws (by omega)]
    rfl

end

/-- **The literal that a value shows is found again.** -/
theorem ofValue?_of_shows {l : Literal} {v : Value} (h : l.Shows s v) : ofValue? s v = some l :=
  ofValueWithin?_of_shows l h (Nat.le_succ_of_le h.height_le)

/-! ### Equality -/

mutual

/-- **Values are equal as their literals are**, provided that the literal of the second is equal to
itself: a handle is always equal to itself. -/
theorem equalsWithin_of_shows : ∀ (l m : Literal) {asKey : Bool} {a b : Value} {n : Nat},
    l.Shows s a → m.Shows s b → m.sameAs asKey m = true → l.height < n →
    s.equalsWithin n asKey a b = l.sameAs asKey m
  | scalar x, scalar y, asKey, a, b, n, ha, hb, _, hn => by
    rw [Shows] at ha hb
    obtain ⟨n, rfl⟩ : ∃ k, n = k + 1 := ⟨n - 1, by omega⟩
    rw [ha, hb, Store.equalsWithin, sameAs]
  | scalar x, tuple ms, asKey, a, b, n, ha, hb, _, hn => by
    rw [Shows] at ha
    rw [Shows] at hb
    obtain ⟨h, vs, rfl, -, -⟩ := hb
    obtain ⟨n, rfl⟩ : ∃ k, n = k + 1 := ⟨n - 1, by omega⟩
    rw [ha]
    simp [Store.equalsWithin, sameAs]
  | tuple ls, scalar y, asKey, a, b, n, ha, hb, _, hn => by
    rw [Shows] at ha
    rw [Shows] at hb
    obtain ⟨h, vs, rfl, -, -⟩ := ha
    obtain ⟨n, rfl⟩ : ∃ k, n = k + 1 := ⟨n - 1, by omega⟩
    rw [hb]
    simp [Store.equalsWithin, sameAs]
  | tuple ls, tuple ms, asKey, a, b, n, ha, hb, hself, hn => by
    have hla := ha
    have hmb := hb
    rw [Shows] at ha hb
    obtain ⟨g, vs, rfl, hg, hls⟩ := ha
    obtain ⟨h, ws, rfl, hh, hms⟩ := hb
    rw [height] at hn
    obtain ⟨n, rfl⟩ : ∃ k, n = k + 1 := ⟨n - 1, by omega⟩
    by_cases he : g = h
    · -- The same handle shows the same literal, which is equal to itself.
      subst he
      rw [shows_unique _ _ hla hmb, hself, Store.equalsWithin, beq_self_eq_true, Bool.true_or]
    · rw [sameAs] at hself
      rw [Store.equalsWithin, beq_eq_false_iff_ne.mpr he, Bool.false_or, hg, hh, sameAs]
      exact itemsEqual_of_show ls ms hls hms hself (by omega)

theorem itemsEqual_of_show : ∀ (ls ms : List Literal) {asKey : Bool} {vs ws : List Value} {n : Nat},
    ItemsShow s ls vs → ItemsShow s ms ws → itemsSameAs asKey ms ms = true → itemsHeight ls < n →
    Store.equalsWithin.itemsEqual (s.equalsWithin n asKey) vs ws = itemsSameAs asKey ls ms
  | [], [], asKey, vs, ws, n, hls, hms, _, _ => by
    rw [ItemsShow] at hls hms
    rw [hls, hms]
    rfl
  | [], m :: ms, asKey, vs, ws, n, hls, hms, _, _ => by
    rw [ItemsShow] at hls
    rw [ItemsShow] at hms
    obtain ⟨w, ws, rfl, -, -⟩ := hms
    rw [hls]
    rfl
  | l :: ls, [], asKey, vs, ws, n, hls, hms, _, _ => by
    rw [ItemsShow] at hls
    rw [ItemsShow] at hms
    obtain ⟨w, ws, rfl, -, -⟩ := hls
    rw [hms]
    rfl
  | l :: ls, m :: ms, asKey, vs, ws, n, hls, hms, hself, hn => by
    rw [ItemsShow] at hls hms
    obtain ⟨v, vs, rfl, hv, hvs⟩ := hls
    obtain ⟨w, ws, rfl, hw, hws⟩ := hms
    rw [itemsSameAs, Bool.and_eq_true] at hself
    rw [itemsHeight] at hn
    rw [Store.equalsWithin.itemsEqual, equalsWithin_of_shows l m hv hw hself.1 (by omega),
      itemsEqual_of_show ls ms hvs hws hself.2 (by omega), itemsSameAs]

end

/-- A comparison goes deeper than any literal that a value shows. -/
theorem Shows.height_lt {l : Literal} {v : Value} (h : l.Shows s v) :
    l.height < s.comparisonDepth := by
  have hle := Nat.le_trans h.height_le (Nat.le_succ s.size)
  rw [Store.comparisonDepth]
  exact Nat.lt_succ_of_le (Nat.le_trans hle (Nat.le_mul_self _))

end Literal

/-! ### What is equal to itself -/

/-- A double that is equal to some double is no NaN, so it is equal to itself. -/
theorem float_beq_self {f g : Float} (h : (f == g) = true) : (f == f) = true := by
  have hmodel : f.toModel.unpack.beq g.toModel.unpack = true := h
  show f.toModel.unpack.beq f.toModel.unpack = true
  cases hf : f.toModel.unpack with
  | notANumber =>
    rw [hf] at hmodel
    cases hg : g.toModel.unpack <;> rw [hg] at hmodel <;> cases hmodel
  | infinity sign => cases sign <;> rfl
  | zero sign => rfl
  | finite sign m e hm =>
    have hself : (compare e e).then (compare m m) = .eq := by
      rw [Int.compare_eq_eq.mpr rfl, Nat.compare_eq_eq.mpr rfl]
      rfl
    cases sign with
    | positive => exact congrArg (fun o : Ordering => some o == some Ordering.eq) hself
    | negative => exact congrArg (fun o : Ordering => some o.swap == some Ordering.eq) hself

namespace Scalar

theorem equals_self {x : Scalar} (h : x.kind ≠ .float) : x.equals x = true := by
  cases x with
  | null => rfl
  | bool b => cases b <;> rfl
  | int i => exact beq_self_eq_true i
  | float f => exact absurd rfl h
  | str t => exact beq_self_eq_true t
  | bytes bs => exact beq_self_eq_true bs

theorem sameKey_self {x : Scalar} (h : x.kind ≠ .float) : x.sameKey x = true := by
  rw [sameKey, equals_self h, Bool.true_and]
  cases x with
  | float f => exact absurd rfl h
  | _ => rfl

/-- What is equal to something is equal to itself. -/
theorem equals_self_of_equals {x y : Scalar} (h : x.equals y = true) : x.equals x = true := by
  cases x with
  | float f =>
    cases y with
    | float g => exact float_beq_self (show (f == g) = true from h)
    | int i => exact float_beq_self (show (f == Float.ofInt i) = true from h)
    | bool b => exact float_beq_self (show (f == Float.ofInt (if b then 1 else 0)) = true from h)
    | null => cases h
    | str t => cases h
    | bytes bs => cases h
  | null => exact equals_self (by rintro ⟨⟩)
  | bool b => exact equals_self (by rintro ⟨⟩)
  | int i => exact equals_self (by rintro ⟨⟩)
  | str t => exact equals_self (by rintro ⟨⟩)
  | bytes bs => exact equals_self (by rintro ⟨⟩)

/-- Equal scalars are the same key if none of them is a double. -/
theorem sameKey_of_equals {x y : Scalar} (hx : x.kind ≠ .float) (hy : y.kind ≠ .float)
    (h : x.equals y = true) : x.sameKey y = true := by
  rw [sameKey, h, Bool.true_and]
  cases x with
  | float f => exact absurd rfl hx
  | _ => cases y with
    | float f => exact absurd rfl hy
    | _ => rfl

/-- Without doubles the order does not matter. -/
theorem equals_comm {x y : Scalar} (hx : x.kind ≠ .float) (hy : y.kind ≠ .float) :
    x.equals y = y.equals x := by
  cases x with
  | float f => exact absurd rfl hx
  | _ => cases y with
    | float f => exact absurd rfl hy
    | _ => simp [equals, toInt?, toFloat?, Bool.beq_comm]

end Scalar

namespace Literal

mutual

/-- A literal that is equal to another one, or the same key, is equal to itself. -/
theorem sameAs_self : ∀ (l m : Literal) {asKey : Bool}, l.sameAs asKey m = true →
    l.sameAs false l = true
  | scalar x, scalar y, asKey, h => by
    rw [sameAs] at h ⊢
    have heq : x.equals y = true := by
      cases asKey with
      | false => exact h
      | true => exact (Bool.and_eq_true_iff.mp h).1
    exact Scalar.equals_self_of_equals heq
  | scalar x, tuple ms, _, h => by
    rw [sameAs] at h
    · cases h
    all_goals simp
  | tuple ls, scalar y, _, h => by
    rw [sameAs] at h
    · cases h
    all_goals simp
  | tuple ls, tuple ms, asKey, h => by
    rw [sameAs] at h ⊢
    exact itemsSameAs_self ls ms h

theorem itemsSameAs_self : ∀ (ls ms : List Literal) {asKey : Bool},
    itemsSameAs asKey ls ms = true → itemsSameAs false ls ls = true
  | [], _, _, _ => rfl
  | l :: ls, [], _, h => by cases h
  | l :: ls, m :: ms, asKey, h => by
    rw [itemsSameAs, Bool.and_eq_true] at h ⊢
    exact ⟨sameAs_self l m h.1, itemsSameAs_self ls ms h.2⟩

end

mutual

/-- The same keys are equal. -/
theorem sameAs_of_asKey : ∀ l m : Literal, l.sameAs true m = true → l.sameAs false m = true
  | scalar x, scalar y, h => by
    rw [sameAs] at h ⊢
    exact (Bool.and_eq_true_iff.mp h).1
  | scalar x, tuple ms, h => by
    rw [sameAs] at h
    · cases h
    all_goals simp
  | tuple ls, scalar y, h => by
    rw [sameAs] at h
    · cases h
    all_goals simp
  | tuple ls, tuple ms, h => by
    rw [sameAs] at h ⊢
    exact itemsSameAs_of_asKey ls ms h

theorem itemsSameAs_of_asKey : ∀ ls ms : List Literal, itemsSameAs true ls ms = true →
    itemsSameAs false ls ms = true
  | [], [], _ => rfl
  | [], _ :: _, h => by cases h
  | _ :: _, [], h => by cases h
  | l :: ls, m :: ms, h => by
    rw [itemsSameAs, Bool.and_eq_true] at h ⊢
    exact ⟨sameAs_of_asKey l m h.1, itemsSameAs_of_asKey ls ms h.2⟩

end

end Literal

/-! ### Keys -/

/-- Scalars other than doubles, and tuples of keys. -/
inductive Store.IsKey (s : Store) : Value → Prop where
  | scalar {x} (h : x.kind ≠ .float) : IsKey s (.scalar x)
  | tuple {h items} (hc : s.get? h = some (.tuple items)) (hitems : ∀ v ∈ items, IsKey s v) :
    IsKey s (.ref h)

/-- A key shows a literal, which is equal to itself in every sense. -/
theorem Store.IsKey.shows {s : Store} {v : Value} (h : s.IsKey v) :
    ∃ l : Literal, l.Shows s v ∧ ∀ asKey, l.sameAs asKey l = true := by
  induction h with
  | @scalar x hx =>
    refine ⟨.scalar x, by rw [Literal.Shows], fun asKey => ?_⟩
    rw [Literal.sameAs]
    cases asKey with
    | false => exact Scalar.equals_self hx
    | true => exact Scalar.sameKey_self hx
  | @tuple h items hc hkeys ih =>
    have hitems : ∃ ls : List Literal, Literal.ItemsShow s ls items ∧
        ∀ asKey, Literal.itemsSameAs asKey ls ls = true := by
      clear hc
      induction items with
      | nil => exact ⟨[], by rw [Literal.ItemsShow], fun _ => rfl⟩
      | cons v vs ihs =>
        obtain ⟨l, hl, hself⟩ := ih v (List.mem_cons_self ..)
        obtain ⟨ls, hls, hselfs⟩ := ihs (fun w hw => hkeys w (List.mem_cons_of_mem _ hw))
          fun w hw => ih w (List.mem_cons_of_mem _ hw)
        refine ⟨l :: ls, ?_, fun asKey => ?_⟩
        · rw [Literal.ItemsShow]
          exact ⟨v, vs, rfl, hl, hls⟩
        · rw [Literal.itemsSameAs, hself, hselfs, Bool.and_true]
    obtain ⟨ls, hls, hself⟩ := hitems
    refine ⟨.tuple ls, ?_, fun asKey => ?_⟩
    · rw [Literal.Shows]
      exact ⟨h, items, rfl, hc, hls⟩
    · rw [Literal.sameAs, hself]

namespace Store

variable {s t : Store}

/-- A key stays one while no tuple is edited. -/
theorem IsKey.keeps (hst : s.KeepsCopied t) {v : Value} (h : s.IsKey v) : t.IsKey v := by
  induction h with
  | scalar hx => exact .scalar hx
  | tuple hc _ ih => exact .tuple (hst _ _ hc rfl) ih

/-- Keys stay the same, or different, while no tuple is edited. -/
theorem sameKey_of_keeps (hst : s.KeepsCopied t) {a b : Value} (ha : s.IsKey a) (hb : s.IsKey b) :
    t.sameKey a b = s.sameKey a b := by
  obtain ⟨l, hl, -⟩ := ha.shows
  obtain ⟨m, hm, hself⟩ := hb.shows
  have hs : s.sameKey a b = l.sameAs true m :=
    Literal.equalsWithin_of_shows l m hl hm (hself true) hl.height_lt
  have ht : t.sameKey a b = l.sameAs true m :=
    Literal.equalsWithin_of_shows l m (hl.keeps hst) (hm.keeps hst) (hself true)
      (hl.keeps hst).height_lt
  rw [hs, ht]

theorem itemsEqual_mono {eq eq' : Value → Value → Bool} : ∀ {xs ys : List Value},
    (∀ x ∈ xs, ∀ y ∈ ys, eq x y = true → eq' x y = true) →
    equalsWithin.itemsEqual eq xs ys = true → equalsWithin.itemsEqual eq' xs ys = true
  | [], [], _, _ => rfl
  | [], y :: ys, _, h => by cases h
  | x :: xs, [], _, h => by cases h
  | x :: xs, y :: ys, hmono, h => by
    rw [equalsWithin.itemsEqual, Bool.and_eq_true] at h ⊢
    refine ⟨hmono x (List.mem_cons_self ..) y (List.mem_cons_self ..) h.1, ?_⟩
    refine itemsEqual_mono (fun x' hx y' hy => ?_) h.2
    exact hmono x' (List.mem_cons_of_mem _ hx) y' (List.mem_cons_of_mem _ hy)

/-- Equal keys are the same. -/
theorem equalsWithin_asKey : ∀ (n : Nat) {a b : Value}, s.IsKey a → s.IsKey b →
    s.equalsWithin n false a b = true → s.equalsWithin n true a b = true
  | 0, a, b, _, _, h => by
    rw [equalsWithin] at h
    cases h
  | n + 1, _, _, .scalar hx, .scalar hy, h => by
    rw [equalsWithin] at h ⊢
    exact Scalar.sameKey_of_equals hx hy h
  | n + 1, _, _, .scalar hx, .tuple hc hitems, h => by simp [equalsWithin] at h
  | n + 1, _, _, .tuple hc hitems, .scalar hx, h => by simp [equalsWithin] at h
  | n + 1, _, _, .tuple (h := g) hg hitems, .tuple (h := g') hg' hitems', h => by
    rw [equalsWithin, Bool.or_eq_true, hg, hg'] at h ⊢
    refine h.imp_right fun h => itemsEqual_mono (fun x hx y hy => ?_) h
    exact equalsWithin_asKey n (hitems x hx) (hitems' y hy)

theorem itemsEqual_comm {eq : Value → Value → Bool} : ∀ {xs ys : List Value},
    (∀ x ∈ xs, ∀ y ∈ ys, eq x y = eq y x) →
    equalsWithin.itemsEqual eq xs ys = equalsWithin.itemsEqual eq ys xs
  | [], [], _ => rfl
  | [], y :: ys, _ => rfl
  | x :: xs, [], _ => rfl
  | x :: xs, y :: ys, hcomm => by
    rw [equalsWithin.itemsEqual, equalsWithin.itemsEqual,
      hcomm x (List.mem_cons_self ..) y (List.mem_cons_self ..), itemsEqual_comm fun x' hx y' hy =>
        hcomm x' (List.mem_cons_of_mem _ hx) y' (List.mem_cons_of_mem _ hy)]

/-- Keys are compared in either order. -/
theorem equalsWithin_comm : ∀ (n : Nat) {a b : Value}, s.IsKey a → s.IsKey b →
    s.equalsWithin n false a b = s.equalsWithin n false b a
  | 0, a, b, _, _ => by rw [equalsWithin, equalsWithin]
  | n + 1, _, _, .scalar hx, .scalar hy => by
    rw [equalsWithin, equalsWithin]
    exact Scalar.equals_comm hx hy
  | n + 1, _, _, .scalar hx, .tuple hc hitems => by simp [equalsWithin]
  | n + 1, _, _, .tuple hc hitems, .scalar hx => by simp [equalsWithin]
  | n + 1, _, _, .tuple (h := g) hg hitems, .tuple (h := g') hg' hitems' => by
    rw [equalsWithin, equalsWithin, hg, hg', Bool.beq_comm]
    refine congrArg (g' == g || ·) (itemsEqual_comm fun x hx y hy => ?_)
    exact equalsWithin_comm n (hitems x hx) (hitems' y hy)

/-- A key is the same as itself. -/
theorem IsKey.sameKey_self {k : Value} (h : s.IsKey k) : s.sameKey k k = true := by
  obtain ⟨l, hl, hself⟩ := h.shows
  rw [sameKey, Literal.equalsWithin_of_shows l l hl hl (hself true) hl.height_lt, hself]

end Store

end DottedPath
