import DottedPath.Proofs.Evaluate.Graph

/-!
# Copies are equal

A copy is equal to what it is a copy of, unless there is a NaN in it (`Copies.equals`).

Equality is decided down to a depth.  A copy that is found at some level is found at a least one
(`CopyHeight`), and on the way down this level gets smaller, so no pair of containers is met twice:
the depth is not exceeded.
-/

namespace DottedPath.Store

variable {s : Store} {inside : Handle → Prop} {v w : Value}

/-- The values are copies down to a level. -/
def CopiesWithin (s : Store) : Nat → Value → Value → Prop
  | 0, v, w => v = w
  | n + 1, v, w => v = w ∨ ∃ g h c d, v = .ref g ∧ w = .ref h ∧ s.get? g = some c ∧
      s.get? h = some d ∧ c.isCopied = true ∧ c.frame = d.frame ∧
      ∀ (i : Nat) x y, c.slots[i]? = some x → d.slots[i]? = some y → CopiesWithin s n x y

namespace CopiesWithin

theorem succ : ∀ {n : Nat} {v w : Value}, s.CopiesWithin n v w → s.CopiesWithin (n + 1) v w
  | 0, v, w, h => by
    rw [CopiesWithin] at h
    exact .inl h
  | n + 1, v, w, h => by
    rcases h with h | ⟨g, h, c, d, hv, hw, hc, hd, hcopied, hframe, hslots⟩
    · exact .inl h
    · exact .inr ⟨g, h, c, d, hv, hw, hc, hd, hcopied, hframe,
        fun i x y hx hy => (hslots i x y hx hy).succ⟩

theorem mono {m n : Nat} (hmn : m ≤ n) (h : s.CopiesWithin m v w) : s.CopiesWithin n v w := by
  induction hmn with
  | refl => exact h
  | step _ ih => exact ih.succ

end CopiesWithin

/-- Levels of finitely many things have a common bound. -/
theorem exists_common_level {P : Nat → Nat → Prop} (hmono : ∀ i m n, m ≤ n → P i m → P i n) :
    ∀ k, (∀ i < k, ∃ n, P i n) → ∃ n, ∀ i < k, P i n
  | 0, _ => ⟨0, fun i hi => absurd hi (Nat.not_lt_zero i)⟩
  | k + 1, h => by
    obtain ⟨n, hn⟩ := exists_common_level hmono k fun i hi => h i (Nat.lt_succ_of_lt hi)
    obtain ⟨m, hm⟩ := h k (Nat.lt_succ_self k)
    refine ⟨max n m, fun i hi => ?_⟩
    rcases Nat.lt_succ_iff_lt_or_eq.mp hi with hi | rfl
    · exact hmono i n _ (Nat.le_max_left n m) (hn i hi)
    · exact hmono i m _ (Nat.le_max_right n m) hm

/-- Copies are copies down to some level. -/
theorem Copies.within (h : s.Copies v w) : ∃ n, s.CopiesWithin n v w := by
  induction h with
  | refl v => exact ⟨0, rfl⟩
  | @copy g h c d hc hd hcopied hframe _ ih =>
    obtain ⟨n, hn⟩ := exists_common_level
      (P := fun i n => ∀ x y, c.slots[i]? = some x → d.slots[i]? = some y → s.CopiesWithin n x y)
      (fun i m n hmn hm x y hx hy => (hm x y hx hy).mono hmn) c.slots.length fun i hi => by
        have hx := List.getElem?_eq_getElem hi
        obtain ⟨y, hy⟩ := slot_of_frame hframe hx
        obtain ⟨n, hn⟩ := ih i _ _ hx hy
        refine ⟨n, fun x' y' hx' hy' => ?_⟩
        cases hx.symm.trans hx'
        cases hy.symm.trans hy'
        exact hn
    refine ⟨n + 1, .inr ⟨g, h, c, d, rfl, rfl, hc, hd, hcopied, hframe, fun i x y hx hy => ?_⟩⟩
    exact hn i (List.getElem?_eq_some_iff.mp hx).1 x y hx hy

/-- The least level at which values are copies. -/
structure CopyHeight (s : Store) (v w : Value) (n : Nat) : Prop where
  within : s.CopiesWithin n v w
  least : ∀ m, s.CopiesWithin m v w → n ≤ m

theorem exists_copyHeight {n : Nat} (h : s.CopiesWithin n v w) : ∃ m ≤ n, s.CopyHeight v w m := by
  induction n with
  | zero => exact ⟨0, Nat.le_refl 0, h, fun m _ => Nat.zero_le m⟩
  | succ n ih =>
    by_cases hn : s.CopiesWithin n v w
    · obtain ⟨m, hm, hheight⟩ := ih hn
      exact ⟨m, Nat.le_succ_of_le hm, hheight⟩
    · refine ⟨n + 1, Nat.le_refl _, h, fun m hm => ?_⟩
      by_contra hlt
      exact hn (hm.mono (by omega))

theorem CopyHeight.unique {m n : Nat} (hm : s.CopyHeight v w m) (hn : s.CopyHeight v w n) :
    m = n :=
  Nat.le_antisymm (hm.least n hn.within) (hn.least m hm.within)

/-- The height of a pair of handles that are copies, as a rank of pairs. -/
def PairHeight (s : Store) (p : Handle × Handle) (n : Nat) : Prop :=
  s.CopyHeight (.ref p.1) (.ref p.2) n

theorem lt_size_of_pairHeight (p : Handle × Handle) (n : Nat) (h : s.PairHeight p n) (hpos : 0 < n) :
    p.1.index < s.size ∧ p.2.index < s.size := by
  obtain ⟨n, rfl⟩ : ∃ m, n = m + 1 := ⟨n - 1, by omega⟩
  rcases h.within with heq | ⟨g, h', c, d, hv, hw, hc, hd, -⟩
  · exact absurd (h.least 0 heq) (by omega)
  · cases hv
    cases hw
    exact ⟨lt_size_of_get? hc, lt_size_of_get? hd⟩

/-! ### Equality -/

/-- No scalar in the containers of a graph differs from itself. -/
def NoNaN (s : Store) (inside : Handle → Prop) : Prop :=
  ∀ h c, inside h → s.get? h = some c → ∀ a, .scalar a ∈ c.slots → a.equals a = true

/-- A value of the graph that is no NaN. -/
structure Comparable (inside : Handle → Prop) (v : Value) : Prop where
  tame : v.Inside inside
  scalar : ∀ a, v = .scalar a → a.equals a = true

/-- The slots of a container in a graph without NaN are values of this kind. -/
theorem comparable_of_slot (hg : s.ValueGraph inside) (hnan : s.NoNaN inside) {g : Handle}
    (hinside : inside g) {c : Container} (hc : s.get? g = some c) {i : Nat} {x : Value}
    (hx : c.slots[i]? = some x) : Comparable inside x := by
  have hmem := List.mem_of_getElem? hx
  refine ⟨?_, ?_⟩
  · rintro h rfl
    exact hg.closed g c hinside hc h (Container.mem_parts_of_mem_slots hmem)
  · rintro a rfl
    exact hnan g c hinside hc a hmem

theorem equalsWithin_self (h : Comparable inside v) (n : Nat) : s.equalsWithin (n + 1) false v v = true := by
  cases v with
  | scalar a =>
    rw [equalsWithin]
    exact h.scalar a rfl
  | ref g => rw [equalsWithin, beq_self_eq_true, Bool.true_or]

/-- Lists are equal if their elements are. -/
theorem itemsEqual_of_forall {eq : Value → Value → Bool} : ∀ {xs ys : List Value},
    xs.length = ys.length →
    (∀ (i : Nat) x y, xs[i]? = some x → ys[i]? = some y → eq x y = true) →
    equalsWithin.itemsEqual eq xs ys = true
  | [], [], _, _ => rfl
  | x :: xs, y :: ys, hlength, heq => by
    rw [equalsWithin.itemsEqual, heq 0 x y rfl rfl, Bool.true_and]
    exact itemsEqual_of_forall (Nat.succ.inj hlength) fun i a b ha hb => heq (i + 1) a b ha hb

/-- Objects with the same names in the same order have equal values if their slots are equal. -/
theorem attrsEqual_of_forall {eq : Value → Value → Bool} {attrs others : List (String × Value)}
    (hnodup : (attrs.map Prod.fst).Nodup) (hnames : attrs.map Prod.fst = others.map Prod.fst)
    (heq : ∀ (i : Nat) x y, (attrs.map Prod.snd)[i]? = some x →
      (others.map Prod.snd)[i]? = some y → eq y x = true) :
    (attrs.all fun (name, v) =>
      match others.lookup name with
      | some w => eq w v
      | none => false) = true := by
  rw [List.all_eq_true]
  rintro ⟨name, v⟩ hmem
  obtain ⟨i, hi⟩ := List.getElem?_of_mem hmem
  have hname : (others.map Prod.fst)[i]? = some name := by
    rw [← hnames, List.getElem?_map, hi]
    rfl
  rw [List.getElem?_map, Option.map_eq_some_iff] at hname
  obtain ⟨⟨name', w⟩, hw, rfl⟩ := hname
  have hlookup : others.lookup name' = some w :=
    lookup_of_mem_nodup (hnames ▸ hnodup) (List.mem_of_getElem? hw)
  show (match others.lookup name' with
    | some w => eq w v
    | none => false) = true
  rw [hlookup]
  refine heq i v w ?_ ?_
  · rw [List.getElem?_map, hi]
    rfl
  · rw [List.getElem?_map, hw]
    rfl

/-- **Copies are equal**, whichever of them comes first, to every depth that exceeds the number of
pairs of containers which are not on the way yet. -/
theorem equalsWithin_of_copies (hg : s.ValueGraph inside) (hnan : s.NoNaN inside) : ∀ (n : Nat)
    {v w : Value} {above : List (Handle × Handle)} {k : Nat}, s.CopyHeight v w n →
    Comparable inside v → Trail s.PairHeight above n → s.size * s.size < k + above.length →
    s.equalsWithin k false v w = true ∧ s.equalsWithin k false w v = true := by
  intro n
  induction n using Nat.strongRecOn with
  | _ n ih =>
  intro v w above k hheight hv htrail hk
  have hlength := htrail.length_le_square lt_size_of_pairHeight
  obtain ⟨k, rfl⟩ : ∃ j, k = j + 1 := ⟨k - 1, by omega⟩
  have hcases : v = w ∨ ∃ m g h c d, n = m + 1 ∧ v = .ref g ∧ w = .ref h ∧ s.get? g = some c ∧
      s.get? h = some d ∧ c.isCopied = true ∧ c.frame = d.frame ∧
      ∀ (i : Nat) x y, c.slots[i]? = some x → d.slots[i]? = some y → CopiesWithin s m x y := by
    cases n with
    | zero => exact .inl hheight.within
    | succ m =>
      rcases hheight.within with heq | ⟨g, h, c, d, hrest⟩
      · exact .inl heq
      · exact .inr ⟨m, g, h, c, d, rfl, hrest⟩
  rcases hcases with rfl | ⟨m, g, h, c, d, rfl, rfl, rfl, hc, hd, hcopied, hframe, hslots⟩
  · exact ⟨equalsWithin_self hv k, equalsWithin_self hv k⟩
  have hinside : inside g := hv.tame g rfl
  -- the slots are copies of less height, and the pair of containers is now on the way
  have hequal : ∀ (i : Nat) x y, c.slots[i]? = some x → d.slots[i]? = some y →
      s.equalsWithin k false x y = true ∧ s.equalsWithin k false y x = true := by
    intro i x y hx hy
    obtain ⟨j, hj, hxy⟩ := exists_copyHeight (hslots i x y hx hy)
    have htrail' : Trail s.PairHeight ((g, h) :: above) j :=
      htrail.cons (fun l hl => CopyHeight.unique hl hheight) hheight (Nat.lt_succ_of_le hj)
    refine ih j (Nat.lt_succ_of_le hj) hxy (comparable_of_slot hg hnan hinside hc hx) htrail' ?_
    rw [List.length_cons]
    omega
  have hlengths : c.slots.length = d.slots.length := by
    rw [c.length_slots, hframe, ← d.length_slots]
  rw [equalsWithin, equalsWithin, hc, hd]
  cases c with
  | tuple xs =>
    cases d with
    | tuple ys =>
      have hxy := itemsEqual_of_forall hlengths fun i x y hx hy => (hequal i x y hx hy).1
      have hyx := itemsEqual_of_forall hlengths.symm fun i y x hy hx => (hequal i x y hx hy).2
      exact ⟨Bool.or_eq_true_iff.mpr (.inr hxy), Bool.or_eq_true_iff.mpr (.inr hyx)⟩
    | _ => cases hframe
  | object name attrs frozen =>
    cases d with
    | object name' others frozen' =>
      obtain ⟨rfl, hattrs, rfl⟩ := Container.object.inj hframe
      have hnodup := hg.names g name attrs frozen hinside hc
      have hnames : attrs.map Prod.fst = others.map Prod.fst := by
        have hfst := congrArg (List.map Prod.fst) hattrs
        simpa only [List.map_map, Function.comp_def] using hfst
      have hcounts : attrs.length = others.length := by
        simpa only [List.length_map] using congrArg List.length hnames
      have hxy := attrsEqual_of_forall hnodup hnames fun i x y hx hy => (hequal i x y hx hy).2
      have hyx := attrsEqual_of_forall (hnames ▸ hnodup) hnames.symm
        fun i y x hy hx => (hequal i x y hx hy).1
      constructor
      · simp only [Bool.or_eq_true, Bool.and_eq_true, beq_self_eq_true, true_and, beq_iff_eq]
        exact .inr ⟨hcounts, hxy⟩
      · simp only [Bool.or_eq_true, Bool.and_eq_true, beq_self_eq_true, true_and, beq_iff_eq]
        exact .inr ⟨hcounts.symm, hyx⟩
    | _ => cases hframe
  | _ => cases hcopied

/-- A copy of a value of a graph without NaN is equal to it. -/
theorem Copies.equals (hg : s.ValueGraph inside) (hnan : s.NoNaN inside) (hv : Comparable inside v)
    (h : s.Copies v w) : s.equals v w = true := by
  obtain ⟨n, hn⟩ := h.within
  obtain ⟨m, -, hm⟩ := exists_copyHeight hn
  refine (equalsWithin_of_copies hg hnan m hm hv (.nil m) ?_).1
  have hle : s.size * s.size ≤ (s.size + 1) * (s.size + 1) :=
    Nat.mul_le_mul (Nat.le_succ _) (Nat.le_succ _)
  rw [comparisonDepth, List.length_nil]
  omega

end DottedPath.Store
