import DottedPath.Proofs.Value.HashedLookup
import DottedPath.Proofs.Value.KeptEquality
import DottedPath.Value.Comparison
import Mathlib.Data.UInt

/-!
# The order of values

Without doubles the comparisons `<` and `>` are a strict partial order.  Turned around, a comparison
gives the reverse answer; values that compare as equal can replace each other; and what is less than
something that is less than a third value is less than that (`IsPartialOrder`).  Total comparisons
have these laws, scalars have them since each sort of scalar is compared by one of these, and
sequences have them if their items do, the first position with different items deciding.

Two values that compare as equal are equal, so that a value is equal to a reference if it is neither
greater nor less but can be compared with it.

## Main statements

- `Store.sequenceOrder?_isPartialOrder`: sequences are ordered as their items are.
- `Store.equalsWithin_of_orderWithin?`: values that compare as equal are equal.
- `Store.order?_strict`: the laws for values without doubles that do not hold themselves.
-/

namespace DottedPath

open Std (TransCmp)

/-- The laws of an order in which some things cannot be compared, for those with a property. -/
structure IsPartialOrder {α : Type} (P : α → Prop) (order : α → α → Option Ordering) : Prop where
  swap : ∀ {a b}, P a → P b → order b a = (order a b).map Ordering.swap
  congr : ∀ {a b c}, P a → P b → P c → order a b = some .eq → order a c = order b c
  trans : ∀ {a b c}, P a → P b → P c → order a b = some .lt → order b c = some .lt →
    order a c = some .lt

namespace IsPartialOrder

variable {α : Type} {P : α → Prop} {order : α → α → Option Ordering} {a b c : α}

/-- What compares as equal can be replaced on the right side too. -/
theorem congr_right (h : IsPartialOrder P order) (ha : P a) (hb : P b) (hc : P c)
    (hab : order a b = some .eq) : order c a = order c b := by
  rw [h.swap ha hc, h.swap hb hc, h.congr ha hb hc hab]

theorem trans_gt (h : IsPartialOrder P order) (ha : P a) (hb : P b) (hc : P c)
    (hab : order a b = some .gt) (hbc : order b c = some .gt) : order a c = some .gt := by
  have hcb : order c b = some .lt := by rw [h.swap hb hc, hbc]; rfl
  have hba : order b a = some .lt := by rw [h.swap ha hb, hab]; rfl
  rw [h.swap hc ha, h.trans hc hb ha hcb hba]
  rfl

/-- A total comparison has the laws. -/
theorem of_transCmp {cmp : α → α → Ordering} [TransCmp cmp] :
    IsPartialOrder (fun _ => True) fun a b => some (cmp a b) where
  swap _ _ := congrArg some Std.OrientedCmp.eq_swap
  congr _ _ _ hab := congrArg some (TransCmp.congr_left (Option.some.inj hab))
  trans _ _ _ hab hbc :=
    congrArg some (TransCmp.lt_trans (Option.some.inj hab) (Option.some.inj hbc))

end IsPartialOrder

/-- The order of things of several sorts, which are only compared with their like; `none` is of no
sort. -/
def orderSorted? {κ α : Type} [DecidableEq κ] (order : α → α → Option Ordering) :
    Option (κ × α) → Option (κ × α) → Option Ordering
  | some (k, a), some (l, b) => if k = l then order a b else none
  | _, _ => none

/-- Things of several sorts are in a partial order if those of each sort are. -/
theorem IsPartialOrder.sorted {κ α : Type} [DecidableEq κ] {P : α → Prop}
    {order : α → α → Option Ordering} (h : IsPartialOrder P order) :
    IsPartialOrder (fun r : Option (κ × α) => ∀ p ∈ r, P p.2) (orderSorted? order) where
  swap {r q} hr hq := by
    rcases r with _ | ⟨k, a⟩ <;> rcases q with _ | ⟨l, b⟩ <;> try rfl
    rw [orderSorted?, orderSorted?]
    by_cases hkl : k = l
    · rw [if_pos hkl, if_pos hkl.symm]
      exact h.swap (hr _ rfl) (hq _ rfl)
    · rw [if_neg hkl, if_neg (Ne.symm hkl)]
      rfl
  congr {r q p} hr hq hp hrq := by
    rcases r with _ | ⟨k, a⟩ <;> rcases q with _ | ⟨l, b⟩ <;> try cases hrq
    rw [orderSorted?] at hrq
    split at hrq <;> try cases hrq
    next hkl =>
    subst hkl
    rcases p with _ | ⟨m, c⟩
    · rfl
    · rw [orderSorted?, orderSorted?, h.congr (hr _ rfl) (hq _ rfl) (hp _ rfl) hrq]
  trans {r q p} hr hq hp hrq hqp := by
    rcases r with _ | ⟨k, a⟩ <;> rcases q with _ | ⟨l, b⟩ <;> try cases hrq
    rcases p with _ | ⟨m, c⟩ <;> try cases hqp
    rw [orderSorted?] at hrq hqp ⊢
    split at hrq <;> try cases hrq
    split at hqp <;> try cases hqp
    next hkl hlm =>
    rw [if_pos (hkl.trans hlm)]
    exact h.trans (hr _ rfl) (hq _ rfl) (hp _ rfl) hrq hqp

/-! ### Comparisons -/

namespace Comparison

variable {o : Option Ordering}

theorem accepts_lt : lt.accepts o = true ↔ o = some .lt := by
  rcases o with _ | _ | _ | _ <;> decide

theorem accepts_gt : gt.accepts o = true ↔ o = some .gt := by
  rcases o with _ | _ | _ | _ <;> decide

/-- What is neither greater nor less, but can be compared, compares as equal. -/
theorem eq_of_accepts (hle : le.accepts o = true) (hge : ge.accepts o = true) : o = some .eq := by
  rcases o with _ | _ | _ | _
  · cases hle
  · cases hge
  · rfl
  · cases hle

end Comparison

/-! ### Scalars -/

namespace Scalar

variable {a b c : Scalar}

theorem compare_natCast (m n : Nat) : compare (m : Int) n = compare m n := by
  rcases Nat.lt_trichotomy m n with h | rfl | h
  · rw [compare_lt_iff_lt.mpr h, compare_lt_iff_lt.mpr (Int.ofNat_lt.mpr h)]
  · rw [compare_eq_iff_eq.mpr rfl, compare_eq_iff_eq.mpr rfl]
  · rw [compare_gt_iff_gt.mpr h, compare_gt_iff_gt.mpr (Int.ofNat_lt.mpr h)]

theorem compareBytes_eq : ∀ bs cs : List UInt8, compareBytes bs cs =
    List.compareLex compare (bs.map fun b => (b.toNat : Int)) (cs.map fun c => (c.toNat : Int))
  | [], [] => rfl
  | [], _ :: _ => rfl
  | _ :: _, [] => rfl
  | b :: bs, c :: cs => by
    have hcompare : compare b c = compare b.toNat c.toNat := by
      simp only [compare, compareOfLessAndEq, UInt8.lt_iff_toNat_lt, ← UInt8.toNat_inj]
    rw [compareBytes, List.map_cons, List.map_cons, List.compareLex_cons_cons, compareBytes_eq bs cs,
      compare_natCast, hcompare]

theorem compareChars_eq : ∀ cs ds : List Char, compareChars cs ds =
    List.compareLex compare (cs.map fun c => (c.toNat : Int)) (ds.map fun d => (d.toNat : Int))
  | [], [] => rfl
  | [], _ :: _ => rfl
  | _ :: _, [] => rfl
  | c :: cs, d :: ds => by
    rw [compareChars, List.map_cons, List.map_cons, List.compareLex_cons_cons,
      compareChars_eq cs ds, compare_natCast]

/-- Texts that compare as equal are the same. -/
theorem eq_of_compareChars {cs ds : List Char} (h : compareChars cs ds = .eq) : cs = ds := by
  rw [compareChars_eq] at h
  refine List.map_injective_iff.mpr (fun c d hcd => ?_) (Std.LawfulEqCmp.eq_of_compare h)
  exact Char.toNat_inj.mp (Int.ofNat_inj.mp hcd)

/-- Bytes that compare as equal are the same. -/
theorem eq_of_compareBytes {bs cs : List UInt8} (h : compareBytes bs cs = .eq) : bs = cs := by
  rw [compareBytes_eq] at h
  refine List.map_injective_iff.mpr (fun b c hbc => ?_) (Std.LawfulEqCmp.eq_of_compare h)
  exact UInt8.toNat_inj.mp (Int.ofNat_inj.mp hbc)

/-- What a scalar that is no double is compared by: its sort, and numbers in a row, those of the
characters or of the bytes or the one that it stands for. -/
def spelled? : Scalar → Option (Kind × List Int)
  | str s => some (.str, s.toList.map fun c => (c.toNat : Int))
  | bytes bs => some (.bytes, bs.map fun b => (b.toNat : Int))
  | a => a.toInt?.map fun i => (.int, [i])

theorem order?_eq_orderSorted? (ha : a.kind ≠ .float) (hb : b.kind ≠ .float) :
    a.order? b = orderSorted? (fun is js => some (List.compareLex compare is js))
      a.spelled? b.spelled? := by
  have hint (i j : Int) : some (compare i j) = some (List.compareLex compare [i] [j]) := by
    rw [List.compareLex_cons_cons, List.compareLex_nil_nil, Ordering.then_eq]
  cases a with
  | float f => exact absurd rfl ha
  | str s => cases b with
    | float f => exact absurd rfl hb
    | str t => exact congrArg some (compareChars_eq _ _)
    | _ => rfl
  | bytes s => cases b with
    | float f => exact absurd rfl hb
    | bytes t => exact congrArg some (compareBytes_eq _ _)
    | _ => rfl
  | null => cases b with
    | float f => exact absurd rfl hb
    | _ => rfl
  | _ => cases b with
    | float f => exact absurd rfl hb
    | bool t => exact hint _ _
    | int j => exact hint _ _
    | _ => rfl

/-- **Scalars other than doubles are in a partial order.** -/
theorem order?_isPartialOrder : IsPartialOrder (·.kind ≠ .float) order? := by
  have hsorted : IsPartialOrder (fun r : Option (Kind × List Int) => ∀ p ∈ r, True)
      (orderSorted? fun is js => some (List.compareLex compare is js)) :=
    IsPartialOrder.of_transCmp.sorted
  have hany (r : Option (Kind × List Int)) : ∀ p ∈ r, True := fun _ _ => trivial
  constructor
  · intro a b ha hb
    rw [order?_eq_orderSorted? ha hb, order?_eq_orderSorted? hb ha]
    exact hsorted.swap (hany _) (hany _)
  · intro a b c ha hb hc hab
    rw [order?_eq_orderSorted? ha hb] at hab
    rw [order?_eq_orderSorted? ha hc, order?_eq_orderSorted? hb hc]
    exact hsorted.congr (hany _) (hany _) (hany _) hab
  · intro a b c ha hb hc hab hbc
    rw [order?_eq_orderSorted? ha hb] at hab
    rw [order?_eq_orderSorted? hb hc] at hbc
    rw [order?_eq_orderSorted? ha hc]
    exact hsorted.trans (hany _) (hany _) (hany _) hab hbc

/-- Scalars that compare as equal are equal, doubles too. -/
theorem equals_of_order? (h : a.order? b = some .eq) : a.equals b = true := by
  rw [equals.eq_def]
  rw [order?.eq_def] at h
  split at h
  · have hchars := eq_of_compareChars (Option.some.inj h)
    exact beq_iff_eq.mpr (String.toList_inj.mp hchars)
  · exact beq_iff_eq.mpr (eq_of_compareBytes (Option.some.inj h))
  · next hstr hbytes =>
    split
    · rfl
    · next s t => exact absurd rfl (hstr s t rfl)
    · next s t => exact absurd rfl (hbytes s t rfl)
    -- Numbers are compared as integers if both are, else as doubles.
    · split at h
      · rw [beq_iff_eq]
        exact compare_eq_iff_eq.mp (Option.some.inj h)
      · split at h
        · unfold compareFloats? at h
          split_ifs at h with hlt hgt heq
          · cases h
          · cases h
          · exact heq
        · cases h

end Scalar

/-! ### Sequences -/

namespace Store

section

variable {P : Value → Prop} {order : Value → Value → Option Ordering} {x y : Value}
  {xs ys zs : List Value}

/-- The first items decide, unless they are equal. -/
theorem sequenceOrder?_cons :
    sequenceOrder? order (x :: xs) (y :: ys) =
      if order x y = some .eq then sequenceOrder? order xs ys else order x y := by
  rw [sequenceOrder?]
  split
  · next h => rw [if_pos h]
  · next h => rw [if_neg h]

theorem sequenceOrder?_swap (h : IsPartialOrder P order) : ∀ {xs ys : List Value},
    (∀ x ∈ xs, P x) → (∀ y ∈ ys, P y) →
    sequenceOrder? order ys xs = (sequenceOrder? order xs ys).map Ordering.swap
  | [], [], _, _ => rfl
  | [], _ :: _, _, _ => rfl
  | _ :: _, [], _, _ => rfl
  | x :: xs, y :: ys, hxs, hys => by
    obtain ⟨hx, hxs⟩ := List.forall_mem_cons.mp hxs
    obtain ⟨hy, hys⟩ := List.forall_mem_cons.mp hys
    rw [sequenceOrder?_cons, sequenceOrder?_cons, h.swap hx hy]
    by_cases heq : order x y = some .eq
    · rw [heq, if_pos rfl]
      exact sequenceOrder?_swap h hxs hys
    · have hne : (order x y).map Ordering.swap ≠ some .eq := by
        intro hswap
        obtain ⟨o, ho, hswap⟩ := Option.map_eq_some_iff.mp hswap
        cases o with
        | eq => exact heq ho
        | _ => cases hswap
      rw [if_neg heq, if_neg hne]

theorem sequenceOrder?_congr (h : IsPartialOrder P order) : ∀ {xs ys zs : List Value},
    (∀ x ∈ xs, P x) → (∀ y ∈ ys, P y) → (∀ z ∈ zs, P z) →
    sequenceOrder? order xs ys = some .eq →
    sequenceOrder? order xs zs = sequenceOrder? order ys zs
  | [], [], _, _, _, _, _ => rfl
  | [], _ :: _, _, _, _, _, hxy => by cases hxy
  | _ :: _, [], _, _, _, _, hxy => by cases hxy
  | _ :: _, _ :: _, [], _, _, _, _ => rfl
  | x :: xs, y :: ys, z :: zs, hxs, hys, hzs, hxy => by
    obtain ⟨hx, hxs⟩ := List.forall_mem_cons.mp hxs
    obtain ⟨hy, hys⟩ := List.forall_mem_cons.mp hys
    obtain ⟨hz, hzs⟩ := List.forall_mem_cons.mp hzs
    rw [sequenceOrder?_cons] at hxy
    split at hxy
    · next heq =>
      rw [sequenceOrder?_cons, sequenceOrder?_cons, h.congr hx hy hz heq,
        sequenceOrder?_congr h hxs hys hzs hxy]
    · next hne => exact absurd hxy hne

theorem sequenceOrder?_trans (h : IsPartialOrder P order) : ∀ {xs ys zs : List Value},
    (∀ x ∈ xs, P x) → (∀ y ∈ ys, P y) → (∀ z ∈ zs, P z) →
    sequenceOrder? order xs ys = some .lt → sequenceOrder? order ys zs = some .lt →
    sequenceOrder? order xs zs = some .lt
  | [], [], _, _, _, _, hxy, _ => by cases hxy
  | [], _ :: _, [], _, _, _, _, hyz => by cases hyz
  | [], _ :: _, _ :: _, _, _, _, _, _ => rfl
  | _ :: _, [], _, _, _, _, hxy, _ => by cases hxy
  | _ :: _, _ :: _, [], _, _, _, _, hyz => by cases hyz
  | x :: xs, y :: ys, z :: zs, hxs, hys, hzs, hxy, hyz => by
    obtain ⟨hx, hxs⟩ := List.forall_mem_cons.mp hxs
    obtain ⟨hy, hys⟩ := List.forall_mem_cons.mp hys
    obtain ⟨hz, hzs⟩ := List.forall_mem_cons.mp hzs
    rw [sequenceOrder?_cons] at hxy hyz ⊢
    -- The earlier of the two positions that decide also decides between the outer sequences.
    by_cases hxyeq : order x y = some .eq
    · rw [if_pos hxyeq] at hxy
      rw [h.congr hx hy hz hxyeq]
      by_cases hyzeq : order y z = some .eq
      · rw [if_pos hyzeq] at hyz ⊢
        exact sequenceOrder?_trans h hxs hys hzs hxy hyz
      · rw [if_neg hyzeq] at hyz ⊢
        exact hyz
    · rw [if_neg hxyeq] at hxy
      have hxz : order x z = some .lt := by
        by_cases hyzeq : order y z = some .eq
        · rw [← h.congr_right hy hz hx hyzeq, hxy]
        · rw [if_neg hyzeq] at hyz
          exact h.trans hx hy hz hxy hyz
      rw [hxz]
      rfl

/-- **Sequences are in a partial order if their items are**: the first position with different
items decides. -/
theorem sequenceOrder?_isPartialOrder (h : IsPartialOrder P order) :
    IsPartialOrder (fun xs => ∀ x ∈ xs, P x) (sequenceOrder? order) where
  swap := sequenceOrder?_swap h
  congr := sequenceOrder?_congr h
  trans := sequenceOrder?_trans h

/-- Sequences that compare as equal are equal item by item. -/
theorem itemsEqual_of_sequenceOrder? {eq : Value → Value → Bool}
    (h : ∀ x y, order x y = some .eq → eq x y = true) : ∀ {xs ys : List Value},
    sequenceOrder? order xs ys = some .eq → equalsWithin.itemsEqual eq xs ys = true
  | [], [], _ => rfl
  | [], _ :: _, hxy => by cases hxy
  | _ :: _, [], hxy => by cases hxy
  | x :: xs, y :: ys, hxy => by
    rw [sequenceOrder?_cons] at hxy
    split at hxy
    · next heq =>
      rw [equalsWithin.itemsEqual, h x y heq, itemsEqual_of_sequenceOrder? h hxy]
      rfl
    · next hne => exact absurd hxy hne

/-- Items that compare alike make sequences that do. -/
theorem sequenceOrder?_eq_of_forall {order' : Value → Value → Option Ordering} :
    ∀ {xs ys : List Value}, (∀ x ∈ xs, ∀ y ∈ ys, order x y = order' x y) →
    sequenceOrder? order xs ys = sequenceOrder? order' xs ys
  | [], [], _ => rfl
  | [], _ :: _, _ => rfl
  | _ :: _, [], _ => rfl
  | x :: xs, y :: ys, h => by
    have hrest : sequenceOrder? order xs ys = sequenceOrder? order' xs ys :=
      sequenceOrder?_eq_of_forall fun x' hx' y' hy' =>
        h x' (List.mem_cons_of_mem _ hx') y' (List.mem_cons_of_mem _ hy')
    rw [sequenceOrder?_cons, sequenceOrder?_cons, hrest,
      h x (List.mem_cons_self ..) y (List.mem_cons_self ..)]

end

/-! ### Values -/

variable {s : Store} {a b c : Value} {o : Ordering} {n : Nat}

/-- No double is inside of the value. -/
def NoFloat (s : Store) (v : Value) : Prop :=
  ∀ f, ¬s.Reaches v (.float f)

theorem NoFloat.kind {x : Scalar} (h : s.NoFloat (.scalar x)) : x.kind ≠ .float := by
  cases x with
  | float f => exact absurd (.refl s _) (h f)
  | _ => rintro ⟨⟩

theorem NoFloat.part {x : Value} (h : s.NoFloat a) (hpart : s.Part a x) : s.NoFloat x :=
  fun f hf => h f (hpart.reaches.trans hf)

/-- The items of a list or a tuple, with its kind. -/
def sequence? (s : Store) (h : Handle) : Option (Kind × List Value) :=
  match s.get? h with
  | some (.list xs) => some (.list, xs)
  | some (.tuple xs) => some (.tuple, xs)
  | _ => none

theorem sequence?_part {h : Handle} {p : Kind × List Value} (hp : p ∈ s.sequence? h) {x : Value}
    (hx : x ∈ p.2) : s.Part (.ref h) x := by
  rw [Option.mem_def, sequence?] at hp
  split at hp
  · next hc =>
    cases hp
    exact ⟨_, hc, hx⟩
  · next hc =>
    cases hp
    exact ⟨_, hc, hx⟩
  · cases hp

theorem orderWithin?_ref {g h : Handle} :
    s.orderWithin? (n + 1) (.ref g) (.ref h) =
      orderSorted? (sequenceOrder? (s.orderWithin? n)) (s.sequence? g) (s.sequence? h) := by
  rw [orderWithin?, sequence?, sequence?]
  cases s.get? g with
  | none => rfl
  | some c =>
    cases s.get? h with
    | none => cases c <;> rfl
    | some d => cases c <;> cases d <;> rfl

/-- **Values without doubles are in a partial order**, however deep they are looked at. -/
theorem orderWithin?_isPartialOrder (s : Store) : ∀ n, IsPartialOrder s.NoFloat (s.orderWithin? n)
  | 0 =>
    { swap := fun _ _ => rfl
      congr := fun _ _ _ hab => nomatch hab
      trans := fun _ _ _ hab _ => nomatch hab }
  | n + 1 => by
    -- a container is compared by its kind and its elements, and these one level less deep
    have hsequences : IsPartialOrder
        (fun r : Option (Kind × List Value) => ∀ p ∈ r, ∀ x ∈ p.2, s.NoFloat x)
        (orderSorted? (sequenceOrder? (s.orderWithin? n))) :=
      (sequenceOrder?_isPartialOrder (orderWithin?_isPartialOrder s n)).sorted
    have hitems {h : Handle} (hh : s.NoFloat (.ref h)) :
        ∀ p ∈ s.sequence? h, ∀ x ∈ p.2, s.NoFloat x :=
      fun p hp x hx => hh.part (sequence?_part hp hx)
    constructor
    · intro a b ha hb
      cases a with
      | scalar x => cases b with
        | scalar y => exact Scalar.order?_isPartialOrder.swap ha.kind hb.kind
        | ref h => rfl
      | ref g => cases b with
        | scalar y => rfl
        | ref h =>
          rw [orderWithin?_ref, orderWithin?_ref]
          exact hsequences.swap (hitems ha) (hitems hb)
    · intro a b c ha hb hc hab
      cases a with
      | scalar x => cases b with
        | scalar y => cases c with
          | scalar z => exact Scalar.order?_isPartialOrder.congr ha.kind hb.kind hc.kind hab
          | ref h => rfl
        | ref h => cases hab
      | ref g => cases b with
        | scalar y => cases hab
        | ref h => cases c with
          | scalar z => rfl
          | ref k =>
            rw [orderWithin?_ref] at hab ⊢
            rw [orderWithin?_ref]
            exact hsequences.congr (hitems ha) (hitems hb) (hitems hc) hab
    · intro a b c ha hb hc hab hbc
      cases a with
      | scalar x => cases b with
        | scalar y => cases c with
          | scalar z => exact Scalar.order?_isPartialOrder.trans ha.kind hb.kind hc.kind hab hbc
          | ref h => cases hbc
        | ref h => cases hab
      | ref g => cases b with
        | scalar y => cases hab
        | ref h => cases c with
          | scalar z => cases hbc
          | ref k =>
            rw [orderWithin?_ref] at hab hbc ⊢
            exact hsequences.trans (hitems ha) (hitems hb) (hitems hc) hab hbc

/-- Values that compare as equal are equal. -/
theorem equalsWithin_of_orderWithin? : ∀ (n : Nat) (a b : Value),
    s.orderWithin? n a b = some .eq → s.equalsWithin n false a b = true
  | 0, _, _, h => by cases h
  | _ + 1, .scalar _, .ref _, h => by cases h
  | _ + 1, .ref _, .scalar _, h => by cases h
  | n + 1, .scalar x, .scalar y, h => by
    rw [equalsWithin]
    exact Scalar.equals_of_order? h
  | n + 1, .ref g, .ref h, hgh => by
    have hitems {xs ys : List Value} (hxy : sequenceOrder? (s.orderWithin? n) xs ys = some .eq) :
        equalsWithin.itemsEqual (s.equalsWithin n false) xs ys = true :=
      itemsEqual_of_sequenceOrder? (equalsWithin_of_orderWithin? n) hxy
    rw [orderWithin?] at hgh
    rw [equalsWithin, Bool.or_eq_true]
    right
    split at hgh
    · next hc hd =>
      rw [hc, hd]
      exact hitems hgh
    · next hc hd =>
      rw [hc, hd]
      exact hitems hgh
    · cases hgh

/-- **The depth does not matter** if it is enough for one of the values. -/
theorem orderWithin?_of_levels : ∀ (k : Nat) {n m : Nat} {a b : Value}, k ≤ n → k ≤ m →
    s.Levels k a → s.orderWithin? n a b = s.orderWithin? m a b
  | 0, _, _, _, _, _, _, ha => ha.elim
  | k + 1, 0, _, _, _, hn, _, _ => absurd hn (Nat.not_succ_le_zero k)
  | k + 1, _, 0, _, _, _, hm, _ => absurd hm (Nat.not_succ_le_zero k)
  | _ + 1, _ + 1, _ + 1, .scalar _, .scalar _, _, _, _ => rfl
  | _ + 1, _ + 1, _ + 1, .scalar _, .ref _, _, _, _ => rfl
  | _ + 1, _ + 1, _ + 1, .ref _, .scalar _, _, _, _ => rfl
  | k + 1, n + 1, m + 1, .ref g, .ref h, hn, hm, ha => by
    rw [orderWithin?_ref, orderWithin?_ref]
    cases hp : s.sequence? g with
    | none => rfl
    | some p =>
      cases s.sequence? h with
      | none => rfl
      | some q =>
        rw [orderSorted?, orderSorted?, sequenceOrder?_eq_of_forall fun x hx y _ =>
          orderWithin?_of_levels k (Nat.le_of_succ_le_succ hn) (Nat.le_of_succ_le_succ hm)
            (ha.part (sequence?_part hp hx))]

/-- A value that does not hold itself and has no doubles in it. -/
structure Orderable (s : Store) (v : Value) : Prop where
  holdsGraph : s.HoldsGraph v
  acyclic : s.IsAcyclic v
  noFloat : s.NoFloat v

theorem Equatable.orderable {v : Value} (h : s.Equatable v) : s.Orderable v :=
  ⟨h.holdsGraph, h.acyclic, h.noFloat⟩

/-- **Ordering comparisons form a strict partial order consistent with equality.**  Of values without
doubles that do not hold themselves, nested sequences among them: a comparison turned around has the
reverse answer; what compares as equal is equal and can be replaced on either side; what is less than
something less is less.  So a value that is neither greater than a reference nor less is equal to it,
and comparisons can be chained in both directions.  The comparison ends: more levels than there are
containers do not change its answer. -/
theorem order?_strict (ha : s.Orderable a) (hb : s.Orderable b) (hc : s.Orderable c) :
    s.order? b a = (s.order? a b).map Ordering.swap ∧
      (s.order? a b = some .eq →
        s.equals a b = true ∧ s.order? a c = s.order? b c ∧ s.order? c a = s.order? c b) ∧
      (s.order? a b = some .lt → s.order? b c = some .lt → s.order? a c = some .lt) ∧
      (Comparison.le.accepts (s.order? a b) = true → Comparison.ge.accepts (s.order? a b) = true →
        s.equals a b = true) ∧
      (∀ op ∈ [Comparison.lt, .gt], op.accepts (s.order? a b) = true →
        op.accepts (s.order? b c) = true → op.accepts (s.order? a c) = true) ∧
      ∀ n, s.size < n → s.orderWithin? n a b = s.order? a b := by
  have hlaws := orderWithin?_isPartialOrder s s.comparisonDepth
  have hequal (h : s.order? a b = some .eq) : s.equals a b = true :=
    equalsWithin_of_orderWithin? _ _ _ h
  refine ⟨hlaws.swap ha.noFloat hb.noFloat, fun h => ⟨hequal h, ?_, ?_⟩,
    hlaws.trans ha.noFloat hb.noFloat hc.noFloat,
    fun hle hge => hequal (Comparison.eq_of_accepts hle hge), ?_, fun n hn => ?_⟩
  · exact hlaws.congr ha.noFloat hb.noFloat hc.noFloat h
  · exact hlaws.congr_right ha.noFloat hb.noFloat hc.noFloat h
  · intro op hop
    rcases List.mem_cons.mp hop with rfl | hop
    · rw [Comparison.accepts_lt, Comparison.accepts_lt, Comparison.accepts_lt]
      exact hlaws.trans ha.noFloat hb.noFloat hc.noFloat
    · obtain rfl := List.mem_singleton.mp hop
      rw [Comparison.accepts_gt, Comparison.accepts_gt, Comparison.accepts_gt]
      exact hlaws.trans_gt ha.noFloat hb.noFloat hc.noFloat
  · have hlevels := levels_of_isAcyclic ha.holdsGraph ha.acyclic
    exact orderWithin?_of_levels _ hn s.size_lt_comparisonDepth hlevels

/-- Lists that begin with tuples.  The first two are equal, a truth value standing for an integer; the
third comes after them, and its `null`, which cannot be compared, is not looked at. -/
theorem order?_strict_nested :
    let s : Store := ⟨#[.tuple [.int 1, .str "a"], .tuple [.bool true, .str "a"],
      .tuple [.int 1, .str "b"], .list [.ref ⟨0⟩, .int 3], .list [.ref ⟨1⟩, .int 3],
      .list [.ref ⟨2⟩, .null]]⟩
    let a := .ref ⟨3⟩
    let b := .ref ⟨4⟩
    let c := .ref ⟨5⟩
    s.order? a b = some .eq ∧ s.equals a b = true ∧ s.order? b c = some .lt ∧
      s.order? a c = some .lt ∧ s.order? c a = some .gt ∧ s.orderWithin? 7 a c = some .lt := by
  intro s a b c
  have orderable (i : Nat) (hi : i < 6) : s.Orderable (.ref ⟨i⟩) :=
    (equatable_of_cells (by decide) (by decide) (by decide) (by decide) (by decide) hi).orderable
  obtain ⟨-, hequal, -⟩ := order?_strict (orderable 3 (by decide)) (orderable 4 (by decide))
    (orderable 5 (by decide))
  obtain ⟨hswap, -, -, -, -, hbound⟩ := order?_strict (orderable 3 (by decide))
    (orderable 5 (by decide)) (orderable 5 (by decide))
  have hab : s.order? a b = some .eq := by decide
  have hbc : s.order? b c = some .lt := by decide
  obtain ⟨heq, hac, -⟩ := hequal hab
  rw [hbc] at hac
  exact ⟨hab, heq, hbc, hac, by rw [hswap, hac]; rfl, by rw [hbound 7 (by decide), hac]⟩

end Store

end DottedPath
