import DottedPath.Proofs.Value.Meaning
import DottedPath.Value.Digest

/-!
# Equal values are found by their hash

What a value feeds to a hasher depends on its meaning only (`Store.fed_eq`), so that equal values feed
the same, and a look-up by hash and equality finds what a look-up by equality does.

## Main statements

`Store.equals_lawful`: equality is an equivalence that hashing respects, on all values without
doubles that do not hold themselves.
-/

namespace DottedPath

variable {hasher : Hasher}

/-- What a layer feeds to a hasher, given what its parts feed. -/
def Layer.fed {α : Type} (hasher : Hasher) (fed : α → List HashWrite) : Layer α → List HashWrite
  | .null => [.tag 2]
  | .number i => [.tag 0, .int i]
  | .text t => [.tag 3, .text t]
  | .bytes bs => [.tag 4, .bytes bs]
  | .list xs => .tag 5 :: xs.flatMap fed
  | .tuple xs => .tag 6 :: xs.flatMap fed
  | .dict es =>
    [.tag 7, .word (es.map fun e => Digest.entry (hasher (fed e.1)) (hasher (fed e.2))).sum]
  | .set ms => [.tag 8, .word (ms.map fun m => hasher (fed m)).sum]
  | .object name attrs =>
    let sum := (attrs.map fun a => Digest.attr (hasher (Scalar.str a.1).fed) (hasher (fed a.2))).sum
    [.tag 9, .text name, .word sum]
  | .unknown => []

/-- What a meaning feeds to a hasher. -/
def Meaning.fed (hasher : Hasher) : (n : Nat) → Meaning n → List HashWrite
  | 0, _ => []
  | n + 1, layer => Layer.fed hasher (Meaning.fed hasher n) layer

/-- The sum of hashes does not depend on their order. -/
theorem Digest.total_eq_sum (hashes : List UInt64) :
    Digest.total hashes = (hashes : Multiset UInt64).sum := by
  rw [Digest.total, Multiset.sum_coe, List.sum_eq_foldl]

theorem Scalar.fed_layer {α : Type} {x : Scalar} (hx : x.kind ≠ .float)
    (fed : α → List HashWrite) : x.fed = (x.layer : Layer α).fed hasher fed := by
  cases x with
  | float f => exact absurd rfl hx
  | _ => rfl

namespace Store

variable {s : Store} {v a b c : Value} {n m : Nat}

/-- What a value feeds to a hasher depends on its meaning, to every depth that is enough. -/
theorem fedWithin_eq : ∀ (n : Nat) {m : Nat} {v : Value}, n ≤ m → s.Levels n v → s.Equatable v →
    s.fedWithin hasher m v = Meaning.fed hasher n (s.meaning n v)
  | 0, _, _, _, hlevels, _ => hlevels.elim
  | n + 1, 0, _, hm, _, _ => absurd hm (Nat.not_succ_le_zero n)
  | n + 1, m + 1, .scalar x, _, _, hv => Scalar.fed_layer hv.kind_ne_float _
  | n + 1, m + 1, .ref h, hm, hlevels, hv => by
    obtain ⟨c, hc, hparts⟩ := hlevels
    have ih : ∀ x ∈ c.parts, s.fedWithin hasher m x = Meaning.fed hasher n (s.meaning n x) :=
      fun x hx => fedWithin_eq n (by omega) (hparts x hx) (hv.of_reaches (Part.reaches ⟨c, hc, hx⟩))
    have items {xs : List Value} (hxs : xs ⊆ c.parts) :
        xs.flatMap (s.fedWithin hasher m) =
          (xs.map (s.meaning n)).flatMap (Meaning.fed hasher n) := by
      rw [List.flatMap_map, List.flatMap_congr fun x hx => ih x (hxs hx)]
    -- members are fed by the sum of their hashes, which does not depend on their order
    have members {ms : List Value} (hms : ms ⊆ c.parts) :
        Digest.total (ms.map fun x => hasher (s.fedWithin hasher m x)) =
          (((ms.map (s.meaning n) : List (Meaning n)) : Multiset (Meaning n)).map fun x =>
            hasher (Meaning.fed hasher n x)).sum := by
      rw [Digest.total_eq_sum, Multiset.map_coe, List.map_map]
      congr 2
      exact List.map_congr_left fun x hx => congrArg hasher (ih x (hms hx))
    rw [fedWithin, meaning, Meaning.fed, hc]
    cases c with
    | list xs => exact congrArg (HashWrite.tag 5 :: ·) (items fun _ h => h)
    | tuple xs => exact congrArg (HashWrite.tag 6 :: ·) (items fun _ h => h)
    | set ms => exact congrArg (fun w => [HashWrite.tag 8, .word w]) (members fun _ h => h)
    | frozenset ms => exact congrArg (fun w => [HashWrite.tag 8, .word w]) (members fun _ h => h)
    | dict es =>
      refine congrArg (fun w => [HashWrite.tag 7, .word w]) ?_
      rw [Digest.total_eq_sum, Multiset.map_coe, List.map_map]
      congr 2
      refine List.map_congr_left fun e he => ?_
      have hkey := ih e.1 (List.mem_flatMap.mpr ⟨e, he, by simp⟩)
      have hvalue := ih e.2 (List.mem_flatMap.mpr ⟨e, he, by simp⟩)
      exact congrArg₂ (fun k v => Digest.entry (hasher k) (hasher v)) hkey hvalue
    | object name attrs frozen =>
      refine congrArg (fun w => [HashWrite.tag 9, .text name, .word w]) ?_
      rw [Digest.total_eq_sum, Multiset.map_coe, List.map_map]
      congr 2
      refine List.map_congr_left fun e he => ?_
      have hvalue := ih e.2 (List.mem_map_of_mem he)
      exact congrArg (fun v => Digest.attr (hasher (Scalar.str e.1).fed) (hasher v)) hvalue

theorem fed_eq (hv : s.Equatable v) :
    s.fed hasher v = Meaning.fed hasher (s.size + 1) (s.fullMeaning v) :=
  fedWithin_eq _ (Nat.le_refl _) hv.levels hv

/-- Equal values feed the same to a hasher. -/
theorem fed_eq_of_equals (ha : s.Equatable a) (hb : s.Equatable b) (h : s.equals a b = true) :
    s.fed hasher a = s.fed hasher b := by
  rw [fed_eq ha, fed_eq hb, (equals_iff_meaning ha hb).mp h]

/-! ### Look-up -/

section

variable {keys : List Value} {d : Container}

theorem findIdx?_congr {α : Type} {p q : α → Bool} : ∀ {l : List α}, (∀ x ∈ l, p x = q x) →
    l.findIdx? p = l.findIdx? q
  | [], _ => rfl
  | x :: l, h => by
    rw [List.findIdx?_cons, List.findIdx?_cons, h x (List.mem_cons_self ..),
      findIdx?_congr fun y hy => h y (List.mem_cons_of_mem _ hy)]

/-- A collection looks for a key at the first one that is equal. -/
theorem keyIndex?_eq_findIdx? (hb : s.Equatable b) (hkeys : ∀ k ∈ keys, s.Equatable k) :
    s.keyIndex? keys b = keys.findIdx? (s.equals b) := by
  refine findIdx?_congr fun k hk => ?_
  rw [Bool.eq_iff_iff, findsKey_iff_meaning hb (hkeys k hk), equals_iff_meaning hb (hkeys k hk)]

/-- A look-up by hash and equality comes to the same place. -/
theorem hashIndex?_eq_findIdx? (table : Hasher) (hb : s.Equatable b)
    (hkeys : ∀ k ∈ keys, s.Equatable k) :
    s.hashIndex? hasher table keys b = keys.findIdx? (s.equals b) := by
  refine findIdx?_congr fun k hk => ?_
  rw [Bool.and_eq_right_iff_imp]
  intro hequal
  rw [fed_eq_of_equals hb (hkeys k hk) hequal, beq_self_eq_true]

/-- What has a hashed key has just the keys that are looked up in it. -/
theorem contains_eq_isSome (hd : s.container? a = some d) {k : Value} (hk : k ∈ d.hashed) :
    s.contains a b = (s.keyIndex? d.hashed b).isSome := by
  cases a with
  | scalar x => cases hd
  | ref h =>
    cases d with
    | list xs => exact absurd hk List.not_mem_nil
    | tuple xs => exact absurd hk List.not_mem_nil
    | object name attrs frozen => exact absurd hk List.not_mem_nil
    | set ms => simp [contains, hd, Container.hashed]
    | frozenset ms => simp [contains, hd, Container.hashed]
    | dict es =>
      have hlookup : (s.lookup? es b).isSome = (s.keyIndex? (es.map Prod.fst) b).isSome := by
        rw [lookup?, keyIndex?, Option.isSome_map, List.length_map, List.findIdx?_map,
          List.findIdx?_isSome, Bool.eq_iff_iff, List.find?_isSome, List.any_eq_true]
        rfl
      simp [contains, hd, Container.hashed, hlookup]

end

/-- **Equality is an equivalence that hashing respects.**  On values without doubles that do not hold
themselves, whose keys differ from one another, equality is reflexive, symmetric and transitive;
booleans are equal to integers, and containers to such that hold equal parts, where neither the order
of entries, members and attributes counts, nor whether a set or an object is frozen.  Equal values
feed the same to every hasher, so a look-up by hash and equality, in a hash table with any hasher of
its own, finds an equal key if there is one. -/
theorem equals_lawful (ha : s.Equatable a) (hb : s.Equatable b) (hc : s.Equatable c)
    (hasher table : Hasher) :
    s.equals a a = true ∧
      (s.equals a b = true → s.equals b a = true) ∧
      (s.equals a b = true → s.equals b c = true → s.equals a c = true) ∧
      (∀ t i, s.equals (.bool t) (.int i) = true ↔ i = if t then 1 else 0) ∧
      (∀ d e, s.container? a = some d → s.container? b = some e →
        (s.equals a b = true ↔ d.Agrees (fun x y => s.equals x y = true) e)) ∧
      (s.equals a b = true → s.fed hasher a = s.fed hasher b) ∧
      ∀ d, s.container? a = some d → ∀ k ∈ d.hashed, s.equals b k = true →
        s.contains a b = true ∧ ∃ i found,
          s.hashIndex? hasher table d.hashed b = some i ∧ s.keyIndex? d.hashed b = some i ∧
            d.hashed[i]? = some found ∧ s.equals b found = true := by
  refine ⟨(equals_iff_meaning ha ha).mpr rfl, fun hab => ?_, fun hab hbc => ?_, fun t i => ?_,
    fun d e hd he => equals_iff_agrees ha hb hd he, fed_eq_of_equals ha hb, fun d hd k hk hequal => ?_⟩
  · exact (equals_iff_meaning hb ha).mpr ((equals_iff_meaning ha hb).mp hab).symm
  · have hsame := ((equals_iff_meaning ha hb).mp hab).trans ((equals_iff_meaning hb hc).mp hbc)
    exact (equals_iff_meaning ha hc).mpr hsame
  · have hrun : s.equals (.bool t) (.int i) = ((if t then 1 else 0 : Int) == i) := by
      show s.equals (.scalar (.bool t)) (.scalar (.int i)) = _
      rw [equals, comparisonDepth, equalsWithin]
      rfl
    rw [hrun, beq_iff_eq, eq_comm]
  · have hkeys : ∀ k ∈ d.hashed, s.Equatable k := fun k hk =>
      ha.of_reaches (Part.reaches ⟨d, hd, hashed_subset_parts d hk⟩)
    have hfound : (d.hashed.findIdx? (s.equals b)).isSome = true := by
      rw [List.findIdx?_isSome, List.any_eq_true]
      exact ⟨k, hk, hequal⟩
    obtain ⟨i, hi⟩ := Option.isSome_iff_exists.mp hfound
    obtain ⟨hlt, hat, -⟩ := List.findIdx?_eq_some_iff_getElem.mp hi
    refine ⟨?_, i, d.hashed[i], ?_, ?_, List.getElem?_eq_getElem hlt, hat⟩
    · rw [contains_eq_isSome hd hk, keyIndex?_eq_findIdx? hb hkeys, hfound]
    · rw [hashIndex?_eq_findIdx? table hb hkeys, hi]
    · rw [keyIndex?_eq_findIdx? hb hkeys, hi]

/-- Values can be compared in a store where no container holds itself or a double. -/
theorem equatable_of_cells (hclosed : s.isClosed = true) (hstratified : s.isStratified = true)
    (hfloat : ∀ c ∈ s.cells.toList, ∀ x ∈ c.parts, s.kind x ≠ .float)
    (hdistinct : ∀ c ∈ s.cells.toList, c.hashed.Pairwise fun a b => s.sameKey b a = false)
    (hnamed : ∀ c ∈ s.cells.toList, c.attrNames.Nodup) {h : Handle} (hh : h.index < s.size) :
    s.Equatable (.ref h) := by
  have hcell {h : Handle} {c : Container} (hc : s.get? h = some c) : c ∈ s.cells.toList :=
    Array.mem_toList_iff.mpr (Array.mem_of_getElem? hc)
  refine ⟨holdsGraph_of_isClosed hclosed (holds_ref.mpr hh), isAcyclic_of_isStratified hstratified _,
    fun f hf => ?_, fun g c _ hc => hdistinct c (hcell hc), fun g c _ hc => hnamed c (hcell hc)⟩
  rcases Relation.ReflTransGen.cases_tail hf with heq | ⟨y, -, c, hc, hmem⟩
  · cases heq
  · cases y with
    | scalar x => cases hc
    | ref g => exact hfloat c (hcell hc) _ hmem rfl

/-- Two objects, one of them frozen, which hold dicts with an equal key, each in another order. -/
theorem equals_lawful_objects :
    let s : Store := ⟨#[.frozenset [.bool true], .frozenset [.int 1],
      .dict [(.ref ⟨0⟩, .str "x"), (.str "k", .null)], .dict [(.str "k", .null), (.ref ⟨1⟩, .str "x")],
      .object "P" [("a", .ref ⟨2⟩), ("b", .int 0)] true,
      .object "P" [("b", .bool false), ("a", .ref ⟨3⟩)] false]⟩
    let hasher : Hasher := fun writes => UInt64.ofNat writes.length
    s.equals (.ref ⟨4⟩) (.ref ⟨5⟩) = true ∧ s.equals (.ref ⟨5⟩) (.ref ⟨4⟩) = true ∧
      s.fed hasher (.ref ⟨4⟩) = s.fed hasher (.ref ⟨5⟩) ∧
      s.contains (.ref ⟨2⟩) (.ref ⟨1⟩) = true := by
  intro s hasher
  have equatable (i : Nat) (hi : i < 6) : s.Equatable (.ref ⟨i⟩) := by
    refine equatable_of_cells (by decide) (by decide) (by decide) ?_ (by decide) hi
    simp [s, Container.hashed, sameKey, comparisonDepth, equalsWithin]
  obtain ⟨-, hsymm, -, -, -, hfed, -⟩ := equals_lawful (equatable 4 (by decide))
    (equatable 5 (by decide)) (equatable 4 (by decide)) hasher hasher
  obtain ⟨-, -, -, -, -, -, hfind⟩ := equals_lawful (equatable 2 (by decide))
    (equatable 1 (by decide)) (equatable 1 (by decide)) hasher hasher
  have hdepth : s.comparisonDepth = 50 := rfl
  have hkey : s.equals (.ref ⟨1⟩) (.ref ⟨0⟩) = true := by
    rw [equals, hdepth]
    simp [s, get?, equalsWithin, equalsWithin.membersEqual, Value.int, Value.bool, Scalar.equals,
      Scalar.toInt?]
  have hequal : s.equals (.ref ⟨4⟩) (.ref ⟨5⟩) = true := by
    rw [equals, hdepth]
    simp [s, get?, equalsWithin, equalsWithin.membersEqual, Value.int, Value.bool, Value.str,
      Value.null, Scalar.equals, Scalar.sameKey, Scalar.sameNumberKey, Scalar.toInt?,
      List.lookup]
  have hmem : .ref ⟨0⟩ ∈ (Container.dict [(.ref ⟨0⟩, .str "x"), (.str "k", .null)]).hashed :=
    List.mem_cons_self ..
  exact ⟨hequal, hsymm hequal, hfed hequal, (hfind _ rfl _ hmem hkey).1⟩

end Store

end DottedPath
