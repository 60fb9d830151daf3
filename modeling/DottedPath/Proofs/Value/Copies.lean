import DottedPath.Proofs.Value.Growth

/-!
# Copies of values

A write cannot edit a tuple or a frozen object, so it makes a copy of one on its way.  A value is a
copy of another one if it is the same, or if both are such containers and differ in nothing but
copies (`Store.Copies`).  A store keeps another one if its containers hold the same, or copies of it
(`Store.Keeps`).

## Main statements

- `Store.Copies.symm`, `Store.Copies.trans`: to be a copy is an equivalence.
- `Store.Keeps.trans`: what is kept by two computations is kept by both together.
- `Store.Keeps.set`, `Store.copies_push`: a container may be edited to hold copies, or copied itself.
-/

namespace DottedPath

namespace Container

/-- The values that a write can replace. -/
def slots : Container → List Value
  | list xs => xs
  | tuple xs => xs
  | dict es => es.map Prod.snd
  | object _ attrs _ => attrs.map Prod.snd
  | set _ => []
  | frozenset _ => []

/-- What a write leaves of a container: everything but the values of its slots. -/
def frame : Container → Container
  | list xs => list (xs.map fun _ => .null)
  | tuple xs => tuple (xs.map fun _ => .null)
  | dict es => dict (es.map fun e => (e.1, .null))
  | object name attrs frozen => object name (attrs.map fun a => (a.1, .null)) frozen
  | set ms => set ms
  | frozenset ms => frozenset ms

/-- A write copies the container, since it cannot edit it. -/
def isCopied : Container → Bool
  | tuple _ => true
  | object _ _ frozen => frozen
  | _ => false

theorem length_slots (c : Container) : c.slots.length = c.frame.slots.length := by
  cases c <;> simp [slots, frame]

theorem isCopied_frame (c : Container) : c.frame.isCopied = c.isCopied := by
  cases c <;> rfl

/-- Slots are parts. -/
theorem mem_parts_of_mem_slots {c : Container} {x : Value} (hx : x ∈ c.slots) : x ∈ c.parts := by
  cases c with
  | dict es =>
    obtain ⟨e, he, rfl⟩ := List.mem_map.mp hx
    exact List.mem_flatMap.mpr ⟨e, he, by simp⟩
  | set ms => cases hx
  | frozenset ms => cases hx
  | _ => exact hx

end Container

namespace Store

/-! ### Copies -/

/-- The second value is the first one or a copy of it. -/
inductive Copies (s : Store) : Value → Value → Prop where
  | refl (v : Value) : Copies s v v
  | copy {g h : Handle} {c d : Container} (hc : s.get? g = some c) (hd : s.get? h = some d)
    (hcopied : c.isCopied = true) (hframe : c.frame = d.frame)
    (hslots : ∀ (i : Nat) x y, c.slots[i]? = some x → d.slots[i]? = some y → Copies s x y) :
    Copies s (.ref g) (.ref h)

variable {s t u : Store} {v w x : Value} {c d e : Container}

/-- Where one of two containers of the same frame has a slot, the other one has one too. -/
theorem slot_of_frame (h : c.frame = d.frame) {i : Nat} {x : Value} (hx : c.slots[i]? = some x) :
    ∃ y, d.slots[i]? = some y := by
  have hlt := (List.getElem?_eq_some_iff.mp hx).1
  rw [c.length_slots, h, ← d.length_slots] at hlt
  exact ⟨d.slots[i], List.getElem?_eq_getElem hlt⟩

theorem isCopied_of_frame (h : c.frame = d.frame) (hc : c.isCopied = true) : d.isCopied = true := by
  rw [← d.isCopied_frame, ← h, c.isCopied_frame, hc]

namespace Copies

theorem symm (h : s.Copies v w) : s.Copies w v := by
  induction h with
  | refl v => exact .refl v
  | copy hc hd hcopied hframe _ ih =>
    exact .copy hd hc (isCopied_of_frame hframe hcopied) hframe.symm
      fun i x y hx hy => ih i y x hy hx

theorem trans (h : s.Copies v w) : ∀ {x}, s.Copies w x → s.Copies v x := by
  induction h with
  | refl v => exact fun h' => h'
  | @copy g h c d hc hd hcopied hframe hslots ih =>
    intro x h'
    cases h' with
    | refl => exact .copy hc hd hcopied hframe hslots
    | @copy _ k d' e hd' he _ hframe' hslots' =>
      cases hd.symm.trans hd'
      refine .copy hc he hcopied (hframe.trans hframe') fun i x z hx hz => ?_
      obtain ⟨y, hy⟩ := slot_of_frame hframe hx
      exact ih i x y hx hy (hslots' i y z hy hz)

theorem eq_of_scalar {a : Scalar} (h : s.Copies (.scalar a) w) : w = .scalar a := by
  cases h
  rfl

/-- What a write edits in place has no copies but itself. -/
theorem eq_of_get? {g : Handle} (h : s.Copies (.ref g) w) (hc : s.get? g = some c)
    (hcopied : c.isCopied = false) : w = .ref g := by
  cases h with
  | refl => rfl
  | copy hc' _ hcopied' =>
    cases hc.symm.trans hc'
    rw [hcopied] at hcopied'
    cases hcopied'

end Copies

/-- The containers that a write copies hold what they held. -/
def KeepsCopied (s t : Store) : Prop :=
  ∀ h c, s.get? h = some c → c.isCopied = true → t.get? h = some c

theorem GrowsTo.keepsCopied (hst : s.GrowsTo t) : s.KeepsCopied t :=
  fun h c hc _ => hst h c hc

theorem Copies.keepsCopied (hst : s.KeepsCopied t) (h : s.Copies v w) : t.Copies v w := by
  induction h with
  | refl v => exact .refl v
  | copy hc hd hcopied hframe _ ih =>
    exact .copy (hst _ _ hc hcopied) (hst _ _ hd (isCopied_of_frame hframe hcopied)) hcopied hframe ih

/-! ### Lists of copies -/

/-- The values are copies of others, one by one. -/
def AllCopies (s : Store) (xs ys : List Value) : Prop :=
  xs.length = ys.length ∧ ∀ (i : Nat) x y, xs[i]? = some x → ys[i]? = some y → s.Copies x y

namespace AllCopies

variable {xs ys zs : List Value}

theorem refl (s : Store) (xs : List Value) : s.AllCopies xs xs :=
  ⟨rfl, fun i x y hx hy => by cases hx.symm.trans hy; exact .refl x⟩

theorem get? (h : s.AllCopies xs ys) {i : Nat} {x : Value} (hx : xs[i]? = some x) :
    ∃ y, ys[i]? = some y ∧ s.Copies x y := by
  have hlt := (List.getElem?_eq_some_iff.mp hx).1
  rw [h.1] at hlt
  exact ⟨ys[i], List.getElem?_eq_getElem hlt, h.2 i x _ hx (List.getElem?_eq_getElem hlt)⟩

theorem symm (h : s.AllCopies xs ys) : s.AllCopies ys xs :=
  ⟨h.1.symm, fun i x y hx hy => (h.2 i y x hy hx).symm⟩

theorem trans (h : s.AllCopies xs ys) (h' : s.AllCopies ys zs) : s.AllCopies xs zs := by
  refine ⟨h.1.trans h'.1, fun i x z hx hz => ?_⟩
  obtain ⟨y, hy, hxy⟩ := h.get? hx
  exact hxy.trans (h'.2 i y z hy hz)

theorem keepsCopied (hst : s.KeepsCopied t) (h : s.AllCopies xs ys) : t.AllCopies xs ys :=
  ⟨h.1, fun i x y hx hy => (h.2 i x y hx hy).keepsCopied hst⟩

/-- An element may be replaced by a copy of what it is a copy of. -/
theorem set (h : s.AllCopies xs ys) {i : Nat} {x y : Value} (hx : xs[i]? = some x)
    (hy : s.Copies x y) : s.AllCopies xs (ys.set i y) := by
  refine ⟨by rw [List.length_set, h.1], fun j a b ha hb => ?_⟩
  by_cases hij : i = j
  · subst hij
    cases hx.symm.trans ha
    have hlt := (List.getElem?_eq_some_iff.mp ha).1
    rw [h.1] at hlt
    rw [List.getElem?_set_self hlt] at hb
    cases hb
    exact hy
  · rw [List.getElem?_set_ne hij] at hb
    exact h.2 j a b ha hb

end AllCopies

/-! ### What is kept -/

/-- The containers differ in nothing but copies. -/
structure Like (s : Store) (c d : Container) : Prop where
  frame : c.frame = d.frame
  slots : s.AllCopies c.slots d.slots

namespace Like

theorem refl (s : Store) (c : Container) : s.Like c c := ⟨rfl, .refl s _⟩

theorem symm (h : s.Like c d) : s.Like d c := ⟨h.frame.symm, h.slots.symm⟩

theorem trans (h : s.Like c d) (h' : s.Like d e) : s.Like c e :=
  ⟨h.frame.trans h'.frame, h.slots.trans h'.slots⟩

theorem keepsCopied (hst : s.KeepsCopied t) (h : s.Like c d) : t.Like c d :=
  ⟨h.frame, h.slots.keepsCopied hst⟩

end Like

/-- The containers hold what they held, or copies of it. -/
structure Keeps (s t : Store) : Prop where
  copied : s.KeepsCopied t
  like : ∀ h c, s.get? h = some c → ∃ d, t.get? h = some d ∧ t.Like c d

namespace Keeps

theorem of_grows (hst : s.GrowsTo t) : s.Keeps t :=
  ⟨hst.keepsCopied, fun h c hc => ⟨c, hst h c hc, .refl t c⟩⟩

theorem refl (s : Store) : s.Keeps s := of_grows (.refl s)

theorem trans (hst : s.Keeps t) (htu : t.Keeps u) : s.Keeps u := by
  refine ⟨fun h c hc hcopied => htu.copied h c (hst.copied h c hc hcopied) hcopied,
    fun h c hc => ?_⟩
  obtain ⟨d, hd, hcd⟩ := hst.like h c hc
  obtain ⟨e, he, hde⟩ := htu.like h d hd
  exact ⟨e, he, (hcd.keepsCopied htu.copied).trans hde⟩

/-- A container that is edited in place may come to hold copies. -/
theorem set {h : Handle} (hc : s.get? h = some c) (hcopied : c.isCopied = false)
    (hlike : s.Like c d) : s.Keeps (s.set h d) := by
  have hothers : ∀ g e, s.get? g = some e → g ≠ h → (s.set h d).get? g = some e := by
    intro g e he hne
    rw [get?_set_ne d hne, he]
  have hkept : s.KeepsCopied (s.set h d) := by
    intro g e he hecopied
    refine hothers g e he ?_
    rintro rfl
    cases hc.symm.trans he
    rw [hcopied] at hecopied
    cases hecopied
  refine ⟨hkept, fun g e he => ?_⟩
  by_cases hg : g = h
  · subst hg
    cases hc.symm.trans he
    exact ⟨d, get?_set_self d (lt_size_of_get? hc), hlike.keepsCopied hkept⟩
  · exact ⟨e, hothers g e he hg, .refl _ e⟩

end Keeps

/-- A container that holds copies of what a copied one does is a copy of it. -/
theorem copies_push {h : Handle} (hc : s.get? h = some c) (hcopied : c.isCopied = true)
    (hlike : s.Like c d) : (s.push d).Copies (.ref h) (.ref s.next) := by
  have hgrows := GrowsTo.push s d
  exact .copy (hgrows h c hc) (get?_push_next s d) hcopied hlike.frame
    (hlike.keepsCopied hgrows.keepsCopied).slots.2

end Store

end DottedPath
