import DottedPath.Proofs.Value.Places

/-!
# Ways into a tree

A location can spell the way to a place differently than the form of the containers does: by an index
from the end, say, or by a key that is equal to the one that is there.  It is a way to the place if
each of its steps leads to the slot and has a literal (`Tree.Way`).  What is reported of a place is a
way to it and the value there (`Tree.Occurs`).

A value is put at a place if the tree holds it there and is as before elsewhere; of the containers on
the way those that cannot be edited are replaced by copies (`Tree.Put`).
-/

namespace DottedPath

variable {s s' : Store} {h : Handle} {f : Form} {n i : Nat} {step : Step}

/-! ### Keys with literals -/

/-- The keys have literals. -/
def Form.Keyed (s : Store) : Form → Prop
  | .dict keys => ∀ k ∈ keys, s.IsKey k
  | _ => True

theorem Form.Keyed.retains (hst : s.Retains s') (hkeyed : f.Keyed s) : f.Keyed s' := by
  cases f with
  | dict keys => exact fun k hk => (hkeyed k hk).keeps hst.keepsCopied
  | _ => trivial

theorem exists_shows_int (s : Store) (i : Int) : ∃ l : Literal, l.Shows s (.int i) :=
  ⟨.scalar (.int i), by rw [Literal.Shows]; rfl⟩

/-- The key of the step, if it has one, has a literal. -/
def Step.IsLiteral (s : Store) : Step → Prop
  | .key k => ∃ l : Literal, l.Shows s k
  | .slot k => ∃ l : Literal, l.Shows s k
  | _ => True

theorem Step.IsLiteral.retains (hst : s.Retains s') (hliteral : step.IsLiteral s) :
    step.IsLiteral s' := by
  cases step with
  | key k => exact hliteral.imp fun l hl => hl.keeps hst.keepsCopied
  | slot k => exact hliteral.imp fun l hl => hl.keeps hst.keepsCopied
  | _ => trivial

/-- The segment of a step with a literal stays the same. -/
theorem Step.IsLiteral.segment (hst : s.Retains s') (hliteral : step.IsLiteral s) :
    step.segment s' = step.segment s := by
  have hkey {k : Value} (hk : ∃ l : Literal, l.Shows s k) : s'.keyLiteral k = s.keyLiteral k := by
    obtain ⟨l, hl⟩ := hk
    rw [Store.keyLiteral, Store.keyLiteral, Literal.ofValue?_of_shows hl,
      Literal.ofValue?_of_shows (hl.keeps hst.keepsCopied)]
    rfl
  cases step with
  | key k => exact congrArg (Segment.literal .key) (hkey hliteral)
  | slot k => exact congrArg (Segment.literal .slot) (hkey hliteral)
  | _ => rfl

theorem Form.Names.retains (hst : s.Retains s') (hnames : f.Names s n step i) :
    f.Names s' n step i := by
  cases f with
  | dict keys =>
    obtain ⟨k, hstep, hk⟩ := hnames
    exact ⟨k, hstep, fun t ht => hk t (hst.trans ht)⟩
  | _ => exact hnames

/-- The steps to different slots are different. -/
theorem Form.step_same (hsuits : f.Suits s n) (hkeyed : f.Keyed s) {j : Nat} (hi : i < n) (hj : j < n)
    (hij : i ≠ j) : (f.step i).same s (f.step j) = false := by
  have hindex : s.equals (.int i) (.int j) = false := by
    rw [Store.equals, Store.comparisonDepth]
    show s.equalsWithin _ false (.scalar (.int i)) (.scalar (.int j)) = false
    rw [Store.equalsWithin]
    exact beq_eq_false_iff_ne.mpr fun heq => hij (Int.ofNat.inj heq)
  cases f with
  | list => exact hindex
  | tuple => exact hindex
  | dict keys =>
    obtain ⟨rfl, hapart⟩ := hsuits
    rw [Form.step, Form.step, List.getD_eq_getElem _ _ hi, List.getD_eq_getElem _ _ hj]
    exact hapart.equals_of_ne hkeyed hi hj hij
  | object name names frozen =>
    obtain ⟨rfl, hnodup⟩ := hsuits
    rw [Form.step, Form.step, List.getD_eq_getElem _ _ hi, List.getD_eq_getElem _ _ hj]
    exact beq_eq_false_iff_ne.mpr fun heq => hij ((List.getElem_inj hnodup).mp heq)

namespace Tree

variable {t u u' : Tree} {ts us before after : List Tree} {l : Location} {p q : List Nat}
  {v w : Value}

/-- The keys of all dicts have literals. -/
inductive Keyed (s : Store) : Tree → Prop where
  | leaf (v : Value) : Keyed s (leaf v)
  | node {h : Handle} {f : Form} {ts : List Tree} (keys : f.Keyed s) (parts : ∀ t ∈ ts, Keyed s t) :
    Keyed s (node h f ts)

theorem Keyed.retains (hst : s.Retains s') (hkeyed : t.Keyed s) : t.Keyed s' := by
  induction hkeyed with
  | leaf v => exact .leaf v
  | node keys _ ih => exact .node (keys.retains hst) ih

/-! ### Ways -/

/-- The steps lead to the place. -/
inductive Way (s : Store) : Tree → Location → List Nat → Prop where
  | nil {t : Tree} : Way s t [] []
  | cons {h : Handle} {f : Form} {ts : List Tree} {t : Tree} {step : Step} {i : Nat} {l : Location}
    {p : List Nat} (part : ts[i]? = some t) (names : f.Names s ts.length step i)
    (literal : step.IsLiteral s) (more : Way s t l p) : Way s (node h f ts) (step :: l) (i :: p)

theorem Way.retains (hst : s.Retains s') (hway : Way s t l p) : Way s' t l p := by
  induction hway with
  | nil => exact .nil
  | cons part names literal _ ih => exact .cons part (names.retains hst) (literal.retains hst) ih

/-- The steps that the containers themselves have are a way. -/
theorem way_location (hlies : Forest.Lies s [t]) (hkeyed : t.Keyed s) :
    ∀ {p : List Nat} {part : Tree}, t.at? p = some part → Way s t (t.location p) p := by
  induction t using induction with
  | leaf v =>
    intro p part hpart
    cases p with
    | nil => exact .nil
    | cons i p => cases hpart
  | node h f ts ih =>
    intro p part hpart
    cases p with
    | nil => exact .nil
    | cons i p =>
      cases hi : ts[i]? with
      | none => rw [at?, hi] at hpart; cases hpart
      | some t =>
        rw [at?, hi] at hpart
        obtain ⟨-, hsuits, hparts, -⟩ := hlies.parts
        have ht : t ∈ ts := List.mem_of_getElem? hi
        have hlt : i < ts.length := (List.getElem?_eq_some_iff.mp hi).1
        cases hkeyed with
        | node keys parts =>
          rw [location, hi]
          refine .cons hi (hsuits.names hlt) ?_ (ih t ht (hparts.of_mem ht) (parts t ht) hpart)
          cases f with
          | dict names =>
            rw [Form.step, List.getD_eq_getElem _ _ (hsuits.1 ▸ hlt)]
            obtain ⟨l, hl, -⟩ := (keys _ (List.getElem_mem _)).shows
            exact ⟨l, hl⟩
          | object name names frozen => trivial
          | list => exact exists_shows_int s i
          | tuple => exact exists_shows_int s i

/-- Different places have different locations, as long as no tuple is edited. -/
theorem location_same (hlies : Forest.Lies s [t]) (hkeyed : t.Keyed s) (hst : s.Retains s') :
    ∀ {p q : List Nat} {a b : Tree}, t.at? p = some a → t.at? q = some b → p ≠ q →
      Location.same s' (t.location p) (t.location q) = false := by
  induction t using induction with
  | leaf v =>
    intro p q a b hp hq hne
    cases p with
    | nil =>
      cases q with
      | nil => exact absurd rfl hne
      | cons j q => cases hq
    | cons i p => cases hp
  | node h f ts ih =>
    intro p q a b hp hq hne
    cases p with
    | nil =>
      cases q with
      | nil => exact absurd rfl hne
      | cons j q => rfl
    | cons i p =>
      cases q with
      | nil => rfl
      | cons j q =>
        obtain ⟨-, hsuits, hparts, -⟩ := hlies.parts
        obtain ⟨t, hi, hp⟩ := Option.bind_eq_some_iff.mp hp
        obtain ⟨u, hj, hq⟩ := Option.bind_eq_some_iff.mp hq
        cases hkeyed with
        | node keys parts =>
          rw [location, location, Location.same]
          -- the places part here, or in the part that they share
          by_cases hij : i = j
          · subst hij
            obtain rfl : t = u := Option.some.inj (hi.symm.trans hj)
            have ht := List.mem_of_getElem? hi
            rw [hi]
            exact Bool.and_eq_false_iff.mpr (.inr
              (ih t ht (hparts.of_mem ht) (parts t ht) hp hq fun heq => hne (by rw [heq])))
          · have hstep := Form.step_same (hsuits.retains hst) (keys.retains hst)
              (List.getElem?_eq_some_iff.mp hi).1 (List.getElem?_eq_some_iff.mp hj).1 hij
            rw [hstep, Bool.false_and]

/-! ### Values put at places -/

/-- Neither of the places is the other one or inside of it. -/
def Beside (p q : List Nat) : Prop :=
  ¬ p <+: q ∧ ¬ q <+: p

/-- The second tree is the first one with a value put at a place. -/
inductive Put (w : Value) : List Nat → Tree → Tree → Prop where
  | here {t : Tree} : Put w [] t (leaf w)
  | inside {h h' : Handle} {f : Form} {before after : List Tree} {t u : Tree} {p : List Nat}
    (same : f.isCopied = false → h' = h) (more : Put w p t u) :
    Put w (before.length :: p) (node h f (before ++ t :: after)) (node h' f (before ++ u :: after))

/-- The value is there. -/
theorem Put.at?_self (hput : Put w p t u) : u.at? p = some (leaf w) := by
  induction hput with
  | here => rfl
  | inside _ _ ih => simpa [at?] using ih

/-- Another slot holds what it held. -/
theorem getElem?_other (t u : Tree) {j : Nat} (hj : before.length ≠ j) :
    (before ++ u :: after)[j]? = (before ++ t :: after)[j]? := by
  have hset : before ++ u :: after = (before ++ t :: after).set before.length u := by simp
  rw [hset, List.getElem?_set_ne hj]

/-- What is at other places stays. -/
theorem Put.at?_of_beside (hput : Put w p t u) : ∀ {q : List Nat}, Beside p q →
    u.at? q = t.at? q := by
  induction hput with
  | here => exact fun hq => absurd List.nil_prefix hq.1
  | @inside h h' f before after t u p same more ih =>
    intro q hq
    cases q with
    | nil => exact absurd List.nil_prefix hq.2
    | cons j q =>
      by_cases hj : before.length = j
      · subst hj
        rw [Beside, List.cons_prefix_cons, List.cons_prefix_cons, and_iff_right rfl,
          and_iff_right rfl] at hq
        simpa [at?] using ih hq
      · rw [at?, at?, getElem?_other t u hj]

/-- A way that does not go on from there is still one. -/
theorem Put.way (hput : Put w p t u) : ∀ {l : Location} {q : List Nat}, ¬ p <+: q → Way s t l q →
    Way s u l q := by
  induction hput with
  | here => exact fun hpq _ => absurd List.nil_prefix hpq
  | @inside h h' f before after t u p same more ih =>
    intro l q hpq hway
    -- The way either goes through the slot that changes, or through another one of the same node.
    generalize hnode : node h f (before ++ t :: after) = root at hway
    induction hway with
    | nil => exact .nil
    | @cons _ _ _ part _ j _ q hj names literal rest =>
      cases hnode
      have hlength : (before ++ u :: after).length = (before ++ t :: after).length := by simp
      by_cases hij : before.length = j
      · subst hij
        rw [List.cons_prefix_cons, and_iff_right rfl] at hpq
        obtain rfl : part = t := by simpa using hj.symm
        exact .cons (by simp) (hlength ▸ names) literal (ih hpq rest)
      · exact .cons ((getElem?_other t u hij).trans hj) (hlength ▸ names) literal rest

theorem Put.keyed (hput : Put w p t u) (hkeyed : t.Keyed s) : u.Keyed s := by
  induction hput with
  | here => exact .leaf w
  | inside _ _ ih =>
    cases hkeyed with
    | node keys parts =>
      refine .node keys fun t ht => ?_
      rcases List.mem_append.mp ht with ht | ht
      · exact parts t (List.mem_append_left _ ht)
      · rcases List.mem_cons.mp ht with rfl | ht
        · exact ih (parts _ (by simp))
        · exact parts t (by simp [ht])

/-- The second tree is the first one with values put at some places, one after the other. -/
inductive Puts : List (List Nat × Value) → Tree → Tree → Prop where
  | nil {t : Tree} : Puts [] t t
  | cons {p : List Nat} {w : Value} {writes : List (List Nat × Value)} {t u u' : Tree}
    (put : Put w p t u) (more : Puts writes u u') : Puts ((p, w) :: writes) t u'

namespace Puts

variable {writes : List (List Nat × Value)}

/-- What is beside all the places stays. -/
theorem at?_of_beside (hputs : Puts writes t u) (hq : ∀ write ∈ writes, Beside write.1 q) :
    u.at? q = t.at? q := by
  induction hputs with
  | nil => rfl
  | cons put more ih =>
    obtain ⟨hhere, hrest⟩ := List.forall_mem_cons.mp hq
    rw [ih hrest, put.at?_of_beside hhere]

/-- **Each place holds its value**, if none of the places is inside of another one. -/
theorem at?_of_mem (hputs : Puts writes t u)
    (hbeside : writes.Pairwise fun a b => Beside a.1 b.1) (hmem : (p, w) ∈ writes) :
    u.at? p = some (leaf w) := by
  induction hputs with
  | nil => cases hmem
  | cons put more ih =>
    obtain ⟨hhere, hrest⟩ := List.pairwise_cons.mp hbeside
    rcases List.mem_cons.mp hmem with heq | hmem
    · cases heq
      rw [more.at?_of_beside fun write hwrite => (hhere write hwrite).symm, put.at?_self]
    · exact ih hrest hmem

end Puts

/-! ### Places that are reported -/

/-- The location that is reported is a way to the place, and the value is there. -/
structure Occurs (s : Store) (t : Tree) (found : Found) (p : List Nat) : Prop where
  way : t.Way s found.1 p
  value : (t.at? p).map Tree.value = some found.2

namespace Occurs

variable {found : Found}

theorem retains (hst : s.Retains s') (hoccurs : t.Occurs s found p) : t.Occurs s' found p :=
  ⟨hoccurs.way.retains hst, hoccurs.value⟩

/-- What is beside a place that is written is still there. -/
theorem put (hput : Put w q t u) (hbeside : Beside q p) (hoccurs : t.Occurs s found p) :
    u.Occurs s found p :=
  ⟨hput.way hbeside.1 hoccurs.way, by rw [hput.at?_of_beside hbeside, hoccurs.value]⟩

/-- Each place of a tree occurs at its own location. -/
theorem of_mem_places (hlies : Forest.Lies s [t]) (hkeyed : t.Keyed s) (hp : p ∈ t.places) :
    t.Occurs s (t.found p) p := by
  obtain ⟨part, hpart⟩ := exists_part_of_mem_places hp
  exact ⟨way_location hlies hkeyed hpart, by rw [Tree.found, hpart]; rfl⟩

end Occurs

end Tree

/-- A part of a tree lies in the store as the tree does. -/
theorem Forest.Lies.at? {part : Tree} : ∀ {p : List Nat} {t : Tree}, Lies s [t] →
    t.at? p = some part → Lies s [part]
  | [], t, hlies, hpart => by
    cases hpart
    exact hlies
  | i :: p, .leaf v, _, hpart => by cases hpart
  | i :: p, .node h f ts, hlies, hpart => by
    obtain ⟨-, -, hparts, -⟩ := hlies.parts
    obtain ⟨t, ht, hpart⟩ := Option.bind_eq_some_iff.mp hpart
    exact (hparts.of_mem (List.mem_of_getElem? ht)).at? hpart

end DottedPath
