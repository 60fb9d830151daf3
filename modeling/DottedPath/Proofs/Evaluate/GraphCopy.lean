import DottedPath.Proofs.Evaluate.Mirror

/-!
# Deep copies copy the graph

A deep copy has the unfolding of its original, and lists, dicts, sets and objects are shared in it
just where they are shared there, also if they hold themselves by way of tuples
(`deepCopy_graphCopy`).

While the copy is made, every container that has been noted and is not being filled holds copies of
what its original holds (`Copies.Sound`).  A run keeps this (`copyWithin_runs`), whatever is being
filled above it, and it ends: the depth that it is given does not matter once it exceeds a bound
(`RunsTo`).
-/

namespace DottedPath

namespace Store

/-- In the second store the second value is a copy of what the first value is in the first store.
All that was there is left alone, and the copy has no container in common with it.  The copy has the
same unfolding, and in it the occurrences of a list, a dict, a set or an object are one container
just where they were one. -/
structure GraphCopy (s : Store) (v : Value) (t : Store) (w : Value) : Prop where
  grows : s.GrowsTo t
  apart : ∀ h, t.Reaches w (.ref h) → ¬t.Reaches v (.ref h)
  unfolds : ∀ way, (t.follow? w way).map t.face = (s.follow? v way).map s.face
  shares : ∀ p q g h, s.follow? v p = some (.ref g) → s.follow? v q = some (.ref h) →
    s.OpenAt g → s.OpenAt h → (t.follow? w p = t.follow? w q ↔ g = h)

end Store

namespace Copies

variable {s t t' : Store} {m m' : Copies} {own : Set Handle} {g h : Handle} {v w : Value}
  {c d : Container}

theorem Carries.refl (s : Store) (m : Copies) (t : Store) : Carries s m t m t :=
  ⟨fun _ _ _ hw => hw, fun _ _ hd _ => hd⟩

theorem Carries.of_grows (hgrows : t.GrowsTo t') : Carries s m t m t' :=
  ⟨fun _ _ _ hw => hw, fun g d hd _ => hgrows g d hd⟩

theorem not_openAt (hc : s.get? h = some c) (hclosed : c.isOpen = false) : ¬s.OpenAt h := by
  rintro ⟨c', hc', hopen⟩
  cases hc.symm.trans hc'
  rw [hclosed] at hopen
  cases hopen

theorem lookup_cons_ne (hne : g ≠ h) (w : Value) : List.lookup g ((h, w) :: m) = m.lookup g := by
  rw [List.lookup_cons, beq_eq_false_iff_ne.mpr hne]

theorem lookup_cons_self (h : Handle) (w : Value) (m : Copies) :
    List.lookup h ((h, w) :: m) = some w := List.lookup_cons_self

/-! ### Sound notes -/

/-- The copy of a container is a new one of its own, which is alike unless it is being filled. -/
def CopyAt (s : Store) (own : Set Handle) (m : Copies) (t : Store) (h : Handle) (w : Value) : Prop :=
  ∃ g d, w = .ref g ∧ s.size ≤ g.index ∧ t.get? g = some d ∧ d.isOpen = true ∧
    (h ∉ own → ∃ c, s.get? h = some c ∧ Container.Alike (m.Mirrors s t) c d)

/-- The notes are right: nothing that was there has changed, the lists, dicts, sets and objects that
have been noted have different copies, which hold copies unless they are being filled, and the other
notes are of copies. -/
structure Sound (s : Store) (own : Set Handle) (m : Copies) (t : Store) : Prop where
  grows : s.GrowsTo t
  noted : ∀ h w, s.OpenAt h → m.lookup h = some w → CopyAt s own m t h w
  apart : ∀ g h w, s.OpenAt g → s.OpenAt h → m.lookup g = some w → m.lookup h = some w → g = h
  closed : ∀ h c w, s.get? h = some c → c.isOpen = false → m.lookup h = some w →
    m.Mirrors s t (.ref h) w

/-- A copy stays one if its container and what it carries along stay. -/
theorem CopyAt.carry (hcarry : Carries s m t m' t') (hcopy : CopyAt s own m t h w)
    (hcell : ∀ g d, w = .ref g → t.get? g = some d → t'.get? g = some d) :
    CopyAt s own m' t' h w := by
  obtain ⟨g, d, rfl, hnew, hd, hopen, hfilled⟩ := hcopy
  refine ⟨g, d, rfl, hnew, hcell g d rfl hd, hopen, fun hown => ?_⟩
  obtain ⟨c, hc, halike⟩ := hfilled hown
  exact ⟨c, hc, halike.imp fun x y hxy => hxy.carry hcarry⟩

namespace Sound

theorem nil (s : Store) : Sound s ∅ [] s where
  grows := .refl s
  noted h w _ hw := by cases hw
  apart g h w _ _ hw := by cases hw
  closed h c w _ _ hw := by cases hw

theorem grow (hm : Sound s own m t) (hgrows : t.GrowsTo t') : Sound s own m t' where
  grows := hm.grows.trans hgrows
  noted h w hopen hw :=
    (hm.noted h w hopen hw).carry (.of_grows hgrows) fun g d _ hd => hgrows g d hd
  apart := hm.apart
  closed h c w hc hclosed hw := (hm.closed h c w hc hclosed hw).carry (.of_grows hgrows)

theorem carries_cons (h : Handle) (hn : m.lookup h = none) (w : Value) :
    Carries s m t ((h, w) :: m) t where
  notes g x _ hx := by
    rw [lookup_cons_ne, hx]
    rintro rfl
    rw [hn] at hx
    cases hx
  cells _ _ hd _ := hd

/-- A new container is noted as the copy of one that is to be filled. -/
theorem begin (hm : Sound s own m t) (hopen : s.OpenAt h) (hn : m.lookup h = none)
    (hd : d.isOpen = true) : Sound s (insert h own) ((h, .ref t.next) :: m) (t.push d) := by
  have hm' := hm.grow (.push t d)
  have hcarry : Carries s m (t.push d) ((h, .ref t.next) :: m) (t.push d) := carries_cons h hn _
  -- nothing has been noted as a copy under the handle that comes next
  have hnext {k : Handle} (hk : s.OpenAt k) : m.lookup k ≠ some (.ref t.next) := by
    intro hw
    obtain ⟨g, e, he, -, hcell, -⟩ := hm.noted k _ hk hw
    cases he
    exact Nat.lt_irrefl _ (Store.lt_size_of_get? hcell)
  refine ⟨hm'.grows, fun k w hk hw => ?_, fun j k w hj hk hwj hwk => ?_, fun k c w hc hclosed hw => ?_⟩
  · by_cases hkh : k = h
    · subst hkh
      cases (lookup_cons_self ..).symm.trans hw
      exact ⟨t.next, d, rfl, hm.grows.size_le, Store.get?_push_next t d, hd,
        fun hown => absurd (Set.mem_insert k own) hown⟩
    · rw [lookup_cons_ne hkh] at hw
      obtain ⟨g, e, rfl, hnew, hcell, he, hfilled⟩ :=
        (hm'.noted k w hk hw).carry hcarry fun g e _ he => he
      exact ⟨g, e, rfl, hnew, hcell, he, fun hown => hfilled fun hk => hown (.inr hk)⟩
  · by_cases hjh : j = h
    · by_cases hkh : k = h
      · rw [hjh, hkh]
      · rw [hjh, lookup_cons_self] at hwj
        cases hwj
        rw [lookup_cons_ne hkh] at hwk
        exact absurd hwk (hnext hk)
    · rw [lookup_cons_ne hjh] at hwj
      by_cases hkh : k = h
      · rw [hkh, lookup_cons_self] at hwk
        cases hwk
        exact absurd hwj (hnext hj)
      · rw [lookup_cons_ne hkh] at hwk
        exact hm.apart j k w hj hk hwj hwk
  · have hkh : k ≠ h := by
      rintro rfl
      exact not_openAt hc hclosed hopen
    rw [lookup_cons_ne hkh] at hw
    exact (hm'.closed k c w hc hclosed hw).carry hcarry

/-- A container that is being filled may be overwritten. -/
theorem set (hm : Sound s own m t) (hopen : s.OpenAt h) (hown : h ∈ own)
    (hw : m.lookup h = some (.ref g)) (hd : d.isOpen = true) : Sound s own m (t.set g d) := by
  obtain ⟨_, e, ⟨⟩, hnew, he, heopen, -⟩ := hm.noted h _ hopen hw
  have hcarry : Carries s m t m (t.set g d) := by
    refine ⟨fun _ _ _ hw => hw, fun k e' he' hclosed => ?_⟩
    have hne : k ≠ g := by
      rintro rfl
      cases he.symm.trans he'
      rw [heopen] at hclosed
      cases hclosed
    rw [Store.get?_set_ne d hne, he']
  refine ⟨fun k c hc => ?_, fun k w hk hwk => ?_, hm.apart, fun k c w hc hclosed hw =>
    (hm.closed k c w hc hclosed hw).carry hcarry⟩
  · have hne : k ≠ g := by
      rintro rfl
      exact absurd (Store.lt_size_of_get? hc) (Nat.not_lt.mpr hnew)
    rw [Store.get?_set_ne d hne, hm.grows k c hc]
  · by_cases hwg : w = .ref g
    · subst hwg
      obtain rfl := hm.apart k h _ hk hopen hwk hw
      exact ⟨g, d, rfl, hnew, Store.get?_set_self d (Store.lt_size_of_get? he), hd,
        fun hnot => absurd hown hnot⟩
    · refine (hm.noted k w hk hwk).carry hcarry fun g' e' hg' he' => ?_
      have hne : g' ≠ g := fun heq => hwg (hg'.trans (congrArg Value.ref heq))
      rw [Store.get?_set_ne d hne, he']

/-- A container that holds copies is no longer being filled. -/
theorem filled (hm : Sound s (insert h own) m t) (hc : s.get? h = some c)
    (hw : m.lookup h = some (.ref g)) (hd : t.get? g = some d)
    (halike : Container.Alike (m.Mirrors s t) c d) : Sound s own m t := by
  refine ⟨hm.grows, fun k w hk hwk => ?_, hm.apart, hm.closed⟩
  obtain ⟨g', e, rfl, hnew, he, hopen, hfilled⟩ := hm.noted k w hk hwk
  refine ⟨g', e, rfl, hnew, he, hopen, fun hown => ?_⟩
  by_cases hkh : k = h
  · subst hkh
    cases hwk.symm.trans hw
    cases hd.symm.trans he
    exact ⟨c, hc, halike⟩
  · exact hfilled fun hmem => hown (hmem.resolve_left hkh)

/-- A copy of a tuple or a frozen set is noted. -/
theorem note (hm : Sound s own m t) (hc : s.get? h = some c) (hclosed : c.isOpen = false)
    (hmirror : m.Mirrors s t (.ref h) w) : Sound s own ((h, w) :: m) t := by
  have hkept {k : Handle} (hk : s.OpenAt k) : List.lookup k ((h, w) :: m) = m.lookup k := by
    refine lookup_cons_ne ?_ w
    rintro rfl
    exact not_openAt hc hclosed hk
  have hcarry : Carries s m t ((h, w) :: m) t :=
    ⟨fun k x hk hx => (hkept hk).trans hx, fun _ _ hd _ => hd⟩
  refine ⟨hm.grows, fun k x hk hx => ?_, fun j k x hj hk hxj hxk => ?_, fun k e x he heclosed hx => ?_⟩
  · rw [hkept hk] at hx
    exact (hm.noted k x hk hx).carry hcarry fun g d _ hd => hd
  · rw [hkept hj] at hxj
    rw [hkept hk] at hxk
    exact hm.apart j k x hj hk hxj hxk
  · by_cases hkh : k = h
    · subst hkh
      cases (lookup_cons_self ..).symm.trans hx
      exact hmirror.carry hcarry
    · rw [lookup_cons_ne hkh] at hx
      exact (hm.closed k e x he heclosed hx).carry hcarry

end Sound

/-! ### Runs -/

/-- From one state to a later one: the notes are right, no container that was there has been
touched, and what had been noted about lists, dicts, sets and objects still is. -/
structure Onward (s : Store) (own : Set Handle) (m : Copies) (t : Store) (m' : Copies) (t' : Store) :
    Prop where
  sound : Sound s own m' t'
  grows : t.GrowsTo t'
  notes : ∀ h w, s.OpenAt h → m.lookup h = some w → m'.lookup h = some w

namespace Onward

variable {m'' : Copies} {t'' : Store}

theorem refl (hm : Sound s own m t) : Onward s own m t m t := ⟨hm, .refl t, fun _ _ _ hw => hw⟩

theorem trans (h : Onward s own m t m' t') (h' : Onward s own m' t' m'' t'') :
    Onward s own m t m'' t'' :=
  ⟨h'.sound, h.grows.trans h'.grows, fun k w hk hw => h'.notes k w hk (h.notes k w hk hw)⟩

theorem carries (h : Onward s own m t m' t') : Carries s m t m' t' :=
  ⟨h.notes, fun g d hd _ => h.grows g d hd⟩

/-- No more containers are pending later. -/
theorem pending_le (h : ∀ h w, s.OpenAt h → m.lookup h = some w → m'.lookup h = some w) :
    pending s m' ≤ pending s m := by
  refine Finset.card_le_card fun i hi => ?_
  obtain ⟨hrange, hopen, hn⟩ := Finset.mem_filter.mp hi
  refine Finset.mem_filter.mpr ⟨hrange, hopen, ?_⟩
  cases hw : m.lookup ⟨i⟩ with
  | none => rfl
  | some w =>
    obtain ⟨c, hc, hc'⟩ := Option.any_eq_true _ _ |>.mp hopen
    rw [h ⟨i⟩ w ⟨c, hc, hc'⟩ hw] at hn
    cases hn

end Onward

end Copies

/-- The computation comes to an end with the given result, however deep it may go beyond a bound. -/
def RunsTo {α : Type} (b : Nat) (x : Nat → StateT Copies StoreM α) (m : Copies) (t : Store)
    (Q : α → Copies → Store → Prop) : Prop :=
  ∃ a m' t', Q a m' t' ∧ ∀ n, b ≤ n → x n m t = ((a, m'), t')

namespace RunsTo

variable {α β : Type} {b : Nat} {m : Copies} {t : Store} {P : α → Copies → Store → Prop}
  {Q : β → Copies → Store → Prop}

theorem pure {a : α} (h : P a m t) : RunsTo b (fun _ => pure a) m t P :=
  ⟨a, m, t, h, fun _ _ => rfl⟩

theorem bind {x : Nat → StateT Copies StoreM α} {f : Nat → α → StateT Copies StoreM β}
    (hx : RunsTo b x m t P) (hf : ∀ a m' t', P a m' t' → RunsTo b (fun n => f n a) m' t' Q) :
    RunsTo b (fun n => x n >>= f n) m t Q := by
  obtain ⟨a, m', t', hP, hrun⟩ := hx
  obtain ⟨y, m'', t'', hQ, hrun'⟩ := hf a m' t' hP
  refine ⟨y, m'', t'', hQ, fun n hn => ?_⟩
  show f n (x n m t).1.1 (x n m t).1.2 (x n m t).2 = _
  rw [hrun n hn]
  exact hrun' n hn

/-- A step that does not depend on the depth. -/
theorem step {x : StateT Copies StoreM α} {f : Nat → α → StateT Copies StoreM β} {a : α}
    {m' : Copies} {t' : Store} (hx : x m t = ((a, m'), t'))
    (hf : RunsTo b (fun n => f n a) m' t' Q) : RunsTo b (fun n => x >>= f n) m t Q :=
  bind (P := fun y m'' t'' => y = a ∧ m'' = m' ∧ t'' = t') ⟨a, m', t', ⟨rfl, rfl, rfl⟩, fun _ _ => hx⟩
    (by rintro _ _ _ ⟨rfl, rfl, rfl⟩; exact hf)

theorem imp {x : Nat → StateT Copies StoreM α} {P' : α → Copies → Store → Prop}
    (hx : RunsTo b x m t P) (hP : ∀ a m' t', P a m' t' → P' a m' t') : RunsTo b x m t P' := by
  obtain ⟨a, m', t', ha, hrun⟩ := hx
  exact ⟨a, m', t', hP a m' t' ha, hrun⟩

/-- One level of depth more. -/
theorem succ {x : Nat → StateT Copies StoreM α} (hx : RunsTo b (fun n => x (n + 1)) m t P) :
    RunsTo (b + 1) x m t P := by
  obtain ⟨a, m', t', ha, hrun⟩ := hx
  refine ⟨a, m', t', ha, fun n hn => ?_⟩
  obtain ⟨n, rfl⟩ : ∃ k, n = k + 1 := ⟨n - 1, by omega⟩
  exact hrun n (Nat.le_of_succ_le_succ hn)

open Copies (Onward Sound)

variable {s : Store} {own : Set Handle}

/-- What is true of an element and what becomes of it stays true on the way through the others. -/
theorem mapM {f : Nat → α → StateT Copies StoreM β} {R : Copies → Store → α → β → Prop}
    (hR : ∀ m t m' t' x y, Onward s own m t m' t' → R m t x y → R m' t' x y) : ∀ {xs : List α}
    {m : Copies} {t : Store}, Sound s own m t →
    (∀ x ∈ xs, ∀ m' t', Onward s own m t m' t' →
      RunsTo b (fun n => f n x) m' t' fun y m'' t'' => Onward s own m' t' m'' t'' ∧ R m'' t'' x y) →
    RunsTo b (fun n => xs.mapM (f n)) m t fun ys m' t' =>
      Onward s own m t m' t' ∧ List.Forall₂ (R m' t') xs ys
  | [], m, t, hm, _ => .pure ⟨.refl hm, .nil⟩
  | x :: xs, m, t, hm, hf => by
    obtain ⟨hx, hxs⟩ := List.forall_mem_cons.mp hf
    simp only [List.mapM_cons]
    refine (hx m t (.refl hm)).bind fun y m' t' ⟨hon, hy⟩ => ?_
    refine (mapM hR hon.sound fun x hx m'' t'' hon' => hxs x hx m'' t'' (hon.trans hon')).bind
      fun ys m'' t'' ⟨hon', hys⟩ => .pure ⟨hon.trans hon', .cons (hR _ _ _ _ _ _ hon' hy) hys⟩

/-- An invariant of what has been done holds in the end. -/
theorem forIn {f : Nat → α → PUnit → StateT Copies StoreM (ForInStep PUnit)}
    {I : List α → Copies → Store → Prop} : ∀ {rest : List α} (done : List α) {m : Copies}
    {t : Store}, I done m t →
    (∀ before x after m' t', done ++ rest = before ++ x :: after → I before m' t' →
      RunsTo b (fun n => f n x PUnit.unit) m' t' fun step m'' t'' =>
        step = .yield PUnit.unit ∧ I (before ++ [x]) m'' t'') →
    RunsTo b (fun n => forIn rest PUnit.unit (f n)) m t fun _ m' t' => I (done ++ rest) m' t'
  | [], done, m, t, hI, _ => .pure (by rwa [List.append_nil])
  | x :: rest, done, m, t, hI, hf => by
    simp only [List.forIn_cons]
    refine (hf done x rest m t rfl hI).bind fun step m' t' ⟨hstep, hI'⟩ => ?_
    subst hstep
    have hdone : done ++ x :: rest = done ++ [x] ++ rest := by simp
    rw [hdone] at hf ⊢
    exact forIn (done ++ [x]) hI' hf

end RunsTo

/-! ### Filling a copy -/

namespace Copies

variable {s t t' t'' : Store} {m m' m'' : Copies} {own : Set Handle} {h : Handle} {c d : Container}

/-- The copy of a container, made and noted in the first state, holds the given content in the
second. -/
structure Filling (s : Store) (own : Set Handle) (m : Copies) (t : Store) (h : Handle) (m' : Copies)
    (t' : Store) (d : Container) : Prop where
  sound : Sound s (insert h own) m' t'
  grows : t.GrowsTo t'
  notes : ∀ k w, s.OpenAt k → List.lookup k ((h, .ref t.next) :: m) = some w → m'.lookup k = some w
  cell : t'.get? t.next = some d

namespace Filling

theorem begin (hm : Sound s own m t) (hopen : s.OpenAt h) (hn : m.lookup h = none)
    (hd : d.isOpen = true) :
    Filling s own m t h ((h, .ref t.next) :: m) (t.push d) d where
  sound := hm.begin hopen hn hd
  grows := .push t d
  notes _ _ _ hw := hw
  cell := Store.get?_push_next t d

theorem onward (hfill : Filling s own m t h m' t' d)
    (hon : Onward s (insert h own) m' t' m'' t'') : Filling s own m t h m'' t'' d where
  sound := hon.sound
  grows := hfill.grows.trans hon.grows
  notes k w hk hw := hon.notes k w hk (hfill.notes k w hk hw)
  cell := hon.grows _ _ hfill.cell

theorem lookup (hfill : Filling s own m t h m' t' d) (hopen : s.OpenAt h) :
    m'.lookup h = some (.ref t.next) :=
  hfill.notes h _ hopen (lookup_cons_self ..)

theorem set (hfill : Filling s own m t h m' t' c) (hopen : s.OpenAt h) (hd : d.isOpen = true) :
    Filling s own m t h m' (t'.set t.next d) d where
  sound := hfill.sound.set hopen (Set.mem_insert h own) (hfill.lookup hopen) hd
  grows g e he := by
    rw [Store.get?_set_ne d (Store.ne_next_of_lt (Store.lt_size_of_get? he)), hfill.grows g e he]
  notes := hfill.notes
  cell := Store.get?_set_self d (Store.lt_size_of_get? hfill.cell)

/-- Overwriting the copy of a container that is being filled carries all other copies along. -/
theorem carries_set (hfill : Filling s own m t h m' t' c) (hc : c.isOpen = true) (d : Container) :
    Carries s m' t' m' (t'.set t.next d) := by
  refine ⟨fun _ _ _ hw => hw, fun g e he hclosed => ?_⟩
  have hne : g ≠ t.next := by
    rintro rfl
    cases hfill.cell.symm.trans he
    rw [hc] at hclosed
    cases hclosed
  rw [Store.get?_set_ne d hne, he]

theorem done (hfill : Filling s own m t h m' t' d) (hc : s.get? h = some c)
    (hopen : c.isOpen = true) (hn : m.lookup h = none)
    (halike : Container.Alike (m'.Mirrors s t') c d) :
    Onward s own m t m' t' ∧ m'.Mirrors s t' (.ref h) (.ref t.next) := by
  have hnoted := hfill.lookup ⟨c, hc, hopen⟩
  refine ⟨⟨hfill.sound.filled hc hnoted hfill.cell halike, hfill.grows, fun k w hk hw => ?_⟩,
    .noted ⟨c, hc, hopen⟩ hnoted⟩
  refine hfill.notes k w hk ((lookup_cons_ne ?_ _).trans hw)
  rintro rfl
  rw [hn] at hw
  cases hw

theorem pending_lt (hfill : Filling s own m t h m' t' d) (hc : s.get? h = some c)
    (hopen : c.isOpen = true) (hn : m.lookup h = none) : pending s m' < pending s m :=
  (Onward.pending_le hfill.notes).trans_lt (pending_cons_lt hc hopen hn _)

end Filling

end Copies

/-! ### New keys -/

namespace Store

variable {t : Store}

theorem insertEntry_of_new {es : List (Value × Value)} {k : Value}
    (hne : ∀ x ∈ es.map Prod.fst, t.sameKey k x = false) (v : Value) :
    t.insertEntry es k v = es ++ [(k, v)] := by
  have hnone : es.findIdx? (fun e => t.sameKey k e.1) = none := by
    rw [List.findIdx?_eq_none_iff]
    exact fun e he => hne e.1 (List.mem_map_of_mem he)
  exact insertEntry_of_findIdx?_eq_none hnone v

theorem insertMember_of_new {ms : List Value} {k : Value} (hne : ∀ x ∈ ms, t.sameKey k x = false) :
    t.insertMember ms k = ms ++ [k] := by
  have hany : ms.any (t.sameKey k) = false := by
    rw [List.any_eq_false]
    exact fun x hx => Bool.eq_false_iff.mp (hne x hx)
  rw [insertMember, hany]
  rfl

end Store

/-- Keys that are reached and can be hashed, each another one than those before it. -/
structure DistinctKeys (s : Store) (r : Value) (keys : List Value) : Prop where
  reached : ∀ k ∈ keys, s.Reaches r k
  hashable : ∀ k ∈ keys, s.IsHashable k
  distinct : keys.Pairwise fun a b => s.sameKey b a = false

namespace DistinctKeys

variable {s t : Store} {m : Copies} {r k k' : Value} {before after xs ys : List Value}

/-- What has been copied so far does not have the key that is copied next. -/
theorem sameKey_copy (hkeys : DistinctKeys s r (before ++ k :: after)) (hapart : s.ClosedApart r)
    (hsize : s.size ≤ t.size) (hys : List.Forall₂ (m.Mirrors s t) before ys)
    (hkk : m.Mirrors s t k k') : ∀ y ∈ ys, t.sameKey k' y = false := by
  intro y hy
  obtain ⟨x, hx, hxy⟩ := Container.Alike.exists_of_mem_right hys hy
  have hk : k ∈ before ++ k :: after := by simp
  rw [Copies.sameKey_of_mirrors hapart hsize (hkeys.reached k hk) (hkeys.hashable k hk)
    (hkeys.hashable x (List.mem_append_left _ hx)) hkk hxy]
  exact (List.pairwise_append.mp hkeys.distinct).2.2 x hx k (List.mem_cons_self ..)

theorem foldl_insertMember (hapart : s.ClosedApart r) (hsize : s.size ≤ t.size) {zs : List Value}
    (hzs : List.Forall₂ (m.Mirrors s t) after zs) : ∀ {before ys : List Value},
    DistinctKeys s r (before ++ after) → List.Forall₂ (m.Mirrors s t) before ys →
    zs.foldl t.insertMember ys = ys ++ zs := by
  induction hzs with
  | nil => exact fun _ _ => (List.append_nil _).symm
  | cons hkk _ ih =>
    intro before ys hkeys hys
    rw [List.foldl_cons, Store.insertMember_of_new (hkeys.sameKey_copy hapart hsize hys hkk)]
    rw [List.append_cons] at hkeys
    rw [ih hkeys (List.rel_append hys (.cons hkk .nil)), ← List.append_cons]

/-- So all of the copies are members of a set that is made of them. -/
theorem membersOf_eq (hkeys : DistinctKeys s r xs) (hapart : s.ClosedApart r)
    (hsize : s.size ≤ t.size) (hys : List.Forall₂ (m.Mirrors s t) xs ys) : t.membersOf ys = ys :=
  foldl_insertMember hapart hsize hys (show DistinctKeys s r ([] ++ xs) from hkeys) .nil

end DistinctKeys

/-! ### Copying -/

section

open Copies (Onward Sound Filling pending)

variable {s t t' : Store} {m m' : Copies} {own : Set Handle} {r v : Value} {h : Handle} {b : Nat}
  {c d : Container}

/-- A copy of the value has been made. -/
def CopyMade (s : Store) (own : Set Handle) (m : Copies) (t : Store) (v w : Value) (m' : Copies)
    (t' : Store) : Prop :=
  Onward s own m t m' t' ∧ m'.Mirrors s t' v w

/-- Copying the value ends and makes a copy of it. -/
def CopyRuns (s : Store) (b : Nat) (own : Set Handle) (m : Copies) (t : Store) (v : Value) : Prop :=
  RunsTo b (fun n => copyWithin n v) m t (CopyMade s own m t v)

theorem mapM_copyWithin {xs : List Value} (hm : Sound s own m t)
    (hparts : ∀ x ∈ xs, ∀ m' t', Onward s own m t m' t' → CopyRuns s b own m' t' x) :
    RunsTo b (fun n => xs.mapM (copyWithin n)) m t fun ys m' t' =>
      Onward s own m t m' t' ∧ List.Forall₂ (m'.Mirrors s t') xs ys :=
  RunsTo.mapM (R := fun m t => m.Mirrors s t) (fun _ _ _ _ _ _ hon hxy => hxy.carry hon.carries) hm
    hparts

/-! #### Tuples and frozen sets -/

/-- A new tuple or frozen set of copies is a copy. -/
theorem copyMade_closed (hon : Onward s own m t m' t') (hc : s.get? h = some c)
    (hclosed : c.isOpen = false) (halike : Container.Alike (m'.Mirrors s t') c d) :
    CopyMade s own m t (.ref h) (.ref t'.next) ((h, .ref t'.next) :: m') (t'.push d) := by
  have hgrows := Store.GrowsTo.push t' d
  have halike' : Container.Alike (m'.Mirrors s (t'.push d)) c d :=
    halike.imp fun x y hxy => hxy.carry (.of_grows hgrows)
  have hmirror : m'.Mirrors s (t'.push d) (.ref h) (.ref t'.next) :=
    Copies.mirrors_of_alike hc hclosed (Store.get?_push_next t' d) hon.sound.grows.size_le halike'
  have hnotes : ∀ k w, s.OpenAt k → m'.lookup k = some w →
      List.lookup k ((h, .ref t'.next) :: m') = some w := by
    intro k w hk hw
    refine (Copies.lookup_cons_ne ?_ _).trans hw
    rintro rfl
    exact Copies.not_openAt hc hclosed hk
  exact ⟨⟨(hon.sound.grow hgrows).note hc hclosed hmirror, hon.grows.trans hgrows,
    fun k w hk hw => hnotes k w hk (hon.notes k w hk hw)⟩, hmirror.carry ⟨hnotes, fun _ _ hd _ => hd⟩⟩

theorem tuple_runs {xs : List Value} (hm : Sound s own m t) (hc : s.get? h = some (.tuple xs))
    (hparts : ∀ x ∈ xs, ∀ m' t', Onward s own m t m' t' → CopyRuns s b own m' t' x) :
    RunsTo b (fun n => do
      let items ← xs.mapM (copyWithin n)
      let copy ← alloc (.tuple items)
      noteCopy h copy
      pure copy) m t (CopyMade s own m t (.ref h)) := by
  refine (mapM_copyWithin hm hparts).bind fun ys m' t' ⟨hon, hys⟩ => ?_
  exact .step rfl (.step rfl (.pure (copyMade_closed hon hc rfl (.tuple hys))))

/-- The members of the copy are new keys one after the other. -/
theorem frozenset_runs {xs : List Value} (hm : Sound s own m t)
    (hc : s.get? h = some (.frozenset xs)) (hapart : s.ClosedApart r)
    (hkeys : DistinctKeys s r xs)
    (hparts : ∀ x ∈ xs, ∀ m' t', Onward s own m t m' t' → CopyRuns s b own m' t' x) :
    RunsTo b (fun n => do
      let members ← xs.mapM (copyWithin n)
      let copy ← alloc (.frozenset ((← getThe Store).membersOf members))
      noteCopy h copy
      pure copy) m t (CopyMade s own m t (.ref h)) := by
  refine (mapM_copyWithin hm hparts).bind fun ys m' t' ⟨hon, hys⟩ => ?_
  refine .step rfl ?_
  rw [hkeys.membersOf_eq hapart hon.sound.grows.size_le hys]
  exact .step rfl (.step rfl (.pure (copyMade_closed hon hc rfl (.frozenset hys))))

/-! #### Lists, dicts, sets and objects -/

theorem list_runs {xs : List Value} (hm : Sound s own m t) (hc : s.get? h = some (.list xs))
    (hn : m.lookup h = none) (hparts : ∀ x ∈ xs, ∀ m' t' d, Filling s own m t h m' t' d →
      CopyRuns s b (insert h own) m' t' x) :
    RunsTo b (fun n => do
      let copy ← copyWithin.begin h (.list [])
      let items ← xs.mapM (copyWithin n)
      copyWithin.finish copy (.list items)
      pure copy) m t (CopyMade s own m t (.ref h)) := by
  have hopen : s.OpenAt h := ⟨_, hc, rfl⟩
  have hfill := Filling.begin (d := .list []) hm hopen hn rfl
  refine .step rfl ?_
  refine (mapM_copyWithin hfill.sound fun x hx m' t' hon =>
    hparts x hx m' t' _ (hfill.onward hon)).bind fun ys m' t' ⟨hon, hys⟩ => ?_
  have hfill' := hfill.onward hon
  refine .step rfl (.pure ((hfill'.set hopen rfl).done hc rfl hn (.list ?_)))
  exact hys.imp fun x y hxy => hxy.carry (hfill'.carries_set rfl _)

theorem object_runs {name : String} {attrs : List (String × Value)} {frozen : Bool}
    (hm : Sound s own m t) (hc : s.get? h = some (.object name attrs frozen))
    (hn : m.lookup h = none) (hparts : ∀ a ∈ attrs, ∀ m' t' d, Filling s own m t h m' t' d →
      CopyRuns s b (insert h own) m' t' a.2) :
    RunsTo b (fun n => do
      let copy ← copyWithin.begin h (.object name [] frozen)
      let attrs ← attrs.mapM fun (a, v) => do pure (a, ← copyWithin n v)
      copyWithin.finish copy (.object name attrs frozen)
      pure copy) m t (CopyMade s own m t (.ref h)) := by
  have hopen : s.OpenAt h := ⟨_, hc, rfl⟩
  have hfill := Filling.begin (d := .object name [] frozen) hm hopen hn rfl
  refine .step rfl ?_
  refine (RunsTo.mapM (R := fun m t (x y : String × Value) => x.1 = y.1 ∧ m.Mirrors s t x.2 y.2)
    (fun _ _ _ _ _ _ hon hxy => ⟨hxy.1, hxy.2.carry hon.carries⟩) hfill.sound
    fun a ha m' t' hon => ?_).bind fun others m' t' ⟨hon, hothers⟩ => ?_
  · refine (hparts a ha m' t' _ (hfill.onward hon)).bind fun w m'' t'' ⟨hon', hw⟩ => ?_
    exact .pure ⟨hon', rfl, hw⟩
  · have hfill' := hfill.onward hon
    refine .step rfl (.pure ((hfill'.set hopen rfl).done hc rfl hn (.object name frozen ?_)))
    exact hothers.imp fun x y hxy => ⟨hxy.1, hxy.2.carry (hfill'.carries_set rfl _)⟩

/-- The content that is written is computed in the store that it is written to. -/
theorem set_of_eq {α : Type} {build : α → Container} {y : α} {g : Handle} {f : Store → α}
    (hf : f t = y) : (modifyThe Store fun s => s.set g (build (f s)) : StateT Copies StoreM PUnit) m t =
      ((PUnit.unit, m), t.set g (build y)) := by
  rw [← hf]
  rfl

theorem set_runs {xs : List Value} (hm : Sound s own m t) (hc : s.get? h = some (.set xs))
    (hn : m.lookup h = none) (hapart : s.ClosedApart r) (hkeys : DistinctKeys s r xs)
    (hparts : ∀ x ∈ xs, ∀ m' t' d, Filling s own m t h m' t' d →
      CopyRuns s b (insert h own) m' t' x) :
    RunsTo b (fun n => do
      let copy ← copyWithin.begin h (.set [])
      for m in xs do
        let m ← copyWithin n m
        match copy, (← getThe Store).container? copy with
        | .ref c, some (.set ms) => modifyThe Store fun s => s.set c (.set (s.insertMember ms m))
        | _, _ => pure ()
      pure copy) m t (CopyMade s own m t (.ref h)) := by
  have hopen : s.OpenAt h := ⟨_, hc, rfl⟩
  have hfill := Filling.begin (d := .set []) hm hopen hn rfl
  refine .step rfl ?_
  refine (RunsTo.forIn (I := fun done m' t' => ∃ ys, Filling s own m t h m' t' (.set ys) ∧
    List.Forall₂ (m'.Mirrors s t') done ys) [] ⟨[], hfill, .nil⟩ ?_).bind fun _ m' t' hdone => ?_
  · rintro before x after m' t' hxs ⟨ys, hfill', hys⟩
    obtain rfl : xs = before ++ x :: after := hxs
    refine (hparts x (by simp) m' t' _ hfill').bind fun w m'' t'' ⟨hon, hw⟩ => ?_
    have hfill'' := hfill'.onward hon
    have hys' := hys.imp fun x y hxy => Copies.Mirrors.carry hon.carries hxy
    have hcell : t''.container? (.ref t.next) = some (.set ys) := hfill''.cell
    have hcarry := hfill''.carries_set rfl (.set (ys ++ [w]))
    -- members that differ have copies that differ, so the copied member is not yet there
    have hinsert : t''.insertMember ys w = ys ++ [w] := Store.insertMember_of_new
      (hkeys.sameKey_copy hapart hon.sound.grows.size_le hys' hw)
    refine .step rfl ?_
    simp only [hcell]
    refine .step (set_of_eq hinsert) (.pure ⟨rfl, ys ++ [w], hfill''.set hopen rfl, ?_⟩)
    exact List.rel_append (hys'.imp fun x y hxy => hxy.carry hcarry) (.cons (hw.carry hcarry) .nil)
  · obtain ⟨ys, hfill', hys⟩ := hdone
    exact .pure (hfill'.done hc rfl hn (.set hys))

theorem dict_runs {entries : List (Value × Value)} (hm : Sound s own m t)
    (hc : s.get? h = some (.dict entries)) (hn : m.lookup h = none) (hapart : s.ClosedApart r)
    (hkeys : DistinctKeys s r (entries.map Prod.fst))
    (hparts : ∀ e ∈ entries, ∀ m' t' d, Filling s own m t h m' t' d →
      CopyRuns s b (insert h own) m' t' e.1 ∧ CopyRuns s b (insert h own) m' t' e.2) :
    RunsTo b (fun n => do
      let copy ← copyWithin.begin h (.dict [])
      for (k, v) in entries do
        let k ← copyWithin n k
        let v ← copyWithin n v
        match copy, (← getThe Store).container? copy with
        | .ref c, some (.dict es) =>
          modifyThe Store fun s => s.set c (.dict (s.insertEntry es k v))
        | _, _ => pure ()
      pure copy) m t (CopyMade s own m t (.ref h)) := by
  have hopen : s.OpenAt h := ⟨_, hc, rfl⟩
  have hfill := Filling.begin (d := .dict []) hm hopen hn rfl
  refine .step rfl ?_
  refine (RunsTo.forIn (I := fun done m' t' => ∃ es, Filling s own m t h m' t' (.dict es) ∧
    List.Forall₂ (fun e f => m'.Mirrors s t' e.1 f.1 ∧ m'.Mirrors s t' e.2 f.2) done es) []
    ⟨[], hfill, .nil⟩ ?_).bind fun _ m' t' hdone => ?_
  · rintro before ⟨k, v⟩ after m' t' hentries ⟨es, hfill', hes⟩
    obtain rfl : entries = before ++ (k, v) :: after := hentries
    have hmem : (k, v) ∈ before ++ (k, v) :: after := by simp
    rw [List.map_append, List.map_cons] at hkeys
    refine ((hparts _ hmem m' t' _ hfill').1).bind fun k' m₁ t₁ ⟨hon₁, hk⟩ => ?_
    refine ((hparts _ hmem m₁ t₁ _ (hfill'.onward hon₁)).2).bind fun v' m₂ t₂ ⟨hon₂, hv⟩ => ?_
    have hon := hon₁.trans hon₂
    have hfill'' := hfill'.onward hon
    have hk := hk.carry hon₂.carries
    have hes' : List.Forall₂ (fun e f => m₂.Mirrors s t₂ e.1 f.1 ∧ m₂.Mirrors s t₂ e.2 f.2) before es :=
      hes.imp fun e f hef => ⟨hef.1.carry hon.carries, hef.2.carry hon.carries⟩
    have hcell : t₂.container? (.ref t.next) = some (.dict es) := hfill''.cell
    have hcarry := hfill''.carries_set rfl (.dict (es ++ [(k', v')]))
    -- keys that differ have copies that differ, so the entry is a new one
    have hinsert : t₂.insertEntry es k' v' = es ++ [(k', v')] := by
      refine Store.insertEntry_of_new (hkeys.sameKey_copy hapart hon.sound.grows.size_le ?_ hk) v'
      exact List.rel_map (fun _ _ hef => hef.1) hes'
    refine .step rfl ?_
    simp only [hcell]
    refine .step (set_of_eq hinsert) (.pure ⟨rfl, es ++ [(k', v')], hfill''.set hopen rfl, ?_⟩)
    exact List.rel_append (hes'.imp fun e f hef => ⟨hef.1.carry hcarry, hef.2.carry hcarry⟩)
      (.cons ⟨hk.carry hcarry, hv.carry hcarry⟩ .nil)
  · obtain ⟨es, hfill', hes⟩ := hdone
    exact .pure (hfill'.done hc rfl hn (.dict hes))

/-- What is in an open container is copied when one container less is pending. -/
theorem Copies.Filling.depth_le {h : Handle} {m m' : Copies} {t t' : Store} {own : Set Handle}
    {c d : Container} (hfill : Filling s own m t h m' t' d) (hc : s.get? h = some c)
    (hopen : c.isOpen = true) (hn : m.lookup h = none) (x : Value) {b : Nat}
    (hdepth : pending s m * (s.size + 1) + s.nesting (.ref h) ≤ b + 1) :
    pending s m' * (s.size + 1) + s.nesting x ≤ b := by
  have hpos := Store.nesting_pos (Store.lt_size_of_get? hc)
  have hle := s.nesting_le x
  have hfewer : pending s m' + 1 ≤ pending s m := hfill.pending_lt hc hopen hn
  have hmul := Nat.mul_le_mul_right (s.size + 1) hfewer
  rw [Nat.succ_mul] at hmul
  omega

/-- What is in one of the others is nested less deep. -/
theorem Copies.Onward.depth_le {m m' : Copies} {t t' : Store} {own : Set Handle} {v x : Value}
    (hon : Onward s own m t m' t') (hless : s.nesting x < s.nesting v) {b : Nat}
    (hdepth : pending s m * (s.size + 1) + s.nesting v ≤ b + 1) :
    pending s m' * (s.size + 1) + s.nesting x ≤ b := by
  have hmul := Nat.mul_le_mul_right (s.size + 1) (Onward.pending_le hon.notes)
  omega

/-- **Copying a value ends and makes a copy of it**, whatever has been noted and is being filled. -/
theorem copyWithin_runs (hgraph : s.HoldsGraph r) (hapart : s.ClosedApart r)
    (hkeys : s.KeyedGraph r) : ∀ (b : Nat) {v : Value} {m : Copies} {t : Store} {own : Set Handle},
    s.Reaches r v → Sound s own m t → pending s m * (s.size + 1) + s.nesting v ≤ b →
    CopyRuns s b own m t v
  | b, .scalar a, m, t, own, _, hm, _ => by
    rw [CopyRuns]
    simp only [copyWithin]
    exact .pure ⟨.refl hm, .scalar a⟩
  | 0, .ref h, m, t, own, hv, _, hdepth => by
    -- a container that is there counts as nested in itself
    have hpos := Store.nesting_pos (Store.holds_ref.mp (hgraph _ hv))
    omega
  | b + 1, .ref h, m, t, own, hv, hm, hdepth => by
    have hlt : h.index < s.size := Store.holds_ref.mp (hgraph _ hv)
    obtain ⟨c, hc⟩ := Store.get?_of_lt hlt
    have hpart {x : Value} (hx : x ∈ c.parts) : s.Reaches r x := hv.part ⟨c, hc, hx⟩
    refine .succ ?_
    simp only [copyWithin]
    refine .step rfl ?_
    cases hn : m.lookup h with
    | some done =>
      refine .pure ⟨.refl hm, ?_⟩
      by_cases hopen : c.isOpen = true
      · exact .noted ⟨c, hc, hopen⟩ hn
      · exact hm.closed h c done hc (Bool.eq_false_iff.mpr hopen) hn
    | none =>
      refine .step rfl ?_
      simp only [hm.grows h c hc]
      have hdistinct (hreached : ∀ k ∈ c.hashed, s.Reaches r k) : DistinctKeys s r c.hashed :=
        ⟨hreached, hkeys.hashable h c hv hc, hkeys.distinct h c hv hc⟩
      have hinside (hopen : c.isOpen = true) {x : Value} (hx : x ∈ c.parts) {m' : Copies}
          {t' : Store} {d : Container} (hfill : Filling s own m t h m' t' d) :
          CopyRuns s b (insert h own) m' t' x :=
        copyWithin_runs hgraph hapart hkeys b (hpart hx) hfill.sound
          (hfill.depth_le hc hopen hn x hdepth)
      have hnested (hclosed : c.isOpen = false) {x : Value} (hx : x ∈ c.parts) {m' : Copies}
          {t' : Store} (hon : Onward s own m t m' t') : CopyRuns s b own m' t' x :=
        copyWithin_runs hgraph hapart hkeys b (hpart hx) hon.sound
          (hon.depth_le (Store.nesting_lt (hapart h hv) hlt hc hclosed hx) hdepth)
      cases c with
      | list xs => exact list_runs hm hc hn fun x hx m' t' d hfill => hinside rfl hx hfill
      | tuple xs => exact tuple_runs hm hc fun x hx m' t' hon => hnested rfl hx hon
      | set xs =>
        exact set_runs hm hc hn hapart (hdistinct fun k hk => hpart hk)
          fun x hx m' t' d hfill => hinside rfl hx hfill
      | frozenset xs =>
        exact frozenset_runs hm hc hapart (hdistinct fun k hk => hpart hk)
          fun x hx m' t' hon => hnested rfl hx hon
      | object name attrs frozen =>
        exact object_runs hm hc hn fun a ha m' t' d hfill =>
          hinside rfl (List.mem_map_of_mem ha) hfill
      | dict entries =>
        have hinner : ∀ e ∈ entries, e.1 ∈ (Container.dict entries).parts ∧
            e.2 ∈ (Container.dict entries).parts :=
          Container.forall_parts_dict.mp fun _ hx => hx
        refine dict_runs hm hc hn hapart (hdistinct fun k hk => ?_)
          fun e he m' t' d hfill => ⟨hinside rfl (hinner e he).1 hfill, hinside rfl (hinner e he).2 hfill⟩
        obtain ⟨e, he, rfl⟩ := List.mem_map.mp hk
        exact hpart (hinner e he).1

/-! ### The finished copy -/

/-- While nothing is being filled, a value and its copy are related by a bisimulation. -/
theorem bisimulation_of_sound (hm : Sound s ∅ m t) (r : Value) :
    Store.Bisimulation s t fun v w => s.Reaches r v ∧ m.Mirrors s t v w := by
  rintro v w ⟨hv, hmirror⟩
  have hparts {h : Handle} {c d : Container} (hv : s.Reaches r (.ref h)) (hc : s.get? h = some c)
      (halike : Container.Alike (m.Mirrors s t) c d) :
      Container.Alike (fun x y => s.Reaches r x ∧ m.Mirrors s t x y) c d :=
    halike.mem_left.imp fun x y hxy => ⟨hv.part ⟨c, hc, hxy.1⟩, hxy.2⟩
  cases hmirror with
  | scalar a => exact .inl ⟨a, rfl, rfl⟩
  | noted hopen hw =>
    obtain ⟨g, d, rfl, -, hd, -, hfilled⟩ := hm.noted _ w hopen hw
    obtain ⟨c, hc, halike⟩ := hfilled (Set.notMem_empty _)
    exact .inr ⟨c, d, hc, hd, hparts hv hc halike⟩
  | @closed h g c d hc hclosed hd hnew hblank hmirrors =>
    have hmirror : m.Mirrors s t (.ref h) (.ref g) := .closed hc hclosed hd hnew hblank hmirrors
    obtain ⟨_, _, ⟨⟩, hd', -, halike⟩ := hmirror.alike_of_closed hc hclosed
    exact .inr ⟨c, _, hc, hd', hparts hv hc halike⟩

/-- Copies are new containers. -/
theorem size_le_of_mirrors (hm : Sound s own m t) {g : Handle} (h : m.Mirrors s t v (.ref g)) :
    s.size ≤ g.index := by
  cases h with
  | noted hopen hw =>
    obtain ⟨_, _, ⟨⟩, hnew, -⟩ := hm.noted _ _ hopen hw
    exact hnew
  | closed _ _ _ hnew _ _ => exact hnew

/-- The copy of a list, a dict, a set or an object is the noted one. -/
theorem lookup_of_mirrors (hopen : s.OpenAt h) {w : Value} (hw : m.Mirrors s t (.ref h) w) :
    m.lookup h = some w := by
  cases hw with
  | noted _ hw => exact hw
  | closed hc hclosed _ _ _ _ => exact absurd hopen (Copies.not_openAt hc hclosed)

/-- Sound notes that carry a value over copy its graph. -/
theorem graphCopy_of_sound (hgraph : s.HoldsGraph v) (hm : Sound s ∅ m t) {w : Value}
    (hw : m.Mirrors s t v w) : s.GraphCopy v t w := by
  have hbisim := bisimulation_of_sound hm v
  have hvw : s.Reaches v v ∧ m.Mirrors s t v w := ⟨.refl s v, hw⟩
  refine ⟨hm.grows, fun h hcopy horiginal => ?_, hbisim.face_follow? hvw, ?_⟩
  · obtain ⟨x, -, -, hx⟩ := hbisim.exists_of_reaches hvw hcopy
    have hlt := Store.holds_ref.mp (hgraph _ ((hgraph.reaches_iff_of_grows hm.grows).mp horiginal))
    exact Nat.not_lt.mpr (size_le_of_mirrors hm hx) hlt
  · -- both ways lead to what has been noted
    have hnoted {p : List Nat} {g : Handle} (hp : s.follow? v p = some (.ref g))
        (hg : s.OpenAt g) : ∃ x, t.follow? w p = some x ∧ m.lookup g = some x := by
      have hend := hbisim.follow?_rel p hvw
      rw [hp] at hend
      generalize t.follow? w p = x? at hend
      cases hend with
      | some hx => exact ⟨_, rfl, lookup_of_mirrors hg hx.2⟩
    intro p q g h hp hq hg hh
    obtain ⟨x, hx, hgx⟩ := hnoted hp hg
    obtain ⟨y, hy, hhy⟩ := hnoted hq hh
    rw [hx, hy, Option.some.injEq]
    constructor
    · rintro rfl
      exact hm.apart g h x hg hh hgx hhy
    · rintro rfl
      exact Option.some.inj (hgx.symm.trans hhy)

theorem pending_nil_le (s : Store) (v : Value) :
    pending s [] * (s.size + 1) + s.nesting v ≤ s.comparisonDepth := by
  have hpending := Nat.mul_le_mul_right (s.size + 1) (Copies.pending_le s [])
  have hnesting := s.nesting_le v
  unfold Store.comparisonDepth
  rw [Nat.succ_mul]
  omega

/-- **A deep copy copies the graph**, and it is made to its end: to go deeper changes nothing. -/
theorem deepCopy_graphCopy (hgraph : s.HoldsGraph v) (hapart : s.ClosedApart v)
    (hkeys : s.KeyedGraph v) :
    s.GraphCopy v (deepCopy v s).2 (deepCopy v s).1 ∧ ∀ n, s.comparisonDepth ≤ n →
      copyWithin n v [] s = copyWithin s.comparisonDepth v [] s := by
  obtain ⟨w, m, t, ⟨hon, hw⟩, hrun⟩ := copyWithin_runs hgraph hapart hkeys s.comparisonDepth
    (.refl s v) (Sound.nil s) (pending_nil_le s v)
  have hend : copyWithin s.comparisonDepth v [] s = ((w, m), t) := hrun _ (Nat.le_refl _)
  have hcopy : deepCopy v s = (w, t) := by
    show ((copyWithin s.comparisonDepth v [] s).1.1, (copyWithin s.comparisonDepth v [] s).2) = _
    rw [hend]
  rw [hcopy]
  exact ⟨graphCopy_of_sound hgraph hon.sound hw, fun n hn => (hrun n hn).trans hend.symm⟩

/-- A list that is inside of a tuple in it, next to a list that is the value of a dict too. -/
theorem deepCopy_graphCopy_cycle :
    let s : Store := ⟨#[.list [], .frozenset [.int 1], .list [.ref ⟨3⟩, .ref ⟨4⟩],
      .tuple [.ref ⟨2⟩, .ref ⟨0⟩], .dict [(.ref ⟨1⟩, .ref ⟨0⟩), (.str "a", .ref ⟨3⟩)]]⟩
    let v : Value := .ref ⟨2⟩
    (s.HoldsGraph v ∧ s.ClosedApart v ∧ s.KeyedGraph v) ∧
      s.GraphCopy v (deepCopy v s).2 (deepCopy v s).1 ∧ ∀ n, s.comparisonDepth ≤ n →
        copyWithin n v [] s = copyWithin s.comparisonDepth v [] s := by
  intro s v
  have hgraph : s.HoldsGraph v :=
    Store.holdsGraph_of_isClosed (by decide) (Store.holds_ref.mpr (by decide))
  have hapart : s.ClosedApart v := Store.closedApart_of_isLayered (by decide) v
  have hcell {h : Handle} {c : Container} (hc : s.get? h = some c) : c ∈ s.cells.toList :=
    Array.mem_toList_iff.mpr (Array.mem_of_getElem? hc)
  have hone : s.IsHashable (.int 1) := .scalar (by rintro ⟨⟩)
  have htext : s.IsHashable (.str "a") := .scalar (by rintro ⟨⟩)
  have hset : s.IsHashable (.ref ⟨1⟩) :=
    .container (c := .frozenset [.int 1]) rfl rfl (List.forall_mem_singleton.mpr hone)
  have hhashable : ∀ c ∈ s.cells.toList, ∀ k ∈ c.hashed, s.IsHashable k := by
    simp [s, Container.hashed, hone, htext, hset]
  have hdistinct : ∀ c ∈ s.cells.toList, c.hashed.Pairwise fun a b => s.sameKey b a = false := by
    simp [s, Container.hashed, Store.sameKey, Store.comparisonDepth, Store.equalsWithin]
  have hkeys : s.KeyedGraph v :=
    ⟨fun h c _ hc => hhashable c (hcell hc), fun h c _ hc => hdistinct c (hcell hc)⟩
  exact ⟨⟨hgraph, hapart, hkeys⟩, deepCopy_graphCopy hgraph hapart hkeys⟩

end

end DottedPath
