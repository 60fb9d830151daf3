import DottedPath.Matching.ValuePattern
import DottedPath.Proofs.Matching.Sharing

/-!
# Set and dict patterns, and the order of members

A set pattern is met if the members of the set can be shared out among its elements, and a dict
pattern if the entries of the dict can be.  The matcher looks for this in two steps.  The elements
without a number of repetitions take a member each in turn, always the first one that passes, and
then the members that are left are distributed over the globs.  The first step never goes back, so
the matcher may miss a way to share out the members if two elements compete for one, and then its
answer depends on the order of the members (`Demand.metInTurn_first_fit`).

Nothing competes if all that passes a single element is the same to the others (`Demand.Apart`), as
when it is only one member.  Then the matcher finds a way if there is one, since the members that
two ways take can be exchanged, and the order of the members does not count.

## Main statements

- `Store.valueMatches_set_shares`, `Store.valueMatches_dict_shares`: a match shares out the members.
- `Store.valueMatches_set_iff`, `Store.valueMatches_dict_iff`: without competition it is a match if
  the members can be shared out.
- `Store.valueMatches_set_perm`, `Store.valueMatches_dict_perm`: without competition the order in
  which the members were put in does not count.
- `Store.valueMatches_set_first_fit`, `Store.valueMatches_dict_first_fit`: with competition it does.
-/

namespace DottedPath

variable {α β : Type}

/-! ### Taking the first that passes -/

namespace Store

variable {p : α → Bool}

theorem takeFirst_eq_some : ∀ {xs rest : List α}, takeFirst p xs = some rest →
    ∃ x, p x = true ∧ (x :: rest).Perm xs ∧ rest.Sublist xs
  | [], _, h => by cases h
  | x :: xs, rest, h => by
    rw [takeFirst] at h
    split at h
    · rename_i hx
      cases h
      exact ⟨x, hx, .refl _, List.sublist_cons_self x xs⟩
    · obtain ⟨others, hothers, rfl⟩ := Option.map_eq_some_iff.mp h
      obtain ⟨y, hy, hperm, hsub⟩ := takeFirst_eq_some hothers
      exact ⟨y, hy, (List.Perm.swap x y others).trans (hperm.cons x), hsub.cons_cons x⟩

theorem takeFirst_eq_none : ∀ {xs : List α}, takeFirst p xs = none → ∀ x ∈ xs, ¬ p x = true
  | [], _ => nofun
  | x :: xs, h => by
    rw [takeFirst] at h
    split at h
    · cases h
    · rename_i hx
      exact List.forall_mem_cons.mpr ⟨hx, takeFirst_eq_none (Option.map_eq_none_iff.mp h)⟩

theorem takeFirst_map (p : β → Bool) (f : α → β) : ∀ xs : List α,
    takeFirst p (xs.map f) = (takeFirst (p ∘ f) xs).map (List.map f)
  | [] => rfl
  | x :: xs => by
    rw [List.map_cons, takeFirst, takeFirst, takeFirst_map p f xs]
    show (if p (f x) then _ else _) = Option.map _ (if p (f x) then _ else _)
    split
    · rfl
    · rw [Option.map_map, Option.map_map]
      rfl

end Store

namespace Demand

open Store (takeFirst)

/-! ### Demands met in turn -/

/-- What is left when each demand for a single item has taken the first one that passes; `none` if
one finds none. -/
def takeInTurn : List (Demand α) → List α → Option (List α)
  | [], xs => some xs
  | many .. :: ds, xs => takeInTurn ds xs
  | one test :: ds, xs => (takeFirst test xs).bind (takeInTurn ds)

/-- The single items can be taken in turn so that the others share what is left. -/
def MetInTurn (ds : List (Demand α)) (xs : List α) : Prop :=
  ∃ rest, takeInTurn ds xs = some rest ∧ Shares (ds.filter isMany) rest

variable {ds ms : List (Demand α)} {xs ys rest : List α}

/-- The single items that were taken are shared out. -/
theorem exists_taken : ∀ (ds : List (Demand α)) {xs rest : List α}, takeInTurn ds xs = some rest →
    ∃ taken, (taken ++ rest).Perm xs ∧ Shares (ds.filter fun d => !d.isMany) taken
  | [], xs, rest, h => by
    cases h
    exact ⟨[], .refl _, shares_nil.mpr rfl⟩
  | many .. :: ds, xs, rest, h => exists_taken ds h
  | one test :: ds, xs, rest, h => by
    obtain ⟨others, hfirst, hothers⟩ := Option.bind_eq_some_iff.mp h
    obtain ⟨x, hx, hperm, -⟩ := Store.takeFirst_eq_some hfirst
    obtain ⟨taken, htaken, hshares⟩ := exists_taken ds hothers
    refine ⟨x :: taken, (htaken.cons x).trans hperm, ?_⟩
    exact shares_cons.mpr ⟨[x], taken, .refl _, takes_one.mpr ⟨x, rfl, hx⟩, hshares⟩

/-- **What is met in turn can be shared out.** -/
theorem MetInTurn.shares (h : MetInTurn ds xs) : Shares ds xs := by
  obtain ⟨rest, hrest, hmany⟩ := h
  obtain ⟨taken, htaken, hone⟩ := exists_taken ds hrest
  refine ((hone.append hmany).perm_demands ?_).perm htaken
  exact List.perm_append_comm.trans (List.filter_append_perm isMany ds)

/-- Whatever passes a single demand is the same to all demands. -/
def Apart (ds : List (Demand α)) (xs : List α) : Prop :=
  ∀ test, one test ∈ ds → ∀ x ∈ xs, ∀ y ∈ xs, test x = true → test y = true →
    ∀ d ∈ ds, d.accepts x = d.accepts y

theorem Apart.subset {es : List (Demand α)} (h : Apart ds xs) (hds : es ⊆ ds) (hxs : ys ⊆ xs) :
    Apart es ys :=
  fun test htest x hx y hy hxp hyp d hd =>
    h test (hds htest) x (hxs hx) y (hxs hy) hxp hyp d (hds hd)

/-- Without competition a sharing can be changed into one that takes the first item. -/
theorem exists_shares_of_one {test : α → Bool} (hapart : Apart (one test :: ds) xs)
    (h : Shares (one test :: ds) xs) : ∃ rest, takeFirst test xs = some rest ∧ Shares ds rest := by
  obtain ⟨run, others, hperm, hrun, hshares⟩ := shares_cons.mp h
  obtain ⟨y, rfl, hy⟩ := takes_one.mp hrun
  have hymem : y ∈ xs := hperm.mem_iff.mp (List.mem_cons_self ..)
  cases hfirst : takeFirst test xs with
  | none => exact absurd hy (Store.takeFirst_eq_none hfirst y hymem)
  | some rest =>
    obtain ⟨x, hx, hxperm, -⟩ := Store.takeFirst_eq_some hfirst
    have hxmem : x ∈ xs := hxperm.mem_iff.mp (List.mem_cons_self ..)
    -- what the demands see of an item
    let sight (z : α) : List Bool := ds.map fun d => d.accepts z
    have hsame : sight x = sight y := List.map_congr_left fun d hd =>
      hapart test (List.mem_cons_self ..) x hxmem y hymem hx hy d (List.mem_cons_of_mem _ hd)
    have hseen : (sight y :: others.map sight).Perm (sight y :: rest.map sight) := by
      have hall := (hperm.trans hxperm.symm).map sight
      rwa [List.singleton_append, List.map_cons, List.map_cons, hsame] at hall
    refine ⟨rest, rfl, hshares.of_map_perm (f := sight) (fun d hd a b hab => ?_) hseen.cons_inv⟩
    exact List.map_inj_left.mp hab d hd

/-- Without competition what can be shared out is met in turn, with other demands to come. -/
theorem exists_left_of_shares : ∀ {ds ms : List (Demand α)} {xs : List α}, Apart (ds ++ ms) xs →
    Shares (ds ++ ms) xs →
    ∃ rest, takeInTurn ds xs = some rest ∧ Shares (ds.filter isMany ++ ms) rest
  | [], ms, xs, _, h => ⟨xs, rfl, h⟩
  | many least greatest test :: ds, ms, xs, hapart, h => by
    -- a number of items is taken at the end
    have hlast : (many least greatest test :: ds ++ ms).Perm
        (ds ++ many least greatest test :: ms) := List.perm_middle.symm
    obtain ⟨rest, hrest, hshares⟩ := exists_left_of_shares
      (hapart.subset hlast.symm.subset (List.Subset.refl xs)) (h.perm_demands hlast)
    exact ⟨rest, hrest, hshares.perm_demands List.perm_middle⟩
  | one test :: ds, ms, xs, hapart, h => by
    obtain ⟨others, hfirst, hothers⟩ := exists_shares_of_one hapart h
    obtain ⟨x, hx, hperm, hsub⟩ := Store.takeFirst_eq_some hfirst
    obtain ⟨rest, hrest, hshares⟩ := exists_left_of_shares
      (hapart.subset (List.subset_cons_self _ _) hsub.subset) hothers
    exact ⟨rest, by rw [takeInTurn, hfirst]; exact hrest, hshares⟩

/-- **Without competition, what can be shared out is met in turn.** -/
theorem metInTurn_iff_shares (hapart : Apart ds xs) : MetInTurn ds xs ↔ Shares ds xs := by
  refine ⟨MetInTurn.shares, fun h => ?_⟩
  rw [← List.append_nil ds] at hapart h
  obtain ⟨rest, hrest, hshares⟩ := exists_left_of_shares hapart h
  rw [List.append_nil] at hshares
  exact ⟨rest, hrest, hshares⟩

/-- **Without competition the order of the items does not count.** -/
theorem metInTurn_perm (hapart : Apart ds xs) (hperm : xs.Perm ys) :
    MetInTurn ds xs ↔ MetInTurn ds ys := by
  rw [metInTurn_iff_shares hapart,
    metInTurn_iff_shares (hapart.subset (List.Subset.refl ds) hperm.symm.subset)]
  exact ⟨fun h => h.perm hperm, fun h => h.perm hperm.symm⟩

/-- **With competition the order of the items does count**: a demand that takes everything leaves
nothing for a demand that only takes the first item, but it leaves what is behind another one. -/
theorem metInTurn_first_fit {test : α → Bool} {x y : α} (hx : test x = true)
    (hy : ¬ test y = true) :
    ¬ MetInTurn [one fun _ => true, one test] [x, y] ∧
      MetInTurn [one fun _ => true, one test] [y, x] := by
  constructor
  · rintro ⟨rest, hrest, -⟩
    simp [takeInTurn, takeFirst, hy] at hrest
  · exact ⟨[], by simp [takeInTurn, takeFirst, hx], shares_nil.mpr rfl⟩

/-! ### Numbered items -/

/-- The demand on what a function gives. -/
def comap (f : α → β) : Demand β → Demand α
  | one test => one (test ∘ f)
  | many least greatest test => many least greatest (test ∘ f)

/-- The demand on the positions in a list. -/
def atPositions (xs : List α) : Demand α → Demand Nat
  | one test => one fun i => xs[i]?.any test
  | many least greatest test => many least greatest fun i => xs[i]?.any test

theorem takeInTurn_map (f : α → β) : ∀ (ds : List (Demand β)) (xs : List α),
    takeInTurn ds (xs.map f) = (takeInTurn (ds.map (comap f)) xs).map (List.map f)
  | [], xs => rfl
  | many .. :: ds, xs => takeInTurn_map f ds xs
  | one test :: ds, xs => by
    rw [List.map_cons, comap, takeInTurn, takeInTurn, Store.takeFirst_map]
    cases takeFirst (test ∘ f) xs with
    | none => rfl
    | some rest => exact takeInTurn_map f ds rest

theorem takeInTurn_sublist : ∀ (ds : List (Demand α)) {xs rest : List α},
    takeInTurn ds xs = some rest → rest.Sublist xs
  | [], xs, rest, h => by
    cases h
    exact .refl xs
  | many .. :: ds, xs, rest, h => takeInTurn_sublist ds h
  | one test :: ds, xs, rest, h => by
    obtain ⟨others, hfirst, hothers⟩ := Option.bind_eq_some_iff.mp h
    obtain ⟨x, -, -, hsub⟩ := Store.takeFirst_eq_some hfirst
    exact (takeInTurn_sublist ds hothers).trans hsub

/-- Numbered items are shared out as their positions are. -/
theorem shares_atPositions {numbered : List (α × Nat)} (hsub : numbered.Sublist xs.zipIdx) :
    Shares (ds.map (atPositions xs)) (numbered.map Prod.snd) ↔
      Shares ds (numbered.map Prod.fst) := by
  have hitems : List.Forall₂ (fun x i => xs[i]? = some x) (numbered.map Prod.fst)
      (numbered.map Prod.snd) := by
    rw [List.forall₂_map_left_iff, List.forall₂_map_right_iff]
    exact List.forall₂_same.mpr fun p hp => List.mem_zipIdx_iff_getElem?.mp (hsub.subset hp)
  have halike (d : Demand α) : Alike (fun x i => xs[i]? = some x) d (d.atPositions xs) := by
    cases d with
    | one test => exact ⟨fun _ => Iff.rfl, fun x i hi => by simp [accepts, atPositions, hi]⟩
    | many => exact ⟨fun _ => Iff.rfl, fun x i hi => by simp [accepts, atPositions, hi]⟩
  have hdemands : List.Forall₂ (Alike fun x i => xs[i]? = some x) ds (ds.map (atPositions xs)) := by
    rw [List.forall₂_map_right_iff]
    exact List.forall₂_same.mpr fun d _ => halike d
  constructor
  · refine Shares.of_alike (r := fun i x => xs[i]? = some x) ?_ hitems.flip
    exact hdemands.flip.imp fun _ _ h => ⟨fun n => (h.admits n).symm, fun i x hi =>
      (h.accepts x i hi).symm⟩
  · exact Shares.of_alike hdemands hitems

/-- Taking from numbered items, and distributing the positions that are left, meets the demands in
turn. -/
theorem distributes_left_iff {runs : List Run}
    (hruns : runs.map Run.demand = (ds.filter isMany).map (atPositions xs)) :
    ((takeInTurn (ds.map (comap Prod.fst)) xs.zipIdx).any fun rest =>
      Run.distributes runs (rest.map Prod.snd)) = true ↔ MetInTurn ds xs := by
  have hmap := takeInTurn_map Prod.fst ds xs.zipIdx
  rw [List.zipIdx_map_fst] at hmap
  rw [MetInTurn, hmap]
  cases hleft : takeInTurn (ds.map (comap Prod.fst)) xs.zipIdx with
  | none => simp
  | some rest =>
    have hsub := takeInTurn_sublist _ hleft
    have hpositions : (xs.zipIdx.map Prod.snd).Nodup := by
      rw [List.zipIdx_map_snd]
      exact List.nodup_range'
    have hnodup := hpositions.sublist (hsub.map Prod.snd)
    rw [Option.any_some, Run.distributes_iff_shares hnodup, hruns, shares_atPositions hsub]
    simp

end Demand

/-! ### Sets and dicts -/

/-- What an element of a set pattern asks of the members. -/
def Element.demand (s : Store) : Element → Demand Value
  | .value p => .one fun x => s.valueMatches p x
  | .glob ⟨p, least, greatest⟩ => .many least greatest fun x => s.innerMatches p x

/-- What an entry of a dict pattern asks of the entries. -/
def Entry.demand (s : Store) : Entry → Demand (Value × Value)
  | .pair p q => .one fun e => s.valueMatches p e.1 && s.valueMatches q e.2
  | .glob ⟨p, least, greatest⟩ q =>
    .many least greatest fun e => s.innerMatches p e.1 && s.innerMatches q e.2

namespace Store

open Demand (Apart MetInTurn Shares)

variable {s : Store} {kind : SetKind} {marked : Bool} {v w x y : Value}

theorem leftoverMembers_eq (s : Store) : ∀ (es : List Element) (ms : List (Value × Nat)),
    s.leftoverMembers es ms =
      Demand.takeInTurn ((es.map (Element.demand s)).map (Demand.comap Prod.fst)) ms
  | [], ms => by
    rw [leftoverMembers]
    rfl
  | .glob ⟨_, _, _⟩ :: es, ms => by
    rw [leftoverMembers]
    exact leftoverMembers_eq s es ms
  | .value p :: es, ms => by
    have hrest := leftoverMembers_eq s es
    rw [leftoverMembers]
    show _ = (takeFirst (fun m : Value × Nat => s.valueMatches p m.1) ms).bind _
    cases takeFirst (fun m : Value × Nat => s.valueMatches p m.1) ms with
    | none => rfl
    | some rest => exact hrest rest

theorem leftoverEntries_eq (s : Store) : ∀ (es : List Entry) (xs : List ((Value × Value) × Nat)),
    s.leftoverEntries es xs =
      Demand.takeInTurn ((es.map (Entry.demand s)).map (Demand.comap Prod.fst)) xs
  | [], xs => by
    rw [leftoverEntries]
    rfl
  | .glob ⟨_, _, _⟩ q :: es, xs => by
    rw [leftoverEntries]
    exact leftoverEntries_eq s es xs
  | .pair p q :: es, xs => by
    have hrest := leftoverEntries_eq s es
    rw [leftoverEntries]
    show _ = (takeFirst (fun m : (Value × Value) × Nat =>
      s.valueMatches p m.1.1 && s.valueMatches q m.1.2) xs).bind _
    cases takeFirst (fun m : (Value × Value) × Nat =>
      s.valueMatches p m.1.1 && s.valueMatches q m.1.2) xs with
    | none => rfl
    | some rest => exact hrest rest

theorem elementRuns_demand (s : Store) (xs : List Value) : ∀ es : List Element,
    (s.elementRuns es xs).map Run.demand =
      ((es.map (Element.demand s)).filter Demand.isMany).map (Demand.atPositions xs)
  | [] => by
    rw [elementRuns]
    rfl
  | .value p :: es => by
    rw [elementRuns]
    exact elementRuns_demand s xs es
  | .glob ⟨_, _, _⟩ :: es => by
    rw [elementRuns, List.map_cons, elementRuns_demand s xs es]
    rfl

theorem entryRuns_demand (s : Store) (xs : List (Value × Value)) : ∀ es : List Entry,
    (s.entryRuns es xs).map Run.demand =
      ((es.map (Entry.demand s)).filter Demand.isMany).map (Demand.atPositions xs)
  | [] => by
    rw [entryRuns]
    rfl
  | .pair p q :: es => by
    rw [entryRuns]
    exact entryRuns_demand s xs es
  | .glob ⟨_, _, _⟩ q :: es => by
    rw [entryRuns, List.map_cons, entryRuns_demand s xs es]
    rfl

/-- The members of a set meet the elements of the pattern in turn. -/
theorem valueMatches_set_inTurn (s : Store) (kind : SetKind) (es : List Element) (v : Value) :
    s.valueMatches (.set kind es) v = true ↔
      s.isSetOf kind v = true ∧ MetInTurn (es.map (Element.demand s)) (s.elements v) := by
  rw [valueMatches, Bool.and_eq_true, leftoverMembers_eq,
    ← Demand.distributes_left_iff (elementRuns_demand s (s.elements v) es)]
  cases Demand.takeInTurn ((es.map (Element.demand s)).map (Demand.comap Prod.fst))
    (s.elements v).zipIdx <;> rfl

/-- The entries of a dict meet those of the pattern in turn. -/
theorem valueMatches_dict_inTurn (s : Store) (marked : Bool) (es : List Entry) (v : Value) :
    s.valueMatches (.dict marked es) v = true ↔
      s.kind v = .dict ∧ MetInTurn (es.map (Entry.demand s)) (s.entries v) := by
  rw [valueMatches, Bool.and_eq_true, beq_iff_eq, leftoverEntries_eq,
    ← Demand.distributes_left_iff (entryRuns_demand s (s.entries v) es)]
  cases Demand.takeInTurn ((es.map (Entry.demand s)).map (Demand.comap Prod.fst))
    (s.entries v).zipIdx <;> rfl

/-- **A set pattern that matches shares out the members.** -/
theorem valueMatches_set_shares {es : List Element} (h : s.valueMatches (.set kind es) v = true) :
    Shares (es.map (Element.demand s)) (s.elements v) :=
  ((valueMatches_set_inTurn s kind es v).mp h).2.shares

/-- **A dict pattern that matches shares out the entries.** -/
theorem valueMatches_dict_shares {es : List Entry} (h : s.valueMatches (.dict marked es) v = true) :
    Shares (es.map (Entry.demand s)) (s.entries v) :=
  ((valueMatches_dict_inTurn s marked es v).mp h).2.shares

/-- **Without competition a set pattern matches if and only if its members can be shared out.** -/
theorem valueMatches_set_iff {es : List Element}
    (hapart : Apart (es.map (Element.demand s)) (s.elements v)) :
    s.valueMatches (.set kind es) v = true ↔
      s.isSetOf kind v = true ∧ Shares (es.map (Element.demand s)) (s.elements v) := by
  rw [valueMatches_set_inTurn, Demand.metInTurn_iff_shares hapart]

/-- **Without competition a dict pattern matches if and only if its entries can be shared out.** -/
theorem valueMatches_dict_iff {es : List Entry}
    (hapart : Apart (es.map (Entry.demand s)) (s.entries v)) :
    s.valueMatches (.dict marked es) v = true ↔
      s.kind v = .dict ∧ Shares (es.map (Entry.demand s)) (s.entries v) := by
  rw [valueMatches_dict_inTurn, Demand.metInTurn_iff_shares hapart]

/-- **Without competition the order of the members does not count.** -/
theorem valueMatches_set_perm {es : List Element} (hkind : s.kind v = s.kind w)
    (hmembers : (s.elements v).Perm (s.elements w))
    (hapart : Apart (es.map (Element.demand s)) (s.elements v)) :
    s.valueMatches (.set kind es) v = s.valueMatches (.set kind es) w := by
  have hset : s.isSetOf kind v = s.isSetOf kind w := by
    unfold isSetOf isSetLike
    rw [hkind]
  rw [Bool.eq_iff_iff, valueMatches_set_inTurn, valueMatches_set_inTurn, hset,
    Demand.metInTurn_perm hapart hmembers]

/-- **Without competition the order of the entries does not count.** -/
theorem valueMatches_dict_perm {es : List Entry} (hkind : s.kind v = s.kind w)
    (hentries : (s.entries v).Perm (s.entries w))
    (hapart : Apart (es.map (Entry.demand s)) (s.entries v)) :
    s.valueMatches (.dict marked es) v = s.valueMatches (.dict marked es) w := by
  rw [Bool.eq_iff_iff, valueMatches_dict_inTurn, valueMatches_dict_inTurn, hkind,
    Demand.metInTurn_perm hapart hentries]

/-- **A wildcard takes the member that another element needs**, if it was put in first. -/
theorem valueMatches_set_first_fit {p : ValuePattern} (hkind : s.isSetOf kind w = true)
    (hv : s.elements v = [x, y]) (hw : s.elements w = [y, x])
    (hx : s.valueMatches p x = true) (hy : ¬ s.valueMatches p y = true) :
    ¬ s.valueMatches (.set kind [.value .wildcard, .value p]) v = true ∧
      s.valueMatches (.set kind [.value .wildcard, .value p]) w = true := by
  have hwildcard : Element.demand s (.value .wildcard) = .one fun _ => true := by
    rw [Element.demand]
    simp only [valueMatches]
  obtain ⟨hnot, hmet⟩ := Demand.metInTurn_first_fit hx hy
  rw [valueMatches_set_inTurn, valueMatches_set_inTurn, List.map_cons, hwildcard, hv, hw]
  exact ⟨fun h => hnot h.2, hkind, hmet⟩

example : (⟨#[.set [.int 1, .int 2]]⟩ : Store).valueMatches
    (.set .any [.value .wildcard, .value (.literal (.int 1))]) (.ref ⟨0⟩) = false := by cbv

/-- **A pair of wildcards takes the entry that another pair needs**, if it was put in first. -/
theorem valueMatches_dict_first_fit {p q : ValuePattern} {e f : Value × Value}
    (hkind : s.kind w = .dict) (hv : s.entries v = [e, f]) (hw : s.entries w = [f, e])
    (he : (s.valueMatches p e.1 && s.valueMatches q e.2) = true)
    (hf : ¬ (s.valueMatches p f.1 && s.valueMatches q f.2) = true) :
    ¬ s.valueMatches (.dict marked [.pair .wildcard .wildcard, .pair p q]) v = true ∧
      s.valueMatches (.dict marked [.pair .wildcard .wildcard, .pair p q]) w = true := by
  have hwildcard : Entry.demand s (.pair .wildcard .wildcard) = .one fun _ => true := by
    rw [Entry.demand]
    simp only [valueMatches, Bool.and_self]
  let test (e : Value × Value) : Bool := s.valueMatches p e.1 && s.valueMatches q e.2
  have he : test e = true := he
  obtain ⟨hnot, hmet⟩ := Demand.metInTurn_first_fit he hf
  rw [valueMatches_dict_inTurn, valueMatches_dict_inTurn, List.map_cons, hwildcard, hv, hw]
  exact ⟨fun h => hnot h.2, hkind, hmet⟩

end Store

end DottedPath
