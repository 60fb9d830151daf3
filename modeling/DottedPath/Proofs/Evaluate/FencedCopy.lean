import DottedPath.Proofs.Evaluate.Fence
import DottedPath.Proofs.Value.Reach
import DottedPath.Value.Copy
import Mathlib.Data.Finset.Card

/-!
# Deep copies share nothing

A deep copy is made of new containers only, also of a value that shares containers or holds itself
(`deepCopy_isNew`).  Tuples and frozen sets are noted after their parts, so they must not hold
themselves by way of one another; built after their parts, they never do.

The copy goes down as far as there are containers: each one that is noted before its parts is
entered at most once on the way (`Copies.pending`), and between two of them each of the others
(`Store.nesting`).
-/

namespace DottedPath

open Relation (ReflTransGen TransGen)

/-- Is noted before its parts are copied, since it may hold itself. -/
def Container.isOpen : Container → Bool
  | .tuple _ => false
  | .frozenset _ => false
  | _ => true

namespace Store

variable {s : Store} {v : Value} {g h : Handle}

/-- A container directly inside of a tuple or a frozen set. -/
def ClosedPart (s : Store) (h g : Handle) : Prop :=
  ∃ c, s.get? h = some c ∧ c.isOpen = false ∧ .ref g ∈ c.parts

/-- No tuple and no frozen set that the value reaches is inside of itself by way of such
containers only. -/
def ClosedApart (s : Store) (v : Value) : Prop :=
  ∀ h, s.Reaches v (.ref h) → ¬TransGen s.ClosedPart h h

/-- Every tuple and every frozen set holds containers only that were there before it. -/
def isLayered (s : Store) : Bool :=
  s.cells.toList.zipIdx.all fun (c, i) =>
    c.isOpen || c.parts.all fun x => x.handle?.all fun h => h.index < i

theorem index_lt_of_isLayered (hs : s.isLayered = true) (hpart : s.ClosedPart h g) :
    g.index < h.index := by
  obtain ⟨c, hc, hopen, hmem⟩ := hpart
  have hcell : (c, h.index) ∈ s.cells.toList.zipIdx :=
    List.mk_mem_zipIdx_iff_getElem?.mpr (by rw [Array.getElem?_toList]; exact hc)
  have hparts := List.all_eq_true.mp hs _ hcell
  dsimp only at hparts
  rw [hopen, Bool.false_or] at hparts
  exact of_decide_eq_true (List.all_eq_true.mp hparts (.ref g) hmem)

theorem closedApart_of_isLayered (hs : s.isLayered = true) (v : Value) : s.ClosedApart v := by
  have hlt {g h : Handle} (hway : TransGen s.ClosedPart h g) : g.index < h.index := by
    induction hway with
    | single hpart => exact index_lt_of_isLayered hs hpart
    | tail _ hpart ih => exact Nat.lt_trans (index_lt_of_isLayered hs hpart) ih
  exact fun h _ hcycle => Nat.lt_irrefl _ (hlt hcycle)

/-! ### How deep tuples and frozen sets are nested -/

section

open scoped Classical

/-- The number of containers on the ways through tuples and frozen sets from a value. -/
noncomputable def nesting (s : Store) : Value → Nat
  | .scalar _ => 0
  | .ref h => ((Finset.range s.size).filter fun i => ReflTransGen s.ClosedPart h ⟨i⟩).card

theorem nesting_le (s : Store) (v : Value) : s.nesting v ≤ s.size := by
  cases v with
  | scalar a => exact Nat.zero_le _
  | ref h => exact (Finset.card_filter_le _ _).trans (Finset.card_range s.size).le

theorem nesting_pos (hlt : h.index < s.size) : 0 < s.nesting (.ref h) :=
  Finset.card_pos.mpr ⟨h.index, Finset.mem_filter.mpr ⟨Finset.mem_range.mpr hlt, .refl⟩⟩

/-- What is in a tuple or a frozen set is nested less deep. -/
theorem nesting_lt (hapart : ¬TransGen s.ClosedPart h h) (hlt : h.index < s.size) {c : Container}
    (hc : s.get? h = some c) (hclosed : c.isOpen = false) {x : Value} (hx : x ∈ c.parts) :
    s.nesting x < s.nesting (.ref h) := by
  cases x with
  | scalar a => exact nesting_pos hlt
  | ref g =>
    have hpart : s.ClosedPart h g := ⟨c, hc, hclosed, hx⟩
    refine Finset.card_lt_card (Finset.ssubset_iff_of_subset ?_ |>.mpr ⟨h.index, ?_, ?_⟩)
    · intro i hi
      obtain ⟨hrange, hway⟩ := Finset.mem_filter.mp hi
      exact Finset.mem_filter.mpr ⟨hrange, .head hpart hway⟩
    · exact Finset.mem_filter.mpr ⟨Finset.mem_range.mpr hlt, .refl⟩
    · intro hback
      exact hapart (.head' hpart (Finset.mem_filter.mp hback).2)

end

end Store

/-! ### New containers -/

namespace Fence

variable {s t : Store}

/-- All containers of a store are kept: only new ones may be edited. -/
def around (s : Store) : Fence := ⟨s, fun h => h.index < s.size, fun _ hlt => hlt⟩

theorem intact_around (s : Store) : (around s).Intact s where
  same _ _ := rfl
  forms _ c hc := ⟨c, hc, .refl c⟩
  secluded _ _ hk hc := absurd (Store.lt_size_of_get? hc) hk

/-- A new container may be filled with anything from outside. -/
theorem Intact.fill (ht : (around s).Intact t) {h : Handle} (hnew : (around s).Free (.ref h))
    {d : Container} (hd : ∀ x ∈ d.parts, (around s).Free x) : (around s).Intact (t.set h d) where
  same g hg := by
    have hne : g ≠ h := fun he => free_ref.mp hnew (he ▸ hg)
    rw [Store.get?_set_ne d hne, ht.same g hg]
  forms g c hc := by
    have hne : g ≠ h := fun he => free_ref.mp hnew (he ▸ Store.lt_size_of_get? hc)
    rw [Store.get?_set_ne d hne]
    exact ht.forms g c hc
  secluded g c hg hc := by
    by_cases he : g = h
    · subst he
      rw [Store.get?_set_self d (by simpa using Store.lt_size_of_get? hc)] at hc
      cases hc
      exact hd
    · rw [Store.get?_set_ne d he] at hc
      exact ht.secluded g c hg hc

end Fence

/-! ### Notes -/

namespace Copies

open Fence (around)

variable {s : Store} {m m' : Copies} {h : Handle} {v : Value}

/-- The copies that have been noted are new. -/
def AreNew (s : Store) (m : Copies) : Prop :=
  ∀ p ∈ m, (around s).Free p.2

/-- What has been noted stays noted. -/
def Extends (m m' : Copies) : Prop :=
  ∀ h, m'.lookup h = none → m.lookup h = none

/-- The number of containers that may hold themselves and have not been noted. -/
def pending (s : Store) (m : Copies) : Nat :=
  ((Finset.range s.size).filter fun i =>
    (s.get? ⟨i⟩).any Container.isOpen = true ∧ (m.lookup ⟨i⟩).isNone = true).card

theorem Extends.refl (m : Copies) : m.Extends m := fun _ hn => hn

theorem Extends.trans {m'' : Copies} (hm : m.Extends m') (hm' : m'.Extends m'') : m.Extends m'' :=
  fun h hn => hm h (hm' h hn)

theorem extends_cons (m : Copies) (h : Handle) (v : Value) : m.Extends ((h, v) :: m) := by
  intro g hn
  rw [List.lookup_cons] at hn
  split at hn
  · cases hn
  · exact hn

theorem AreNew.cons (hm : AreNew s m) (hv : (around s).Free v) : AreNew s ((h, v) :: m) :=
  List.forall_mem_cons.mpr ⟨hv, hm⟩

theorem AreNew.lookup (hm : AreNew s m) (hv : m.lookup h = some v) : (around s).Free v := by
  obtain ⟨before, after, rfl, -⟩ := List.lookup_eq_some_iff.mp hv
  exact hm (h, v) (by simp)

theorem pending_le (s : Store) (m : Copies) : pending s m ≤ s.size :=
  (Finset.card_filter_le _ _).trans (Finset.card_range s.size).le

theorem Extends.pending_le (hm : m.Extends m') : pending s m' ≤ pending s m := by
  refine Finset.card_le_card fun i hi => ?_
  obtain ⟨hrange, hopen, hn⟩ := Finset.mem_filter.mp hi
  exact Finset.mem_filter.mpr
    ⟨hrange, hopen, Option.isNone_iff_eq_none.mpr (hm _ (Option.isNone_iff_eq_none.mp hn))⟩

/-- A note of an open container leaves fewer of them. -/
theorem pending_cons_lt {c : Container} (hc : s.get? h = some c) (hopen : c.isOpen = true)
    (hn : m.lookup h = none) (v : Value) : pending s ((h, v) :: m) < pending s m := by
  refine Finset.card_lt_card (Finset.ssubset_iff_of_subset ?_ |>.mpr ⟨h.index, ?_, ?_⟩)
  · intro i hi
    obtain ⟨hrange, hopen, hnone⟩ := Finset.mem_filter.mp hi
    have hnone := extends_cons m h v _ (Option.isNone_iff_eq_none.mp hnone)
    exact Finset.mem_filter.mpr ⟨hrange, hopen, Option.isNone_iff_eq_none.mpr hnone⟩
  · refine Finset.mem_filter.mpr ⟨Finset.mem_range.mpr (Store.lt_size_of_get? hc), ?_, ?_⟩
    · rw [show s.get? ⟨h.index⟩ = some c from hc]
      exact hopen
    · rw [show m.lookup ⟨h.index⟩ = none from hn]
      rfl
  · intro hmem
    have hnone := (Finset.mem_filter.mp hmem).2.2
    rw [show (⟨h.index⟩ : Handle) = h from rfl, List.lookup_cons_self] at hnone
    cases hnone

end Copies

/-! ### Copying -/

/-- What copying leaves behind: an intact fence around all that was there, more notes, and an
answer. -/
structure Copied {α : Type} (s : Store) (m : Copies) (P : α → Copies → Prop)
    (out : (α × Copies) × Store) : Prop where
  intact : (Fence.around s).Intact out.2
  areNew : Copies.AreNew s out.1.2
  more : m.Extends out.1.2
  answer : P out.1.1 out.1.2

/-- From the given notes on the computation only makes new containers. -/
def Copying {α : Type} (s : Store) (m : Copies) (P : α → Copies → Prop)
    (x : StateT Copies StoreM α) : Prop :=
  ∀ t, (Fence.around s).Intact t → Copied s m P (x m t)

namespace Copying

open Fence (around)

variable {α β : Type} {s : Store} {m : Copies} {P : α → Copies → Prop} {Q : β → Copies → Prop}

theorem pure {a : α} (hm : Copies.AreNew s m) (h : P a m) : Copying s m P (pure a) :=
  fun _ ht => ⟨ht, hm, .refl m, h⟩

theorem bind {x : StateT Copies StoreM α} {f : α → StateT Copies StoreM β} (hx : Copying s m P x)
    (hf : ∀ a m', Copies.AreNew s m' → m.Extends m' → P a m' → Copying s m' Q (f a)) :
    Copying s m Q (x >>= f) := fun t ht => by
  obtain ⟨ht', hm', hmore, hP⟩ := hx t ht
  obtain ⟨ht'', hm'', hmore', hQ⟩ := hf _ _ hm' hmore hP _ ht'
  exact ⟨ht'', hm'', hmore.trans hmore', hQ⟩

theorem notes {f : Copies → StateT Copies StoreM α} (hf : Copying s m P (f m)) :
    Copying s m P (get >>= f) := fun t ht => hf t ht

theorem store {f : Store → StateT Copies StoreM α}
    (hf : ∀ t, (around s).Intact t → Copying s m P (f t)) :
    Copying s m P (getThe Store >>= f) := fun t ht => hf t ht t ht

theorem lift {R : α → Prop} {x : StoreM α} (hm : Copies.AreNew s m)
    (hx : (around s).SparesM R x) : Copying s m (fun a m' => R a ∧ m' = m) (liftM x) :=
  fun t ht => ⟨(hx t ht).1, hm, .refl m, (hx t ht).2, rfl⟩

theorem modify {g : Store → Store} (hm : Copies.AreNew s m)
    (hg : ∀ t, (around s).Intact t → (around s).Intact (g t)) :
    Copying s m (fun _ _ => True) (modifyThe Store g) :=
  fun t ht => ⟨hg t ht, hm, .refl m, trivial⟩

theorem note {h : Handle} {v : Value} (hm : Copies.AreNew s m) (hv : (around s).Free v) :
    Copying s m (fun _ m' => m' = (h, v) :: m) (noteCopy h v) :=
  fun _ ht => ⟨ht, hm.cons hv, Copies.extends_cons m h v, rfl⟩

theorem mapM {R : β → Prop} {f : α → StateT Copies StoreM β} : ∀ {xs : List α} {m : Copies},
    Copies.AreNew s m →
    (∀ x ∈ xs, ∀ m', Copies.AreNew s m' → m.Extends m' → Copying s m' (fun b _ => R b) (f x)) →
    Copying s m (fun ys _ => ∀ y ∈ ys, R y) (xs.mapM f)
  | [], _, hm, _ => .pure hm (List.forall_mem_nil _)
  | x :: xs, m, hm, hf => by
    obtain ⟨hx, hxs⟩ := List.forall_mem_cons.mp hf
    rw [List.mapM_cons]
    refine (hx m hm (.refl m)).bind fun y m' hm' hmore hy => ?_
    refine (mapM hm' fun x hx m'' hm'' hmore' => hxs x hx m'' hm'' (hmore.trans hmore')).bind
      fun ys m'' hm'' _ hys => .pure hm'' (List.forall_mem_cons.mpr ⟨hy, hys⟩)

theorem forIn {f : α → PUnit → StateT Copies StoreM (ForInStep PUnit)} : ∀ {xs : List α}
    {m : Copies}, Copies.AreNew s m →
    (∀ x ∈ xs, ∀ m', Copies.AreNew s m' → m.Extends m' →
      Copying s m' (fun step _ => step = .yield PUnit.unit) (f x PUnit.unit)) →
    Copying s m (fun _ _ => True) (forIn xs PUnit.unit f)
  | [], _, hm, _ => .pure hm trivial
  | x :: xs, m, hm, hf => by
    obtain ⟨hx, hxs⟩ := List.forall_mem_cons.mp hf
    rw [List.forIn_cons]
    refine (hx m hm (.refl m)).bind fun step m' hm' hmore hstep => ?_
    rw [hstep]
    exact forIn hm' fun x hx m'' hm'' hmore' => hxs x hx m'' hm'' (hmore.trans hmore')

end Copying

section

open Fence (around)
open Copies (AreNew pending)

variable {s : Store} {m : Copies}

theorem begin_copying (hm : AreNew s m) (h : Handle) {c : Container} (hc : c.parts = []) :
    Copying s m (fun copy m' => (around s).Free copy ∧ m' = (h, copy) :: m)
      (copyWithin.begin h c) := by
  have halloc := Fence.alloc_spares (F := around s) c (by rw [hc]; exact List.forall_mem_nil _)
  refine (Copying.lift hm halloc).bind fun copy m' hm' _ hcopy => ?_
  obtain ⟨hnew, rfl⟩ := hcopy
  refine (Copying.note hm' hnew).bind fun _ m'' hm'' _ hnoted => ?_
  exact .pure hm'' ⟨hnew, hnoted⟩

theorem finish_copying (hm : AreNew s m) {copy : Value} (hcopy : (around s).Free copy)
    {c : Container} (hc : ∀ x ∈ c.parts, (around s).Free x) :
    Copying s m (fun _ _ => True) (copyWithin.finish copy c) := by
  cases copy with
  | scalar a => exact .pure hm trivial
  | ref g => exact .modify hm fun t ht => ht.fill hcopy hc

/-- The keys and the values of a dict are copied in turn, and each entry is put into the copy. -/
theorem dict_copying {n : Nat} {entries : List (Value × Value)} (hm : AreNew s m) (h : Handle)
    (hparts : ∀ e ∈ entries, ∀ copy m', Copies.Extends ((h, copy) :: m) m' → AreNew s m' →
      Copying s m' (fun w _ => (around s).Free w) (copyWithin n e.1) ∧
      ∀ m'', m'.Extends m'' → AreNew s m'' →
        Copying s m'' (fun w _ => (around s).Free w) (copyWithin n e.2)) :
    Copying s m (fun w _ => (around s).Free w) (do
      let copy ← copyWithin.begin h (.dict [])
      for (k, v) in entries do
        let k ← copyWithin n k
        let v ← copyWithin n v
        match copy, (← getThe Store).container? copy with
        | .ref c, some (.dict es) =>
          modifyThe Store fun s => s.set c (.dict (s.insertEntry es k v))
        | _, _ => pure ()
      pure copy) := by
  refine (begin_copying hm h rfl).bind fun copy m' hm' _ hcopy => ?_
  obtain ⟨hnew, rfl⟩ := hcopy
  refine (Copying.forIn hm' fun e he m'' hm'' hmore => ?_).bind fun _ _ hm _ _ => .pure hm hnew
  obtain ⟨hkey, hvalue⟩ := hparts e he copy m'' hmore hm''
  refine hkey.bind fun k m₁ hm₁ hmore₁ hk => ?_
  refine (hvalue m₁ hmore₁ hm₁).bind fun v m₂ hm₂ _ hv => .store fun u hu => ?_
  split
  · rename_i g es _ hes
    have hentries := Container.forall_parts_dict.mp (hu.parts hnew hes)
    refine (Copying.modify hm₂ fun u' hu' => hu'.fill hnew ?_).bind fun _ _ hm _ _ => .pure hm rfl
    exact Container.forall_parts_dict.mpr (u'.forall_insertEntry hentries hk hv)
  · exact .pure hm₂ rfl

/-- The members of a set are copied in turn, and each is put into the copy. -/
theorem set_copying {n : Nat} {members : List Value} (hm : AreNew s m) (h : Handle)
    (hparts : ∀ x ∈ members, ∀ copy m', Copies.Extends ((h, copy) :: m) m' → AreNew s m' →
      Copying s m' (fun w _ => (around s).Free w) (copyWithin n x)) :
    Copying s m (fun w _ => (around s).Free w) (do
      let copy ← copyWithin.begin h (.set [])
      for m in members do
        let m ← copyWithin n m
        match copy, (← getThe Store).container? copy with
        | .ref c, some (.set ms) => modifyThe Store fun s => s.set c (.set (s.insertMember ms m))
        | _, _ => pure ()
      pure copy) := by
  refine (begin_copying hm h rfl).bind fun copy m' hm' _ hcopy => ?_
  obtain ⟨hnew, rfl⟩ := hcopy
  refine (Copying.forIn hm' fun x hx m'' hm'' hmore => ?_).bind fun _ _ hm _ _ => .pure hm hnew
  refine (hparts x hx copy m'' hmore hm'').bind fun w m₁ hm₁ _ hw => .store fun u hu => ?_
  split
  · rename_i g ms _ hms
    refine (Copying.modify hm₁ fun u' hu' => hu'.fill hnew fun y hy => ?_).bind
      fun _ _ hm _ _ => .pure hm rfl
    rcases List.mem_append.mp (u'.insertMember_subset ms w hy) with hy | hy
    · exact hu.parts hnew hms y hy
    · rwa [List.mem_singleton.mp hy]
  · exact .pure hm₁ rfl

variable {r : Value}

/-- **A copy is new**, if it may go down as far as there are containers. -/
theorem copyWithin_isNew (hgraph : s.HoldsGraph r) (hapart : s.ClosedApart r) : ∀ (n : Nat)
    {v : Value} {m : Copies}, s.Reaches r v → AreNew s m →
    pending s m * (s.size + 1) + s.nesting v ≤ n →
    Copying s m (fun w _ => (around s).Free w) (copyWithin n v)
  | _, .scalar a, m, _, hm, _ => by
    rw [copyWithin]
    exact .pure hm (Fence.free_scalar a)
  | 0, .ref h, m, hv, _, hdepth => by
    -- a container that is there counts as nested in itself
    have hpos := Store.nesting_pos (Store.holds_ref.mp (hgraph _ hv))
    omega
  | n + 1, .ref h, m, hv, hm, hdepth => by
    have hlt : h.index < s.size := Store.holds_ref.mp (hgraph _ hv)
    obtain ⟨c, hc⟩ := Store.get?_of_lt hlt
    have hpart {x : Value} (hx : x ∈ c.parts) : s.Reaches r x := hv.part ⟨c, hc, hx⟩
    rw [copyWithin]
    refine .notes ?_
    cases hn : m.lookup h with
    | some done => exact .pure hm (hm.lookup hn)
    | none =>
      refine .store fun t ht => ?_
      rw [ht.same h hlt, show (around s).start.get? h = some c from hc]
      -- what is in an open container is copied when one container less is pending
      have hinside (hopen : c.isOpen = true) {copy : Value} {m' : Copies}
          (hmore : Copies.Extends ((h, copy) :: m) m') (hm' : AreNew s m') {x : Value}
          (hx : x ∈ c.parts) : Copying s m' (fun w _ => (around s).Free w) (copyWithin n x) := by
        refine copyWithin_isNew hgraph hapart n (hpart hx) hm' ?_
        have hpos := Store.nesting_pos hlt
        have hle := s.nesting_le x
        have hfewer : pending s m' + 1 ≤ pending s m :=
          hmore.pending_le.trans_lt (Copies.pending_cons_lt hc hopen hn copy)
        have hmul := Nat.mul_le_mul_right (s.size + 1) hfewer
        rw [Nat.succ_mul] at hmul
        omega
      -- what is in one of the others is nested less deep
      have hnested (hclosed : c.isOpen = false) {m' : Copies} (hmore : m.Extends m')
          (hm' : AreNew s m') {x : Value} (hx : x ∈ c.parts) :
          Copying s m' (fun w _ => (around s).Free w) (copyWithin n x) := by
        refine copyWithin_isNew hgraph hapart n (hpart hx) hm' ?_
        have hless := Store.nesting_lt (hapart h hv) hlt hc hclosed hx
        have hfewer : pending s m' ≤ pending s m := hmore.pending_le
        have hmul := Nat.mul_le_mul_right (s.size + 1) hfewer
        omega
      cases c with
      | list items =>
        refine (begin_copying hm h rfl).bind fun copy m' hm' _ hcopy => ?_
        obtain ⟨hnew, rfl⟩ := hcopy
        refine (Copying.mapM hm' fun x hx m'' hm'' hmore => hinside rfl hmore hm'' hx).bind
          fun copies m'' hm'' _ hcopies => ?_
        have hparts : ∀ x ∈ (Container.list copies).parts, (around s).Free x := hcopies
        exact (finish_copying hm'' hnew hparts).bind fun _ _ hm _ _ => .pure hm hnew
      | tuple items =>
        refine (Copying.mapM hm fun x hx m'' hm'' hmore => hnested rfl hmore hm'' hx).bind
          fun copies m'' hm'' _ hcopies => ?_
        refine (Copying.lift hm'' (Fence.alloc_spares (.tuple copies) hcopies)).bind
          fun copy _ hm _ hnew => ?_
        exact (Copying.note hm hnew.1).bind fun _ _ hm _ _ => .pure hm hnew.1
      | dict entries =>
        have hinner : ∀ e ∈ entries, e.1 ∈ (Container.dict entries).parts ∧
            e.2 ∈ (Container.dict entries).parts :=
          Container.forall_parts_dict.mp fun _ hx => hx
        exact dict_copying hm h fun e he copy m' hmore hm' =>
          ⟨hinside rfl hmore hm' (hinner e he).1, fun m'' hmore' hm'' =>
            hinside rfl (hmore.trans hmore') hm'' (hinner e he).2⟩
      | set members =>
        exact set_copying hm h fun x hx copy m' hmore hm' => hinside rfl hmore hm' hx
      | frozenset members =>
        refine (Copying.mapM hm fun x hx m'' hm'' hmore => hnested rfl hmore hm'' hx).bind
          fun copies m'' hm'' _ hcopies => .store fun u _ => ?_
        have hmembers : ∀ x ∈ u.membersOf copies, (around s).Free x :=
          fun x hx => hcopies x (u.membersOf_subset copies hx)
        refine (Copying.lift hm'' (Fence.alloc_spares (.frozenset (u.membersOf copies))
          hmembers)).bind fun copy _ hm _ hnew => ?_
        exact (Copying.note hm hnew.1).bind fun _ _ hm _ _ => .pure hm hnew.1
      | object name attrs frozen =>
        refine (begin_copying hm h rfl).bind fun copy m' hm' _ hcopy => ?_
        obtain ⟨hnew, rfl⟩ := hcopy
        refine (Copying.mapM (R := fun a => (around s).Free a.2) hm'
          fun a ha m'' hm'' hmore => ?_).bind fun copies m'' hm'' _ hcopies => ?_
        · exact (hinside rfl hmore hm'' (List.mem_map_of_mem ha)).bind
            fun w _ hm _ hw => .pure hm hw
        · exact (finish_copying hm'' hnew (Container.forall_parts_object.mpr hcopies)).bind
            fun _ _ hm _ _ => .pure hm hnew

/-- **A deep copy is new**, and making it leaves alone all containers that were there. -/
theorem deepCopy_isNew (hgraph : s.HoldsGraph r) (hapart : s.ClosedApart r) :
    (around s).SparesAt s (around s).Free (deepCopy r) := by
  have hdepth : pending s [] * (s.size + 1) + s.nesting r ≤ s.comparisonDepth := by
    have hpending := Nat.mul_le_mul_right (s.size + 1) (Copies.pending_le s [])
    have hnesting := s.nesting_le r
    unfold Store.comparisonDepth
    rw [Nat.succ_mul]
    omega
  have hcopy := copyWithin_isNew hgraph hapart s.comparisonDepth (.refl s r)
    (List.forall_mem_nil _) hdepth s (Fence.intact_around s)
  exact ⟨hcopy.intact, hcopy.answer⟩

end

/-! ### Copies of what is kept -/

namespace Fence

variable {F : Fence} {t t' : Store} {r v x : Value}

theorem Intact.free_of_around (ht : F.Intact t) (hv : (around t).Free v) : F.Free v :=
  fun h he hk => hv h he (Nat.lt_of_lt_of_le (F.lt_of_kept h hk) ht.size_le)

/-- What leaves alone all that is there leaves alone what is kept. -/
theorem Intact.of_around (ht : F.Intact t) (ht' : (around t).Intact t') : F.Intact t' where
  same h hk := by
    have hlt : h.index < t.size := Nat.lt_of_lt_of_le (F.lt_of_kept h hk) ht.size_le
    exact (ht'.same h hlt).trans (ht.same h hk)
  forms h c hc := by
    obtain ⟨d, hd, hform⟩ := ht.forms h c hc
    obtain ⟨d', hd', hform'⟩ := ht'.forms h d hd
    exact ⟨d', hd', hform.trans hform'⟩
  secluded h c hk hc x hx := by
    by_cases hlt : h.index < t.size
    · rw [ht'.same h hlt] at hc
      exact ht.secluded h c hk hc x hx
    · exact ht.free_of_around (ht'.secluded h c hlt hc x hx)

/-- A value whose containers are all kept reaches what it reached. -/
theorem Intact.reaches_start (ht : F.Intact t) (hkept : ∀ h, F.start.Reaches r (.ref h) → F.kept h)
    (hx : t.Reaches r x) : F.start.Reaches r x := by
  induction hx with
  | refl => exact .refl F.start r
  | @tail y _ _ hpart ih =>
    obtain ⟨c, hc, hmem⟩ := hpart
    cases y with
    | scalar a => cases hc
    | ref h =>
      have hc : t.get? h = some c := hc
      rw [ht.same h (hkept h ih)] at hc
      exact ih.part ⟨c, hc, hmem⟩

theorem Intact.closedApart (ht : F.Intact t) (hkept : ∀ h, F.start.Reaches r (.ref h) → F.kept h)
    (hapart : F.start.ClosedApart r) : t.ClosedApart r := by
  have hpart {h g : Handle} (hh : t.Reaches r (.ref h)) (hp : t.ClosedPart h g) :
      F.start.ClosedPart h g ∧ t.Reaches r (.ref g) := by
    obtain ⟨c, hc, hclosed, hmem⟩ := hp
    refine ⟨⟨c, ?_, hclosed, hmem⟩, hh.part ⟨c, hc, hmem⟩⟩
    rw [← ht.same h (hkept h (ht.reaches_start hkept hh)), hc]
  -- the containers on the way are reached, so they are kept and hold what they held
  have hway {h g : Handle} (hh : t.Reaches r (.ref h)) (hp : TransGen t.ClosedPart h g) :
      TransGen F.start.ClosedPart h g ∧ t.Reaches r (.ref g) := by
    induction hp with
    | single hp => exact ⟨.single (hpart hh hp).1, (hpart hh hp).2⟩
    | tail _ hp ih => exact ⟨ih.1.tail (hpart ih.2 hp).1, (hpart ih.2 hp).2⟩
  exact fun h hh hcycle => hapart h (ht.reaches_start hkept hh) (hway hh hcycle).1

/-- **A deep copy of what is kept stays outside.** -/
theorem deepCopy_spares (hkept : ∀ h, F.start.Reaches r (.ref h) → F.kept h)
    (hapart : F.start.ClosedApart r) : F.SparesM F.Free (deepCopy r) := by
  intro t ht
  have hgraph : t.HoldsGraph r := by
    rintro _ hx h rfl
    have hk := hkept h (ht.reaches_start hkept hx)
    exact Nat.lt_of_lt_of_le (F.lt_of_kept h hk) ht.size_le
  obtain ⟨ht', hnew⟩ := deepCopy_isNew hgraph (ht.closedApart hkept hapart)
  exact ⟨ht.of_around ht', ht.free_of_around hnew⟩

end Fence

end DottedPath
