import DottedPath.Matching.Distribution
import Mathlib.Data.List.Nodup
import Mathlib.Data.List.Perm.Basic

/-!
# Sharing out items

The elements of a set pattern, and the entries of a dict pattern, make demands on the members of a
value: a single one that passes, or any number within bounds of such that pass.  `Demand.Shares`
says that the members can be shared out, each to one demand.  It knows no order, neither of the
demands nor of the items, and of the items it only knows which demands accept them.

Runs are filled one after the other, and for each of them every choice of items is tried.  A choice
keeps the order of the items, but this leaves nothing out: all that counts for the runs that are
left is which items are left.  Where no item occurs twice, to share them out is to assign each of
them to a run (`Demand.Assigned`).

## Main statements

- `Demand.Shares.of_map_perm`: items that the demands cannot tell apart can be shared out alike.
- `Run.distributes_iff_shares`: items can be distributed over runs if and only if they can be shared
  out.
- `Run.distributes_iff_assigned`: that is, if and only if each can be assigned to a run.
-/

namespace DottedPath

variable {α β γ : Type}

/-- What is asked of items: a single one that is accepted, or a number of such within bounds. -/
inductive Demand (α : Type) where
  | one (test : α → Bool)
  | many (least : Nat) (greatest : Option Nat) (test : α → Bool)

namespace Demand

/-- The items that the demand accepts. -/
def accepts : Demand α → α → Bool
  | one test => test
  | many _ _ test => test

/-- The numbers of items that the demand asks for. -/
def Admits : Demand α → Nat → Prop
  | one _, n => n = 1
  | many least greatest _, n => least ≤ n ∧ ∀ most, greatest = some most → n ≤ most

/-- The demand asks for a number of items. -/
def isMany : Demand α → Bool
  | one _ => false
  | many .. => true

/-- A run of items meets the demand. -/
structure Takes (d : Demand α) (run : List α) : Prop where
  admits : d.Admits run.length
  accepted : ∀ x ∈ run, d.accepts x = true

/-- Items can be shared out: each goes to one of the demands, and every demand is met. -/
def Shares (ds : List (Demand α)) (xs : List α) : Prop :=
  ∃ runs, List.Forall₂ Takes ds runs ∧ runs.flatten.Perm xs

variable {d : Demand α} {ds es : List (Demand α)} {xs ys : List α}

theorem takes_one {test : α → Bool} {run : List α} :
    (one test).Takes run ↔ ∃ x, run = [x] ∧ test x = true := by
  constructor
  · rintro ⟨hlength, haccepted⟩
    obtain ⟨x, rfl⟩ := List.length_eq_one_iff.mp hlength
    exact ⟨x, rfl, haccepted x (List.mem_singleton_self x)⟩
  · rintro ⟨x, rfl, hx⟩
    exact ⟨rfl, fun y hy => List.mem_singleton.mp hy ▸ hx⟩

/-! ### Sharing, demand by demand -/

theorem shares_nil : Shares [] xs ↔ xs = [] := by
  constructor
  · rintro ⟨runs, hruns, hperm⟩
    cases hruns
    exact hperm.symm.eq_nil
  · rintro rfl
    exact ⟨[], .nil, .nil⟩

/-- The first demand is met, and what is left is shared out among the others. -/
theorem shares_cons :
    Shares (d :: ds) xs ↔ ∃ run rest, (run ++ rest).Perm xs ∧ d.Takes run ∧ Shares ds rest := by
  constructor
  · rintro ⟨runs, hruns, hperm⟩
    cases hruns with
    | cons hrun hothers => exact ⟨_, _, hperm, hrun, _, hothers, .refl _⟩
  · rintro ⟨run, rest, hperm, hrun, runs, hothers, hrest⟩
    exact ⟨run :: runs, .cons hrun hothers, (hrest.append_left run).trans hperm⟩

theorem shares_singleton : Shares [d] xs ↔ d.Takes xs := by
  rw [shares_cons]
  constructor
  · rintro ⟨run, rest, hperm, ⟨hadmits, haccepted⟩, hrest⟩
    obtain rfl := shares_nil.mp hrest
    rw [List.append_nil] at hperm
    exact ⟨hperm.length_eq ▸ hadmits, fun x hx => haccepted x (hperm.mem_iff.mpr hx)⟩
  · intro h
    exact ⟨xs, [], by rw [List.append_nil], h, shares_nil.mpr rfl⟩

namespace Shares

/-- The order of the items does not count. -/
theorem perm (h : Shares ds xs) (hxs : xs.Perm ys) : Shares ds ys := by
  obtain ⟨runs, hruns, hperm⟩ := h
  exact ⟨runs, hruns, hperm.trans hxs⟩

/-- The order of the demands does not count. -/
theorem perm_demands (hds : ds.Perm es) : ∀ {xs : List α}, Shares ds xs → Shares es xs := by
  induction hds with
  | nil => exact fun h => h
  | cons d _ ih =>
    intro xs h
    obtain ⟨run, rest, hperm, hrun, hrest⟩ := shares_cons.mp h
    exact shares_cons.mpr ⟨run, rest, hperm, hrun, ih hrest⟩
  | swap d e ds =>
    intro xs h
    obtain ⟨run, rest, hperm, hrun, hothers⟩ := shares_cons.mp h
    obtain ⟨run', rest', hperm', hrun', hrest⟩ := shares_cons.mp hothers
    have hswap : (run' ++ (run ++ rest')).Perm (run ++ (run' ++ rest')) := by
      rw [← List.append_assoc, ← List.append_assoc]
      exact List.perm_append_comm.append_right rest'
    have hothers : Shares (e :: ds) (run ++ rest') :=
      shares_cons.mpr ⟨run, rest', .refl _, hrun, hrest⟩
    exact shares_cons.mpr
      ⟨run', run ++ rest', (hswap.trans (hperm'.append_left run)).trans hperm, hrun', hothers⟩
  | trans _ _ ih ih' => exact fun h => ih' (ih h)

theorem append (hds : Shares ds xs) (hes : Shares es ys) : Shares (ds ++ es) (xs ++ ys) := by
  obtain ⟨runs, hruns, hperm⟩ := hds
  obtain ⟨runs', hruns', hperm'⟩ := hes
  refine ⟨runs ++ runs', List.rel_append hruns hruns', ?_⟩
  rw [List.flatten_append]
  exact hperm.append hperm'

end Shares

/-! ### What demands see of items -/

/-- Two demands ask the same, of items that are related. -/
structure Alike (r : α → β → Prop) (d : Demand α) (e : Demand β) : Prop where
  admits : ∀ n, d.Admits n ↔ e.Admits n
  accepts : ∀ x y, r x y → d.accepts x = e.accepts y

/-- What holds of all that is related to items of a list holds of a list of related items. -/
theorem forall_right {r : α → β → Prop} {P : β → Prop} {xs : List α} {ys : List β}
    (hxs : ∀ x ∈ xs, ∀ y, r x y → P y) (h : List.Forall₂ r xs ys) : ∀ y ∈ ys, P y := by
  induction h with
  | nil => exact nofun
  | cons hxy _ ih =>
    obtain ⟨hx, hothers⟩ := List.forall_mem_cons.mp hxs
    exact List.forall_mem_cons.mpr ⟨hx _ hxy, ih hothers⟩

/-- Related items can be shared out among demands that ask the same. -/
theorem Shares.of_alike {r : α → β → Prop} {es : List (Demand β)}
    (hdemands : List.Forall₂ (Alike r) ds es) : ∀ {xs : List α} {ys : List β},
    List.Forall₂ r xs ys → Shares ds xs → Shares es ys := by
  induction hdemands with
  | nil =>
    intro xs ys hxs h
    obtain rfl := shares_nil.mp h
    cases hxs
    exact shares_nil.mpr rfl
  | @cons d e ds es halike _ ih =>
    intro xs ys hxs h
    obtain ⟨run, rest, hperm, hrun, hrest⟩ := shares_cons.mp h
    -- the items are related in the order in which they are shared out
    obtain ⟨zs, hzs, hys⟩ := List.perm_comp_forall₂ hperm hxs
    have hrun' := List.forall₂_take run.length hzs
    have hrest' := List.forall₂_drop run.length hzs
    rw [List.take_left] at hrun'
    rw [List.drop_left] at hrest'
    refine shares_cons.mpr ⟨zs.take run.length, zs.drop run.length, ?_, ⟨?_, ?_⟩, ih hrest' hrest⟩
    · rwa [List.take_append_drop]
    · rw [← hrun'.length_eq]
      exact (halike.admits _).mp hrun.admits
    · have haccepted (x : α) (hx : x ∈ run) (y : β) (hxy : r x y) : e.accepts y = true :=
        halike.accepts x y hxy ▸ hrun.accepted x hx
      exact forall_right haccepted hrun'

/-- Items that the demands cannot tell apart can be shared out alike. -/
theorem Shares.of_map_perm {f : α → γ} (h : Shares ds xs)
    (hf : ∀ d ∈ ds, ∀ x y, f x = f y → d.accepts x = d.accepts y)
    (hxs : (xs.map f).Perm (ys.map f)) : Shares ds ys := by
  have hcomp : Relation.Comp (· = List.map f ·) List.Perm (xs.map f) ys := by
    rw [List.eq_map_comp_perm]
    exact hxs
  obtain ⟨zs, hmap, hzs⟩ := hcomp
  have hrel : List.Forall₂ (fun x z => f x = f z) xs zs := by
    rw [← List.forall₂_map_right_iff, ← List.forall₂_map_left_iff, List.forall₂_eq_eq_eq]
    exact hmap
  have halike : List.Forall₂ (Alike fun x z => f x = f z) ds ds :=
    List.forall₂_same.mpr fun d hd => ⟨fun _ => Iff.rfl, hf d hd⟩
  exact (h.of_alike halike hrel).perm hzs

/-! ### Assignments -/

variable {assign : α → Nat}

/-- Each item is assigned to one of the demands, which accepts it, and the number of items that are
assigned to a demand is one that it asks for. -/
structure Assigned (ds : List (Demand α)) (xs : List α) (assign : α → Nat) : Prop where
  accepted : ∀ x ∈ xs, ∃ d : Demand α, ds[assign x]? = some d ∧ d.accepts x = true
  admits : ∀ g (d : Demand α), ds[g]? = some d → d.Admits (xs.countP (assign · == g))

namespace Assigned

/-- The order of the items does not count. -/
theorem perm {ys : List α} (h : Assigned ds xs assign) (hperm : xs.Perm ys) :
    Assigned ds ys assign where
  accepted := fun x hx => h.accepted x (hperm.mem_iff.mpr hx)
  admits := fun g d hd => hperm.countP_eq _ ▸ h.admits g d hd

/-- One more demand takes the items that are assigned to none of the others. -/
theorem cons {run : List α} (hrun : d.Takes run) (h : Assigned ds xs assign)
    {assign' : α → Nat} (hfirst : ∀ x ∈ run, assign' x = 0)
    (hothers : ∀ x ∈ xs, assign' x = assign x + 1) : Assigned (d :: ds) (run ++ xs) assign' where
  accepted := fun x hx => by
    rcases List.mem_append.mp hx with hx | hx
    · exact ⟨d, by rw [hfirst x hx]; rfl, hrun.accepted x hx⟩
    · rw [hothers x hx]
      exact h.accepted x hx
  admits := fun g e he => by
    rw [List.countP_append]
    cases g with
    | zero =>
      cases he
      have hall : run.countP (assign' · == 0) = run.length :=
        List.countP_eq_length.mpr fun x hx => by rw [hfirst x hx]; rfl
      have hnone : xs.countP (assign' · == 0) = 0 :=
        List.countP_eq_zero.mpr fun x hx => by rw [hothers x hx]; simp
      rw [hall, hnone]
      exact hrun.admits
    | succ g =>
      have hnone : run.countP (assign' · == g + 1) = 0 :=
        List.countP_eq_zero.mpr fun x hx => by rw [hfirst x hx]; simp
      have hsame : xs.countP (assign' · == g + 1) = xs.countP (assign · == g) :=
        List.countP_congr fun x hx => by rw [hothers x hx]; simp
      rw [hnone, hsame, Nat.zero_add]
      exact h.admits g e he

/-- Without the first demand and its items the others have an assignment. -/
theorem tail (h : Assigned (d :: ds) xs assign) :
    d.Takes (xs.filter (assign · == 0)) ∧
      Assigned ds (xs.filter fun x => !(assign x == 0)) fun x => assign x - 1 := by
  refine ⟨⟨?_, fun x hx => ?_⟩, fun x hx => ?_, fun g e he => ?_⟩
  · rw [← List.countP_eq_length_filter]
    exact h.admits 0 d rfl
  · obtain ⟨hmem, hzero⟩ := List.mem_filter.mp hx
    obtain ⟨e, he, haccepts⟩ := h.accepted x hmem
    rw [beq_iff_eq.mp hzero] at he
    cases he
    exact haccepts
  · obtain ⟨hmem, hzero⟩ := List.mem_filter.mp hx
    obtain ⟨e, he, haccepts⟩ := h.accepted x hmem
    obtain ⟨g, hg⟩ : ∃ g, assign x = g + 1 := ⟨assign x - 1, by simp at hzero; omega⟩
    rw [hg] at he
    exact ⟨e, by rw [hg]; exact he, haccepts⟩
  · have hcount : (xs.filter fun x => !(assign x == 0)).countP (assign · - 1 == g) =
        xs.countP (assign · == g + 1) := by
      rw [List.countP_filter]
      refine List.countP_congr fun x _ => ?_
      simp only [Bool.and_eq_true, beq_iff_eq, Bool.not_eq_true', beq_eq_false_iff_ne]
      omega
    rw [hcount]
    exact h.admits (g + 1) e he

end Assigned

/-- **Distinct items can be shared out if and only if they can be assigned.** -/
theorem shares_iff_assigned : ∀ {ds : List (Demand α)} {xs : List α}, xs.Nodup →
    (Shares ds xs ↔ ∃ assign, Assigned ds xs assign)
  | [], xs, _ => by
    rw [shares_nil]
    constructor
    · rintro rfl
      exact ⟨fun _ => 0, nofun, fun g d hd => by cases hd⟩
    · rintro ⟨assign, h⟩
      refine List.eq_nil_iff_forall_not_mem.mpr fun x hx => ?_
      obtain ⟨d, hd, -⟩ := h.accepted x hx
      cases hd
  | d :: ds, xs, hnodup => by
    rw [shares_cons]
    constructor
    · rintro ⟨run, rest, hperm, hrun, hrest⟩
      obtain ⟨-, hnodupRest, hapart⟩ := List.nodup_append.mp (hperm.nodup_iff.mpr hnodup)
      obtain ⟨assign, h⟩ := (shares_iff_assigned hnodupRest).mp hrest
      classical
      let assign' (x : α) : Nat := if x ∈ run then 0 else assign x + 1
      have hfirst : ∀ x ∈ run, assign' x = 0 := fun x hx => if_pos hx
      have hothers : ∀ x ∈ rest, assign' x = assign x + 1 := fun x hx =>
        if_neg fun hrun => hapart x hrun x hx rfl
      exact ⟨assign', (h.cons hrun hfirst hothers).perm hperm⟩
    · rintro ⟨assign, h⟩
      obtain ⟨hrun, hrest⟩ := h.tail
      exact ⟨_, _, List.filter_append_perm _ xs, hrun,
        (shares_iff_assigned (hnodup.filter _)).mpr ⟨_, hrest⟩⟩

end Demand

/-! ### Runs -/

namespace Run

/-- What a run asks for. -/
def demand (r : Run) : Demand Nat :=
  .many r.least r.greatest r.accepts

theorem admits_iff {r : Run} {n : Nat} : r.admits n = true ↔ r.demand.Admits n := by
  rw [admits, Bool.and_eq_true, decide_eq_true_iff, Option.all_eq_true]
  simp only [decide_eq_true_iff]
  rfl

/-- The choices of a number of items are the sublists of this length. -/
theorem mem_choices {ys : List α} : ∀ {k : Nat} {xs : List α},
    ys ∈ choices k xs ↔ ys.Sublist xs ∧ ys.length = k
  | 0, xs => by
    rw [choices, List.mem_singleton]
    constructor
    · rintro rfl
      exact ⟨List.nil_sublist xs, rfl⟩
    · exact fun h => List.length_eq_zero_iff.mp h.2
  | k + 1, [] => by
    rw [choices, List.sublist_nil]
    constructor
    · exact nofun
    · rintro ⟨rfl, hlength⟩
      cases hlength
  | k + 1, x :: xs => by
    rw [choices, List.mem_append, List.mem_map, mem_choices, List.sublist_cons_iff, or_and_right,
      or_comm]
    refine or_congr_right ⟨?_, ?_⟩
    · rintro ⟨zs, hzs, rfl⟩
      obtain ⟨hsub, hlength⟩ := mem_choices.mp hzs
      exact ⟨⟨zs, rfl, hsub⟩, congrArg (· + 1) hlength⟩
    · rintro ⟨⟨zs, rfl, hsub⟩, hlength⟩
      exact ⟨zs, mem_choices.mpr ⟨hsub, Nat.succ.inj hlength⟩, rfl⟩

variable {items : List Nat}

/-- What is taken and what is left make up all items. -/
theorem taken_append_left_perm {taken : List Nat} (hnodup : items.Nodup)
    (htaken : taken.Sublist items) :
    (taken ++ items.filter fun i => !taken.contains i).Perm items := by
  have hsame : taken.Perm (items.filter taken.contains) := by
    refine (List.perm_ext_iff_of_nodup (hnodup.sublist htaken) (hnodup.filter _)).mpr fun i => ?_
    rw [List.mem_filter, List.contains_iff_mem]
    exact ⟨fun hi => ⟨htaken.subset hi, hi⟩, fun hi => hi.2⟩
  exact (hsame.append_right _).trans (List.filter_append_perm _ items)

/-- **Filling runs in turn finds a sharing if there is one.** -/
theorem fillAll_iff_shares : ∀ {rs : List Run} {items : List Nat}, items.Nodup →
    (fillAll rs items = true ↔ Demand.Shares (rs.map demand) items)
  | [], items, _ => by
    rw [fillAll, List.isEmpty_iff, List.map_nil, Demand.shares_nil]
  | r :: rs, items, hnodup => by
    have hrest (taken : List Nat) :
        fillAll rs (items.filter fun i => !taken.contains i) = true ↔
          Demand.Shares (rs.map demand) (items.filter fun i => !taken.contains i) :=
      fillAll_iff_shares (hnodup.filter _)
    have heligible : (items.filter r.accepts).Sublist items := List.filter_sublist
    rw [fillAll, List.map_cons, Demand.shares_cons]
    simp only [Bool.and_eq_true, decide_eq_true_iff, List.any_eq_true, mem_countsFrom, mem_choices,
      hrest]
    constructor
    · rintro ⟨-, count, ⟨hleast, hmost⟩, taken, ⟨htaken, rfl⟩, hshares⟩
      refine ⟨taken, _, taken_append_left_perm hnodup (htaken.trans heligible), ⟨⟨hleast, ?_⟩, ?_⟩,
        hshares⟩
      · intro most hr
        change r.greatest = some most at hr
        rw [hr, Option.getD_some] at hmost
        omega
      · exact fun i hi => (List.mem_filter.mp (htaken.subset hi)).2
    · rintro ⟨run, rest, hperm, ⟨⟨hleast, hmost⟩, haccepted⟩, hshares⟩
      have hrun : run.Nodup := (List.nodup_append.mp (hperm.nodup_iff.mpr hnodup)).1
      -- the run of the sharing, in the order of the items
      let taken := (items.filter r.accepts).filter run.contains
      have hsub : taken.Sublist (items.filter r.accepts) := List.filter_sublist
      have hsame : taken.Perm run := by
        refine (List.perm_ext_iff_of_nodup ((hnodup.filter _).filter _) hrun).mpr fun i => ?_
        rw [List.mem_filter, List.mem_filter, List.contains_iff_mem]
        refine ⟨fun hi => hi.2, fun hi => ⟨⟨?_, haccepted i hi⟩, hi⟩⟩
        exact hperm.mem_iff.mp (List.mem_append_left rest hi)
      have hlength := hsame.length_eq
      have hcount := hsub.length_le
      refine ⟨by change r.least ≤ _ at hleast; omega, run.length, ⟨hleast, ?_⟩, taken,
        ⟨hsub, hlength⟩, ?_⟩
      · have hall := heligible.length_le
        have hbound : run.length ≤ r.greatest.getD items.length := by
          cases hr : r.greatest with
          | none => rw [Option.getD_none]; omega
          | some most => exact hmost most hr
        omega
      · refine hshares.perm ?_
        refine (List.perm_append_left_iff run).mp (hperm.trans ?_)
        exact (taken_append_left_perm hnodup (hsub.trans heligible)).symm.trans
          (hsame.append_right _)

/-- **Items are distributed over runs if and only if they can be shared out.**  The short ways for
no run and for a single one answer what filling all runs does. -/
theorem distributes_iff_shares {rs : List Run} (hnodup : items.Nodup) :
    distributes rs items = true ↔ Demand.Shares (rs.map demand) items := by
  match rs with
  | [] => rw [distributes, List.isEmpty_iff, List.map_nil, Demand.shares_nil]
  | [r] =>
    rw [distributes, List.map_singleton, Demand.shares_singleton, Bool.and_eq_true,
      List.all_eq_true, admits_iff]
    exact ⟨fun h => ⟨h.2, h.1⟩, fun h => ⟨h.accepted, h.admits⟩⟩
  | _ :: _ :: _ => exact fillAll_iff_shares hnodup

/-- **Items are distributed over runs if and only if each can be assigned to one of them that accepts
it, so that their numbers are within the bounds.**  With no run and with a single one the answer is
that of filling all runs. -/
theorem distributes_iff_assigned (runs : List Run) {items : List Nat} (hnodup : items.Nodup) :
    (distributes runs items = true ↔ ∃ assign : Nat → Nat,
        (∀ i ∈ items, ∃ r, runs[assign i]? = some r ∧ r.accepts i = true) ∧
        ∀ g r, runs[g]? = some r → r.least ≤ items.countP (assign · == g) ∧
          ∀ most, r.greatest = some most → items.countP (assign · == g) ≤ most) ∧
      distributes runs items = fillAll runs items := by
  have hshares : distributes runs items = true ↔ Demand.Shares (runs.map demand) items :=
    distributes_iff_shares hnodup
  refine ⟨?_, Bool.eq_iff_iff.mpr (hshares.trans (fillAll_iff_shares hnodup).symm)⟩
  rw [hshares, Demand.shares_iff_assigned hnodup]
  have hget (g : Nat) (d : Demand Nat) :
      (runs.map demand)[g]? = some d ↔ ∃ r, runs[g]? = some r ∧ r.demand = d := by
    rw [List.getElem?_map, Option.map_eq_some_iff]
  refine exists_congr fun assign => ⟨fun h => ⟨fun i hi => ?_, fun g r hr => ?_⟩, fun h =>
    ⟨fun i hi => ?_, fun g d hd => ?_⟩⟩
  · obtain ⟨d, hd, haccepts⟩ := h.accepted i hi
    obtain ⟨r, hr, rfl⟩ := (hget _ _).mp hd
    exact ⟨r, hr, haccepts⟩
  · exact h.admits g r.demand ((hget _ _).mpr ⟨r, hr, rfl⟩)
  · obtain ⟨r, hr, haccepts⟩ := h.1 i hi
    exact ⟨r.demand, (hget _ _).mpr ⟨r, hr, rfl⟩, haccepts⟩
  · obtain ⟨r, hr, rfl⟩ := (hget _ _).mp hd
    exact h.2 g r hr

/-- Two runs compete for three items: the first item has to go to the second run, although the first
run accepts it too. -/
theorem distributes_iff_assigned_competing :
    let runs : List Run := [⟨1, some 2, fun _ => true⟩, ⟨1, some 1, fun i => i == 4⟩]
    [4, 7, 9].Nodup ∧ distributes runs [4, 7, 9] = true ∧
      ∃ assign : Nat → Nat, (∀ i ∈ [4, 7, 9], ∃ r, runs[assign i]? = some r ∧ r.accepts i = true) ∧
        ∀ g r, runs[g]? = some r → r.least ≤ [4, 7, 9].countP (assign · == g) ∧
          ∀ most, r.greatest = some most → [4, 7, 9].countP (assign · == g) ≤ most := by
  intro runs
  have hnodup : [4, 7, 9].Nodup := by decide
  have hdistributes : distributes runs [4, 7, 9] = true := by decide
  exact ⟨hnodup, hdistributes, (distributes_iff_assigned runs hnodup).1.mp hdistributes⟩

end Run

end DottedPath
