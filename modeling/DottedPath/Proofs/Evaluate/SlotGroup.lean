import DottedPath.Path.Expression
import DottedPath.Proofs.Value.Collections

/-!
# Groups of slots

A group joins single slots, indexes and wildcards, with alternatives and conjunctions of any
nesting.  What reading and removing such a group do to a sequence depends on its length and its
elements only: `SlotGroup.located` are the indexes that reading reports, `SlotGroup.removed` are the
elements that a removal leaves.  Branches are removed one after the other, each from what the ones
before it have left.

## Main statements

- `SlotGroup.removed_sublist`: the elements that are left keep their order.
- `SlotGroup.length_le_removed`: no more elements go than indexes are reported.
- `SlotGroup.removed_of_descending`: if the group counts from the start and names positions from the
  last to the first, what goes are the elements at the reported positions.
-/

namespace DottedPath

mutual

/-- A group that joins single slots. -/
inductive SlotGroup where
  | index (i : Int)
  | every
  | any (branches : SlotBranches)
  | all (terms : SlotBranches)

/-- The branches of a group of slots. -/
inductive SlotBranches where
  | nil
  | cons (group : SlotGroup) (rest : SlotBranches)

end

mutual

def SlotGroup.segment : SlotGroup → Segment
  | .index i => .literal .slot (.int i)
  | .every => .access .slot .wildcard none false
  | .any bs => .group .or bs.branches false
  | .all ts => .group .and ts.branches false

def SlotBranches.branches : SlotBranches → List Branch
  | .nil => []
  | .cons g rest => .mk [g.segment] .none :: rest.branches

end

/-- The groups of some branches. -/
def SlotBranches.groups : SlotBranches → List SlotGroup
  | .nil => []
  | .cons g rest => g :: rest.groups

mutual

/-- What passes from the groups of its branches to a group holds of every group. -/
theorem SlotGroup.induction {P : SlotGroup → Prop} (index : ∀ i, P (.index i)) (every : P .every)
    (any : ∀ bs, (∀ g ∈ bs.groups, P g) → P (.any bs))
    (all : ∀ ts, (∀ g ∈ ts.groups, P g) → P (.all ts)) : ∀ g, P g
  | .index i => index i
  | .every => every
  | .any bs => any bs (SlotBranches.induction index every any all bs)
  | .all ts => all ts (SlotBranches.induction index every any all ts)

theorem SlotBranches.induction {P : SlotGroup → Prop} (index : ∀ i, P (.index i))
    (every : P .every) (any : ∀ bs, (∀ g ∈ bs.groups, P g) → P (.any bs))
    (all : ∀ ts, (∀ g ∈ ts.groups, P g) → P (.all ts)) :
    ∀ bs : SlotBranches, ∀ g ∈ bs.groups, P g
  | .nil => fun _ hg => absurd hg List.not_mem_nil
  | .cons g rest => List.forall_mem_cons.mpr
      ⟨SlotGroup.induction index every any all g, SlotBranches.induction index every any all rest⟩

end

mutual

/-- The indexes that reading reports in a sequence of some length. -/
def SlotGroup.located (length : Nat) : SlotGroup → List Int
  | .index i => if (resolveIndex? length i).isSome then [i] else []
  | .every => (List.range length).map Int.ofNat
  | .any bs => bs.located length
  | .all ts => if ts.blocked length then [] else ts.located length

/-- The indexes that are reported along all branches. -/
def SlotBranches.located (length : Nat) : SlotBranches → List Int
  | .nil => []
  | .cons g rest => g.located length ++ rest.located length

/-- One of the branches finds nothing. -/
def SlotBranches.blocked (length : Nat) : SlotBranches → Bool
  | .nil => false
  | .cons g rest => (g.located length).isEmpty || rest.blocked length

end

mutual

/-- The elements that a removal leaves. -/
def SlotGroup.removed {α : Type} : SlotGroup → List α → List α
  | .index i, xs => ((resolveIndex? xs.length i).map xs.eraseIdx).getD xs
  | .every, _ => []
  | .any bs, xs => bs.removed xs
  | .all ts, xs => if ts.blocked xs.length then xs else ts.removed xs

/-- The elements that removals along all branches leave, one after the other. -/
def SlotBranches.removed {α : Type} : SlotBranches → List α → List α
  | .nil, xs => xs
  | .cons g rest, xs => rest.removed (g.removed xs)

end

variable {α : Type}

/-! ### Order and number -/

mutual

/-- What a removal leaves keeps its order. -/
theorem SlotGroup.removed_sublist : ∀ (g : SlotGroup) (xs : List α), (g.removed xs).Sublist xs
  | .index i, xs => by
    rw [SlotGroup.removed]
    cases resolveIndex? xs.length i with
    | none => exact List.Sublist.refl xs
    | some p => exact List.eraseIdx_sublist xs p
  | .every, xs => List.nil_sublist xs
  | .any bs, xs => SlotBranches.removed_sublist bs xs
  | .all ts, xs => by
    rw [SlotGroup.removed]
    split
    · exact List.Sublist.refl xs
    · exact SlotBranches.removed_sublist ts xs

theorem SlotBranches.removed_sublist : ∀ (bs : SlotBranches) (xs : List α),
    (bs.removed xs).Sublist xs
  | .nil, xs => List.Sublist.refl xs
  | .cons g rest, xs =>
    (SlotBranches.removed_sublist rest (g.removed xs)).trans (SlotGroup.removed_sublist g xs)

end

mutual

/-- In a longer sequence no fewer indexes are reported. -/
theorem SlotGroup.length_located_mono {m n : Nat} (hmn : m ≤ n) : ∀ g : SlotGroup,
    (g.located m).length ≤ (g.located n).length
  | .index i => by
    rw [SlotGroup.located, SlotGroup.located]
    by_cases h : (resolveIndex? m i).isSome
    · have hn : (resolveIndex? n i).isSome := by
        rw [isSome_resolveIndex?] at h ⊢
        omega
      simp only [if_pos h, if_pos hn, Nat.le_refl]
    · rw [if_neg h]
      exact Nat.zero_le _
  | .every => by simpa [SlotGroup.located] using hmn
  | .any bs => SlotBranches.length_located_mono hmn bs
  | .all ts => by
    rw [SlotGroup.located, SlotGroup.located]
    by_cases h : ts.blocked m
    · rw [if_pos h]
      exact Nat.zero_le _
    · have hn : ¬ ts.blocked n := fun hb => h (SlotBranches.blocked_mono hmn ts hb)
      rw [if_neg h, if_neg hn]
      exact SlotBranches.length_located_mono hmn ts

theorem SlotBranches.length_located_mono {m n : Nat} (hmn : m ≤ n) : ∀ bs : SlotBranches,
    (bs.located m).length ≤ (bs.located n).length
  | .nil => Nat.le_refl 0
  | .cons g rest => by
    have hhead := SlotGroup.length_located_mono hmn g
    have hrest := SlotBranches.length_located_mono hmn rest
    rw [SlotBranches.located, SlotBranches.located, List.length_append, List.length_append]
    omega

/-- A branch that finds nothing finds nothing in a shorter sequence. -/
theorem SlotBranches.blocked_mono {m n : Nat} (hmn : m ≤ n) : ∀ bs : SlotBranches,
    bs.blocked n = true → bs.blocked m = true
  | .nil => fun h => h
  | .cons g rest => by
    intro h
    rw [SlotBranches.blocked, Bool.or_eq_true] at h ⊢
    rcases h with h | h
    · have hhead := SlotGroup.length_located_mono hmn g
      rw [List.isEmpty_iff_length_eq_zero] at h ⊢
      exact .inl (by omega)
    · exact .inr (SlotBranches.blocked_mono hmn rest h)

end

mutual

/-- **No more elements go than indexes are reported.** -/
theorem SlotGroup.length_le_removed : ∀ (g : SlotGroup) (xs : List α),
    xs.length ≤ (g.removed xs).length + (g.located xs.length).length
  | .index i, xs => by
    rw [SlotGroup.removed, SlotGroup.located]
    cases h : resolveIndex? xs.length i with
    | none => simp
    | some p =>
      have hlt := resolveIndex?_lt h
      have herase := List.length_eraseIdx_add_one hlt
      simp only [Option.map_some, Option.getD_some, Option.isSome_some, if_true,
        List.length_singleton]
      omega
  | .every, xs => by simp [SlotGroup.removed, SlotGroup.located]
  | .any bs, xs => SlotBranches.length_le_removed bs xs
  | .all ts, xs => by
    rw [SlotGroup.removed, SlotGroup.located]
    split
    · exact Nat.le_refl _
    · exact SlotBranches.length_le_removed ts xs

theorem SlotBranches.length_le_removed : ∀ (bs : SlotBranches) (xs : List α),
    xs.length ≤ (bs.removed xs).length + (bs.located xs.length).length
  | .nil, xs => Nat.le_refl _
  | .cons g rest, xs => by
    have hhead := SlotGroup.length_le_removed g xs
    have hrest := SlotBranches.length_le_removed rest (g.removed xs)
    -- the rest is matched in the shortened sequence, where it finds no more
    have hmono := SlotBranches.length_located_mono (g.removed_sublist xs).length_le rest
    rw [SlotBranches.removed, SlotBranches.located, List.length_append]
    omega

end

/-- Where nothing is reported nothing goes. -/
theorem SlotGroup.removed_of_located_nil {g : SlotGroup} {xs : List α}
    (h : g.located xs.length = []) : g.removed xs = xs := by
  have hlength := g.length_le_removed xs
  rw [h, List.length_nil, Nat.add_zero] at hlength
  exact (g.removed_sublist xs).eq_of_length_le hlength

/-! ### Removal from the last position to the first -/

/-- A group of indexes that count from the start of a sequence. -/
inductive SlotGroup.FromStart : SlotGroup → Prop
  | index (i : Nat) : FromStart (.index i)
  | any {bs : SlotBranches} (h : ∀ g ∈ bs.groups, FromStart g) : FromStart (.any bs)
  | all {ts : SlotBranches} (h : ∀ g ∈ ts.groups, FromStart g) : FromStart (.all ts)

theorem SlotBranches.mem_located {i : Int} {n : Nat} : ∀ {bs : SlotBranches},
    i ∈ bs.located n ↔ ∃ g ∈ bs.groups, i ∈ g.located n
  | .nil => by simp [located, groups]
  | .cons g rest => by
    rw [located, List.mem_append, mem_located, groups, List.exists_mem_cons_iff]

/-- What counts from the start reports positions. -/
theorem SlotGroup.FromStart.located_bounds {g : SlotGroup} (h : g.FromStart) {n : Nat} :
    ∀ i ∈ g.located n, 0 ≤ i ∧ i < n := by
  induction h with
  | index i =>
    intro j hj
    rw [located] at hj
    split at hj
    · rename_i hin
      obtain rfl := List.mem_singleton.mp hj
      rw [isSome_resolveIndex?] at hin
      omega
    · cases hj
  | any _ ih =>
    intro i hi
    obtain ⟨g, hg, hmem⟩ := SlotBranches.mem_located.mp hi
    exact ih g hg i hmem
  | all _ ih =>
    intro i hi
    rw [located] at hi
    split at hi
    · cases hi
    · obtain ⟨g, hg, hmem⟩ := SlotBranches.mem_located.mp hi
      exact ih g hg i hmem

theorem SlotBranches.located_of_forall {m n : Nat} : ∀ {bs : SlotBranches},
    (∀ g ∈ bs.groups, g.located m = g.located n) →
    bs.located m = bs.located n ∧ bs.blocked m = bs.blocked n
  | .nil, _ => ⟨rfl, rfl⟩
  | .cons g rest, h => by
    obtain ⟨hhead, hrest⟩ := List.forall_mem_cons.mp h
    obtain ⟨hlocated, hblocked⟩ := located_of_forall hrest
    rw [located, located, blocked, blocked, hhead, hlocated, hblocked]
    exact ⟨rfl, rfl⟩

/-- A sequence may be shortened down to the reported positions. -/
theorem SlotGroup.FromStart.located_of_shorter {g : SlotGroup} (h : g.FromStart) {m n : Nat}
    (hmn : m ≤ n) : (∀ i ∈ g.located n, i < m) → g.located m = g.located n := by
  induction h with
  | index i =>
    intro hlt
    rw [located] at hlt
    rw [located, located]
    by_cases hn : (resolveIndex? n (i : Int)).isSome
    · rw [if_pos hn] at hlt
      have hi := hlt i (List.mem_singleton.mpr rfl)
      have hm : (resolveIndex? m (i : Int)).isSome := by
        rw [isSome_resolveIndex?]
        omega
      rw [if_pos hm, if_pos hn]
    · have hm : ¬ (resolveIndex? m (i : Int)).isSome := by
        rw [isSome_resolveIndex?] at hn ⊢
        omega
      rw [if_neg hm, if_neg hn]
  | any _ ih =>
    intro hlt
    refine (SlotBranches.located_of_forall fun g hg => ih g hg fun i hi => ?_).1
    exact hlt i (SlotBranches.mem_located.mpr ⟨g, hg, hi⟩)
  | @all ts _ ih =>
    intro hlt
    rw [located] at hlt
    rw [located, located]
    -- a term that finds nothing finds nothing in a shorter sequence
    by_cases hn : ts.blocked n
    · rw [if_pos hn, if_pos (ts.blocked_mono hmn hn)]
    · rw [if_neg hn] at hlt
      obtain ⟨hlocated, hblocked⟩ := SlotBranches.located_of_forall fun g hg =>
        ih g hg fun i hi => hlt i (SlotBranches.mem_located.mpr ⟨g, hg, hi⟩)
      rw [hblocked, if_neg hn, if_neg hn, hlocated]

theorem SlotBranches.removed_eq_foldl : ∀ {bs : SlotBranches} {xs : List α},
    (∀ g ∈ bs.groups, g.FromStart) → (bs.located xs.length).Pairwise (· > ·) →
    (∀ g ∈ bs.groups, ∀ {ys : List α}, (g.located ys.length).Pairwise (· > ·) →
      g.removed ys = (g.located ys.length).foldl (fun zs i => zs.eraseIdx i.toNat) ys) →
    bs.removed xs = (bs.located xs.length).foldl (fun ys i => ys.eraseIdx i.toNat) xs
  | .nil, _, _, _, _ => rfl
  | .cons g rest, xs, hstart, hdesc, hremoved => by
    obtain ⟨hg, hrest⟩ := List.forall_mem_cons.mp hstart
    obtain ⟨hghead, hgrest⟩ := List.forall_mem_cons.mp hremoved
    rw [located, List.pairwise_append] at hdesc
    obtain ⟨hdg, hdrest, hcross⟩ := hdesc
    -- the rest is matched in the sequence that this branch leaves, at positions before its own
    have hshort : (g.removed xs).length ≤ xs.length := (g.removed_sublist xs).length_le
    have hsame : rest.located (g.removed xs).length = rest.located xs.length := by
      refine (located_of_forall fun g' hg' => (hrest g' hg').located_of_shorter hshort ?_).1
      intro i hi
      have hbound := (hrest g' hg').located_bounds i hi
      have hmem : i ∈ rest.located xs.length := mem_located.mpr ⟨g', hg', hi⟩
      have hroom : i + (g.located xs.length).length < xs.length :=
        length_le_of_descending hdg
          (fun p hp => ⟨hcross p hp i hmem, (hg.located_bounds p hp).2⟩) hbound.2
      have hlength := g.length_le_removed xs
      omega
    rw [removed, located, List.foldl_append, ← hghead hdg]
    rw [← hsame] at hdrest
    rw [removed_eq_foldl hrest hdrest hgrest, hsame]

/-- **A removal from the last position to the first takes what reading reports.**  The group counts
from the start, and the positions it reports come in descending order. -/
theorem SlotGroup.removed_of_descending {g : SlotGroup} (h : g.FromStart) {xs : List α}
    (hdesc : (g.located xs.length).Pairwise (· > ·)) :
    g.removed xs = without (g.located xs.length) xs := by
  rw [← foldl_eraseIdx_eq_without hdesc h.located_bounds]
  induction h generalizing xs with
  | index i =>
    rw [removed, located]
    cases hi : resolveIndex? xs.length (i : Int) with
    | none => rfl
    | some p =>
      have hin : (resolveIndex? xs.length (i : Int)).isSome := by rw [hi, Option.isSome_some]
      rw [isSome_resolveIndex?] at hin
      rw [resolveIndex?_natCast (by omega)] at hi
      cases hi
      rfl
  | any hstart ih => exact SlotBranches.removed_eq_foldl hstart hdesc ih
  | @all ts hstart ih =>
    rw [located] at hdesc
    rw [removed, located]
    by_cases hblocked : ts.blocked xs.length
    · rw [if_pos hblocked, if_pos hblocked]
      rfl
    · rw [if_neg hblocked] at hdesc
      rw [if_neg hblocked, if_neg hblocked]
      exact SlotBranches.removed_eq_foldl hstart hdesc ih

end DottedPath
