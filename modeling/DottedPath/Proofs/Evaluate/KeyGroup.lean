import DottedPath.Proofs.Evaluate.Items
import DottedPath.Proofs.Path.PathText

/-!
# Groups of text keys

A group joins single text keys with alternatives and conjunctions of any nesting, with cuts and
first-match marks.  Reading and writing such a group are two recursions of their own; here they are
functions of the keys that a dict has: `KeyGroup.found` for what reading finds, `KeyGroup.written`
for what a write replaces where reading finds something.

## Main statements

- `KeyGroup.found_subset`: what is found are keys that are there.
- `KeyGroup.found_subset_written`: everything that is found is written.
- `KeyGroup.Steady.written_subset_found`: in a steady group nothing else is.
-/

namespace DottedPath

/-! ### Groups -/

mutual

/-- A group that joins single text keys: alternatives, or terms that must all match. -/
inductive KeyGroup where
  | key (name : String)
  | any (branches : KeyBranches) (first : Bool)
  | all (terms : KeyBranches) (first : Bool)

/-- The branches of a group of text keys. -/
inductive KeyBranches where
  | nil
  | cons (group : KeyGroup) (cut : Cut) (rest : KeyBranches)

end

mutual

def KeyGroup.segment : KeyGroup → Segment
  | .key name => keySegment name
  | .any bs first => .group .or bs.branches first
  | .all ts first => .group .and ts.branches first

def KeyBranches.branches : KeyBranches → List Branch
  | .nil => []
  | .cons g cut rest => .mk [g.segment] cut :: rest.branches

end

/-- The groups of some branches. -/
def KeyBranches.groups : KeyBranches → List KeyGroup
  | .nil => []
  | .cons g _ rest => g :: rest.groups

mutual

/-- What passes from the groups of its branches to a group holds of every group. -/
theorem KeyGroup.induction {P : KeyGroup → Prop} (key : ∀ name, P (.key name))
    (any : ∀ bs first, (∀ g ∈ bs.groups, P g) → P (.any bs first))
    (all : ∀ ts first, (∀ g ∈ ts.groups, P g) → P (.all ts first)) : ∀ g, P g
  | .key name => key name
  | .any bs first => any bs first (KeyBranches.induction key any all bs)
  | .all ts first => all ts first (KeyBranches.induction key any all ts)

theorem KeyBranches.induction {P : KeyGroup → Prop} (key : ∀ name, P (.key name))
    (any : ∀ bs first, (∀ g ∈ bs.groups, P g) → P (.any bs first))
    (all : ∀ ts first, (∀ g ∈ ts.groups, P g) → P (.all ts first)) :
    ∀ bs : KeyBranches, ∀ g ∈ bs.groups, P g
  | .nil => fun _ hg => absurd hg List.not_mem_nil
  | .cons g _ rest => List.forall_mem_cons.mpr
      ⟨KeyGroup.induction key any all g, KeyBranches.induction key any all rest⟩

end

/-- The names that reading finds, and whether a hard cut ended it. -/
structure NamesFound where
  names : List String
  halted : Bool

/-- The names that are not hidden. -/
def outside (hidden names : List String) : List String :=
  names.filter fun n => !hidden.contains n

/-- What is hidden from the branches after one that has found some names. -/
def Cut.hides (cut : Cut) (hidden found : List String) : List String :=
  if cut == .soft then hidden ++ found else hidden

mutual

/-- What reading a group finds among some keys. -/
def KeyGroup.found (keys : List String) : KeyGroup → NamesFound
  | .key name => ⟨if name ∈ keys then [name] else [], false⟩
  | .any bs first => bs.foundAny keys first []
  | .all ts first =>
    ((ts.foundAll keys).map fun f => ⟨firstOnly first f.names, f.halted⟩).getD ⟨[], false⟩

/-- What reading alternatives finds outside of the names that soft cuts hide. -/
def KeyBranches.foundAny (keys : List String) (first : Bool) :
    KeyBranches → (hidden : List String) → NamesFound
  | .nil, _ => ⟨[], false⟩
  | .cons g cut rest, hidden =>
    let found := outside hidden (g.found keys).names
    if found.isEmpty then rest.foundAny keys first hidden
    else if first then ⟨found.take 1, false⟩
    else if cut == .hard then ⟨found, true⟩
    else
      let more := rest.foundAny keys first (cut.hides hidden found)
      ⟨found ++ more.names, more.halted⟩

/-- What reading terms finds if each of them finds something. -/
def KeyBranches.foundAll (keys : List String) : KeyBranches → Option NamesFound
  | .nil => some ⟨[], false⟩
  | .cons g _ rest =>
    let found := g.found keys
    if found.names.isEmpty then none
    else
      (rest.foundAll keys).map fun more =>
        if found.halted then found else ⟨found.names ++ more.names, more.halted⟩

end

mutual

/-- What writing a group replaces among some keys, if reading it finds something there. -/
def KeyGroup.written (keys : List String) : KeyGroup → List String
  | .key name => [name]
  | .any bs first => if first then bs.writtenFirst keys else bs.writtenAny keys []
  | .all ts _ => ts.writtenAll keys

/-- What is replaced along the first branch that finds something. -/
def KeyBranches.writtenFirst (keys : List String) : KeyBranches → List String
  | .nil => []
  | .cons g _ rest =>
    if (g.found keys).names.isEmpty then rest.writtenFirst keys else g.written keys

/-- What is replaced along the branches that find something outside of hidden names. -/
def KeyBranches.writtenAny (keys : List String) :
    KeyBranches → (hidden : List String) → List String
  | .nil, _ => []
  | .cons g cut rest, hidden =>
    let found := outside hidden (g.found keys).names
    if found.isEmpty then rest.writtenAny keys hidden
    else
      (if hidden.isEmpty then g.written keys else found) ++
        if cut == .hard then [] else rest.writtenAny keys (cut.hides hidden found)

/-- What is replaced along all terms. -/
def KeyBranches.writtenAll (keys : List String) : KeyBranches → List String
  | .nil => []
  | .cons g _ rest => g.written keys ++ rest.writtenAll keys

end

/-! ### What is found -/

section Found

variable {keys : List String}

theorem outside_subset (hidden names : List String) : outside hidden names ⊆ names :=
  List.filter_sublist.subset

theorem outside_nil (names : List String) : outside [] names = names := by
  simp [outside]

theorem KeyBranches.foundAny_subset (first : Bool) : ∀ (bs : KeyBranches) (hidden : List String),
    (∀ g ∈ bs.groups, (g.found keys).names ⊆ keys) → (bs.foundAny keys first hidden).names ⊆ keys
  | .nil, _, _ => List.nil_subset _
  | .cons g cut rest, hidden, hg => by
    obtain ⟨hhead, hrest⟩ := List.forall_mem_cons.mp hg
    have hfound := List.Subset.trans (outside_subset hidden _) hhead
    rw [foundAny]
    dsimp only
    split
    · exact foundAny_subset first rest hidden hrest
    split
    · exact List.Subset.trans (List.take_subset _ _) hfound
    split
    · exact hfound
    · exact List.append_subset.mpr ⟨hfound, foundAny_subset first rest _ hrest⟩

theorem KeyBranches.foundAll_subset : ∀ {ts : KeyBranches} {f : NamesFound},
    (∀ g ∈ ts.groups, (g.found keys).names ⊆ keys) → ts.foundAll keys = some f → f.names ⊆ keys
  | .nil, _, _, hf => by
    cases hf
    exact List.nil_subset _
  | .cons g _ rest, f, hg, hf => by
    obtain ⟨hhead, hrest⟩ := List.forall_mem_cons.mp hg
    rw [foundAll] at hf
    split at hf
    · cases hf
    · obtain ⟨more, hmore, rfl⟩ := Option.map_eq_some_iff.mp hf
      split
      · exact hhead
      · exact List.append_subset.mpr ⟨hhead, foundAll_subset hrest hmore⟩

theorem KeyBranches.foundAny_ne_nil (first : Bool) {g : KeyGroup} {cut : Cut} {rest : KeyBranches}
    {hidden : List String} (h : outside hidden (g.found keys).names ≠ []) :
    ((KeyBranches.cons g cut rest).foundAny keys first hidden).names ≠ [] := by
  have hempty : ¬ (outside hidden (g.found keys).names).isEmpty = true := by simpa using h
  rw [foundAny]
  dsimp only
  rw [if_neg hempty]
  split
  · simpa using h
  split
  · exact h
  · exact List.append_ne_nil_of_left_ne_nil h _

/-- What is found are keys that are there. -/
theorem KeyGroup.found_subset (g : KeyGroup) : (g.found keys).names ⊆ keys := by
  induction g using KeyGroup.induction with
  | key name =>
    rw [found]
    split
    · simpa
    · exact List.nil_subset _
  | any bs first ih => exact bs.foundAny_subset first [] ih
  | all ts first ih =>
    rw [found]
    cases hf : ts.foundAll keys with
    | none => exact List.nil_subset _
    | some f =>
      exact List.Subset.trans (firstOnly_sublist first _).subset (KeyBranches.foundAll_subset ih hf)

/-- A conjunction finds something only if each of its terms does. -/
theorem KeyBranches.found_of_foundAll : ∀ {ts : KeyBranches} {f : NamesFound},
    ts.foundAll keys = some f → ∀ g ∈ ts.groups, (g.found keys).names ≠ []
  | .nil, _, _ => fun _ hg => absurd hg List.not_mem_nil
  | .cons g _ rest, f, hf => by
    rw [foundAll] at hf
    split at hf
    · cases hf
    · rename_i hhead
      obtain ⟨more, hmore, -⟩ := Option.map_eq_some_iff.mp hf
      exact List.forall_mem_cons.mpr ⟨by simpa using hhead, found_of_foundAll hmore⟩

theorem KeyGroup.exists_foundAll {ts : KeyBranches} {first : Bool}
    (h : ((KeyGroup.all ts first).found keys).names ≠ []) : ∃ f, ts.foundAll keys = some f := by
  rw [found] at h
  cases hf : ts.foundAll keys with
  | none =>
    rw [hf] at h
    exact absurd rfl h
  | some f => exact ⟨f, rfl⟩

end Found

mutual

/-- A group of text keys has no part that is not written. -/
theorem KeyGroup.hasNop_segment : ∀ g : KeyGroup, g.segment.hasNop = false
  | .key _ => rfl
  | .any bs _ => KeyBranches.branchesHaveNop_branches bs
  | .all ts _ => KeyBranches.branchesHaveNop_branches ts

theorem KeyBranches.branchesHaveNop_branches : ∀ bs : KeyBranches,
    Segment.branchesHaveNop bs.branches = false
  | .nil => rfl
  | .cons g _ rest => by
    rw [KeyBranches.branches, Segment.branchesHaveNop, Segment.segmentsHaveNop,
      Segment.segmentsHaveNop, KeyGroup.hasNop_segment g,
      KeyBranches.branchesHaveNop_branches rest]
    rfl

end

/-! ### What is written, compared with what is found -/

section Compared

variable {keys : List String}

/-- Everything that reading finds is written. -/
theorem KeyBranches.foundFirst_subset_written : ∀ bs : KeyBranches,
    (∀ g ∈ bs.groups, (g.found keys).names ⊆ g.written keys) →
    (bs.foundAny keys true []).names ⊆ bs.writtenFirst keys
  | .nil, _ => List.nil_subset _
  | .cons g cut rest, hg => by
    obtain ⟨hhead, hrest⟩ := List.forall_mem_cons.mp hg
    rw [foundAny, writtenFirst, outside_nil]
    dsimp only
    split
    · exact foundFirst_subset_written rest hrest
    · exact List.Subset.trans (List.take_subset _ _) hhead

theorem KeyBranches.foundAny_subset_written : ∀ (bs : KeyBranches) (hidden : List String),
    (∀ g ∈ bs.groups, (g.found keys).names ⊆ g.written keys) →
    (bs.foundAny keys false hidden).names ⊆ bs.writtenAny keys hidden
  | .nil, _, _ => List.nil_subset _
  | .cons g cut rest, hidden, hg => by
    obtain ⟨hhead, hrest⟩ := List.forall_mem_cons.mp hg
    rw [foundAny, writtenAny]
    dsimp only
    split
    · exact foundAny_subset_written rest hidden hrest
    have hbranch : outside hidden (g.found keys).names ⊆
        if hidden.isEmpty then g.written keys else outside hidden (g.found keys).names := by
      split
      · exact List.Subset.trans (outside_subset hidden _) hhead
      · exact List.Subset.refl _
    rw [if_neg Bool.false_ne_true]
    split
    · rw [List.append_nil]
      exact hbranch
    · have hmore := foundAny_subset_written rest
        (cut.hides hidden (outside hidden (g.found keys).names)) hrest
      exact List.append_subset.mpr ⟨List.Subset.trans hbranch (List.subset_append_left _ _),
        List.Subset.trans hmore (List.subset_append_right _ _)⟩

theorem KeyBranches.foundAll_subset_written : ∀ {ts : KeyBranches} {f : NamesFound},
    (∀ g ∈ ts.groups, (g.found keys).names ⊆ g.written keys) → ts.foundAll keys = some f →
    f.names ⊆ ts.writtenAll keys
  | .nil, _, _, hf => by
    cases hf
    exact List.nil_subset _
  | .cons g _ rest, f, hg, hf => by
    obtain ⟨hhead, hrest⟩ := List.forall_mem_cons.mp hg
    rw [foundAll] at hf
    split at hf
    · cases hf
    · obtain ⟨more, hmore, rfl⟩ := Option.map_eq_some_iff.mp hf
      have hterm := List.Subset.trans hhead (List.subset_append_left _ (rest.writtenAll keys))
      rw [writtenAll]
      split
      · exact hterm
      · exact List.append_subset.mpr ⟨hterm, List.Subset.trans
          (foundAll_subset_written hrest hmore) (List.subset_append_right _ _)⟩

theorem KeyGroup.found_subset_written (g : KeyGroup) :
    (g.found keys).names ⊆ g.written keys := by
  induction g using KeyGroup.induction with
  | key name =>
    rw [found, written]
    split
    · exact List.Subset.refl _
    · exact List.nil_subset _
  | any bs first ih =>
    rw [found, written]
    cases first with
    | true => exact bs.foundFirst_subset_written ih
    | false => exact bs.foundAny_subset_written [] ih
  | all ts first ih =>
    rw [found, written]
    cases hf : ts.foundAll keys with
    | none => exact List.nil_subset _
    | some f =>
      exact List.Subset.trans (firstOnly_sublist first _).subset
        (KeyBranches.foundAll_subset_written ih hf)

mutual

/-- The names in a group. -/
def KeyGroup.names : KeyGroup → List String
  | .key name => [name]
  | .any bs _ => bs.names
  | .all ts _ => ts.names

def KeyBranches.names : KeyBranches → List String
  | .nil => []
  | .cons g _ rest => g.names ++ rest.names

end

theorem KeyBranches.writtenFirst_subset_names : ∀ bs : KeyBranches,
    (∀ g ∈ bs.groups, g.written keys ⊆ g.names) → bs.writtenFirst keys ⊆ bs.names
  | .nil, _ => List.nil_subset _
  | .cons g _ rest, hg => by
    obtain ⟨hhead, hrest⟩ := List.forall_mem_cons.mp hg
    rw [writtenFirst, names]
    split
    · exact List.Subset.trans (writtenFirst_subset_names rest hrest) (List.subset_append_right _ _)
    · exact List.Subset.trans hhead (List.subset_append_left _ _)

theorem KeyBranches.writtenAny_subset_names : ∀ (bs : KeyBranches) (hidden : List String),
    (∀ g ∈ bs.groups, g.written keys ⊆ g.names) → bs.writtenAny keys hidden ⊆ bs.names
  | .nil, _, _ => List.nil_subset _
  | .cons g cut rest, hidden, hg => by
    obtain ⟨hhead, hrest⟩ := List.forall_mem_cons.mp hg
    have hmore : ∀ hidden', rest.writtenAny keys hidden' ⊆ g.names ++ rest.names := fun hidden' =>
      List.Subset.trans (writtenAny_subset_names rest hidden' hrest) (List.subset_append_right _ _)
    have hbranch := List.Subset.trans hhead (List.subset_append_left g.names rest.names)
    rw [writtenAny, names]
    split
    · exact hmore hidden
    refine List.append_subset.mpr ⟨?_, ?_⟩
    · split
      · exact hbranch
      · exact List.Subset.trans (outside_subset hidden _)
          (List.Subset.trans g.found_subset_written hbranch)
    · split
      · exact List.nil_subset _
      · exact hmore _

theorem KeyBranches.writtenAll_subset_names : ∀ ts : KeyBranches,
    (∀ g ∈ ts.groups, g.written keys ⊆ g.names) → ts.writtenAll keys ⊆ ts.names
  | .nil, _ => List.nil_subset _
  | .cons g _ rest, hg => by
    obtain ⟨hhead, hrest⟩ := List.forall_mem_cons.mp hg
    exact List.append_subset.mpr
      ⟨List.Subset.trans hhead (List.subset_append_left _ _),
        List.Subset.trans (writtenAll_subset_names rest hrest) (List.subset_append_right _ _)⟩

/-- Only names of the group are written. -/
theorem KeyGroup.written_subset_names (g : KeyGroup) : g.written keys ⊆ g.names := by
  induction g using KeyGroup.induction with
  | key name => exact List.Subset.refl _
  | any bs first ih =>
    rw [written, names]
    split
    · exact bs.writtenFirst_subset_names ih
    · exact bs.writtenAny_subset_names [] ih
  | all ts first ih => exact ts.writtenAll_subset_names ih

/-! ### Groups that are written as they are read -/

/-- One of the branches has a hard cut. -/
def KeyBranches.hasHardCut : KeyBranches → Bool
  | .nil => false
  | .cons _ cut rest => cut == .hard || rest.hasHardCut

mutual

/-- A hard cut can end the reading of a group. -/
def KeyGroup.mayHalt : KeyGroup → Bool
  | .key _ => false
  | .any bs first => !first && bs.hasHardCut
  | .all ts _ => ts.mayHalt

def KeyBranches.mayHalt : KeyBranches → Bool
  | .nil => false
  | .cons g _ rest => g.mayHalt || rest.mayHalt

end

/-- A group that names one key at a time. -/
inductive KeyGroup.Single : KeyGroup → Prop
  | key (name : String) : Single (.key name)
  | any {bs : KeyBranches} (h : ∀ g ∈ bs.groups, Single g) : Single (.any bs true)

/-- A group without a first-match mark on more than one key at a time, and without a conjunction in
which a term before the last one can end the reading. -/
inductive KeyGroup.Steady : KeyGroup → Prop
  | key (name : String) : Steady (.key name)
  | any {bs : KeyBranches} (h : ∀ g ∈ bs.groups, Steady g) : Steady (.any bs false)
  | first {bs : KeyBranches} (h : ∀ g ∈ bs.groups, g.Single) : Steady (.any bs true)
  | all {ts : KeyBranches} (h : ∀ g ∈ ts.groups, Steady g)
      (goesOn : ∀ g ∈ ts.groups.dropLast, g.mayHalt = false) : Steady (.all ts false)

theorem KeyBranches.hasHardCut_of_halted (first : Bool) :
    ∀ (bs : KeyBranches) (hidden : List String),
    (bs.foundAny keys first hidden).halted = true → first = false ∧ bs.hasHardCut = true
  | .nil, _, h => absurd h Bool.false_ne_true
  | .cons g cut rest, hidden, h => by
    rw [foundAny] at h
    split at h
    · obtain ⟨hfirst, hrest⟩ := hasHardCut_of_halted first rest hidden h
      exact ⟨hfirst, by rw [hasHardCut, hrest, Bool.or_true]⟩
    split at h
    · exact absurd h Bool.false_ne_true
    rename_i hfirst
    refine ⟨by simpa using hfirst, ?_⟩
    rw [hasHardCut]
    split at h
    · rename_i hcut
      rw [hcut, Bool.true_or]
    · rw [(hasHardCut_of_halted first rest _ h).2, Bool.or_true]

theorem KeyBranches.mayHalt_of_halted : ∀ {ts : KeyBranches} {f : NamesFound},
    (∀ g ∈ ts.groups, (g.found keys).halted = true → g.mayHalt = true) →
    ts.foundAll keys = some f → f.halted = true → ts.mayHalt = true
  | .nil, _, _, hf, h => by
    cases hf
    exact absurd h Bool.false_ne_true
  | .cons g _ rest, f, hg, hf, h => by
    obtain ⟨hhead, hrest⟩ := List.forall_mem_cons.mp hg
    rw [foundAll] at hf
    split at hf
    · cases hf
    obtain ⟨more, hmore, rfl⟩ := Option.map_eq_some_iff.mp hf
    rw [mayHalt]
    split at h
    · rw [hhead h, Bool.true_or]
    · rw [mayHalt_of_halted hrest hmore h, Bool.or_true]

theorem KeyGroup.mayHalt_of_halted (g : KeyGroup) (h : (g.found keys).halted = true) :
    g.mayHalt = true := by
  induction g using KeyGroup.induction with
  | key name => exact h
  | any bs first ih =>
    obtain ⟨rfl, hcut⟩ := bs.hasHardCut_of_halted first [] h
    rw [mayHalt, hcut]
    rfl
  | all ts first ih =>
    rw [found] at h
    cases hf : ts.foundAll keys with
    | none =>
      rw [hf] at h
      exact absurd h Bool.false_ne_true
    | some f =>
      rw [hf] at h
      exact KeyBranches.mayHalt_of_halted ih hf h

theorem KeyBranches.length_writtenFirst_le : ∀ bs : KeyBranches,
    (∀ g ∈ bs.groups, (g.written keys).length ≤ 1) → (bs.writtenFirst keys).length ≤ 1
  | .nil, _ => Nat.zero_le 1
  | .cons g _ rest, hg => by
    obtain ⟨hhead, hrest⟩ := List.forall_mem_cons.mp hg
    rw [writtenFirst]
    split
    · exact length_writtenFirst_le rest hrest
    · exact hhead

theorem KeyGroup.Single.length_written_le {g : KeyGroup} (h : g.Single) :
    (g.written keys).length ≤ 1 := by
  induction h with
  | key name => exact Nat.le_refl 1
  | any _ ih => exact KeyBranches.length_writtenFirst_le _ ih

/-- At most one name is among some names as soon as one of these is it. -/
theorem subset_of_length_le_one {found written : List String} (hlen : written.length ≤ 1)
    (hsub : found ⊆ written) (hne : found ≠ []) : written ⊆ found := by
  obtain ⟨n, rest, rfl⟩ := List.exists_cons_of_ne_nil hne
  match written with
  | [] => exact List.nil_subset _
  | [m] =>
    have hnm : n = m := List.mem_singleton.mp (hsub (List.mem_cons_self ..))
    rw [hnm]
    exact List.cons_subset.mpr ⟨List.mem_cons_self .., List.nil_subset _⟩

theorem KeyBranches.writtenAny_subset_found : ∀ (bs : KeyBranches) (hidden : List String),
    (∀ g ∈ bs.groups, (g.found keys).names ≠ [] → g.written keys ⊆ (g.found keys).names) →
    bs.writtenAny keys hidden ⊆ (bs.foundAny keys false hidden).names
  | .nil, _, _ => List.nil_subset _
  | .cons g cut rest, hidden, hg => by
    obtain ⟨hhead, hrest⟩ := List.forall_mem_cons.mp hg
    rw [foundAny, writtenAny]
    dsimp only
    split
    · exact writtenAny_subset_found rest hidden hrest
    rename_i hfound
    have hbranch : (if hidden.isEmpty then g.written keys
        else outside hidden (g.found keys).names) ⊆ outside hidden (g.found keys).names := by
      split
      · rename_i hhidden
        rw [List.isEmpty_iff.mp hhidden, outside_nil] at hfound ⊢
        exact hhead (by simpa using hfound)
      · exact List.Subset.refl _
    rw [if_neg Bool.false_ne_true]
    by_cases hcut : (cut == .hard) = true
    · rw [if_pos hcut, if_pos hcut, List.append_nil]
      exact hbranch
    · rw [if_neg hcut, if_neg hcut]
      have hmore := writtenAny_subset_found rest
        (cut.hides hidden (outside hidden (g.found keys).names)) hrest
      exact List.append_subset.mpr ⟨List.Subset.trans hbranch (List.subset_append_left _ _),
        List.Subset.trans hmore (List.subset_append_right _ _)⟩

theorem KeyBranches.writtenAll_subset_found : ∀ {ts : KeyBranches} {f : NamesFound},
    (∀ g ∈ ts.groups, (g.found keys).names ≠ [] → g.written keys ⊆ (g.found keys).names) →
    (∀ g ∈ ts.groups.dropLast, g.mayHalt = false) → ts.foundAll keys = some f →
    ts.writtenAll keys ⊆ f.names
  | .nil, _, _, _, _ => List.nil_subset _
  | .cons g _ .nil, f, hg, _, hf => by
    rw [foundAll] at hf
    split at hf
    · cases hf
    rename_i hfound
    obtain ⟨more, hmore, rfl⟩ := Option.map_eq_some_iff.mp hf
    have hterm := hg g (List.mem_cons_self ..) (by simpa using hfound)
    rw [writtenAll, writtenAll, List.append_nil]
    split
    · exact hterm
    · exact List.Subset.trans hterm (List.subset_append_left _ _)
  | .cons g _ (.cons g' cut' rest), f, hg, hgoes, hf => by
    obtain ⟨hhead, hrest⟩ := List.forall_mem_cons.mp hg
    obtain ⟨hgo, hgoes⟩ := List.forall_mem_cons.mp hgoes
    rw [foundAll] at hf
    split at hf
    · cases hf
    rename_i hfound
    obtain ⟨more, hmore, rfl⟩ := Option.map_eq_some_iff.mp hf
    -- the reading goes on after this term, so what the later ones find is kept
    have hhalted : ¬ (g.found keys).halted = true := by
      intro hhalted
      rw [g.mayHalt_of_halted hhalted] at hgo
      cases hgo
    rw [if_neg hhalted, writtenAll]
    have hterm := hhead (by simpa using hfound)
    have hlater := writtenAll_subset_found hrest hgoes hmore
    exact List.append_subset.mpr ⟨List.Subset.trans hterm (List.subset_append_left _ _),
      List.Subset.trans hlater (List.subset_append_right _ _)⟩

/-- A steady group is written only where it is read. -/
theorem KeyGroup.Steady.written_subset_found {g : KeyGroup} (h : g.Steady) :
    (g.found keys).names ≠ [] → g.written keys ⊆ (g.found keys).names := by
  induction h with
  | key name =>
    intro hfound
    rw [found] at hfound ⊢
    split at hfound
    · rename_i hmem
      rw [if_pos hmem]
      exact List.Subset.refl _
    · exact absurd rfl hfound
  | any _ ih => exact fun _ => KeyBranches.writtenAny_subset_found _ [] ih
  | @first bs h =>
    exact fun hfound => subset_of_length_le_one (Single.any h).length_written_le
      (KeyGroup.found_subset_written _) hfound
  | @all ts h hgoes ih =>
    intro hfound
    obtain ⟨f, hf⟩ := KeyGroup.exists_foundAll hfound
    have hnames : ((KeyGroup.all ts false).found keys).names = f.names := by
      rw [found, hf]
      rfl
    rw [hnames]
    exact KeyBranches.writtenAll_subset_found ih hgoes hf

end Compared

end DottedPath
