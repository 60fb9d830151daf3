import DottedPath.Matching.ValuePattern

/-!
# Sequence patterns match by splitting

A sequence pattern reads a list or a tuple as one run of elements after the other, one run for each
element of the pattern: `Store.Splits` says which runs these may be, and `Store.Conforms` reads a
whole pattern in this way, also the patterns inside, and those of the globs.  The matcher looks for
the runs from left to right and tries one length after the other for each glob
(`Store.sequenceMatches`).  It finds runs whenever there are any, however many globs stand side by
side and whatever their bounds.

## Main statements

- `Store.valueMatches_iff_conforms`: the matcher and the reading by runs agree, for all patterns.
- `Store.valueMatches_sequence_iff`: for a sequence pattern, with the runs written out.
-/

namespace DottedPath

/-- A glob stands for runs of this length. -/
def Glob.Admits (g : Glob) (n : Nat) : Prop :=
  g.min ≤ n ∧ ∀ m, g.max = some m → n ≤ m

namespace Store

mutual

/-- A value conforms to a pattern, where a sequence pattern is read as a splitting into runs.  Sets
and dicts have no order to split by and are left to the matcher. -/
inductive Conforms (s : Store) : ValuePattern → Value → Prop
  | literal {l v} (h : s.equalsLiteral l v = true) : Conforms s (.literal l) v
  | wildcard {v} : Conforms s .wildcard v
  | regex {re v} (h : re.matches (s.textForm v) = true) : Conforms s (.regex re) v
  | textGlob {parts re t} (h : re.matches t = true) : Conforms s (.textGlob parts re) (.str t)
  | bytesGlob {parts re bs} (h : re.matches bs = true) : Conforms s (.bytesGlob parts re) (.bytes bs)
  | sequence {kind es v runs} (hkind : s.isSequenceOf kind v = true) (hruns : Splits s es runs)
      (hsplit : runs.flatten = s.elements v) : Conforms s (.sequence kind es) v
  | set {kind es v} (h : s.valueMatches (.set kind es) v = true) : Conforms s (.set kind es) v
  | dict {marked es v} (h : s.valueMatches (.dict marked es) v = true) : Conforms s (.dict marked es) v
  | group {p ps v} (hmem : p ∈ ps) (h : Conforms s p v) : Conforms s (.group ps) v

/-- Runs of values for the elements of a pattern, one for each: a pattern gets a single value, which
conforms to it, and a glob a run within its bounds, whose members conform to its inner pattern if it
has one. -/
inductive Splits (s : Store) : List Element → List (List Value) → Prop
  | nil : Splits s [] []
  | value {p x es runs} (h : Conforms s p x) (rest : Splits s es runs) :
      Splits s (.value p :: es) ([x] :: runs)
  | glob {g run es runs} (hlength : g.Admits run.length)
      (hrun : ∀ x ∈ run, ∀ p, g.pattern = some p → Conforms s p x) (rest : Splits s es runs) :
      Splits s (.glob g :: es) (run :: runs)

end

/-! ### Runs of a glob -/

/-- Trying all lengths within the bounds finds each run at the front that a glob may take. -/
theorem any_countsFrom_iff (g : Glob) (accepts : Value → Bool) (rest : List Value → Bool)
    (vs : List Value) :
    (decide (g.min ≤ vs.length) &&
      (Run.countsFrom g.min (min (g.max.getD vs.length) vs.length)).any fun n =>
        (vs.take n).all accepts && rest (vs.drop n)) = true ↔
      ∃ run after, run ++ after = vs ∧ g.Admits run.length ∧ (∀ x ∈ run, accepts x = true) ∧
        rest after = true := by
  simp only [Bool.and_eq_true, decide_eq_true_iff, List.any_eq_true, Run.mem_countsFrom,
    List.all_eq_true]
  constructor
  · rintro ⟨-, n, ⟨hmin, hmost⟩, hrun, hrest⟩
    have hlength : (vs.take n).length = n := by
      rw [List.length_take]
      omega
    refine ⟨vs.take n, vs.drop n, List.take_append_drop n vs, ?_, hrun, hrest⟩
    rw [hlength]
    refine ⟨hmin, fun m hm => ?_⟩
    rw [hm, Option.getD_some] at hmost
    omega
  · rintro ⟨run, after, rfl, ⟨hmin, hmax⟩, hrun, hrest⟩
    have hmost : run.length ≤ g.max.getD (run ++ after).length := by
      cases hg : g.max with
      | none => simp
      | some m => exact hmax m hg
    refine ⟨by simp; omega, run.length, ⟨hmin, by simp at hmost ⊢; omega⟩, ?_, ?_⟩
    · simpa using hrun
    · simpa using hrest

/-! ### Splittings -/

variable {s : Store} {p : ValuePattern} {g : Glob} {es : List Element} {vs : List Value}

/-- Some runs for the elements of a pattern make up a sequence. -/
def IsSplit (s : Store) (es : List Element) (vs : List Value) : Prop :=
  ∃ runs, s.Splits es runs ∧ runs.flatten = vs

theorem isSplit_nil : s.IsSplit [] vs ↔ vs = [] := by
  constructor
  · rintro ⟨runs, hruns, rfl⟩
    cases hruns
    rfl
  · rintro rfl
    exact ⟨[], .nil, rfl⟩

theorem isSplit_value :
    s.IsSplit (.value p :: es) vs ↔ ∃ x after, x :: after = vs ∧ s.Conforms p x ∧ s.IsSplit es after := by
  constructor
  · rintro ⟨runs, hruns, rfl⟩
    cases hruns with
    | value hconforms hrest => exact ⟨_, _, rfl, hconforms, _, hrest, rfl⟩
  · rintro ⟨x, after, rfl, hconforms, runs, hruns, rfl⟩
    exact ⟨[x] :: runs, .value hconforms hruns, rfl⟩

theorem isSplit_glob :
    s.IsSplit (.glob g :: es) vs ↔ ∃ run after, run ++ after = vs ∧ g.Admits run.length ∧
      (∀ x ∈ run, ∀ p, g.pattern = some p → s.Conforms p x) ∧ s.IsSplit es after := by
  constructor
  · rintro ⟨runs, hruns, rfl⟩
    cases hruns with
    | glob hlength hrun hrest => exact ⟨_, _, rfl, hlength, hrun, _, hrest, rfl⟩
  · rintro ⟨run, after, rfl, hlength, hrun, runs, hruns, rfl⟩
    exact ⟨run :: runs, .glob hlength hrun hruns, rfl⟩

/-! ### The matcher -/

mutual

/-- **The matcher finds a splitting if and only if there is one**, in sequence patterns at any depth. -/
theorem valueMatches_iff_conforms (s : Store) : ∀ (p : ValuePattern) (v : Value),
    s.valueMatches p v = true ↔ s.Conforms p v
  | .literal l, v => by
    rw [valueMatches]
    exact ⟨.literal, fun h => by cases h; assumption⟩
  | .wildcard, v => by
    rw [valueMatches]
    exact iff_of_true rfl .wildcard
  | .regex re, v => by
    rw [valueMatches]
    exact ⟨.regex, fun h => by cases h; assumption⟩
  | .textGlob parts re, v => by
    constructor
    · intro h
      unfold valueMatches at h
      split at h
      · exact .textGlob h
      · cases h
    · intro h
      cases h with
      | textGlob h =>
        unfold valueMatches
        exact h
  | .bytesGlob parts re, v => by
    constructor
    · intro h
      unfold valueMatches at h
      split at h
      · exact .bytesGlob h
      · cases h
    · intro h
      cases h with
      | bytesGlob h =>
        unfold valueMatches
        exact h
  | .sequence kind es, v => by
    rw [valueMatches, Bool.and_eq_true, sequenceMatches_iff_isSplit s es]
    constructor
    · rintro ⟨hkind, runs, hruns, hsplit⟩
      exact .sequence hkind hruns hsplit
    · intro h
      cases h with
      | sequence hkind hruns hsplit => exact ⟨hkind, _, hruns, hsplit⟩
  -- members and entries are no sequence: here conforming is what the matcher says
  | .set kind es, v => ⟨.set, fun h => by cases h; assumption⟩
  | .dict marked es, v => ⟨.dict, fun h => by cases h; assumption⟩
  | .group ps, v => by
    rw [valueMatches, anyMatches_iff_exists s ps]
    constructor
    · rintro ⟨p, hmem, hconforms⟩
      exact .group hmem hconforms
    · intro h
      cases h with
      | group hmem hconforms => exact ⟨_, hmem, hconforms⟩

theorem anyMatches_iff_exists (s : Store) : ∀ (ps : List ValuePattern) (v : Value),
    s.anyMatches ps v = true ↔ ∃ p ∈ ps, s.Conforms p v
  | [], v => by simp [anyMatches]
  | p :: ps, v => by
    rw [anyMatches, Bool.or_eq_true, valueMatches_iff_conforms s p, anyMatches_iff_exists s ps]
    simp

theorem innerMatches_iff_forall (s : Store) : ∀ (inner : Option ValuePattern) (v : Value),
    s.innerMatches inner v = true ↔ ∀ p, inner = some p → s.Conforms p v
  | none, v => by simp [innerMatches]
  | some p, v => by
    rw [innerMatches, valueMatches_iff_conforms s p]
    simp

/-- The search through the lengths of the runs is sound and complete. -/
theorem sequenceMatches_iff_isSplit (s : Store) : ∀ (es : List Element) (vs : List Value),
    s.sequenceMatches es vs = true ↔ s.IsSplit es vs
  | [], vs => by rw [sequenceMatches, isSplit_nil, List.isEmpty_iff]
  | .value p :: es, [] => by simp [sequenceMatches, isSplit_value]
  | .value p :: es, v :: vs => by
    rw [sequenceMatches, Bool.and_eq_true, valueMatches_iff_conforms s p,
      sequenceMatches_iff_isSplit s es, isSplit_value]
    simp [and_assoc]
  | .glob ⟨inner, lo, hi⟩ :: es, vs => by
    rw [sequenceMatches, any_countsFrom_iff ⟨inner, lo, hi⟩, isSplit_glob]
    simp only [sequenceMatches_iff_isSplit s es, innerMatches_iff_forall s inner]

end

/-- **Sequence patterns match exactly by splitting**: a sequence pattern matches a value of one of its
kinds if and only if the elements are some runs put together, one for each element of the pattern. -/
theorem valueMatches_sequence_iff (s : Store) (kind : SequenceKind) (es : List Element) (v : Value) :
    s.valueMatches (.sequence kind es) v = true ↔
      s.isSequenceOf kind v = true ∧
        ∃ runs, s.Splits es runs ∧ runs.flatten = s.elements v := by
  rw [valueMatches, Bool.and_eq_true, sequenceMatches_iff_isSplit, IsSplit]

/-- The first glob has to take two elements: if it takes none, too many are left for the last one. -/
example : (⟨#[.list [.int 3, .int 1, .int 3, .int 2]]⟩ : Store).valueMatches
    (.sequence .any [.glob ⟨none, 0, none⟩, .value (.literal (.int 3)), .glob ⟨none, 1, some 2⟩])
    (.ref ⟨0⟩) = true := by cbv

end Store

end DottedPath
