import DottedPath.Proofs.Evaluate.Run
import DottedPath.Proofs.Path.Reader
import DottedPath.Query.PathText
import Mathlib.Data.List.Forall2

/-!
# Runs of a key

A pattern matches a key if the segments of the key can be cut into runs, one for each segment of the
pattern in order (`Store.Cuts`): a recursive segment takes a run of one or more, of which it accepts
each at its depth, and every other segment takes a single one.  The matcher tries the runs that a
segment can take from short to long, and goes back to a longer one if what is left cannot be cut.

A run that can be taken can be taken up to any place in it, so the runs that are tried, those up to
`Store.mostTaken`, are all that there are (`Store.lt_mostTaken_iff`).  This is why stopping at the
first segment that is not accepted loses no way to cut the key.

## Main statements

- `Store.cuts_of_matchRuns`: what the matcher reports is a cut.
- `Store.matchRuns_isSome`: the matcher finds a cut if there is one.
- `matchPath_cuts`: a key matches as a whole, or in part, just if it can be cut as a whole, or in
  part.
-/

namespace DottedPath

namespace Store

/-- A segment of a pattern takes a run of segments of a key. -/
inductive TakesRun (s : Store) (p : Segment) : List Segment → Prop where
  /-- A descent takes one or more, and accepts each of them at its depth in the run. -/
  | descent {r : Recursion} {run : List Segment} (hr : p.recursion? = some r) (hne : run ≠ [])
    (hlevels : ∀ i k, run[i]? = some k → s.levelMatches r k i = true) : TakesRun s p run
  /-- Everything else takes one that it matches. -/
  | single {k : Segment} (hr : p.recursion? = none) (h : s.segmentMatches p k = true) :
    TakesRun s p [k]

/-- The segments of a key are cut into consecutive runs, one for each segment of a pattern. -/
structure Cuts (s : Store) (ps keys : List Segment) (runs : List (List Segment)) : Prop where
  takes : List.Forall₂ s.TakesRun ps runs
  covers : runs.flatten = keys

/-- The most segments that a segment of a pattern can take from the front. -/
def mostTaken (s : Store) (p : Segment) (keys : List Segment) : Nat :=
  match p.recursion? with
  | some r => s.matchingLevels r 0 keys
  | none => if keys.head?.any (s.segmentMatches p) then 1 else 0

variable {s : Store} {p : Segment} {ps keys run tail : List Segment} {runs : List (List Segment)}
  {partly : Bool}

theorem TakesRun.ne_nil (h : s.TakesRun p run) : run ≠ [] := by
  cases h with
  | descent _ hne _ => exact hne
  | single => exact List.cons_ne_nil _ _

namespace Cuts

theorem nil : s.Cuts [] [] [] :=
  ⟨.nil, rfl⟩

theorem cons (h : s.Cuts ps keys runs) (hrun : s.TakesRun p run) :
    s.Cuts (p :: ps) (run ++ keys) (run :: runs) :=
  ⟨.cons hrun h.takes, congrArg (run ++ ·) h.covers⟩

/-- A pattern that has segments takes some of the key. -/
theorem keys_ne_nil (h : s.Cuts ps keys runs) (hps : ps ≠ []) : keys ≠ [] := by
  obtain ⟨htakes, rfl⟩ := h
  cases htakes with
  | nil => exact absurd rfl hps
  | cons hrun _ =>
    rw [List.flatten_cons]
    exact List.append_ne_nil_of_left_ne_nil hrun.ne_nil _

end Cuts

/-! ### Runs from the front -/

/-- A descent can take segments as long as it accepts each at its depth. -/
theorem le_matchingLevels_iff (s : Store) (r : Recursion) : ∀ (keys : List Segment) (n depth : Nat),
    n ≤ s.matchingLevels r depth keys ↔
      n ≤ keys.length ∧
        ∀ i k, (keys.take n)[i]? = some k → s.levelMatches r k (depth + i) = true
  | keys, 0, depth => by simp
  | [], n + 1, depth => by simp [matchingLevels]
  | key :: keys, n + 1, depth => by
    have hrest := le_matchingLevels_iff s r keys n (depth + 1)
    rw [matchingLevels]
    constructor
    · intro hle
      split at hle
      · rename_i hlevel
        obtain ⟨hlength, hlevels⟩ := hrest.mp (Nat.le_of_succ_le_succ hle)
        refine ⟨Nat.succ_le_succ hlength, fun i k hk => ?_⟩
        cases i with
        | zero =>
          cases hk
          exact hlevel
        | succ i =>
          have hlevel := hlevels i k hk
          rwa [Nat.add_right_comm] at hlevel
      · omega
    · rintro ⟨hlength, hlevels⟩
      have hlevel : s.levelMatches r key depth = true := hlevels 0 key rfl
      rw [if_pos hlevel]
      refine Nat.succ_le_succ (hrest.mpr ⟨Nat.le_of_succ_le_succ hlength, fun i k hk => ?_⟩)
      rw [Nat.add_right_comm]
      exact hlevels (i + 1) k hk

/-- **The runs that are tried are those that can be taken.** -/
theorem lt_mostTaken_iff {i : Nat} :
    i < s.mostTaken p keys ↔ i < keys.length ∧ s.TakesRun p (keys.take (i + 1)) := by
  rw [mostTaken]
  cases hr : p.recursion? with
  | some r =>
    show i + 1 ≤ s.matchingLevels r 0 keys ↔ _
    rw [le_matchingLevels_iff]
    simp only [Nat.zero_add]
    refine and_congr_right fun hi => ⟨fun hlevels => .descent hr ?_ hlevels, fun h => ?_⟩
    · exact List.ne_nil_of_length_pos (by rw [List.length_take]; omega)
    · generalize keys.take (i + 1) = run at h
      cases h with
      | descent hr' _ hlevels =>
        cases hr.symm.trans hr'
        exact hlevels
      | single hr' => cases hr.symm.trans hr'
  | none =>
    dsimp only
    cases keys with
    | nil => simp
    | cons key keys =>
      rw [List.head?_cons, Option.any_some, List.take_succ_cons]
      -- a segment that is no descent takes one key
      constructor
      · intro hi
        split at hi
        · rename_i hmatch
          obtain rfl : i = 0 := by omega
          exact ⟨Nat.succ_pos _, .single hr hmatch⟩
        · omega
      · rintro ⟨hi, h⟩
        generalize hrun : key :: keys.take i = run at h
        cases h with
        | descent hr' => cases hr.symm.trans hr'
        | single _ hmatch =>
          obtain ⟨rfl, hrest⟩ := List.cons.inj hrun
          have hlength := congrArg List.length hrest
          rw [List.length_take, List.length_nil] at hlength
          rw [if_pos hmatch]
          rw [List.length_cons] at hi
          omega

/-! ### The search -/

theorem matchRuns_cons (s : Store) (partly : Bool) (p : Segment) (ps keys : List Segment) :
    s.matchRuns partly (p :: ps) keys =
      (List.range (s.mostTaken p keys)).findSome? fun i =>
        if ps.isEmpty then
          if (keys.drop (i + 1)).isEmpty || partly then
            some [keys.take (i + 1) ++ keys.drop (i + 1)]
          else none
        else (s.matchRuns partly ps (keys.drop (i + 1))).map (keys.take (i + 1) :: ·) := by
  rw [matchRuns]
  rfl

/-- **What the matcher reports is a cut**, of which the last run is extended by what is left. -/
theorem cuts_of_matchRuns : ∀ {ps keys : List Segment} {groups : List (List Segment)}, ps ≠ [] →
    s.matchRuns partly ps keys = some groups →
    ∃ init last lead tail, s.Cuts ps lead (init ++ [last]) ∧ lead ++ tail = keys ∧
      groups = init ++ [last ++ tail] ∧ (partly = false → tail = [])
  | [], _, _, hne, _ => absurd rfl hne
  | p :: ps, keys, groups, _, h => by
    rw [matchRuns_cons] at h
    obtain ⟨i, hi, hfound⟩ := List.exists_of_findSome?_eq_some h
    obtain ⟨-, htakes⟩ := lt_mostTaken_iff.mp (List.mem_range.mp hi)
    have hkeys := List.take_append_drop (i + 1) keys
    generalize keys.take (i + 1) = run at htakes hkeys hfound
    generalize keys.drop (i + 1) = rest at hkeys hfound
    -- only the last run may leave keys over, which are then put to it
    by_cases hps : ps = []
    · subst hps
      rw [if_pos List.isEmpty_nil] at hfound
      split at hfound
      · rename_i hrest
        cases hfound
        have hcuts := Cuts.nil.cons htakes
        rw [List.append_nil] at hcuts
        refine ⟨[], run, run, rest, hcuts, hkeys, rfl, fun hpartly => ?_⟩
        simpa [hpartly] using hrest
      · cases hfound
    · rw [if_neg (by simpa using hps)] at hfound
      obtain ⟨others, hothers, rfl⟩ := Option.map_eq_some_iff.mp hfound
      obtain ⟨init, last, lead, tail, hcuts, hlead, rfl, htail⟩ := cuts_of_matchRuns hps hothers
      refine ⟨run :: init, last, run ++ lead, tail, hcuts.cons htakes, ?_, rfl, htail⟩
      rw [List.append_assoc, hlead, hkeys]

/-- With nothing left over, what is reported are the runs of the cut. -/
theorem cuts_of_matchRuns_whole {groups : List (List Segment)} (hne : ps ≠ [])
    (h : s.matchRuns false ps keys = some groups) : s.Cuts ps keys groups := by
  obtain ⟨init, last, lead, tail, hcuts, rfl, rfl, htail⟩ := cuts_of_matchRuns hne h
  rw [htail rfl, List.append_nil, List.append_nil]
  exact hcuts

/-- **The matcher finds a cut if there is one**, of the whole key or of its leading segments. -/
theorem matchRuns_isSome (htakes : List.Forall₂ s.TakesRun ps runs) (hne : ps ≠ [])
    (htail : partly = false → tail = []) :
    (s.matchRuns partly ps (runs.flatten ++ tail)).isSome = true := by
  induction htakes with
  | nil => exact absurd rfl hne
  | @cons p run ps runs hrun hothers ih =>
    have hpos := List.length_pos_iff.mpr hrun.ne_nil
    have hlength : run.length - 1 + 1 = run.length := by omega
    rw [List.flatten_cons, List.append_assoc, matchRuns_cons]
    -- the run that is taken is one of those that are tried
    refine List.findSome?_isSome_iff.mpr ⟨run.length - 1, List.mem_range.mpr ?_, ?_⟩
    · refine lt_mostTaken_iff.mpr ⟨?_, ?_⟩
      · rw [List.length_append]
        omega
      · rwa [hlength, List.take_left]
    rw [hlength, List.take_left, List.drop_left]
    by_cases hps : ps = []
    · subst hps
      cases hothers
      have hend : (tail.isEmpty || partly) = true := by
        cases partly with
        | false => rw [htail rfl]; rfl
        | true => exact Bool.or_true _
      rw [if_pos List.isEmpty_nil, List.flatten_nil, List.nil_append, if_pos hend]
      rfl
    · rw [if_neg (by simpa using hps), Option.isSome_map]
      exact ih hps

theorem Cuts.matchRuns_isSome (h : s.Cuts ps keys runs) (hne : ps ≠ []) :
    (s.matchRuns false ps keys).isSome = true := by
  obtain ⟨htakes, rfl⟩ := h
  rw [← List.append_nil runs.flatten]
  exact Store.matchRuns_isSome htakes hne fun _ => rfl

end Store

/-! ### Expressions -/

namespace Parse

/-- A path has a first segment. -/
theorem pathFrom_ne_nil {g : Grammar} {place : Place} {lead : Accessor} {cs rest : List Char}
    {segs : List Segment} (h : g.pathFrom place lead cs = .ok (segs, rest)) : segs ≠ [] := by
  obtain ⟨first, mid, -, hmore⟩ := bind_eq_ok h
  obtain ⟨others, mid, -, hpure⟩ := bind_eq_ok hmore
  cases hpure
  exact List.cons_ne_nil _ _

theorem topSegments_ne_nil {g : Grammar} {cs rest : List Char} {segs : List Segment}
    (h : topSegments g cs = .ok (segs, rest)) : segs ≠ [] := by
  rw [topSegments] at h
  split at h
  · rename_i answer htop
    cases h
    obtain ⟨path, mid, hpath, hend⟩ := bind_eq_ok htop
    obtain ⟨chars, mid', -, hend⟩ := bind_eq_ok hend
    split at hend
    · cases hend
      exact pathFrom_ne_nil hpath
    · cases hend
  · split at h
    · cases h
      exact List.cons_ne_nil _ _
    · cases h

theorem expressionSegments_ne_nil {g : Grammar} {cs rest : List Char} {segs : List Segment}
    (h : expressionSegments g cs = .ok (segs, rest)) : segs ≠ [] := by
  obtain ⟨next, mid, -, h⟩ := bind_eq_ok h
  split at h
  · cases h
    exact List.cons_ne_nil _ _
  obtain ⟨minus, mid', -, h⟩ := bind_eq_ok h
  split at h
  · obtain ⟨inner, mid'', -, h⟩ := bind_eq_ok h
    cases h
    exact List.cons_ne_nil _ _
  · exact topSegments_ne_nil h

end Parse

/-- An expression has segments. -/
theorem PathExpression.segments_ne_nil {text : String} {e : PathExpression}
    (h : PathExpression.parse text = .ok e) : e.segments ≠ [] := by
  rw [PathExpression.parse, PathExpression.parseChars] at h
  split at h
  · cases h
    exact List.cons_ne_nil _ _
  · split at h
    · rename_i answer rest hread
      cases h
      obtain ⟨segs, mid, hsegs, hread⟩ := Parse.bind_eq_ok hread
      obtain ⟨chain, mid', -, hread⟩ := Parse.bind_eq_ok hread
      obtain ⟨left, mid'', -, hread⟩ := Parse.bind_eq_ok hread
      split at hread
      · cases hread
        exact Parse.expressionSegments_ne_nil hsegs
      · cases hread
    · cases h

/-! ### Matching paths -/

theorem Context.readPath_of_parse {s : Store} {path : String} {e : PathExpression}
    (h : PathExpression.parse path = .ok e) : readPath path s = (.ok e, s) := by
  rw [readPath, h]
  rfl

/-- Matching two paths searches their segments. -/
theorem matchPath_of_parse {pattern key : String} {p k : PathExpression}
    (hpattern : PathExpression.parse pattern = .ok p) (hkey : PathExpression.parse key = .ok k)
    (partly : Bool) (s : Store) :
    matchPath? pattern key partly s =
      (.ok ((s.matchRuns partly p.segments k.segments).map fun runs => ⟨key, runs.map pathText⟩),
        s) := by
  rw [matchPath?, Eval.run_bind_of_ok (Context.readPath_of_parse hpattern),
    Eval.run_bind_of_ok (Context.readPath_of_parse hkey), Eval.run_bind_of_ok (Eval.run_store s)]
  rfl

/-- **Path matching is a complete search for runs.**  A key matches a pattern as a whole just if its
segments can be cut into runs, one for each segment of the pattern, and in part just if some of its
leading segments can.  The groups of a match are the texts of such runs.  In part the last one goes
on to the end of the key, so that in both cases they take all segments, each once. -/
theorem matchPath_cuts {pattern key : String} {p k : PathExpression}
    (hpattern : PathExpression.parse pattern = .ok p) (hkey : PathExpression.parse key = .ok k)
    (s : Store) :
    (∃ found, matchPath? pattern key false s = (.ok found, s) ∧
      (found.isSome = true ↔ ∃ runs, s.Cuts p.segments k.segments runs) ∧
      ∀ m, found = some m → m.key = key ∧
        ∃ runs, s.Cuts p.segments k.segments runs ∧ m.groups = runs.map pathText) ∧
    ∃ found, matchPath? pattern key true s = (.ok found, s) ∧
      (found.isSome = true ↔ ∃ lead tail runs, lead ≠ [] ∧ lead ++ tail = k.segments ∧
        s.Cuts p.segments lead runs) ∧
      ∀ m, found = some m → m.key = key ∧
        ∃ init last lead tail, s.Cuts p.segments lead (init ++ [last]) ∧
          (init ++ [last ++ tail]).flatten = k.segments ∧
          m.groups = (init ++ [last ++ tail]).map pathText := by
  have hne := PathExpression.segments_ne_nil hpattern
  refine ⟨⟨_, matchPath_of_parse hpattern hkey false s, ?_, ?_⟩,
    _, matchPath_of_parse hpattern hkey true s, ?_, ?_⟩
  · rw [Option.isSome_map]
    refine ⟨fun hsome => ?_, fun ⟨runs, hruns⟩ => hruns.matchRuns_isSome hne⟩
    obtain ⟨groups, hgroups⟩ := Option.isSome_iff_exists.mp hsome
    exact ⟨groups, Store.cuts_of_matchRuns_whole hne hgroups⟩
  · intro m hm
    obtain ⟨groups, hgroups, rfl⟩ := Option.map_eq_some_iff.mp hm
    exact ⟨rfl, groups, Store.cuts_of_matchRuns_whole hne hgroups, rfl⟩
  · rw [Option.isSome_map]
    constructor
    · intro hsome
      obtain ⟨groups, hgroups⟩ := Option.isSome_iff_exists.mp hsome
      obtain ⟨init, last, lead, tail, hcuts, hlead, -⟩ := Store.cuts_of_matchRuns hne hgroups
      exact ⟨lead, tail, _, hcuts.keys_ne_nil hne, hlead, hcuts⟩
    · rintro ⟨lead, tail, runs, -, hkeys, hcuts⟩
      rw [← hkeys, ← hcuts.covers]
      exact Store.matchRuns_isSome hcuts.takes hne (by rintro ⟨⟩)
  · intro m hm
    obtain ⟨groups, hgroups, rfl⟩ := Option.map_eq_some_iff.mp hm
    obtain ⟨init, last, lead, tail, hcuts, hlead, rfl, -⟩ := Store.cuts_of_matchRuns hne hgroups
    refine ⟨rfl, init, last, lead, tail, hcuts, ?_, rfl⟩
    rw [← hlead, ← hcuts.covers]
    simp

/-- Two descents cut a key in more than one way; the first run is as short as can be. -/
theorem matchPath_cuts_descents :
    let s : Store := ⟨#[]⟩
    let descent : Segment := .recursive .wildcard [] .unbounded none false
    let keys : List Segment := ["a", "b", "c"].map fun key => .literal .key (.str key)
    matchPath? "**.**" "a.b.c" false s = (.ok (some ⟨"a.b.c", ["a", "b.c"]⟩), s) ∧
      ∃ runs, s.Cuts [descent, descent] keys runs ∧ ["a", "b.c"] = runs.map pathText := by
  intro s descent keys
  have hpattern : PathExpression.parse "**.**" = .ok ⟨[descent, descent], []⟩ := rfl
  have hkey : PathExpression.parse "a.b.c" = .ok ⟨keys, []⟩ := rfl
  have hmatch : matchPath? "**.**" "a.b.c" false s = (.ok (some ⟨"a.b.c", ["a", "b.c"]⟩), s) := by
    rw [matchPath_of_parse hpattern hkey]
    rfl
  obtain ⟨⟨found, hfound, -, hgroups⟩, -⟩ := matchPath_cuts hpattern hkey s
  cases hmatch.symm.trans hfound
  exact ⟨hmatch, (hgroups _ rfl).2⟩

end DottedPath
