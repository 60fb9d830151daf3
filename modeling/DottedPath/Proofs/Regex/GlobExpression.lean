import DottedPath.Path.Glob
import DottedPath.Proofs.Path.NumberToken
import Mathlib.Tactic.FinCases

/-!
# The expression of a text glob, read

The fragments of a text glob are written as one expression.  A character of a fragment stands for
itself, behind a backslash if it has a meaning of its own, and a byte is written by its number; a
glob is a counted dot that takes line ends too.  Read as an expression, the text is what the
fragments are written for: one pattern after the other for each unit of a fragment and for each glob
(`GlobPart.patterns`).  The only texts that are refused are those with a count past thirty-two bits
or with bounds in the wrong order (`GlobPart.Counts`), and those whose pattern is too large.

Each piece takes at most as many steps of the reader as it has characters, and may not be followed by
a question mark, which would belong to a count at its end (`Reads`).

## Main statements

- `Regex.reads_part`: what a fragment or a glob is read as.
- `Regex.read?_anchored`: what the whole expression is read as, and when it is refused.
-/

namespace DottedPath

namespace Regex

/-- The flags that an expression starts with. -/
abbrev startFlags (mode : Mode) : Flags := { unicode := mode == .text }

/-- A unit that is the given one. -/
def only (n : Nat) : Pattern := .unit (.single n)

/-- A unit, whichever it is. -/
def anyUnit : Pattern := .seq (.unit .all) .empty

/-- Patterns in a row. -/
def inOrder (ps : List Pattern) : Pattern := ps.foldr .seq .empty

theorem sequenceOf_reverse (ps : List Pattern) : sequenceOf (ps.reverse.map some) = inOrder ps := by
  rw [sequenceOf, inOrder, List.filterMap_map]
  simp

end Regex

open Regex

/-- The bounds can be written as a count. -/
def Glob.Counts (g : Glob) : Prop :=
  g.min < 2 ^ 32 ∧ ∀ most ∈ g.max, g.min ≤ most ∧ most < 2 ^ 32

instance (g : Glob) : Decidable g.Counts := inferInstanceAs (Decidable (_ ∧ _))

namespace GlobPart

/-- The units of a fragment. -/
def units (mode : Mode) : GlobPart → List Nat
  | text s =>
    match mode with
    | .text => s.toList.map Char.toNat
    | .bytes => (Text.utf8Bytes s).map UInt8.toNat
  | bytes bs => bs.map UInt8.toNat
  | glob _ => []

/-- The patterns that a fragment or a glob is read as. -/
def patterns (mode : Mode) : GlobPart → List Pattern
  | glob g => [.repeated anyUnit g.min g.max]
  | part => (part.units mode).map only

/-- The bounds of a glob can be written as a count. -/
def Counts : GlobPart → Prop
  | glob g => g.Counts
  | _ => True

/-- Is no glob of matches of an expression of its own. -/
def Plain : GlobPart → Prop
  | glob g => g.pattern = none
  | _ => True

/-- The patterns of fragments and globs, between the tests for the start and the end. -/
def wholePattern (mode : Mode) (parts : List GlobPart) : Pattern :=
  inOrder [.look .textStart, inOrder (parts.flatMap (patterns mode)), .look .textEnd]

end GlobPart

namespace Regex

/-! ### Counts -/

theorem readCount?_natDigits (n : Nat) {c : Char} (hdigit : c.isDigit = false)
    (hblank : Text.isBlank c = false) (rest : List Char) :
    readCount? (Decimal.natDigits n ++ c :: rest) =
      if n < 2 ^ 32 then some (n, c :: rest) else none := by
  have hrest : ∀ d ∈ (c :: rest).head?, d.isDigit = false := by
    rintro d ⟨⟩
    exact hdigit
  obtain ⟨htake, hdrop⟩ :=
    Decimal.takeWhile_digits (fun d => Decimal.isDigit_of_mem_natDigits (n := n)) hrest
  have hskip : (Decimal.natDigits n ++ c :: rest).dropWhile Text.isBlank =
      Decimal.natDigits n ++ c :: rest := by
    obtain ⟨d, ds, hds, hd⟩ := Decimal.natDigits_eq_cons n
    rw [hds, List.cons_append, List.dropWhile_cons_of_neg]
    simp [Text.isBlank_of_isDigit (Bool.or_eq_true_iff.mpr (.inl hd))]
  have hvalue : (Decimal.natDigits n).foldl (fun n c => 10 * n + (c.toNat - 48)) 0 = n :=
    Nat.ofDigitChars_ten_toDigits
  rw [readCount?]
  simp only [hskip, htake, hdrop, hvalue, List.isEmpty_iff, Decimal.natDigits_ne_nil, if_false]
  rw [List.dropWhile_cons_of_neg]
  simp [hblank]

theorem readRepetition?_least (lo : Nat) (rest : List Char) :
    readRepetition? false (Decimal.natDigits lo ++ ',' :: '\x7d' :: rest) =
      if lo < 2 ^ 32 then some (lo, none, rest) else none := by
  simp only [readRepetition?, skipVerbose, Bool.false_eq_true, if_false,
    readCount?_natDigits lo (c := ',') rfl rfl]
  split <;> rfl

theorem readRepetition?_bounds (lo hi : Nat) (rest : List Char) :
    readRepetition? false (Decimal.natDigits lo ++ ',' :: (Decimal.natDigits hi ++ '\x7d' :: rest)) =
      if lo < 2 ^ 32 ∧ lo ≤ hi ∧ hi < 2 ^ 32 then some (lo, some hi, rest) else none := by
  have hhead : ∀ cs, Decimal.natDigits hi ++ '\x7d' :: rest ≠ '\x7d' :: cs := by
    intro cs h
    obtain ⟨d, ds, hds, hd⟩ := Decimal.natDigits_eq_cons hi
    rw [hds] at h
    cases h
    exact absurd hd (by decide)
  simp only [readRepetition?, skipVerbose, Bool.false_eq_true, if_false,
    readCount?_natDigits lo (c := ',') rfl rfl]
  by_cases hlo : lo < 2 ^ 32
  · simp only [hlo, if_true, Option.bind_eq_bind, Option.bind_some, true_and]
    rw [readCount?_natDigits hi (c := '\x7d') rfl rfl]
    by_cases hhi : hi < 2 ^ 32
    · simp [hhi]
    · simp [hhi]
  · simp [hlo]

/-! ### Escapes -/

theorem readEscape?_of_isMeta {c : Char} (hc : isMeta c = true) (flags : Flags)
    (rest : List Char) : readEscape? flags (c :: rest) = some (.char c.toNat false, rest) := by
  have hmem : c ∈ _ := List.contains_iff_mem.mp hc
  fin_cases hmem <;> rfl

/-- The digits of a byte are read as its number. -/
theorem readEscape?_hexByte (flags : Flags) (b : UInt8) (rest : List Char) :
    readEscape? flags ('x' :: (Text.hexByte b ++ rest)) = some (.char b.toNat true, rest) := by
  have hdigits : ∀ i : Fin 256, Nat.digitChar (i.val / 16) ≠ '\x7b' ∧
      readCodePoint? [Nat.digitChar (i.val / 16), Nat.digitChar (i.val % 16)] = some i.val := by
    decide +kernel
  obtain ⟨hbrace, hvalue⟩ := hdigits ⟨b.toNat, b.toNat_lt⟩
  simp only [readEscape?, Text.hexByte, List.cons_append, List.nil_append]
  rw [readHexEscape?]
  · simp [hvalue]
  · intro cs hcs
    exact hbrace (List.cons.inj hcs).1

/-- In bytes an ASCII character is its own byte. -/
theorem charUnits_of_lt {n : Nat} (hn : n < 128) (mode : Mode) : charUnits mode n = only n := by
  have hbytes : ∀ i : Fin 128, Text.utf8Bytes (String.ofList [Char.ofNat i]) = [UInt8.ofNat i] := by
    decide +kernel
  cases mode with
  | text => rfl
  | bytes =>
    rw [charUnits]
    simp only [hbytes ⟨n, hn⟩, List.foldl_nil, only]
    rw [UInt8.toNat_ofNat_of_lt' (by show n < 256; omega)]

theorem charPattern?_startFlags (mode : Mode) (n : Nat) :
    charPattern? mode (startFlags mode) n false = some (charUnits mode n) := by
  simp [charPattern?]

/-- A byte that is written by its number is that unit, in a text too. -/
theorem charPattern?_byte (mode : Mode) (b : UInt8) :
    charPattern? mode (startFlags mode) b.toNat true = some (only b.toNat) := by
  cases mode with
  | text => simp [charPattern?, charUnits, only]
  | bytes =>
    by_cases hb : 128 ≤ b.toNat
    · simp [charPattern?, only, hb]
    · simp [charPattern?, hb, charUnits_of_lt (Nat.lt_of_not_le hb)]

/-! ### Steps of the reader -/

section

variable (mode : Mode) (n depth : Nat) (names : List (List Char)) (alts : List Pattern)
  (parts : List (Option Pattern)) {rest : List Char}

theorem readAlternatives?_char {c : Char} (hc : isMeta c = false) :
    readAlternatives? mode (n + 1) depth (startFlags mode) names alts parts (c :: rest) =
      readAlternatives? mode n depth (startFlags mode) names alts
        (some (charUnits mode c.toNat) :: parts) rest := by
  rw [readAlternatives?]
  simp only [skipVerbose, Bool.false_eq_true, if_false]
  split
  case h_1 h => cases h
  case h_14 h =>
    cases h
    rw [charPattern?_startFlags, Option.bind_some]
  -- What begins anything else has a meaning of its own.
  all_goals
    rename_i h
    obtain ⟨rfl, -⟩ := List.cons.inj h
    exact absurd hc (by decide)

theorem readAlternatives?_escape {cs : List Char} {a : Atom} {p : Pattern}
    (ha : readEscape? (startFlags mode) cs = some (a, rest))
    (hp : atomPattern? mode (startFlags mode) a = some p) :
    readAlternatives? mode (n + 1) depth (startFlags mode) names alts parts ('\\' :: cs) =
      readAlternatives? mode n depth (startFlags mode) names alts (some p :: parts) rest := by
  rw [readAlternatives?]
  simp only [skipVerbose, Bool.false_eq_true, if_false, ha, hp, Option.bind_some]

theorem readAlternatives?_anyUnit (hdepth : depth ≤ nestingLimit) :
    readAlternatives? mode (n + 3) depth (startFlags mode) names alts parts
        ("(?s:.)".toList ++ rest) =
      readAlternatives? mode (n + 2) depth (startFlags mode) names alts (some anyUnit :: parts)
        rest := by
  have hopen : readOpening? (startFlags mode) ('?' :: 's' :: ':' :: '.' :: ')' :: rest) =
      some (.group { startFlags mode with dotNewline := true } none, '.' :: ')' :: rest) := rfl
  have hinside : readAlternatives? mode (n + 2) (depth + 1)
      { startFlags mode with dotNewline := true } names [] [] ('.' :: ')' :: rest) =
      some (anyUnit, names, ')' :: rest) := by
    rw [readAlternatives?]
    simp only [skipVerbose, Bool.false_eq_true, if_false]
    cases mode <;> rfl
  show readAlternatives? mode (n + 3) depth (startFlags mode) names alts parts
    ('(' :: '?' :: 's' :: ':' :: '.' :: ')' :: rest) = _
  rw [readAlternatives?]
  simp only [skipVerbose, Bool.false_eq_true, if_false, Nat.not_lt.mpr hdepth, hopen,
    Option.any_none, Option.toList_none, List.nil_append, hinside]

theorem readAlternatives?_count (g : Glob) (p : Pattern) (hrest : ∀ cs, rest ≠ '?' :: cs) :
    readAlternatives? mode (n + 1) depth (startFlags mode) names alts (some p :: parts)
        (g.countText ++ rest) =
      if g.Counts then
        readAlternatives? mode n depth (startFlags mode) names alts
          (some (.repeated p g.min g.max) :: parts) rest
      else none := by
  obtain ⟨inner, lo, hi⟩ := g
  rcases hi with _ | hi
  · rcases lo with _ | lo
    · simp only [Glob.countText, List.cons_append, List.nil_append]
      rw [readAlternatives?]
      simp [Glob.Counts, skipVerbose]
    · simp only [Glob.countText, List.append_assoc, List.cons_append, List.nil_append]
      rw [readAlternatives?]
      simp only [skipVerbose, Bool.false_eq_true, if_false, readRepetition?_least]
      by_cases hlo : lo + 1 < 2 ^ 32
      · simp [Glob.Counts, hlo]
      · simp [Glob.Counts, hlo]
  · simp only [Glob.countText, List.append_assoc, List.cons_append, List.nil_append]
    rw [readAlternatives?]
    simp only [skipVerbose, Bool.false_eq_true, if_false, readRepetition?_bounds]
    by_cases hbounds : lo < 2 ^ 32 ∧ lo ≤ hi ∧ hi < 2 ^ 32
    · simp [Glob.Counts, hbounds]
    · simp only [hbounds, if_false]
      rw [if_neg fun h => hbounds ⟨h.1, h.2 hi rfl⟩]

end

/-! ### Pieces of an expression -/

/-- Inside of an expression, and not at too great a depth, a text is read as the given patterns if a
condition holds, and refused otherwise.  The reader makes no more steps than there are
characters. -/
structure Reads (mode : Mode) (text : List Char) (condition : Prop) (ps : List Pattern) : Prop where
  not_lazy : ∀ cs, text ≠ '?' :: cs
  read : ∃ k ≤ text.length, ∀ n depth names alts parts rest, depth ≤ nestingLimit →
    (∀ cs, rest ≠ '?' :: cs) →
    (condition → readAlternatives? mode (n + 1 + k) depth (startFlags mode) names alts parts
        (text ++ rest) =
      readAlternatives? mode (n + 1) depth (startFlags mode) names alts
        (ps.reverse.map some ++ parts) rest) ∧
    (¬condition → readAlternatives? mode (n + 1 + k) depth (startFlags mode) names alts parts
        (text ++ rest) = none)

namespace Reads

variable {mode : Mode} {text text' : List Char} {condition condition' : Prop} {ps ps' : List Pattern}

theorem nil (mode : Mode) : Reads mode [] True [] :=
  ⟨by simp, 0, Nat.le_refl 0, fun _ _ _ _ _ _ _ _ => ⟨fun _ => rfl, fun h => absurd trivial h⟩⟩

theorem append (h : Reads mode text condition ps) (h' : Reads mode text' condition' ps') :
    Reads mode (text ++ text') (condition ∧ condition') (ps ++ ps') := by
  obtain ⟨k, hk, hread⟩ := h.read
  obtain ⟨k', hk', hread'⟩ := h'.read
  refine ⟨fun cs hcs => ?_, k' + k, ?_, fun n depth names alts parts rest hdepth hrest => ?_⟩
  · cases text with
    | nil => exact h'.not_lazy cs hcs
    | cons c text =>
      rw [List.cons_append] at hcs
      exact h.not_lazy text (by rw [(List.cons.inj hcs).1])
  · rw [List.length_append]
    omega
  -- a question mark behind the first text would make its last repetition lazy
  · have hmiddle : ∀ cs, text' ++ rest ≠ '?' :: cs := by
      intro cs hcs
      cases text' with
      | nil => exact hrest cs hcs
      | cons c text' =>
        rw [List.cons_append] at hcs
        exact h'.not_lazy text' (by rw [(List.cons.inj hcs).1])
    have hsteps : n + 1 + (k' + k) = n + k' + 1 + k := by omega
    obtain ⟨hfirst, hrefused⟩ := hread (n + k') depth names alts parts (text' ++ rest) hdepth hmiddle
    obtain ⟨hnext, hrefused'⟩ := hread' n depth names alts (ps.reverse.map some ++ parts) rest
      hdepth hrest
    rw [List.append_assoc, hsteps]
    constructor
    · rintro ⟨hc, hc'⟩
      rw [hfirst hc, Nat.add_right_comm, hnext hc']
      simp
    · intro hnot
      by_cases hc : condition
      · rw [hfirst hc, Nat.add_right_comm, hrefused' fun hc' => hnot ⟨hc, hc'⟩]
      · exact hrefused hc

theorem congr (h : Reads mode text condition ps) (hiff : condition ↔ condition') :
    Reads mode text condition' ps :=
  propext hiff ▸ h

/-- A text that one step reads as one pattern. -/
theorem of_push {p : Pattern} (hne : text ≠ []) (hlazy : ∀ cs, text ≠ '?' :: cs)
    (h : ∀ n depth names alts parts rest,
      readAlternatives? mode (n + 1) depth (startFlags mode) names alts parts (text ++ rest) =
        readAlternatives? mode n depth (startFlags mode) names alts (some p :: parts) rest) :
    Reads mode text True [p] := by
  refine ⟨hlazy, 1, List.length_pos_iff.mpr hne, fun n depth names alts parts rest _ _ => ?_⟩
  exact ⟨fun _ => h (n + 1) depth names alts parts rest, fun hfalse => absurd trivial hfalse⟩

/-- Texts of which each is read as one pattern. -/
theorem flatMap {α : Type} {text : α → List Char} {p : α → Pattern}
    (h : ∀ a, Reads mode (text a) True [p a]) : ∀ as : List α,
    Reads mode (as.flatMap text) True (as.map p)
  | [] => nil mode
  | a :: as => ((h a).append (flatMap h as)).congr (and_self_iff)

end Reads

/-- A character is read as itself. -/
theorem reads_escape (s : List Char) :
    Reads .text (escape s) True (s.map fun c => only c.toNat) := by
  refine Reads.flatMap (fun c => ?_) s
  split_ifs with hc
  · refine Reads.of_push (List.cons_ne_nil _ _) (by simp) fun n depth names alts parts rest => ?_
    exact readAlternatives?_escape _ n depth names alts parts (readEscape?_of_isMeta hc _ rest)
      (charPattern?_startFlags .text c.toNat)
  · have hmeta : isMeta c = false := by simpa using hc
    refine Reads.of_push (List.cons_ne_nil _ _) ?_ fun n depth names alts parts rest => ?_
    · rintro cs ⟨⟩
      exact absurd hmeta (by decide)
    · exact readAlternatives?_char _ n depth names alts parts hmeta

/-- A byte is read as itself. -/
theorem reads_escapeBytes (mode : Mode) (bs : List UInt8) :
    Reads mode (escapeBytes bs) True (bs.map fun b => only b.toNat) := by
  refine Reads.flatMap (fun b => ?_) bs
  refine Reads.of_push (List.cons_ne_nil _ _) (by simp) fun n depth names alts parts rest => ?_
  exact readAlternatives?_escape _ n depth names alts parts (readEscape?_hexByte _ b rest)
    (charPattern?_byte mode b)

/-- A glob is read as its count of units, if its bounds can be written as a count. -/
theorem reads_glob (mode : Mode) {g : Glob} (hg : g.pattern = none) :
    Reads mode (g.unitText ++ g.countText) g.Counts [.repeated anyUnit g.min g.max] := by
  have hunit : g.unitText = "(?s:.)".toList := by rw [Glob.unitText, hg]
  rw [hunit]
  refine ⟨by simp, 2, by simp, fun n depth names alts parts rest hdepth hrest => ?_⟩
  rw [List.append_assoc, readAlternatives?_anyUnit _ n depth names alts parts hdepth,
    readAlternatives?_count _ (n + 1) depth names alts parts g anyUnit hrest]
  exact ⟨fun h => if_pos h, fun h => if_neg h⟩

/-- **A fragment or a glob is read as what it is written for.** -/
theorem reads_part (mode : Mode) {part : GlobPart} (h : part.Plain) :
    Reads mode (part.expression mode) part.Counts (part.patterns mode) := by
  cases part with
  | text s =>
    cases mode with
    | text =>
      show Reads .text (escape s.toList) True ((s.toList.map Char.toNat).map only)
      rw [List.map_map]
      exact reads_escape s.toList
    | bytes =>
      show Reads .bytes (escapeBytes (Text.utf8Bytes s)) True
        (((Text.utf8Bytes s).map UInt8.toNat).map only)
      rw [List.map_map]
      exact reads_escapeBytes .bytes (Text.utf8Bytes s)
  | bytes bs =>
    show Reads mode (escapeBytes bs) True ((bs.map UInt8.toNat).map only)
    rw [List.map_map]
    exact reads_escapeBytes mode bs
  | glob g => exact reads_glob mode h

theorem reads_parts (mode : Mode) : ∀ {parts : List GlobPart}, (∀ part ∈ parts, part.Plain) →
    Reads mode (parts.flatMap (GlobPart.expression mode)) (∀ part ∈ parts, part.Counts)
      (parts.flatMap (GlobPart.patterns mode))
  | [], _ => (Reads.nil mode).congr (by simp)
  | part :: parts, h => by
    obtain ⟨hpart, hparts⟩ := List.forall_mem_cons.mp h
    exact ((reads_part mode hpart).append (reads_parts mode hparts)).congr List.forall_mem_cons.symm

/-! ### The whole expression -/

theorem readAlternatives?_anchored (mode : Mode) {body : List Char} {condition : Prop}
    {ps : List Pattern} (h : Reads mode body condition ps) :
    (condition → readAlternatives? mode (2 * (anchored body).length + 2) 0 (startFlags mode) [] [] []
        (anchored body) = some (inOrder [.look .textStart, inOrder ps, .look .textEnd], [], [])) ∧
    (¬condition → readAlternatives? mode (2 * (anchored body).length + 2) 0 (startFlags mode) [] [] []
        (anchored body) = none) := by
  obtain ⟨k, hk, hread⟩ := h.read
  have hanchored : anchored body = '^' :: '(' :: '?' :: ':' :: (body ++ [')', '$']) := rfl
  -- The budget that is left for the body exceeds the steps that it takes.
  obtain ⟨n, hn⟩ : ∃ n, 2 * (anchored body).length + 2 = n + 1 + 1 + k + 2 := by
    refine ⟨2 * (anchored body).length - k - 2, ?_⟩
    rw [hanchored]
    simp only [List.length_cons, List.length_append, List.length_nil]
    omega
  have hopen : readOpening? (startFlags mode) ('?' :: ':' :: (body ++ [')', '$'])) =
      some (.group (startFlags mode) none, body ++ [')', '$']) := rfl
  have hend (p : Pattern) : readAlternatives? mode (n + 1 + 1 + k) 0 (startFlags mode) [] []
      [some p, some (.look .textStart)] ['$'] =
      some (inOrder [.look .textStart, p, .look .textEnd], [], []) := by
    rw [show n + 1 + 1 + k = n + k + 1 + 1 by omega]
    rfl
  obtain ⟨hbody, hrefused⟩ := hread (n + 1) 1 [] [] [] [')', '$'] (by decide) (by simp)
  rw [hn, hanchored, readAlternatives?]
  simp only [skipVerbose, Bool.false_eq_true, if_false]
  rw [readAlternatives?]
  simp only [skipVerbose, Bool.false_eq_true, if_false, Nat.not_lt_zero, hopen, Option.any_none,
    Option.toList_none, List.nil_append]
  constructor
  · intro hc
    rw [hbody hc, List.append_nil, readAlternatives?]
    simp only [skipVerbose, Bool.false_eq_true, if_false, sequenceOf_reverse, alternativesOf,
      List.foldl_nil]
    exact hend (inOrder ps)
  · intro hc
    rw [hrefused hc]

/-- **The expression of fragments and globs is read as their patterns in a row**, unless a count is
out of bounds or the pattern too large. -/
theorem read?_anchored (mode : Mode) {parts : List GlobPart} (h : ∀ part ∈ parts, part.Plain)
    (p : Pattern) :
    read? mode (anchored (GlobPart.wholeExpression mode parts).toList) = some p ↔
      (∀ part ∈ parts, part.Counts) ∧ (GlobPart.wholePattern mode parts).cost ≤ costLimit ∧
        p = GlobPart.wholePattern mode parts := by
  obtain ⟨hread, hrefused⟩ := readAlternatives?_anchored mode (reads_parts mode h)
  rw [GlobPart.wholeExpression, String.toList_ofList, read?]
  by_cases hc : ∀ part ∈ parts, part.Counts
  · rw [hread hc, GlobPart.wholePattern]
    simp only [Option.ite_none_right_eq_some, Option.some.injEq]
    exact ⟨fun ⟨hcost, hp⟩ => ⟨hc, hcost, hp.symm⟩, fun ⟨_, hcost, hp⟩ => ⟨hcost, hp.symm⟩⟩
  · rw [hrefused hc]
    simp [hc]

end Regex

end DottedPath
