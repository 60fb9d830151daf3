import DottedPath.Proofs.Matching.Splitting
import DottedPath.Proofs.Regex.GlobExpression
import DottedPath.Proofs.Regex.Matching

/-!
# Text globs match by splitting

A text glob is compiled to a regular expression, but it has a simple meaning: a text passes it
exactly if it is a concatenation of pieces, one for each fragment and glob in their order, where the
piece of a fragment is the fragment itself and the piece of a glob is any run of characters whose
length is within its bounds (`GlobPart.Covers`).  What a fragment is made of does not matter, nor do
line ends in a run or globs side by side.  With bytes among the fragments it is bytes that pass, the
texts among the fragments standing for their UTF-8 form.

## Main statements

- `GlobPart.matchesWithin_wholePattern`: the same for the pattern that is compiled, over any units.
- `GlobPart.valuePattern?_splits`: for the value pattern that is made of fragments and globs.
-/

namespace DottedPath

open Regex

namespace GlobPart

/-- The characters of a fragment. -/
def chars : GlobPart → List Char
  | text s => s.toList
  | _ => []

/-- The bytes of a fragment; a text stands for its UTF-8 form. -/
def asBytes : GlobPart → List UInt8
  | text s => Text.utf8Bytes s
  | bytes bs => bs
  | glob _ => []

/-- A piece is what a fragment is spelled as, or a run that a glob admits. -/
def Covers {α : Type} (spell : GlobPart → List α) : GlobPart → List α → Prop
  | glob g, piece => g.Admits piece.length
  | part, piece => piece = spell part

/-- Units that are pieces in a row, one for each fragment and glob. -/
def Splits {α : Type} (spell : GlobPart → List α) (parts : List GlobPart) (us : List α) : Prop :=
  ∃ pieces, List.Forall₂ (Covers spell) parts pieces ∧ us = pieces.flatten

/-- The units that fragments and globs are matched with: bytes if one of them is bytes. -/
def modeOf (parts : List GlobPart) : Mode :=
  if parts.any isBytes then .bytes else .text

end GlobPart

/-! ### Pieces of a text -/

namespace Regex

variable {text : List Nat}

theorem takes_only (n i j : Nat) :
    (only n).Takes text i j ↔ j = i + 1 ∧ text[i]? = some n := by
  have hsingle (m : Nat) : (UnitSet.single n).contains m = true ↔ m = n := by
    simp only [UnitSet.single, UnitSet.contains, Text.Ranges.contains, List.any_cons, List.any_nil,
      Bool.or_false, Bool.and_eq_true, decide_eq_true_eq]
    omega
  simp only [only, Pattern.Takes, hsingle, exists_eq_right]

theorem takes_anyUnit (htext : ∀ n ∈ text, n ≤ 0x10FFFF) (i j : Nat) :
    anyUnit.Takes text i j ↔ j = i + 1 ∧ j ≤ text.length := by
  simp only [anyUnit, Pattern.Takes]
  constructor
  · rintro ⟨m, ⟨rfl, n, hn, -⟩, rfl⟩
    exact ⟨rfl, (List.getElem?_eq_some_iff.mp hn).1⟩
  · rintro ⟨rfl, hj⟩
    have hi : text[i]? = some text[i] := List.getElem?_eq_getElem hj
    refine ⟨i + 1, ⟨rfl, text[i], hi, ?_⟩, rfl⟩
    have := htext text[i] (List.getElem_mem hj)
    simp [UnitSet.all, UnitSet.contains, Text.Ranges.contains, this]

/-- A number of units are taken if there are as many. -/
theorem repeated_anyUnit (htext : ∀ n ∈ text, n ≤ 0x10FFFF) (n i j : Nat) (hi : i ≤ text.length) :
    Repeated (anyUnit.Takes text) n i j ↔ j = i + n ∧ j ≤ text.length := by
  induction n generalizing i with
  | zero =>
    simp only [Repeated]
    omega
  | succ n ih =>
    simp only [Repeated, takes_anyUnit htext]
    constructor
    · rintro ⟨m, ⟨rfl, hm⟩, hj⟩
      obtain ⟨rfl, hj⟩ := (ih (i + 1) hm).mp hj
      exact ⟨by omega, hj⟩
    · rintro ⟨rfl, hj⟩
      exact ⟨i + 1, ⟨rfl, by omega⟩, (ih (i + 1) (by omega)).mpr ⟨by omega, hj⟩⟩

theorem takes_inOrder_cons (p : Pattern) (ps : List Pattern) (i j : Nat) :
    (inOrder (p :: ps)).Takes text i j ↔ ∃ m, p.Takes text i m ∧ (inOrder ps).Takes text m j :=
  Iff.rfl

/-- A fragment takes its units. -/
theorem takes_units (us : List Nat) (ps : List Pattern) (i j : Nat) :
    (inOrder (us.map only ++ ps)).Takes text i j ↔
      us <+: text.drop i ∧ (inOrder ps).Takes text (i + us.length) j := by
  induction us generalizing i with
  | nil => simp
  | cons u us ih =>
    rw [List.map_cons, List.cons_append, takes_inOrder_cons]
    simp only [takes_only]
    have hhead : u :: us <+: text.drop i ↔ text[i]? = some u ∧ us <+: text.drop (i + 1) := by
      cases hi : text[i]? with
      | none =>
        rw [List.drop_eq_nil_of_le (List.getElem?_eq_none_iff.mp hi)]
        simp
      | some n =>
        obtain ⟨hlt, rfl⟩ := List.getElem?_eq_some_iff.mp hi
        rw [List.drop_eq_getElem_cons hlt, List.cons_prefix_cons, Option.some.injEq, eq_comm]
    rw [hhead, List.length_cons]
    constructor
    · rintro ⟨m, ⟨rfl, hu⟩, hrest⟩
      obtain ⟨hus, hrest⟩ := (ih (i + 1)).mp hrest
      exact ⟨⟨hu, hus⟩, by rwa [Nat.add_right_comm] at hrest⟩
    · rintro ⟨⟨hu, hus⟩, hrest⟩
      exact ⟨i + 1, ⟨rfl, hu⟩, (ih (i + 1)).mpr ⟨hus, by rwa [Nat.add_right_comm]⟩⟩

/-- A glob takes a run that it admits. -/
theorem takes_glob (htext : ∀ n ∈ text, n ≤ 0x10FFFF) {g : Glob} (hg : g.Counts) (i j : Nat)
    (hi : i ≤ text.length) :
    (Pattern.repeated anyUnit g.min g.max).Takes text i j ↔
      ∃ n, g.Admits n ∧ j = i + n ∧ j ≤ text.length := by
  have hmost (n : Nat) : (g.min ≤ n ∧ ∀ most, g.max = some most → n ≤ g.min + (most - g.min)) ↔
      g.Admits n := by
    refine and_congr_right fun _ => forall₂_congr fun most hmost => ?_
    have := (hg.2 most hmost).1
    omega
  simp only [Pattern.Takes, repeated_anyUnit htext _ i j hi, ← and_assoc, hmost]

end Regex

namespace GlobPart

variable {α : Type} {code : α → Nat} {mode : Mode} {spell : GlobPart → List α}
  {parts : List GlobPart}

theorem splits_nil (us : List α) : Splits spell [] us ↔ us = [] := by
  simp [Splits]

/-- The first piece is one of the first fragment or glob. -/
theorem splits_cons (part : GlobPart) (us : List α) :
    Splits spell (part :: parts) us ↔
      ∃ piece rest, us = piece ++ rest ∧ part.Covers spell piece ∧ Splits spell parts rest := by
  constructor
  · rintro ⟨pieces, hpieces, rfl⟩
    obtain ⟨piece, rest, hpiece, hrest, rfl⟩ := List.forall₂_cons_left_iff.mp hpieces
    exact ⟨piece, rest.flatten, rfl, hpiece, rest, hrest, rfl⟩
  · rintro ⟨piece, _, rfl, hpiece, pieces, hpieces, rfl⟩
    exact ⟨piece :: pieces, .cons hpiece hpieces, rfl⟩

/-- A fragment takes itself, and what follows it goes on behind it. -/
theorem takes_fragment (hcode : Function.Injective code) {units : List Nat} {fragment : List α}
    (hunits : units = fragment.map code) (ps : List Pattern) (done us : List α) (j : Nat) :
    (inOrder (units.map only ++ ps)).Takes ((done ++ us).map code) done.length j ↔
      ∃ piece rest, us = piece ++ rest ∧ piece = fragment ∧
        (inOrder ps).Takes ((done ++ us).map code) (done ++ piece).length j := by
  have hdrop : ((done ++ us).map code).drop done.length = us.map code := by
    rw [List.map_append, List.drop_left' (List.length_map ..)]
  rw [takes_units, hdrop, hunits, List.length_map]
  simp only [List.length_append]
  constructor
  · rintro ⟨hbegins, hrest⟩
    obtain ⟨rest, rfl⟩ := (List.prefix_map_iff_of_injective hcode).mp hbegins
    exact ⟨fragment, rest, rfl, rfl, hrest⟩
  · rintro ⟨_, rest, rfl, rfl, hrest⟩
    exact ⟨(List.prefix_append _ rest).map code, hrest⟩

/-- A glob takes a run that it admits, and what follows it goes on behind the run. -/
theorem takes_run (hbound : ∀ a, code a ≤ 0x10FFFF) {g : Glob} (hcounts : g.Counts)
    (ps : List Pattern) (done us : List α) (j : Nat) :
    (inOrder (.repeated anyUnit g.min g.max :: ps)).Takes ((done ++ us).map code) done.length j ↔
      ∃ run rest, us = run ++ rest ∧ g.Admits run.length ∧
        (inOrder ps).Takes ((done ++ us).map code) (done ++ run).length j := by
  have htext : ∀ n ∈ (done ++ us).map code, n ≤ 0x10FFFF := by
    intro n hn
    obtain ⟨a, -, rfl⟩ := List.mem_map.mp hn
    exact hbound a
  have hlength : ((done ++ us).map code).length = done.length + us.length := by
    rw [List.length_map, List.length_append]
  have hstart : done.length ≤ ((done ++ us).map code).length := by omega
  rw [takes_inOrder_cons]
  simp only [takes_glob htext hcounts _ _ hstart, hlength]
  constructor
  · rintro ⟨m, ⟨n, hn, rfl, hm⟩, hrest⟩
    have htake : (us.take n).length = n := by
      rw [List.length_take]
      omega
    refine ⟨us.take n, us.drop n, (List.take_append_drop n us).symm, ?_, ?_⟩
    · rwa [htake]
    · rwa [List.length_append, htake]
  · rintro ⟨run, rest, rfl, hrun, hrest⟩
    refine ⟨_, ⟨run.length, hrun, rfl, ?_⟩, by rwa [List.length_append] at hrest⟩
    rw [List.length_append]
    omega

/-- The first of several fragments and globs takes a piece, and the others go on behind it. -/
theorem takes_part (hcode : Function.Injective code) (hbound : ∀ a, code a ≤ 0x10FFFF)
    {part : GlobPart} (hunits : part.units mode = (spell part).map code) (hcounts : part.Counts)
    (ps : List Pattern) (done us : List α) (j : Nat) :
    (inOrder (part.patterns mode ++ ps)).Takes ((done ++ us).map code) done.length j ↔
      ∃ piece rest, us = piece ++ rest ∧ part.Covers spell piece ∧
        (inOrder ps).Takes ((done ++ us).map code) (done ++ piece).length j := by
  cases part with
  | text s => exact takes_fragment hcode hunits ps done us j
  | bytes bs => exact takes_fragment hcode hunits ps done us j
  | glob g => exact takes_run hbound hcounts ps done us j

/-- Fragments and globs take a text up to its end by pieces that they are covered by. -/
theorem takes_parts (hcode : Function.Injective code) (hbound : ∀ a, code a ≤ 0x10FFFF)
    (hunits : ∀ part ∈ parts, part.units mode = (spell part).map code)
    (hcounts : ∀ part ∈ parts, part.Counts) (done us : List α) :
    (inOrder (parts.flatMap (patterns mode))).Takes ((done ++ us).map code) done.length
        (done ++ us).length ↔ Splits spell parts us := by
  induction parts generalizing done us with
  | nil =>
    rw [splits_nil]
    show done.length = (done ++ us).length ↔ us = []
    rw [List.length_append, Nat.left_eq_add, List.length_eq_zero_iff]
  | cons part parts ih =>
    obtain ⟨hpart, hparts⟩ := List.forall_mem_cons.mp hunits
    obtain ⟨hcount, hcounts⟩ := List.forall_mem_cons.mp hcounts
    rw [List.flatMap_cons, takes_part hcode hbound hpart hcount, splits_cons]
    constructor
    · rintro ⟨piece, rest, rfl, hpiece, hrest⟩
      rw [← List.append_assoc] at hrest
      exact ⟨piece, rest, rfl, hpiece, (ih hparts hcounts (done ++ piece) rest).mp hrest⟩
    · rintro ⟨piece, rest, rfl, hpiece, hrest⟩
      refine ⟨piece, rest, rfl, hpiece, ?_⟩
      rw [← List.append_assoc]
      exact (ih hparts hcounts (done ++ piece) rest).mpr hrest

/-- **The pattern of fragments and globs matches what splits into their pieces.** -/
theorem matchesWithin_wholePattern (hcode : Function.Injective code)
    (hbound : ∀ a, code a ≤ 0x10FFFF)
    (hunits : ∀ part ∈ parts, part.units mode = (spell part).map code)
    (hcounts : ∀ part ∈ parts, part.Counts) (us : List α) :
    (wholePattern mode parts).matchesWithin (us.map code) = true ↔ Splits spell parts us := by
  have hparts := takes_parts hcode hbound hunits hcounts [] us
  rw [List.nil_append, List.length_nil] at hparts
  rw [Pattern.matchesWithin_iff, ← hparts]
  simp only [wholePattern, takes_inOrder_cons, Pattern.takes_textStart, Pattern.takes_textEnd,
    List.length_map]
  constructor
  · rintro ⟨i, -, j, m, ⟨rfl, rfl⟩, m', hbody, -, ⟨rfl, -⟩, -⟩
    exact hbody
  · intro hbody
    exact ⟨0, Nat.zero_le _, us.length, 0, ⟨rfl, rfl⟩, us.length, hbody, us.length, ⟨rfl, rfl⟩, rfl⟩

/-! ### Value patterns -/

/-- The expression of fragments of text matches the texts that split. -/
theorem matches_of_text {source : String} {re : TextRegex} (hplain : ∀ part ∈ parts, part.Plain)
    (htext : parts.any isBytes = false)
    (hre : TextRegex.compile? source (wholeExpression .text parts) = some re) (t : String) :
    re.matches t = true ↔ Splits chars parts t.toList := by
  obtain ⟨p, hp, rfl⟩ := Option.map_eq_some_iff.mp hre
  obtain ⟨hcounts, -, rfl⟩ := (read?_anchored .text hplain p).mp hp
  refine matchesWithin_wholePattern (fun _ _ => Char.toNat_inj.mp) (fun c => ?_) ?_ hcounts t.toList
  · have hvalid : c.toNat < 0xD800 ∨ 0xDFFF < c.toNat ∧ c.toNat < 0x110000 := c.valid
    omega
  · intro part hpart
    cases part with
    | text s => rfl
    | bytes bs =>
      rw [List.any_eq_false] at htext
      exact absurd rfl (htext _ hpart)
    | glob g => rfl

/-- The expression of fragments of which some are bytes matches the bytes that split. -/
theorem matches_of_bytes {source : String} {re : BytesRegex} (hplain : ∀ part ∈ parts, part.Plain)
    (hre : BytesRegex.compile? source (wholeExpression .bytes parts) = some re) (bs : List UInt8) :
    re.matches bs = true ↔ Splits asBytes parts bs := by
  obtain ⟨p, hp, rfl⟩ := Option.map_eq_some_iff.mp hre
  obtain ⟨hcounts, -, rfl⟩ := (read?_anchored .bytes hplain p).mp hp
  refine matchesWithin_wholePattern (fun _ _ => UInt8.toNat_inj.mp) (fun b => ?_) ?_ hcounts bs
  · have := b.toNat_lt
    omega
  · intro part _
    cases part <;> rfl

theorem splits_single {part : GlobPart}
    (hcovers : ∀ piece, part.Covers spell piece ↔ piece = spell part) (us : List α) :
    Splits spell [part] us ↔ us = spell part := by
  simp [splits_cons, splits_nil, hcovers]

theorem equalsLiteral_scalar {x : Scalar} (hx : ∀ y, x.equals y = true ↔ y = x) (s : Store)
    (v : Value) : s.equalsLiteral (.scalar x) v = true ↔ v = .scalar x := by
  obtain ⟨n, hn⟩ : ∃ n, s.comparisonDepth = n + 1 := ⟨_, rfl⟩
  show s.equals (.scalar x) v = true ↔ _
  rw [Store.equals, hn]
  cases v with
  | scalar y => simp [Store.equalsWithin, hx]
  | ref h => simp [Store.equalsWithin]

/-- A literal text matches itself. -/
theorem valueMatches_str (s : Store) (t : String) (v : Value) :
    s.valueMatches (.literal (.str t)) v = true ↔ v = .str t := by
  rw [Store.valueMatches]
  refine equalsLiteral_scalar (fun y => ?_) s v
  cases y with
  | str u =>
    show (t == u) = true ↔ Scalar.str u = .str t
    rw [beq_iff_eq, Scalar.str.injEq]
    exact eq_comm
  | _ => simp [Scalar.equals, Scalar.toInt?, Scalar.toFloat?]

/-- Literal bytes match themselves. -/
theorem valueMatches_bytes (s : Store) (bs : List UInt8) (v : Value) :
    s.valueMatches (.literal (.bytes bs)) v = true ↔ v = .bytes bs := by
  rw [Store.valueMatches]
  refine equalsLiteral_scalar (fun y => ?_) s v
  cases y with
  | bytes cs =>
    show (bs == cs) = true ↔ Scalar.bytes cs = .bytes bs
    rw [beq_iff_eq, Scalar.bytes.injEq]
    exact eq_comm
  | _ => simp [Scalar.equals, Scalar.toInt?, Scalar.toFloat?]

theorem valueMatches_textGlob (s : Store) (re : TextRegex) (v : Value) :
    s.valueMatches (.textGlob parts re) v = true ↔ ∃ t, v = .str t ∧ re.matches t = true := by
  constructor
  · intro h
    unfold Store.valueMatches at h
    split at h
    · exact ⟨_, rfl, h⟩
    · cases h
  · rintro ⟨t, rfl, h⟩
    rwa [Value.str, Store.valueMatches]

theorem valueMatches_bytesGlob (s : Store) (re : BytesRegex) (v : Value) :
    s.valueMatches (.bytesGlob parts re) v = true ↔ ∃ bs, v = .bytes bs ∧ re.matches bs = true := by
  constructor
  · intro h
    unfold Store.valueMatches at h
    split at h
    · exact ⟨_, rfl, h⟩
    · cases h
  · rintro ⟨bs, rfl, h⟩
    rwa [Value.bytes, Store.valueMatches]

/-- What holds of every fragment holds of every part, if it holds of the globs. -/
theorem forall_parts {parts : List GlobPart} {P : GlobPart → Prop} (htext : ∀ s, P (text s))
    (hbytes : ∀ bs, P (bytes bs)) (hglob : ∀ g, glob g ∈ parts → P (glob g)) :
    ∀ part ∈ parts, P part := by
  intro part hpart
  cases part with
  | text s => exact htext s
  | bytes bs => exact hbytes bs
  | glob g => exact hglob g hpart

/-- If bounds can be written as counts and the pattern is not too large, there is a value pattern. -/
theorem exists_valuePattern? {parts : List GlobPart} (hplain : ∀ part ∈ parts, part.Plain)
    (hcounts : ∀ part ∈ parts, part.Counts)
    (hcost : (wholePattern (modeOf parts) parts).cost ≤ costLimit) :
    ∃ p, valuePattern? parts = some p := by
  have hread := (read?_anchored (modeOf parts) hplain _).mpr ⟨hcounts, hcost, rfl⟩
  unfold valuePattern?
  split
  · exact ⟨_, rfl⟩
  · exact ⟨_, rfl⟩
  · simp only [modeOf] at hread
    split_ifs at hread ⊢ with hbytes
    · simp [BytesRegex.compile?, hread]
    · simp [TextRegex.compile?, hread]

/-- What passes the value pattern is in pieces. -/
theorem valueMatches_valuePattern? {parts : List GlobPart} (hplain : ∀ part ∈ parts, part.Plain)
    {p : ValuePattern} (hp : valuePattern? parts = some p) (s : Store) (v : Value) :
    s.valueMatches p v = true ↔
      if parts.any isBytes then ∃ bs, v = .bytes bs ∧ Splits asBytes parts bs
      else ∃ t, v = .str t ∧ Splits chars parts t.toList := by
  unfold valuePattern? at hp
  -- A fragment alone is compared as it is; everything else becomes an expression.
  split at hp
  · next t =>
    cases hp
    rw [valueMatches_str, if_neg (by simp [isBytes])]
    have hsplits (u : String) : Splits chars [text t] u.toList ↔ u = t :=
      (splits_single (fun _ => Iff.rfl) _).trans String.toList_inj
    simp only [hsplits, exists_eq_right]
  · next bs =>
    cases hp
    rw [valueMatches_bytes, if_pos (by simp [isBytes])]
    have hsplits (us : List UInt8) : Splits asBytes [bytes bs] us ↔ us = bs :=
      splits_single (fun _ => Iff.rfl) _
    simp only [hsplits, exists_eq_right]
  · split_ifs at hp ⊢ with hbytes
    · obtain ⟨re, hre, rfl⟩ := Option.map_eq_some_iff.mp hp
      simp only [valueMatches_bytesGlob, matches_of_bytes hplain hre]
    · obtain ⟨re, hre, rfl⟩ := Option.map_eq_some_iff.mp hp
      simp only [valueMatches_textGlob,
        matches_of_text hplain (Bool.not_eq_true _ ▸ hbytes) hre]

/-- **Text globs match by splitting.**  If bounds can be written as counts and the pattern is not too
large, fragments and globs without inner expressions make a value pattern.  Whenever they make one, a
value passes it exactly if it is a text in pieces, each fragment verbatim and each glob any run of
characters whose number is within its bounds; or, if a fragment is bytes, bytes in such pieces, where
a text stands for its UTF-8 form and runs are counted in bytes. -/
theorem valuePattern?_splits (parts : List GlobPart)
    (hplain : ∀ g, glob g ∈ parts → g.pattern = none) :
    ((∀ g, glob g ∈ parts → g.Counts) →
        (wholePattern (modeOf parts) parts).cost ≤ costLimit → ∃ p, valuePattern? parts = some p) ∧
      ∀ p, valuePattern? parts = some p → ∀ (s : Store) (v : Value), s.valueMatches p v = true ↔
        if parts.any isBytes then ∃ bs, v = .bytes bs ∧ Splits asBytes parts bs
        else ∃ t, v = .str t ∧ Splits chars parts t.toList := by
  have hplain : ∀ part ∈ parts, part.Plain :=
    forall_parts (fun _ => trivial) (fun _ => trivial) hplain
  refine ⟨fun hcounts hcost => ?_, fun p hp => valueMatches_valuePattern? hplain hp⟩
  have hcounts : ∀ part ∈ parts, part.Counts :=
    forall_parts (fun _ => trivial) (fun _ => trivial) hcounts
  exact exists_valuePattern? hplain hcounts hcost

/-- What has a meaning in expressions stands for itself, and runs go over line ends; what the first
fragment would match as an expression does not pass.  With bytes among the fragments a text is in its
UTF-8 form, and a run of one byte is not a whole character. -/
theorem valuePattern?_splits_escaped :
    let texts := [text "a.*(", glob ⟨none, 0, some 2⟩, glob ⟨none, 1, none⟩, text "é|"]
    let mixed := [text "é", glob ⟨none, 1, some 1⟩, bytes [0xFF]]
    (∃ p, valuePattern? texts = some p ∧ ∀ s : Store,
      s.valueMatches p (.str "a.*(\n\n\né|") = true ∧ s.valueMatches p (.str "abc(xé|") = false) ∧
    ∃ p, valuePattern? mixed = some p ∧ ∀ s : Store,
      s.valueMatches p (.bytes [0xC3, 0xA9, 0x0A, 0xFF]) = true ∧
        s.valueMatches p (.bytes [0xC3, 0xA9, 0xC3, 0xA9, 0xFF]) = false := by
  intro texts mixed
  constructor
  · obtain ⟨hcompiles, hmatches⟩ := valuePattern?_splits texts (by simp [texts])
    obtain ⟨p, hp⟩ := hcompiles (by simp [texts, Glob.Counts]) (by decide +kernel)
    refine ⟨p, hp, fun s => ⟨(hmatches p hp s _).mpr ⟨_, rfl, ?_⟩, ?_⟩⟩
    · refine ⟨["a.*(".toList, ['\n', '\n'], ['\n'], "é|".toList], ?_, by decide +kernel⟩
      refine .cons rfl (.cons ⟨?_, ?_⟩ (.cons ⟨?_, ?_⟩ (.cons rfl .nil))) <;> simp
    · rw [Bool.eq_false_iff]
      intro h
      obtain ⟨t, ⟨⟩, hsplits⟩ := (hmatches p hp s _).mp h
      obtain ⟨piece, rest, heq, hpiece, -⟩ := (splits_cons _ _).mp hsplits
      obtain rfl : piece = "a.*(".toList := hpiece
      exact absurd (congrArg (·[1]?) heq) (by simp)
  · obtain ⟨hcompiles, hmatches⟩ := valuePattern?_splits mixed (by simp [mixed])
    obtain ⟨p, hp⟩ := hcompiles (by simp [mixed, Glob.Counts]) (by decide +kernel)
    refine ⟨p, hp, fun s => ⟨(hmatches p hp s _).mpr ⟨_, rfl, ?_⟩, ?_⟩⟩
    · refine ⟨[[0xC3, 0xA9], [0x0A], [0xFF]], ?_, rfl⟩
      have htext : ([0xC3, 0xA9] : List UInt8) = Text.utf8Bytes "é" := by decide +kernel
      exact .cons htext (.cons ⟨Nat.le_refl 1, by simp⟩ (.cons rfl .nil))
    · rw [Bool.eq_false_iff]
      intro h
      obtain ⟨bs, ⟨⟩, hsplits⟩ := (hmatches p hp s _).mp h
      obtain ⟨piece, rest, heq, hpiece, hrest⟩ := (splits_cons _ _).mp hsplits
      obtain ⟨run, last, rfl, hrun, hlast⟩ := (splits_cons _ _).mp hrest
      obtain rfl : piece = Text.utf8Bytes "é" := hpiece
      obtain rfl : last = [0xFF] := (splits_single (fun _ => Iff.rfl) _).mp hlast
      have hlength := congrArg List.length heq
      have hmost := hrun.2 1 rfl
      have htext : (Text.utf8Bytes "é").length = 2 := by decide +kernel
      simp [htext] at hlength
      omega

end GlobPart

end DottedPath
