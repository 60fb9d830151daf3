import DottedPath.Proofs.Path.SuffixText

/-!
# Chains of transforms, read back

A chain at the end of a path is read twice: first as part of a guard, which has its own rules for
arguments, and then, when no comparison follows it, as what it is.  `endsSegment_chainText`: the chain
is not taken for a guard.  `transforms_chainText`: it is read back, if its calls are readable
(`TransformCall.Readable`).

## Implementation notes

Behind a guard an argument ends earlier, so the first reading may stop anywhere in the chain, or
fail.  It is not followed to where it stops: `Uncompared` says of a text that wherever the reading of
calls ends in it, no comparison stands there, and each part of a chain keeps that property.
-/

namespace DottedPath

/-! ### Readable calls -/

/-- What a comparison begins with. -/
def comparisonStarts : List Char :=
  ['=', '!', '<', '>']

/-- What an argument without quotes does not hold: a character that ends it, or a backslash. -/
def argumentEnds : List Char :=
  [':', '|', '\\']

/-- What it does not hold if it stands without a name, so that no comparison is read in it. -/
def argumentStops : List Char :=
  argumentEnds ++ comparisonStarts

/-- The text of a literal is read as the literal, in the place of an argument without quotes. -/
structure Literal.Bare (a : Literal) : Prop where
  char : ∀ c ∈ a.argumentText.toList, c ∉ argumentStops
  no_quote : ∀ c ∈ a.argumentText.toList.head?, isQuote c = false
  not_raises : a.argumentText ≠ "raises"
  literal : Parse.argumentLiteral a.argumentText.toList = a

/-- A literal that is read back as an argument. -/
inductive Literal.ReadableArgument : Literal → Prop where
  | quoted {s : String} (h : (Literal.str s).argumentText = Text.quoted s) :
    ReadableArgument (.str s)
  | bare {a : Literal} (h : a.Bare) : ReadableArgument a

/-- An argument with its name is read back.  In a guard such a name must be no literal, or the equals
sign behind it would be a comparison. -/
structure ReadableNamed (argument : String × Literal) : Prop where
  name : Parse.isArgumentName argument.1.toList = true
  not_raises : argument.1 ≠ "raises"
  not_literal : Parse.strictLiteral? argument.1.toList = none
  char : ∀ c ∈ argument.2.text.toList, c ∉ argumentEnds
  literal : Parse.strictLiteral? argument.2.text.toList = some argument.2

/-- May stand in the name of a transform. -/
def isTransformNameChar (c : Char) : Bool :=
  Text.isAlphanumeric c || c == '_' || c == '.'

/-- A call that is read back. -/
structure TransformCall.Readable (c : TransformCall) : Prop where
  name_ne : c.name ≠ ""
  name : ∀ d ∈ c.name.toList, isTransformNameChar d = true
  args : ∀ a ∈ c.args, a.ReadableArgument
  named : ∀ a ∈ c.named, ReadableNamed a

theorem TransformCall.Readable.name_isEmpty {c : TransformCall} (h : c.Readable) :
    c.name.toList.isEmpty = false := by
  rw [List.isEmpty_eq_false_iff]
  exact fun hnil => h.name_ne (String.toList_eq_nil_iff.mp hnil)

/-! ### Texts -/

theorem joined_empty_cons (x : String) (xs : List String) :
    joined "" (x :: xs) = x ++ joined "" xs := by
  cases xs with
  | nil => simp [joined]
  | cons y ys => rw [joined, String.intercalate_cons_cons, String.append_empty, joined]

/-- Arguments, each behind its colon. -/
def argsChars (args : List Literal) : List Char :=
  args.flatMap fun a => ':' :: a.argumentText.toList

/-- Arguments with their names, each behind its colon. -/
def namedChars (named : List (String × Literal)) : List Char :=
  named.flatMap fun a => ':' :: (a.1.toList ++ '=' :: a.2.text.toList)

/-- What stands behind the name of a call. -/
def argumentChars (c : TransformCall) : List Char :=
  argsChars c.args ++ (namedChars c.named ++ (sign ":raises" c.raises).toList)

theorem toList_joined_args (args : List Literal) :
    (joined "" (args.map fun a => ":" ++ a.argumentText)).toList = argsChars args := by
  induction args with
  | nil => rfl
  | cons a args ih =>
    rw [List.map_cons, joined_empty_cons, String.toList_append, ih, String.toList_append]
    rfl

theorem toList_joined_named (named : List (String × Literal)) :
    (joined "" (named.map fun (name, v) => ":" ++ name ++ "=" ++ v.text)).toList =
      namedChars named := by
  induction named with
  | nil => rfl
  | cons a named ih =>
    rw [List.map_cons, joined_empty_cons, String.toList_append, ih]
    simp [namedChars]

/-- A call after its bar. -/
def callChars (c : TransformCall) : List Char :=
  '|' :: (c.name.toList ++ argumentChars c)

theorem toList_callText (c : TransformCall) : c.text.toList = callChars c := by
  rw [TransformCall.text, callChars, argumentChars, ← toList_joined_args, ← toList_joined_named]
  simp

theorem toList_chainText (calls : List TransformCall) :
    (chainText calls).toList = calls.flatMap callChars := by
  induction calls with
  | nil => rfl
  | cons c calls ih =>
    rw [chainText] at ih ⊢
    rw [List.map_cons, joined_empty_cons, String.toList_append, toList_callText, ih, List.flatMap_cons]

theorem toList_chainText_cons (c : TransformCall) (calls : List TransformCall) :
    (chainText (c :: calls)).toList =
      '|' :: (c.name.toList ++ (argumentChars c ++ (chainText calls).toList)) := by
  simp [toList_chainText, callChars]

theorem length_le_length_flatMap {α : Type} {f : α → List Char} (hf : ∀ x, f x ≠ []) (xs : List α) :
    xs.length ≤ (xs.flatMap f).length := by
  induction xs with
  | nil => exact Nat.zero_le _
  | cons x xs ih =>
    have hx : 0 < (f x).length := List.length_pos_iff.mpr (hf x)
    rw [List.flatMap_cons, List.length_append, List.length_cons]
    omega

/-- No call has more arguments than characters behind its name. -/
theorem length_le_length_argumentChars (c : TransformCall) :
    c.args.length + c.named.length ≤ (argumentChars c).length := by
  have hargs : c.args.length ≤ (argsChars c.args).length :=
    length_le_length_flatMap (fun _ => List.cons_ne_nil _ _) c.args
  have hnamed : c.named.length ≤ (namedChars c.named).length :=
    length_le_length_flatMap (fun _ => List.cons_ne_nil _ _) c.named
  rw [argumentChars, List.length_append, List.length_append]
  omega

namespace Parse

/-- The next argument begins here, or the next call, or the chain ends. -/
def EndsArgument (rest : List Char) : Prop :=
  ∀ c ∈ rest.head?, c = ':' ∨ c = '|'

theorem endsArgument_chainText (calls : List TransformCall) :
    EndsArgument (chainText calls).toList := by
  cases calls with
  | nil => exact nofun
  | cons c calls =>
    rw [toList_chainText_cons]
    rintro d ⟨⟩
    exact .inr rfl

theorem head?_chainText_ne (calls : List TransformCall) :
    (chainText calls).toList.head? ≠ some ':' := by
  cases calls with
  | nil => rintro ⟨⟩
  | cons c calls =>
    rw [toList_chainText_cons]
    rintro ⟨⟩

theorem endsArgument_raises (raises : Bool) {rest : List Char} (hr : EndsArgument rest) :
    EndsArgument ((sign ":raises" raises).toList ++ rest) := by
  cases raises with
  | false => exact hr
  | true =>
    rintro c ⟨⟩
    exact .inl rfl

theorem endsArgument_named (named : List (String × Literal)) {rest : List Char}
    (hr : EndsArgument rest) : EndsArgument (namedChars named ++ rest) := by
  cases named with
  | nil => exact hr
  | cons a named =>
    rintro c ⟨⟩
    exact .inl rfl

theorem endsArgument_args (args : List Literal) {rest : List Char} (hr : EndsArgument rest) :
    EndsArgument (argsChars args ++ rest) := by
  cases args with
  | nil => exact hr
  | cons a args =>
    rintro c ⟨⟩
    exact .inl rfl

theorem EndsArgument.endsName {rest : List Char} (hr : EndsArgument rest) :
    ∀ c ∈ rest.head?, isTransformNameChar c = false := by
  intro c hc
  rcases hr c hc with rfl | rfl <;> decide

/-! ### Arguments -/

theorem argumentFrom_ends {place : ChainPlace} {c : Char} {cs : List Char}
    (h : endsArgument place (c :: cs) = true) (taken : List Char) :
    argumentFrom place taken (c :: cs) = (taken.reverse, c :: cs) := by
  rw [argumentFrom.eq_def]
  exact if_pos h

theorem argumentFrom_goes {place : ChainPlace} {c : Char} {cs : List Char}
    (h : endsArgument place (c :: cs) = false) (hslash : c ≠ '\\') (taken : List Char) :
    argumentFrom place taken (c :: cs) = argumentFrom place (c :: taken) cs := by
  rw [argumentFrom.eq_def]
  dsimp only
  rw [h, if_neg Bool.false_ne_true, if_neg (by simpa using hslash)]

/-- An argument goes on to where the first character ends it. -/
theorem argumentFrom_until {place : ChainPlace} {raw rest : List Char}
    (h : ∀ c ∈ raw, c ≠ '\\' ∧ ∀ cs, endsArgument place (c :: cs) = false)
    (hr : endsArgument place rest = true) (taken : List Char) :
    argumentFrom place taken (raw ++ rest) = (taken.reverse ++ raw, rest) := by
  induction raw generalizing taken with
  | nil =>
    rw [List.nil_append, List.append_nil]
    cases rest with
    | nil => rfl
    | cons c rest => exact argumentFrom_ends hr taken
  | cons c raw ih =>
    obtain ⟨⟨hslash, hgoes⟩, hraw⟩ := List.forall_mem_cons.mp h
    rw [List.cons_append, argumentFrom_goes (hgoes _) hslash, ih hraw]
    simp

theorem EndsArgument.endsArgument {rest : List Char} (hr : EndsArgument rest) (place : ChainPlace) :
    endsArgument place rest = true := by
  cases rest with
  | nil => cases place <;> rfl
  | cons c rest => rcases hr c rfl with rfl | rfl <;> cases place <;> rfl

/-- At the end of a path only a colon or a bar ends it. -/
theorem argumentFrom_trailing {raw rest : List Char} (h : ∀ c ∈ raw, c ∉ argumentEnds)
    (hr : EndsArgument rest) : argumentFrom .trailing [] (raw ++ rest) = (raw, rest) := by
  refine argumentFrom_until (fun c hc => ?_) (hr.endsArgument .trailing) []
  have hc := h c hc
  simp only [argumentEnds, List.mem_cons, List.not_mem_nil, or_false, not_or] at hc
  obtain ⟨hcolon, hbar, hslash⟩ := hc
  exact ⟨hslash, fun cs => by simp [endsArgument, hcolon, hbar]⟩

/-- In a guard it may end before that, but not at a comparison. -/
theorem argumentFrom_guard {raw rest : List Char} (h : ∀ c ∈ raw, c ∉ argumentStops)
    (hr : EndsArgument rest) (taken : List Char) : ∃ arg left,
      argumentFrom .guard taken (raw ++ rest) = (arg, left) ∧
        (left = rest ∨ ∀ c ∈ left.head?, c ∉ argumentStops) := by
  induction raw generalizing taken with
  | nil => exact ⟨_, _, argumentFrom_until (List.forall_mem_nil _) (hr.endsArgument .guard) taken, .inl rfl⟩
  | cons c raw ih =>
    obtain ⟨hc, hraw⟩ := List.forall_mem_cons.mp h
    cases hend : endsArgument .guard (c :: (raw ++ rest)) with
    | true =>
      refine ⟨_, _, argumentFrom_ends hend taken, .inr fun d hd => ?_⟩
      cases hd
      exact hc
    | false =>
      have hslash : c ≠ '\\' := fun hslash => hc (by rw [hslash]; decide)
      rw [List.cons_append, argumentFrom_goes hend hslash]
      exact ih hraw _

theorem argumentsWithin_step {place : ChainPlace} {call call' : TransformCall} {cs mid : List Char}
    (h : argument place call cs = .ok (call', mid)) (n : Nat) :
    argumentsWithin place (n + 1) call (':' :: cs) = argumentsWithin place n call' mid := by
  rw [argumentsWithin, run_bind_of_ok (eat_cons_self ':' cs), if_pos rfl, run_bind_of_ok h]

theorem argumentsWithin_done {place : ChainPlace} {cs : List Char} (h : cs.head? ≠ some ':') (n : Nat)
    (call : TransformCall) : argumentsWithin place n call cs = .ok (call, cs) := by
  cases n with
  | zero => rfl
  | succ n =>
    rw [argumentsWithin, run_bind_of_ok (eat_of_head?_ne h)]
    rfl

theorem argument_quoted (place : ChainPlace) (call : TransformCall) (s : String) (rest : List Char) :
    argument place call ((Text.quoted s).toList ++ rest) =
      .ok ({ call with args := call.args ++ [.str s] }, rest) := by
  have hquote : ((Text.quoted s).toList ++ rest)[0]?.any isQuote = true := by
    rw [toList_quoted]
    rfl
  rw [argument, run_bind_of_ok (run_quoteAt _ _), hquote, if_pos rfl,
    run_bind_of_ok (quotedText_quoted s rest)]
  rfl

/-- What is not quoted is no quoted argument. -/
theorem argument_unquoted (place : ChainPlace) (call : TransformCall) {cs : List Char}
    (h : ∀ c ∈ cs.head?, isQuote c = false) {raw rest : List Char}
    (hfrom : argumentFrom place [] cs = (raw, rest)) :
    argument place call cs =
      if place == .guard && rest.head? == some '=' && !raw.isEmpty && (strictLiteral? raw).isNone then
        (fail "ambiguous transform argument" : Parse TransformCall) rest
      else .ok (addArgument place raw call, rest) := by
  have hquote : cs[0]?.any isQuote = false := by
    cases cs with
    | nil => rfl
    | cons c cs => exact h c rfl
  rw [argument, run_bind_of_ok (run_quoteAt _ _), hquote, if_neg Bool.false_ne_true,
    run_bind_of_ok (run_get _), hfrom]
  dsimp only
  rw [run_bind_of_ok (run_set _ _)]
  split <;> rfl

/-! ### At the end of a path -/

/-- A bare argument does not begin like a quoted one. -/
theorem no_quote_of_bare {a : Literal} (h : a.Bare) {rest : List Char} (hr : EndsArgument rest) :
    ∀ c ∈ (a.argumentText.toList ++ rest).head?, isQuote c = false := by
  have hquote := h.no_quote
  cases htext : a.argumentText.toList with
  | nil =>
    intro c hc
    rcases hr c hc with rfl | rfl <;> decide
  | cons d ds =>
    rw [htext] at hquote
    exact hquote

theorem namedArgument?_eq_none {raw : List Char} (h : ∀ c ∈ raw, c ≠ '=') :
    namedArgument? raw = none := by
  have hdrop : (raw ++ []).dropWhile (· != '=') = [] :=
    List.dropWhile_append_of_pos fun c hc => bne_iff_ne.mpr (h c hc)
  rw [List.append_nil] at hdrop
  rw [namedArgument?, hdrop]

/-- A bare text is added as the literal that it says. -/
theorem addArgument_bare (place : ChainPlace) {a : Literal} (h : a.Bare) (call : TransformCall) :
    addArgument place a.argumentText.toList call = { call with args := call.args ++ [a] } := by
  have hequals : ∀ c ∈ a.argumentText.toList, c ≠ '=' := by
    rintro c hc rfl
    exact h.char _ hc (by decide)
  have hraises : (a.argumentText.toList == "raises".toList) = false :=
    beq_eq_false_iff_ne.mpr fun heq => h.not_raises (String.toList_inj.mp heq)
  rw [addArgument, hraises, if_neg Bool.false_ne_true, namedArgument?_eq_none hequals, ite_self,
    h.literal]

theorem argument_readable {a : Literal} (h : a.ReadableArgument) (call : TransformCall)
    {rest : List Char} (hr : EndsArgument rest) :
    argument .trailing call (a.argumentText.toList ++ rest) =
      .ok ({ call with args := call.args ++ [a] }, rest) := by
  cases h with
  | quoted h => rw [h, argument_quoted]
  | bare h =>
    have hplain : ∀ c ∈ a.argumentText.toList, c ∉ argumentEnds := fun c hc hstop =>
      h.char c hc (List.mem_append_left comparisonStarts hstop)
    have hread := argumentFrom_trailing hplain hr
    rw [argument_unquoted .trailing call (no_quote_of_bare h hr) hread]
    exact congrArg (fun call => Except.ok (call, rest)) (addArgument_bare .trailing h call)

/-- The name of an argument is letters, digits and underscores, one at least. -/
theorem nameChars_of_isArgumentName {name : List Char} (h : isArgumentName name = true) :
    (∃ c cs, name = c :: cs ∧ isNameChar c = true) ∧ ∀ c ∈ name, isNameChar c = true := by
  rw [isArgumentName, Bool.and_eq_true, List.all_eq_true] at h
  obtain ⟨hhead, hall⟩ := h
  refine ⟨?_, hall⟩
  cases name with
  | nil => cases hhead
  | cons c cs => exact ⟨c, cs, rfl, hall c (List.mem_cons_self ..)⟩

theorem ne_of_isNameChar {d e : Char} (hd : isNameChar d = true) (he : isNameChar e = false) :
    d ≠ e := by
  rintro rfl
  rw [hd] at he
  cases he

theorem not_mem_argumentStops_of_isNameChar {c : Char} (h : isNameChar c = true) :
    c ∉ argumentStops := by
  intro hc
  have hall : argumentStops.all (isNameChar · = false) = true := by decide
  exact ne_of_isNameChar h (of_decide_eq_true (List.all_eq_true.mp hall c hc)) rfl

theorem not_mem_argumentEnds_of_isNameChar {c : Char} (h : isNameChar c = true) :
    c ∉ argumentEnds := fun hc =>
  not_mem_argumentStops_of_isNameChar h (List.mem_append_left comparisonStarts hc)

/-- The mark that failures are errors reads like a name. -/
theorem isNameChar_raises : ∀ c ∈ "raises".toList, isNameChar c = true :=
  List.all_eq_true.mp (by decide)

/-- A name does not begin like a quoted argument. -/
theorem no_quote_of_isArgumentName {name : List Char} (h : isArgumentName name = true)
    (rest : List Char) : ∀ d ∈ (name ++ rest).head?, isQuote d = false := by
  obtain ⟨⟨c, cs, rfl, hc⟩, -⟩ := nameChars_of_isArgumentName h
  rintro d ⟨⟩
  rw [isQuote, Bool.or_eq_false_iff, beq_eq_false_iff_ne, beq_eq_false_iff_ne]
  exact ⟨ne_of_isNameChar hc (by decide), ne_of_isNameChar hc (by decide)⟩

/-- A name and a literal are told apart at the first equals sign. -/
theorem namedArgument?_readable {a : String × Literal} (h : ReadableNamed a) :
    namedArgument? (a.1.toList ++ '=' :: a.2.text.toList) = some (a.1.toList, a.2) := by
  have hequals : ∀ d ∈ a.1.toList, (d != '=') = true := fun d hd =>
    bne_iff_ne.mpr (ne_of_isNameChar ((nameChars_of_isArgumentName h.name).2 d hd) (by decide))
  rw [namedArgument?, List.takeWhile_append_of_pos hequals, List.dropWhile_append_of_pos hequals,
    List.takeWhile_cons_of_neg (by decide), List.dropWhile_cons_of_neg (by decide), List.append_nil]
  dsimp only
  rw [if_pos h.name, h.literal]
  rfl

theorem addArgument_named {a : String × Literal} (h : ReadableNamed a) (call : TransformCall) :
    addArgument .trailing (a.1.toList ++ '=' :: a.2.text.toList) call =
      { call with named := call.named ++ [a] } := by
  have hraises : (a.1.toList == "raises".toList) = false :=
    beq_eq_false_iff_ne.mpr fun heq => h.not_raises (String.toList_inj.mp heq)
  have hwhole : (a.1.toList ++ '=' :: a.2.text.toList == "raises".toList) = false := by
    rw [beq_eq_false_iff_ne]
    intro heq
    have hmem : '=' ∈ "raises".toList := heq ▸ List.mem_append_right _ (List.mem_cons_self ..)
    exact absurd hmem (by decide)
  rw [addArgument, hwhole, if_neg Bool.false_ne_true, if_pos (by rfl), namedArgument?_readable h]
  dsimp only
  rw [hraises, if_neg Bool.false_ne_true, String.ofList_toList]

theorem argument_named {a : String × Literal} (h : ReadableNamed a) (call : TransformCall)
    {rest : List Char} (hr : EndsArgument rest) :
    argument .trailing call (a.1.toList ++ '=' :: a.2.text.toList ++ rest) =
      .ok ({ call with named := call.named ++ [a] }, rest) := by
  have hplain : ∀ d ∈ a.1.toList ++ '=' :: a.2.text.toList, d ∉ argumentEnds := by
    intro d hd
    rcases List.mem_append.mp hd with hd | hd
    · exact not_mem_argumentEnds_of_isNameChar ((nameChars_of_isArgumentName h.name).2 d hd)
    · rcases List.mem_cons.mp hd with rfl | hd
      · decide
      · exact h.char d hd
  have hquote : ∀ d ∈ (a.1.toList ++ '=' :: a.2.text.toList ++ rest).head?, isQuote d = false := by
    rw [List.append_assoc]
    exact no_quote_of_isArgumentName h.name _
  rw [argument_unquoted .trailing call hquote (argumentFrom_trailing hplain hr)]
  exact congrArg (fun call => Except.ok (call, rest)) (addArgument_named h call)

theorem argumentsWithin_args {args : List Literal} (h : ∀ a ∈ args, a.ReadableArgument) (n : Nat)
    (call : TransformCall) {rest : List Char} (hr : EndsArgument rest) :
    argumentsWithin .trailing (args.length + n) call (argsChars args ++ rest) =
      argumentsWithin .trailing n { call with args := call.args ++ args } rest := by
  induction args generalizing call with
  | nil => rw [List.append_nil, List.length_nil, Nat.zero_add, argsChars, List.flatMap_nil, List.nil_append]
  | cons a args ih =>
    obtain ⟨ha, hargs⟩ := List.forall_mem_cons.mp h
    have hread := argument_readable ha call (endsArgument_args args hr)
    have htext : argsChars (a :: args) ++ rest =
        ':' :: (a.argumentText.toList ++ (argsChars args ++ rest)) := by simp [argsChars]
    rw [htext, List.length_cons, Nat.add_right_comm, argumentsWithin_step hread, ih hargs]
    simp

theorem argumentsWithin_named {named : List (String × Literal)} (h : ∀ a ∈ named, ReadableNamed a)
    (n : Nat) (call : TransformCall) {rest : List Char} (hr : EndsArgument rest) :
    argumentsWithin .trailing (named.length + n) call (namedChars named ++ rest) =
      argumentsWithin .trailing n { call with named := call.named ++ named } rest := by
  induction named generalizing call with
  | nil => rw [List.append_nil, List.length_nil, Nat.zero_add, namedChars, List.flatMap_nil, List.nil_append]
  | cons a named ih =>
    obtain ⟨ha, hnamed⟩ := List.forall_mem_cons.mp h
    have hread := argument_named ha call (endsArgument_named named hr)
    have htext : namedChars (a :: named) ++ rest =
        ':' :: (a.1.toList ++ '=' :: a.2.text.toList ++ (namedChars named ++ rest)) := by
      simp [namedChars]
    rw [htext, List.length_cons, Nat.add_right_comm, argumentsWithin_step hread, ih hnamed]
    simp

/-- The mark that failures are errors is the last argument of a call. -/
theorem argumentsWithin_raises (calls : List TransformCall) (n : Nat) {call : TransformCall}
    (hcall : call.raises = false) (raises : Bool) :
    argumentsWithin .trailing (n + 1) call ((sign ":raises" raises).toList ++ (chainText calls).toList) =
      .ok ({ call with raises := raises }, (chainText calls).toList) := by
  have hdone := head?_chainText_ne calls
  cases raises with
  | false =>
    have hsame : { call with raises := false } = call := by rw [← hcall]
    rw [hsame]
    exact argumentsWithin_done hdone (n + 1) call
  | true =>
    have hread : argument .trailing call ("raises".toList ++ (chainText calls).toList) =
        .ok ({ call with raises := true }, (chainText calls).toList) := by
      rw [argument_unquoted .trailing call (by rintro c ⟨⟩; decide)
        (argumentFrom_trailing (fun c hc => not_mem_argumentEnds_of_isNameChar (isNameChar_raises c hc))
          (endsArgument_chainText calls))]
      rfl
    show argumentsWithin .trailing (n + 1) call (':' :: ("raises".toList ++ (chainText calls).toList)) = _
    rw [argumentsWithin_step hread, argumentsWithin_done hdone]

/-- The name of a call is read up to its arguments. -/
theorem takeWhile_name {c : TransformCall} (h : c.Readable) {rest : List Char}
    (hr : EndsArgument rest) :
    takeWhile isTransformNameChar (c.name.toList ++ rest) = .ok (c.name.toList, rest) := by
  have hstop := takeWhile_of_head? hr.endsName
  rw [run_takeWhile] at hstop ⊢
  obtain ⟨htake, hdrop⟩ := Prod.mk.inj (Except.ok.inj hstop)
  rw [List.takeWhile_append_of_pos h.name, List.dropWhile_append_of_pos h.name, htake, hdrop,
    List.append_nil]

/-- **A call is read back from its text**, whatever calls stand behind it. -/
theorem transformCall_cons {c : TransformCall} (h : c.Readable) (calls : List TransformCall) :
    transformCall .trailing (chainText (c :: calls)).toList = .ok (some c, (chainText calls).toList) := by
  have hraises := endsArgument_raises c.raises (endsArgument_chainText calls)
  have hnamed := endsArgument_named c.named hraises
  have hargs := endsArgument_args c.args hnamed
  have htext : argumentChars c ++ (chainText calls).toList = argsChars c.args ++ (namedChars c.named ++
      ((sign ":raises" c.raises).toList ++ (chainText calls).toList)) := by
    simp [argumentChars]
  have hlength := length_le_length_argumentChars c
  obtain ⟨n, hn⟩ : ∃ n, (argumentChars c ++ (chainText calls).toList).length + 1 =
      c.args.length + (c.named.length + (n + 1)) :=
    ⟨(argumentChars c ++ (chainText calls).toList).length - c.args.length - c.named.length, by
      rw [List.length_append]
      omega⟩
  have hread : argumentsWithin .trailing ((argumentChars c ++ (chainText calls).toList).length + 1)
      ⟨c.name, [], [], false⟩ (argumentChars c ++ (chainText calls).toList) =
        .ok (c, (chainText calls).toList) := by
    rw [hn, htext, argumentsWithin_args h.args _ _ hnamed, argumentsWithin_named h.named _ _ hraises,
      argumentsWithin_raises calls n rfl]
    simp
  rw [toList_chainText_cons, transformCall, run_bind_of_ok (eat_cons_self '|' _), if_pos rfl]
  show (takeWhile isTransformNameChar >>= _) _ = _
  rw [run_bind_of_ok (takeWhile_name h (htext ▸ hargs)), h.name_isEmpty, if_neg Bool.false_ne_true]
  show ((get : Parse (List Char)) >>= _) _ = _
  rw [run_bind_of_ok (run_get _), String.ofList_toList, run_bind_of_ok hread]
  rfl

/-- **A chain at the end of a path is read back from its text.** -/
theorem transforms_chainText {calls : List TransformCall} (h : ∀ c ∈ calls, c.Readable) :
    transforms .trailing (chainText calls).toList = .ok (calls, []) := by
  have hreads : Reads (transformCall .trailing) (chainText calls).toList calls [] := by
    induction calls with
    | nil => exact .done rfl
    | cons c calls ih =>
      obtain ⟨hc, hcalls⟩ := List.forall_mem_cons.mp h
      exact .step (transformCall_cons hc calls) (ih hcalls)
  refine many_of_reads hreads ?_
  rw [toList_chainText]
  exact length_le_length_flatMap (fun _ => List.cons_ne_nil _ _) calls

/-! ### In the place of a guard -/

/-- No comparison begins with another character. -/
theorem comparison_of_head? {cs : List Char} (h : ∀ c ∈ cs.head?, c ∉ comparisonStarts) :
    comparison cs = .ok (none, cs) := by
  have hnone : Comparison.all.find? (fun op => op.symbol.toList.isPrefixOf cs) = none := by
    rw [List.find?_eq_none]
    intro op _
    obtain ⟨d, ds, hsymbol, hd⟩ : ∃ d ds, op.symbol.toList = d :: ds ∧ d ∈ comparisonStarts := by
      cases op <;> exact ⟨_, _, rfl, by decide⟩
    rw [hsymbol, Bool.not_eq_true]
    cases cs with
    | nil => rfl
    | cons c cs =>
      have hne : (d == c) = false := beq_eq_false_iff_ne.mpr fun heq => h c rfl (heq ▸ hd)
      rw [List.isPrefixOf, hne, Bool.false_and]
  rw [comparison, run_bind_of_ok (run_get _), hnone]
  rfl

/-- Wherever the reading of calls ends in the text, no comparison stands there. -/
def Uncompared (cs : List Char) : Prop :=
  ∀ n chain rest, manyWithin (transformCall .guard) n cs = .ok (chain, rest) →
    comparison rest = .ok (none, rest)

/-- Nor where the reading of arguments ends, and calls are read from there. -/
def UncomparedArguments (cs : List Char) : Prop :=
  ∀ n call call' rest, argumentsWithin .guard n call cs = .ok (call', rest) → Uncompared rest

theorem uncompared_of_head? {cs : List Char} (h : ∀ c ∈ cs.head?, c ∉ '|' :: comparisonStarts) :
    Uncompared cs := by
  have hbar : cs.head? ≠ some '|' := fun hc => h _ hc (List.mem_cons_self ..)
  have hcomparison : comparison cs = .ok (none, cs) :=
    comparison_of_head? fun c hc hmem => h c hc (List.mem_cons_of_mem _ hmem)
  rintro (_ | n) chain rest hrun
  · cases hrun
    exact hcomparison
  · have hnone : transformCall .guard cs = .ok (none, cs) := by
      rw [transformCall, run_bind_of_ok (eat_of_head?_ne hbar)]
      rfl
    rw [manyWithin, run_bind_of_ok hnone] at hrun
    cases hrun
    exact hcomparison

/-- The guard does not begin behind a call if it does not behind the arguments of the call. -/
theorem uncompared_call {c : TransformCall} (h : c.Readable) {cs : List Char} (hr : EndsArgument cs)
    (hcs : UncomparedArguments cs) : Uncompared ('|' :: (c.name.toList ++ cs)) := by
  have hcall : transformCall .guard ('|' :: (c.name.toList ++ cs)) =
      (some <$> argumentsWithin .guard (cs.length + 1) ⟨c.name, [], [], false⟩) cs := by
    rw [transformCall, run_bind_of_ok (eat_cons_self '|' _), if_pos rfl]
    show (takeWhile isTransformNameChar >>= _) _ = _
    rw [run_bind_of_ok (takeWhile_name h hr), h.name_isEmpty, if_neg Bool.false_ne_true]
    show ((get : Parse (List Char)) >>= _) _ = _
    rw [run_bind_of_ok (run_get _), String.ofList_toList]
    rfl
  rintro (_ | n) chain rest hrun
  · cases hrun
    exact comparison_of_head? (by rintro d ⟨⟩; decide)
  · rw [manyWithin] at hrun
    obtain ⟨answer, mid, hanswer, hrun⟩ := bind_eq_ok hrun
    rw [hcall, map_eq_pure_bind] at hanswer
    obtain ⟨call, mid', harguments, hanswer⟩ := bind_eq_ok hanswer
    cases hanswer
    obtain ⟨chain', rest', hmany, hrun⟩ := bind_eq_ok hrun
    cases hrun
    exact hcs _ _ _ _ harguments n _ _ hmany

theorem uncomparedArguments_done {cs : List Char} (h : cs.head? ≠ some ':') (hcs : Uncompared cs) :
    UncomparedArguments cs := by
  intro n call call' rest hrun
  rw [argumentsWithin_done h] at hrun
  cases hrun
  exact hcs

theorem uncomparedArguments_step {cs : List Char}
    (h : ∀ call call' rest, argument .guard call cs = .ok (call', rest) → UncomparedArguments rest) :
    UncomparedArguments (':' :: cs) := by
  rintro (_ | n) call call' rest hrun
  · cases hrun
    exact uncompared_of_head? (by rintro d ⟨⟩; decide)
  · rw [argumentsWithin, run_bind_of_ok (eat_cons_self ':' cs), if_pos rfl] at hrun
    obtain ⟨call₁, mid, hargument, hrun⟩ := bind_eq_ok hrun
    exact h _ _ _ hargument n _ _ _ hrun

/-- If an argument without quotes is read at all, it is read up to where it ends. -/
theorem rest_of_argument {place : ChainPlace} {call call' : TransformCall} {cs raw left rest : List Char}
    (h : ∀ c ∈ cs.head?, isQuote c = false) (hfrom : argumentFrom place [] cs = (raw, left))
    (hrun : argument place call cs = .ok (call', rest)) : rest = left := by
  rw [argument_unquoted place call h hfrom] at hrun
  split at hrun
  · cases hrun
  · cases hrun
    rfl

theorem uncomparedArguments_readable {a : Literal} (h : a.ReadableArgument) {cs : List Char}
    (hr : EndsArgument cs) (hcs : UncomparedArguments cs) :
    UncomparedArguments (':' :: (a.argumentText.toList ++ cs)) := by
  refine uncomparedArguments_step fun call call' rest hrun => ?_
  cases h with
  | quoted h =>
    rw [h, argument_quoted] at hrun
    cases hrun
    exact hcs
  | bare h =>
    obtain ⟨arg, left, hfrom, hleft⟩ := argumentFrom_guard h.char hr []
    obtain rfl : rest = left := rest_of_argument (no_quote_of_bare h hr) hfrom hrun
    rcases hleft with rfl | hleft
    · exact hcs
    · -- The argument ends early, and with it the chain.
      refine uncomparedArguments_done (fun hc => hleft _ hc (by decide)) ?_
      refine uncompared_of_head? fun c hc hmem => hleft c hc ?_
      rcases List.mem_cons.mp hmem with rfl | hmem
      · decide
      · exact List.mem_append_right _ hmem

theorem uncomparedArguments_args {args : List Literal} (h : ∀ a ∈ args, a.ReadableArgument)
    {cs : List Char} (hr : EndsArgument cs) (hcs : UncomparedArguments cs) :
    UncomparedArguments (argsChars args ++ cs) := by
  induction args with
  | nil => exact hcs
  | cons a args ih =>
    obtain ⟨ha, hargs⟩ := List.forall_mem_cons.mp h
    have hmore := uncomparedArguments_readable ha (endsArgument_args args hr) (ih hargs)
    simpa [argsChars] using hmore

/-- No character of a name ends an argument. -/
theorem endsArgument_of_isNameChar {c : Char} (h : isNameChar c = true) (cs : List Char) :
    endsArgument .guard (c :: cs) = false := by
  have hends : ":|=<>)],&".toList.contains c = false := by
    rw [List.contains_eq_mem, decide_eq_false_iff_not]
    intro hmem
    have hall : ":|=<>)],&".toList.all (isNameChar · = false) = true := by decide
    exact ne_of_isNameChar h (of_decide_eq_true (List.all_eq_true.mp hall c hmem)) rfl
  have hmark : (c == '!') = false := beq_eq_false_iff_ne.mpr (ne_of_isNameChar h (by decide))
  rw [endsArgument, hends, hmark]
  rfl

theorem argumentFrom_name {raw rest : List Char} (h : ∀ c ∈ raw, isNameChar c = true)
    (hr : endsArgument .guard rest = true) : argumentFrom .guard [] (raw ++ rest) = (raw, rest) :=
  argumentFrom_until (fun c hc => ⟨ne_of_isNameChar (h c hc) (by decide),
    endsArgument_of_isNameChar (h c hc)⟩) hr []

/-- In front of the equals sign of a named argument the reading fails: a comparison could begin
there. -/
theorem uncomparedArguments_named {a : String × Literal} (h : ReadableNamed a) (cs : List Char) :
    UncomparedArguments (':' :: (a.1.toList ++ '=' :: cs)) := by
  refine uncomparedArguments_step fun call call' rest hrun => ?_
  obtain ⟨⟨c, ds, hcs, -⟩, hchars⟩ := nameChars_of_isArgumentName h.name
  have hfrom : argumentFrom .guard [] (a.1.toList ++ '=' :: cs) = (a.1.toList, '=' :: cs) :=
    argumentFrom_name hchars rfl
  rw [argument_unquoted .guard call (no_quote_of_isArgumentName h.name _) hfrom, h.not_literal, hcs] at hrun
  cases hrun

theorem uncomparedArguments_raises (raises : Bool) {cs : List Char} (hr : EndsArgument cs)
    (hcs : UncomparedArguments cs) : UncomparedArguments ((sign ":raises" raises).toList ++ cs) := by
  cases raises with
  | false => exact hcs
  | true =>
    show UncomparedArguments (':' :: ("raises".toList ++ cs))
    refine uncomparedArguments_step fun call call' rest hrun => ?_
    have hfrom : argumentFrom .guard [] ("raises".toList ++ cs) = ("raises".toList, cs) :=
      argumentFrom_name isNameChar_raises (hr.endsArgument .guard)
    obtain rfl : rest = cs := rest_of_argument (by rintro c ⟨⟩; decide) hfrom hrun
    exact hcs

/-- **In no chain of transforms a comparison is found.** -/
theorem uncompared_chainText {calls : List TransformCall} (h : ∀ c ∈ calls, c.Readable) :
    Uncompared (chainText calls).toList := by
  induction calls with
  | nil => exact uncompared_of_head? nofun
  | cons c calls ih =>
    obtain ⟨hc, hcalls⟩ := List.forall_mem_cons.mp h
    have hends := endsArgument_chainText calls
    have hdone : UncomparedArguments (chainText calls).toList :=
      uncomparedArguments_done (head?_chainText_ne calls) (ih hcalls)
    have hraises := uncomparedArguments_raises c.raises hends hdone
    have hnamed : UncomparedArguments
        (namedChars c.named ++ ((sign ":raises" c.raises).toList ++ (chainText calls).toList)) := by
      cases hcs : c.named with
      | nil => exact hraises
      | cons a named =>
        have ha := hc.named a (by rw [hcs]; exact List.mem_cons_self ..)
        have hread := uncomparedArguments_named ha (a.2.text.toList ++
          (namedChars named ++ ((sign ":raises" c.raises).toList ++ (chainText calls).toList)))
        simpa [namedChars] using hread
    have hnamedEnds := endsArgument_named c.named (endsArgument_raises c.raises hends)
    have hargs := uncomparedArguments_args hc.args hnamedEnds hnamed
    have hcall := uncompared_call hc (endsArgument_args c.args hnamedEnds) hargs
    rw [toList_chainText_cons]
    simpa [argumentChars] using hcall

/-- Where no comparison is found, no guard is read. -/
theorem guardTest_of_uncompared {cs : List Char} (h : Uncompared cs) :
    guardTest cs = .ok (none, cs) := by
  rw [guardTest, run_bind_of_ok (run_get _), run_bind_of_ok (run_peek _)]
  by_cases hbar : cs.head? = some '|'
  · rw [if_pos (by simp [hbar])]
    cases hrun : transforms .guard cs with
    | error e =>
      rw [run_bind_of_ok (attempt_of_error hrun)]
      rfl
    | ok p =>
      obtain ⟨chain, rest⟩ := p
      have hnone := h (cs.length + 1) chain rest hrun
      rw [run_bind_of_ok (attempt_of_ok hrun)]
      dsimp only
      rw [run_bind_of_ok hnone]
      rfl
  · have hnone := h 0 [] cs rfl
    rw [if_neg (by simpa using hbar), run_bind_of_ok (run_pure _ _)]
    dsimp only
    rw [run_bind_of_ok hnone]
    rfl

/-- **A segment ends in front of a chain of transforms**: the chain is not taken for a guard. -/
theorem endsSegment_chainText {calls : List TransformCall} (h : ∀ c ∈ calls, c.Readable) :
    EndsSegment (chainText calls).toList := by
  refine ⟨?_, guardTest_of_uncompared (uncompared_chainText h)⟩
  cases calls with
  | nil => exact nofun
  | cons c calls =>
    rw [toList_chainText_cons]
    rintro d ⟨⟩
    decide

end Parse

/-! ### Which arguments are readable -/

namespace Parse

/-- The keywords among the literals. -/
def keywords : List String :=
  ["True", "False", "None"]

/-- What a text without quotes says, if it is none of the keywords. -/
theorem strictLiteral?_of_unquoted {raw : List Char} (hquote : ∀ c ∈ raw.head?, isQuote c = false)
    (hkeyword : ∀ word ∈ keywords, raw ≠ word.toList) :
    strictLiteral? raw = if raw.any Char.isDigit then Number.read? raw else none := by
  have hne {word : String} (hword : word ∈ keywords) : String.ofList raw ≠ word := by
    rintro rfl
    exact hkeyword _ hword String.toList_ofList.symm
  unfold strictLiteral?
  split
  · next h => exact absurd h (hne (by decide))
  · next h => exact absurd h (hne (by decide))
  · next h => exact absurd h (hne (by decide))
  · cases raw with
    | nil => rfl
    | cons q rest =>
      dsimp only
      rw [hquote q rfl, Bool.false_and, if_neg Bool.false_ne_true]

theorem argumentLiteral_of_ne_nil {raw : List Char} (h : raw ≠ []) :
    argumentLiteral raw = (strictLiteral? raw).getD (.str (String.ofList raw)) := by
  rw [argumentLiteral, List.isEmpty_eq_false_iff.mpr h, if_neg Bool.false_ne_true]

theorem not_mem_argumentStops {c : Char} (h : isWordChar c = true ∧ c ≠ '\\') :
    c ∉ argumentStops := by
  intro hc
  have hall : argumentStops.all (fun c => isWordChar c = false ∨ c = '\\') = true := by decide
  rcases of_decide_eq_true (List.all_eq_true.mp hall c hc) with hword | hslash
  · rw [h.1] at hword
    cases hword
  · exact h.2 hslash

theorem no_quote_intText (i : Int) : ∀ c ∈ (Decimal.intText i).toList.head?, isQuote c = false := by
  obtain ⟨c, cs, hcs, -, -, hquote⟩ := (isWord_intText i).exists_cons
  rw [hcs]
  rintro d ⟨⟩
  exact hquote

theorem any_isDigit_intText (i : Int) : (Decimal.intText i).toList.any Char.isDigit = true := by
  obtain ⟨d, ds, hds, hd⟩ := Decimal.natDigits_eq_cons i.natAbs
  rw [Decimal.toList_intText, hds, List.any_append, List.any_cons, hd, Bool.true_or, Bool.or_true]

theorem strictLiteral?_intText {i : Int} (h : Word.fits i = true) :
    strictLiteral? (Decimal.intText i).toList = some (.int i) := by
  rw [strictLiteral?_of_unquoted (no_quote_intText i), if_pos (any_isDigit_intText i),
    Number.read?_intText h]
  rintro word hword heq
  have hall : keywords.all (fun word => word.toList.any Char.isDigit = false) = true := by decide
  have hnone := of_decide_eq_true (List.all_eq_true.mp hall word hword)
  rw [← heq, any_isDigit_intText] at hnone
  cases hnone

end Parse

namespace Literal

open Parse

/-- An integer of sixty-four bits is read back as an argument. -/
theorem bare_int {i : Int} (h : Word.fits i = true) : (Literal.int i).Bare where
  char c hc := not_mem_argumentStops ((isWord_intText i).char c hc)
  no_quote := no_quote_intText i
  not_raises heq := by
    have hdigit := any_isDigit_intText i
    rw [show Decimal.intText i = "raises" from heq] at hdigit
    exact absurd hdigit (by decide)
  literal := by
    show argumentLiteral (Decimal.intText i).toList = _
    rw [argumentLiteral_of_ne_nil (isWord_intText i).ne_nil, strictLiteral?_intText h]
    rfl

theorem bare_bool (b : Bool) : (Literal.bool b).Bare := by
  have hname : (Literal.bool b).argumentText.toList.all isNameChar = true := by cases b <;> decide
  refine ⟨fun c hc => not_mem_argumentStops_of_isNameChar (List.all_eq_true.mp hname c hc), ?_, ?_, ?_⟩
  · cases b <;> rintro c ⟨⟩ <;> decide
  · cases b <;> decide
  · cases b <;> rfl

/-- An empty argument is null. -/
theorem bare_null : Literal.null.Bare :=
  ⟨List.forall_mem_nil _, nofun, by decide, rfl⟩

/-- A text without digits, backslashes and comparisons is read back as an argument, if it is neither
empty nor a keyword. -/
theorem readableArgument_str {s : String} (hne : s ≠ "")
    (hchars : ∀ c ∈ s.toList, c ∉ '\\' :: comparisonStarts ∧ c.isDigit = false)
    (hkeyword : ∀ word ∈ Parse.keywords, s ≠ word) : (Literal.str s).ReadableArgument := by
  -- quotes are written where a bare text would end too early or would be a key
  by_cases hquoted : (s.toList.any (fun c => c == ':' || c == '|' || c == Text.quoteChar || c == '"') ||
      s == "raises") = true
  · exact .quoted (if_pos hquoted)
  · have htext : (Literal.str s).argumentText = s := if_neg hquoted
    rw [Bool.not_eq_true, Bool.or_eq_false_iff, List.any_eq_false, beq_eq_false_iff_ne] at hquoted
    obtain ⟨hplain, hraises⟩ := hquoted
    have hchar : ∀ c ∈ s.toList, c ∉ argumentStops ∧ isQuote c = false := by
      intro c hc
      have hends := hplain c hc
      have hstarts := (hchars c hc).1
      simp only [Bool.or_eq_true, beq_iff_eq, not_or] at hends
      simp only [argumentStops, argumentEnds, comparisonStarts, isQuote, List.mem_cons,
        List.not_mem_nil, or_false, not_or, List.cons_append, List.nil_append, Bool.or_eq_false_iff,
        beq_eq_false_iff_ne] at hstarts ⊢
      exact ⟨⟨hends.1.1.1, hends.1.1.2, hstarts⟩, hends.1.2, hends.2⟩
    have hhead : ∀ c ∈ s.toList.head?, isQuote c = false := fun c hc =>
      (hchar c (List.mem_of_mem_head? hc)).2
    have hdigit : s.toList.any Char.isDigit = false :=
      List.any_eq_false.mpr fun c hc => by simp [(hchars c hc).2]
    refine .bare ⟨?_, ?_, ?_, ?_⟩ <;> rw [htext]
    · exact fun c hc => (hchar c hc).1
    · exact hhead
    · exact hraises
    · rw [argumentLiteral_of_ne_nil fun hnil => hne (String.toList_eq_nil_iff.mp hnil),
        strictLiteral?_of_unquoted hhead, hdigit, if_neg Bool.false_ne_true, Option.getD_none,
        String.ofList_toList]
      exact fun word hword heq => hkeyword word hword (String.toList_inj.mp heq)

end Literal

/-- So is an integer with its name, if the name has no digits and is no keyword either. -/
theorem readableNamed_int {name : String} (hname : Parse.isArgumentName name.toList = true)
    (hdigit : name.toList.any Char.isDigit = false)
    (hkeyword : ∀ word ∈ "raises" :: Parse.keywords, name ≠ word) {i : Int}
    (h : Word.fits i = true) : ReadableNamed (name, .int i) where
  name := hname
  not_raises := hkeyword _ (List.mem_cons_self ..)
  not_literal := by
    have hquote := Parse.no_quote_of_isArgumentName hname []
    rw [List.append_nil] at hquote
    rw [Parse.strictLiteral?_of_unquoted hquote, hdigit, if_neg Bool.false_ne_true]
    exact fun word hword heq => hkeyword word (List.mem_cons_of_mem _ hword) (String.toList_inj.mp heq)
  char c hc hends :=
    Parse.not_mem_argumentStops ((Parse.isWord_intText i).char c hc) (List.mem_append_left _ hends)
  literal := Parse.strictLiteral?_intText h

end DottedPath
