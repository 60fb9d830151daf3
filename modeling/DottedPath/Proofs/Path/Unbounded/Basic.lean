import DottedPath.Proofs.Path.Closed.Basic
import Mathlib.Logic.Function.Iterate

/-!
# Recursions and loops that come to an end

The readers of a path call each other, and many of them repeat others.  Each of these recursions
has a number of rounds that it may take, one more than there are characters.  What it would be
without such a number is an equation, `f = step f`, where `step` makes one round and leaves the
others to what it is given.

`Terminates step f` says that the number is never what ends the reader `f`.  It satisfies the
equation, and on every text it is found by as many rounds as there are characters and one more,
whatever is put in for the rounds after these: a round only asks for what comes after at least one
character.

For this readers are compared on texts up to a length (`Agree`).  They have to answer the same, and
to stay inside the text: they leave no more characters than there were, and a failure is at one of
them or at the end.

## Main statements

- `Terminates.of_limit`: a recursion ends if each round takes a character.
- `Advances.many`, `terminates_separated`: so do repetitions, and items with separators.
-/

namespace DottedPath.Parse

variable {α β : Type} {m n : Nat}

/-! ### Readers on short texts -/

/-- At most a number of characters is left, also where the reader fails. -/
def Inside (n : Nat) : Outcome α → Prop
  | .ok (_, r) => r.length ≤ n
  | .error e => e.remaining ≤ n

/-- On a text the readers answer the same, with at most a number of characters left. -/
def SameAt (n : Nat) (cs : List Char) (f f' : Parse α) : Prop :=
  f cs = f' cs ∧ Inside n (f' cs)

/-- On texts of at most a number of characters the readers answer the same, with at most this
number left. -/
def Agree (n : Nat) (f f' : Parse α) : Prop :=
  ∀ cs, cs.length ≤ n → SameAt n cs f f'

/-- The readers agree on all texts that are shorter. -/
def AgreeBelow (n : Nat) (f f' : Parse α) : Prop :=
  ∀ m < n, Agree m f f'

theorem Inside.mono {o : Outcome α} (h : Inside m o) (hle : m ≤ n) : Inside n o := by
  cases o with
  | ok p => exact Nat.le_trans h hle
  | error e => exact Nat.le_trans h hle

theorem AgreeBelow.mono {f f' : Parse α} (h : AgreeBelow n f f') (hle : m ≤ n) :
    AgreeBelow m f f' :=
  fun i hi => h i (Nat.lt_of_lt_of_le hi hle)

/-- Readers that agree on all short texts do so on those with one character more at most. -/
theorem AgreeBelow.of_agree {f f' : Parse α} (h : ∀ m ≤ n, Agree m f f') :
    AgreeBelow (n + 1) f f' :=
  fun m hm => h m (Nat.le_of_lt_succ hm)

namespace SameAt

variable {cs : List Char} {f f' : Parse α} {k k' : α → Parse β}

theorem mono (h : SameAt m cs f f') (hle : m ≤ n) : SameAt n cs f f' :=
  ⟨h.1, h.2.mono hle⟩

/-- What comes next is read from what is left. -/
theorem bind (h : SameAt m cs f f') (hle : m ≤ n)
    (hk : ∀ a r, r.length ≤ m → SameAt n r (k a) (k' a)) :
    SameAt n cs (f >>= k) (f' >>= k') := by
  obtain ⟨hsame, hinside⟩ := h
  unfold SameAt
  cases hrun : f' cs with
  | error e =>
    rw [hrun] at hsame hinside
    rw [run_bind_of_error hsame, run_bind_of_error hrun]
    exact ⟨rfl, Nat.le_trans hinside hle⟩
  | ok p =>
    rw [hrun] at hsame hinside
    rw [run_bind_of_ok hsame, run_bind_of_ok hrun]
    exact hk p.1 p.2 hinside

theorem attempt (h : SameAt n cs f f') (hcs : cs.length ≤ n) :
    SameAt n cs (attempt f) (Parse.attempt f') := by
  obtain ⟨hsame, hinside⟩ := h
  unfold SameAt Parse.attempt
  rw [hsame]
  cases hrun : f' cs with
  | error e => exact ⟨rfl, hcs⟩
  | ok p =>
    rw [hrun] at hinside
    exact ⟨rfl, hinside⟩

end SameAt

/-- After a character the text is shorter. -/
theorem AgreeBelow.tail {f f' : Parse α} (h : AgreeBelow n f f') {c : Char} {cs : List Char}
    (hcs : (c :: cs).length ≤ n) : SameAt n cs f f' :=
  (h cs.length hcs cs (Nat.le_refl _)).mono (Nat.le_of_succ_le hcs)

namespace Agree

variable {f f' : Parse α} {k k' : α → Parse β}

theorem pure (a : α) : Agree n (pure a) (pure a) :=
  fun _ hcs => ⟨rfl, hcs⟩

theorem failAt (message : String) {i : Nat} (hi : i ≤ n) :
    Agree n (failAt message i : Parse α) (Parse.failAt message i) :=
  fun _ _ => ⟨rfl, hi⟩

theorem fail (message : String) : Agree n (fail message : Parse α) (Parse.fail message) :=
  fun _ hcs => ⟨rfl, hcs⟩

theorem bind (hf : Agree n f f') (hk : ∀ a, Agree n (k a) (k' a)) :
    Agree n (f >>= k) (f' >>= k') :=
  fun cs hcs => (hf cs hcs).bind (Nat.le_refl n) fun a r hr => hk a r hr

theorem map (hf : Agree n f f') (g : α → β) :
    Agree n (f >>= fun a => Pure.pure (g a)) (f' >>= fun a => Pure.pure (g a)) :=
  hf.bind fun a => .pure (g a)

theorem ite {c : Prop} [Decidable c] {g g' : Parse α} (hf : Agree n f f') (hg : Agree n g g') :
    Agree n (if c then f else g) (if c then f' else g') := by
  split
  · exact hf
  · exact hg

/-- The characters that are left are looked at. -/
theorem get {k k' : List Char → Parse β} (hk : ∀ ds, ds.length ≤ n → Agree n (k ds) (k' ds)) :
    Agree n (MonadState.get >>= k) (MonadState.get >>= k') :=
  fun cs hcs => hk cs hcs cs hcs

/-- The reader goes back to characters that were left before. -/
theorem set {ds : List Char} (hds : ds.length ≤ n) {k k' : PUnit → Parse β}
    (hk : Agree n (k ⟨⟩) (k' ⟨⟩)) :
    Agree n (MonadStateOf.set ds >>= k) (MonadStateOf.set ds >>= k') :=
  fun _ _ => hk ds hds

/-- Where the reader answers, at most the number of characters is left. -/
theorem length_le (hf : Agree n f f') {cs r : List Char} {a : α} (hcs : cs.length ≤ n)
    (hrun : f' cs = .ok (a, r)) : r.length ≤ n := by
  have hinside := (hf cs hcs).2
  rw [hrun] at hinside
  exact hinside

theorem attempt (hf : Agree n f f') : Agree n (attempt f) (Parse.attempt f') :=
  fun cs hcs => (hf cs hcs).attempt hcs

/-! ### Characters -/

theorem peek : Agree n peek peek := .get fun _ _ => .pure _

theorem lookingAt (text : String) : Agree n (lookingAt text) (Parse.lookingAt text) :=
  .get fun _ _ => .pure _

theorem skip (i : Nat) : Agree n (skip i) (Parse.skip i) :=
  fun cs hcs => ⟨rfl, Nat.le_trans (List.drop_sublist i cs).length_le hcs⟩

theorem eat (c : Char) : Agree n (eat c) (Parse.eat c) :=
  .bind .peek fun _ => .ite (.bind (.skip 1) fun _ => .pure _) (.pure _)

theorem eatText (text : String) : Agree n (eatText text) (Parse.eatText text) :=
  .bind (.lookingAt text) fun _ => .ite (.bind (.skip _) fun _ => .pure _) (.pure _)

theorem expect (c : Char) : Agree n (expect c) (Parse.expect c) := by
  refine .bind .peek fun d => ?_
  cases d with
  | none => exact .fail _
  | some d => exact .ite (.skip 1) (.fail _)

theorem skipBlanks : Agree n skipBlanks skipBlanks :=
  fun cs hcs => ⟨rfl, Nat.le_trans (length_dropWhile_le _ cs) hcs⟩

theorem takeWhile (p : Char → Bool) : Agree n (takeWhile p) (Parse.takeWhile p) :=
  .get fun _ hds => .set (Nat.le_trans (length_dropWhile_le _ _) hds) (.pure _)

/-- After a character that must come next the text is shorter. -/
theorem expect_below {c : Char} {k k' : Unit → Parse β} (hk : AgreeBelow n (k ()) (k' ())) :
    Agree n (Parse.expect c >>= k) (Parse.expect c >>= k') := by
  intro cs hcs
  by_cases hhead : cs.head? = some c
  · obtain ⟨r, rfl⟩ := List.head?_eq_some_iff.mp hhead
    rw [SameAt, run_bind_of_ok (expect_cons_self c r), run_bind_of_ok (expect_cons_self c r)]
    exact hk.tail hcs
  · -- another character is left where it was, so the failure is at the front of the text
    obtain ⟨e, he⟩ := expect_of_head?_ne hhead
    have hinside := (expect c cs hcs).2
    rw [he] at hinside
    rw [SameAt, run_bind_of_error he, run_bind_of_error he]
    exact ⟨rfl, hinside⟩

/-- After a character that is found the text is shorter. -/
theorem eat_below {c : Char} {k k' : Bool → Parse β} (htrue : AgreeBelow n (k true) (k' true))
    (hfalse : Agree n (k false) (k' false)) :
    Agree n (Parse.eat c >>= k) (Parse.eat c >>= k') := by
  intro cs hcs
  by_cases hhead : cs.head? = some c
  · obtain ⟨r, rfl⟩ := List.head?_eq_some_iff.mp hhead
    rw [SameAt, run_bind_of_ok (eat_cons_self c r), run_bind_of_ok (eat_cons_self c r)]
    exact htrue.tail hcs
  · rw [SameAt, run_bind_of_ok (eat_of_head?_ne hhead), run_bind_of_ok (eat_of_head?_ne hhead)]
    exact hfalse cs hcs

/-- What is tried after a character that comes next is read from a shorter text. -/
theorem ahead_below {c : Char} (hf : AgreeBelow n f f') {g g' : Parse (Option α)}
    (hg : Agree n g g') :
    Agree n (do if (← Parse.peek) == some c then Parse.attempt (do Parse.skip 1; f) else g)
      (do if (← Parse.peek) == some c then Parse.attempt (do Parse.skip 1; f') else g') := by
  intro cs hcs
  rw [SameAt, run_bind_of_ok (run_peek cs), run_bind_of_ok (run_peek cs)]
  by_cases hhead : cs.head? = some c
  · obtain ⟨r, rfl⟩ := List.head?_eq_some_iff.mp hhead
    rw [if_pos (by simp), if_pos (by simp)]
    exact SameAt.attempt (hf.tail hcs) hcs
  · rw [if_neg (by simpa using hhead), if_neg (by simpa using hhead)]
    exact hg cs hcs

/-! ### Repetitions -/

theorem many {item item' : Parse (Option α)} (hitem : Agree n item item') :
    Agree n (many item) (Parse.many item') := by
  have hwithin (i : Nat) : Agree n (manyWithin item i) (manyWithin item' i) := by
    induction i with
    | zero => exact .pure []
    | succ i ih =>
      refine .bind hitem fun o => ?_
      cases o with
      | none => exact .pure []
      | some x => exact ih.map (x :: ·)
  exact .get fun _ _ => hwithin _

theorem separated {item item' : Parse α} (hitem : Agree n item item') (separator : Char) :
    Agree n (separated separator item) (Parse.separated separator item') := by
  have hwithin (i : Nat) :
      Agree n (separatedWithin separator item i) (separatedWithin separator item' i) := by
    induction i with
    | zero => exact .pure []
    | succ i ih =>
      refine .bind .skipBlanks fun _ => .bind hitem fun x => .bind .skipBlanks fun _ => ?_
      exact .bind (.eat separator) fun _ => .ite (ih.map (x :: ·)) (.pure _)
  exact .get fun _ _ => hwithin _

end Agree

/-! ### Recursions -/

/-- Readers, families of them and records of them can be compared on all texts that are shorter than
a number.  Approximations that each may take a number of rounds have a limit, where a text is read
in one round more than it has characters. -/
class Readers (R : Type) where
  agree : Nat → R → R → Prop
  limit : (Nat → R) → R
  agree_zero (f f' : R) : agree 0 f f'
  agree_symm {n : Nat} {f f' : R} (h : agree n f f') : agree n f' f
  agree_trans {n : Nat} {f f' f'' : R} (h : agree n f f') (h' : agree n f' f'') : agree n f f''
  eq_of_agree {f f' : R} (h : ∀ n, agree n f f') : f = f'
  agree_limit {n : Nat} {s : Nat → R} {f : R} (h : ∀ m < n, agree (m + 1) (s (m + 1)) f) :
    agree n (limit s) f

instance : Readers (Parse α) where
  agree := AgreeBelow
  limit := fun s cs => s (cs.length + 1) cs
  agree_zero := fun _ _ _ hm => absurd hm (Nat.not_lt_zero _)
  agree_symm := fun h m hm cs hcs => by
    obtain ⟨hsame, hinside⟩ := h m hm cs hcs
    exact ⟨hsame.symm, hsame ▸ hinside⟩
  agree_trans := fun h h' m hm cs hcs =>
    ⟨(h m hm cs hcs).1.trans (h' m hm cs hcs).1, (h' m hm cs hcs).2⟩
  eq_of_agree := fun h => funext fun cs =>
    (h (cs.length + 1) cs.length (Nat.lt_succ_self _) cs (Nat.le_refl _)).1
  agree_limit := fun h m hm cs hcs => by
    have hround := h cs.length (Nat.lt_of_le_of_lt hcs hm) cs.length (Nat.lt_succ_self _) cs
      (Nat.le_refl _)
    exact hround.mono hcs

instance {ι R : Type} [Readers R] : Readers (ι → R) where
  agree := fun n f f' => ∀ i, Readers.agree n (f i) (f' i)
  limit := fun s i => Readers.limit fun n => s n i
  agree_zero := fun _ _ _ => Readers.agree_zero _ _
  agree_symm := fun h i => Readers.agree_symm (h i)
  agree_trans := fun h h' i => Readers.agree_trans (h i) (h' i)
  eq_of_agree := fun h => funext fun i => Readers.eq_of_agree fun n => h n i
  agree_limit := fun h i => Readers.agree_limit fun m hm => h m hm i

/-- A reader that gives as many rounds as there are characters and one more is a limit. -/
theorem get_bind_eq_limit (s : Nat → Parse α) :
    (do s ((← get).length + 1)) = (Readers.limit s : Parse α) :=
  rfl

/-- The rounds are given in the middle of a reader. -/
theorem Agree.rounds (s : Nat → Parse α) {k k' : α → Parse β}
    (hs : Agree n (Readers.limit s) (Readers.limit s)) (hk : ∀ a, Agree n (k a) (k' a)) :
    Agree n (do let a ← s ((← MonadState.get).length + 1); k a)
      (do let a ← s ((← MonadState.get).length + 1); k' a) :=
  fun cs hcs => (hs cs hcs).bind (Nat.le_refl n) fun a r hr => hk a r hr

variable {R : Type} [Readers R]

/-- The recursion with the given round comes to an end, and the readers are what it reads: they
satisfy its equation, and texts shorter than a number are read in this number of rounds, whatever is
put in for the rounds that would come after them. -/
structure Terminates (step : R → R) (f : R) : Prop where
  unfolds : step f = f
  ends (n : Nat) (rest : R) : Readers.agree n (step^[n] rest) f

omit [Readers R] in
theorem eq_iterate_of_succ {step : R → R} {s : Nat → R} (hs : ∀ n, s (n + 1) = step (s n))
    (n : Nat) : s n = step^[n] (s 0) := by
  induction n with
  | zero => rfl
  | succ n ih => rw [hs, Function.iterate_succ_apply', ih]

/-- **A recursion ends if each round takes a character**: the readers that it is given agree on
texts up to a length, and then those that it makes agree on texts with one more character. -/
theorem Terminates.of_limit {step : R → R} (s : Nat → R) (hs : ∀ n, s (n + 1) = step (s n))
    (hstep : ∀ n f f', Readers.agree n f f' → Readers.agree (n + 1) (step f) (step f')) :
    Terminates step (Readers.limit s) := by
  -- what is put in for the rest is asked for behind as many characters as there were rounds
  have hrounds (n : Nat) (rest rest' : R) : Readers.agree n (step^[n] rest) (step^[n] rest') := by
    induction n with
    | zero => exact Readers.agree_zero _ _
    | succ n ih =>
      rw [Function.iterate_succ_apply', Function.iterate_succ_apply']
      exact hstep n _ _ ih
  -- on a text with `m` characters the limit is `s (m + 1)`, and `n` rounds are at least as many
  have hends (n : Nat) (rest : R) : Readers.agree n (step^[n] rest) (Readers.limit s) := by
    refine Readers.agree_symm (Readers.agree_limit fun m hm => ?_)
    obtain ⟨i, rfl⟩ : ∃ i, n = m + 1 + i := ⟨n - (m + 1), by omega⟩
    rw [eq_iterate_of_succ hs (m + 1), Function.iterate_add_apply step (m + 1) i rest]
    exact hrounds (m + 1) _ _
  -- a round on top of `n` others is what `n + 1` rounds are
  refine ⟨Readers.eq_of_agree fun n => ?_, hends⟩
  cases n with
  | zero => exact Readers.agree_zero _ _
  | succ n =>
    have hround := hstep n _ _ (hends n (s 0))
    rw [← Function.iterate_succ_apply' step n (s 0)] at hround
    exact Readers.agree_trans (Readers.agree_symm hround) (hends (n + 1) (s 0))

/-- What a recursion reads stays inside the text. -/
theorem Terminates.agree_self {step : R → R} {f : R} (h : Terminates step f) (n : Nat) :
    Readers.agree n f f :=
  Readers.agree_trans (Readers.agree_symm (h.ends n f)) (h.ends n f)

/-! ### Loops -/

/-- A round of a repetition. -/
def manyStep (item : Parse (Option α)) (more : Parse (List α)) : Parse (List α) := do
  match ← item with
  | none => pure []
  | some x => do
    let xs ← more
    pure (x :: xs)

/-- A round of items with separators. -/
def separatedStep (separator : Char) (item : Parse α) (more : Parse (List α)) :
    Parse (List α) := do
  skipBlanks
  let x ← item
  skipBlanks
  if ← eat separator then
    let xs ← more
    pure (x :: xs)
  else pure [x]

/-- What a tried reader answers it answers itself. -/
theorem eq_ok_of_attempt {f : Parse α} {cs r : List Char} {x : α}
    (h : attempt f cs = .ok (some x, r)) : f cs = .ok (x, r) := by
  rw [attempt] at h
  cases hrun : f cs with
  | error e =>
    rw [hrun] at h
    cases h
  | ok p =>
    rw [hrun] at h
    cases h
    rfl

/-- On a text the reader takes a character at least, if it does not fail. -/
def Shortens (cs : List Char) (f : Parse α) : Prop :=
  ∀ a r, f cs = .ok (a, r) → r.length < cs.length

namespace Shortens

variable {cs : List Char} {f : Parse α} {k : α → Parse β}

theorem skip (c : Char) (cs : List Char) : Shortens (c :: cs) (skip 1) := by
  rintro _ _ ⟨⟩
  exact Nat.lt_succ_self _

theorem fail (message : String) (cs : List Char) : Shortens cs (fail message : Parse α) := by
  rintro _ _ ⟨⟩

/-- It does not depend on the character that comes next that one is taken. -/
theorem peek {k : Option Char → Parse β} (hk : ∀ o, Shortens cs (k o)) : Shortens cs (peek >>= k) :=
  hk cs.head?

theorem expect (c : Char) (cs : List Char) : Shortens cs (expect c) := by
  intro a r h
  by_cases hhead : cs.head? = some c
  · obtain ⟨ds, rfl⟩ := List.head?_eq_some_iff.mp hhead
    rw [expect_cons_self] at h
    cases h
    exact Nat.lt_succ_self _
  · obtain ⟨e, he⟩ := expect_of_head?_ne hhead
    rw [he] at h
    cases h

theorem ite {c : Prop} [Decidable c] {g : Parse α} (hf : Shortens cs f) (hg : Shortens cs g) :
    Shortens cs (if c then f else g) := by
  split
  · exact hf
  · exact hg

/-- What comes next stays inside the shorter text. -/
theorem bind (hf : Shortens cs f) (hk : ∀ a n, Agree n (k a) (k a)) : Shortens cs (f >>= k) := by
  intro b r h
  obtain ⟨a, mid, ha, hb⟩ := bind_eq_ok h
  exact Nat.lt_of_le_of_lt ((hk a mid.length).length_le (Nat.le_refl _) hb) (hf a mid ha)

end Shortens

/-- The reader stays inside the text, and takes a character where it answers something. -/
structure Advances (item : Parse (Option α)) : Prop where
  agree (n : Nat) : Agree n item item
  shorter : ∀ cs x r, item cs = .ok (some x, r) → r.length < cs.length

/-- The reader answers something only after a character that is found. -/
theorem Advances.of_eat {c : Char} {k : Bool → Parse (Option α)}
    (htrue : ∀ n, Agree n (k true) (k true)) (hfalse : k false = pure none) :
    Advances (eat c >>= k) where
  agree n := .eat_below (fun m _ => htrue m) (hfalse ▸ .pure none)
  shorter cs x r h := by
    by_cases hhead : cs.head? = some c
    · obtain ⟨ds, rfl⟩ := List.head?_eq_some_iff.mp hhead
      rw [run_bind_of_ok (eat_cons_self c ds)] at h
      exact Nat.lt_succ_of_le ((htrue ds.length).length_le (Nat.le_refl _) h)
    · rw [run_bind_of_ok (eat_of_head?_ne hhead), hfalse] at h
      cases h

/-- After an item that is found the text is shorter. -/
theorem Advances.bind_below {item : Parse (Option α)} {k k' : Option α → Parse β}
    (h : Advances item) (hnone : Agree n (k none) (k' none))
    (hsome : ∀ x, AgreeBelow n (k (some x)) (k' (some x))) :
    Agree n (item >>= k) (item >>= k') := by
  intro cs hcs
  unfold SameAt
  obtain ⟨-, hinside⟩ := h.agree n cs hcs
  cases hrun : item cs with
  | error e =>
    rw [hrun] at hinside
    rw [run_bind_of_error hrun, run_bind_of_error hrun]
    exact ⟨rfl, hinside⟩
  | ok p =>
    obtain ⟨o, r⟩ := p
    rw [hrun] at hinside
    rw [run_bind_of_ok hrun, run_bind_of_ok hrun]
    cases o with
    | none => exact hnone r hinside
    | some x =>
      have hlt : r.length < n := Nat.lt_of_lt_of_le (h.shorter cs x r hrun) hcs
      exact (hsome x r.length hlt r (Nat.le_refl _)).mono (Nat.le_of_lt hlt)

/-- **A repetition ends** if each item takes a character. -/
theorem Advances.many {item : Parse (Option α)} (h : Advances item) :
    Terminates (manyStep item) (many item) := by
  refine .of_limit (manyWithin item) (fun _ => rfl) fun n more more' hmore => ?_
  refine .of_agree fun m hm => h.bind_below (.pure []) fun x => ?_
  exact fun i hi => (hmore i (Nat.lt_of_lt_of_le hi hm)).map (x :: ·)

/-- **Items with separators end**: each round but the last takes a separator. -/
theorem terminates_separated {item : Parse α} (hitem : ∀ n, Agree n item item) (separator : Char) :
    Terminates (separatedStep separator item) (separated separator item) := by
  refine .of_limit (separatedWithin separator item) (fun _ => rfl) fun n more more' hmore => ?_
  refine .of_agree fun m hm => ?_
  refine .bind .skipBlanks fun _ => .bind (hitem m) fun x => .bind .skipBlanks fun _ => ?_
  exact .eat_below (fun i hi => (hmore i (Nat.lt_of_lt_of_le hi hm)).map (x :: ·)) (.pure [x])

end DottedPath.Parse
