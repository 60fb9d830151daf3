/-!
Distribution of items over runs: every item goes to exactly one run that accepts it, and the number
of items of each run lies within its bounds. Items are positions, so no two are the same.
-/

namespace DottedPath

/-- A run that is to be filled: how many items it takes, and which. -/
structure Run where
  least : Nat
  greatest : Option Nat
  accepts : Nat → Bool

namespace Run

/-- Whether a number of items lies within the bounds. -/
def admits (r : Run) (count : Nat) : Bool :=
  r.least ≤ count && r.greatest.all (count ≤ ·)

/-- The ways to choose a number of items, each in the order of the items. -/
def choices {α : Type} : Nat → List α → List (List α)
  | 0, _ => [[]]
  | _ + 1, [] => []
  | k + 1, x :: xs => (choices k xs).map (x :: ·) ++ choices (k + 1) xs

/-- The numbers from `lo` to `hi`. -/
def countsFrom (lo hi : Nat) : List Nat :=
  (List.range (hi + 1 - lo)).map (lo + ·)

theorem mem_countsFrom {lo hi n : Nat} : n ∈ countsFrom lo hi ↔ lo ≤ n ∧ n ≤ hi := by
  rw [countsFrom, List.mem_map]
  constructor
  · rintro ⟨k, hk, rfl⟩
    rw [List.mem_range] at hk
    omega
  · rintro ⟨hlo, hhi⟩
    exact ⟨n - lo, List.mem_range.mpr (by omega), by omega⟩

/-- Fills the runs one after the other, trying every choice for each. -/
def fillAll : List Run → List Nat → Bool
  | [], items => items.isEmpty
  | r :: rs, items =>
    let eligible := items.filter r.accepts
    let most := min (r.greatest.getD items.length) (min items.length eligible.length)
    r.least ≤ eligible.length &&
      (countsFrom r.least most).any fun count =>
        (choices count eligible).any fun taken =>
          fillAll rs (items.filter fun i => !taken.contains i)

/-- Whether the items can be distributed. Without runs there must be no items, and a single run must
take them all. -/
def distributes (runs : List Run) (items : List Nat) : Bool :=
  match runs with
  | [] => items.isEmpty
  | [r] => items.all r.accepts && r.admits items.length
  | runs => fillAll runs items

end Run

end DottedPath
