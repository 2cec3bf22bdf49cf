/-!
# Orders through keys

The order of a type is read off a key: an enumeration is ordered by rank, a record field by field.
Transitivity comes with the key's order, so the only fact to supply is that the key determines the
value.
-/

namespace ViewLogic

open Std (LawfulEqCmp LawfulEqOrd)

variable {α β γ : Type}

/-- Comparing through a key is lawful when the key determines the value. -/
theorem lawfulEqCmp_compareOn [Ord β] [LawfulEqOrd β] {key : α → β}
    (hkey : ∀ a b, key a = key b → a = b) : LawfulEqCmp (compareOn key) where
  compare_self := by simp [compareOn]
  eq_of_compare {a b} h := hkey a b (LawfulEqOrd.eq_of_compare h)

/-- Comparing through two keys, the first deciding, is lawful when both together determine the
value. -/
theorem lawfulEqCmp_compareLex [Ord β] [Ord γ] [LawfulEqOrd β] [LawfulEqOrd γ]
    {fst : α → β} {snd : α → γ} (hkeys : ∀ a b, fst a = fst b → snd a = snd b → a = b) :
    LawfulEqCmp (compareLex (compareOn fst) (compareOn snd)) where
  compare_self := by simp [compareLex, compareOn]
  eq_of_compare {a b} h := by
    simp only [compareLex, compareOn, Ordering.then_eq_eq] at h
    exact hkeys a b (LawfulEqOrd.eq_of_compare h.1) (LawfulEqOrd.eq_of_compare h.2)

end ViewLogic
