/-!
# Counting different members

The number of different members of a list, and that it falls when a member goes and none comes.
-/

namespace ViewLogic

variable {α : Type} [DecidableEq α]

/-- The number of different members of a list. -/
def distinctCount : List α → Nat
  | [] => 0
  | a :: l => if a ∈ l then distinctCount l else distinctCount l + 1

/-- Without one of its members a list has one different member less. -/
theorem distinctCount_filter_ne {a : α} {l : List α} (ha : a ∈ l) :
    distinctCount (l.filter (· ≠ a)) + 1 = distinctCount l := by
  induction l with
  | nil => cases ha
  | cons b l ih =>
    by_cases hb : b = a
    · subst hb
      by_cases hmem : b ∈ l
      · simpa [distinctCount, hmem] using ih hmem
      · have hall : l.filter (· ≠ b) = l := List.filter_eq_self.mpr fun c hc => by
          simp only [ne_eq, decide_not, Bool.not_eq_true', decide_eq_false_iff_not]
          rintro rfl
          exact hmem hc
        simp only [ne_eq, decide_not] at hall
        simp [distinctCount, hmem, hall]
    · have hmem : a ∈ l := by simpa [Ne.symm hb] using ha
      have hiff : b ∈ l.filter (· ≠ a) ↔ b ∈ l := by simp [hb]
      have ih := ih hmem
      simp only [ne_eq, decide_not] at ih hiff
      by_cases hbl : b ∈ l
      · simp [distinctCount, hb, hiff, hbl, ih]
      · simp [distinctCount, hb, hiff, hbl, ih]

/-- A list has at most as many different members as a list that holds all of them. -/
theorem distinctCount_le_of_subset {l m : List α} (h : ∀ a ∈ l, a ∈ m) :
    distinctCount l ≤ distinctCount m := by
  induction l generalizing m with
  | nil => exact Nat.zero_le _
  | cons a l ih =>
    by_cases ha : a ∈ l
    · simp only [distinctCount, if_pos ha]
      exact ih fun b hb => h b (by simp [hb])
    · simp only [distinctCount, if_neg ha]
      rw [← distinctCount_filter_ne (h a (by simp))]
      refine Nat.succ_le_succ (ih fun b hb => ?_)
      have hne : b ≠ a := by
        rintro rfl
        exact ha hb
      simp [h b (by simp [hb]), hne]

/-- A list has fewer different members than a list that holds all of them and one more. -/
theorem distinctCount_lt_of_subset {l m : List α} {a : α} (h : ∀ b ∈ l, b ∈ m) (ha : a ∈ m)
    (hnot : a ∉ l) : distinctCount l < distinctCount m := by
  rw [← distinctCount_filter_ne ha]
  refine Nat.lt_succ_of_le (distinctCount_le_of_subset fun b hb => ?_)
  have hne : b ≠ a := by
    rintro rfl
    exact hnot hb
  simp [h b hb, hne]

end ViewLogic
