import ViewLogic.SortedMap

/-!
# Bags

A bag holds each of its elements a positive number of times. It is stored as a map from the
elements to their numbers, so equal bags are equal as stored, and the order of its elements is the
order of the map. Every update goes through `alterCount`, whose effect is `count_alterCount`.
-/

namespace ViewLogic

open Std (TransOrd LawfulEqOrd TransCmp LawfulEqCmp)

/-- A finite bag: its elements in ascending order, each with the number of its occurrences. -/
structure Bag (α : Type) [Ord α] where
  counts : SortedMap α Nat
  positive : ∀ e ∈ counts.entries, 0 < e.2
deriving DecidableEq

namespace Bag

variable {α β : Type} [Ord α]

/-- The bag without elements. -/
def empty : Bag α := ⟨.empty, by simp [SortedMap.empty]⟩

instance : EmptyCollection (Bag α) := ⟨empty⟩

instance : Inhabited (Bag α) := ⟨empty⟩

/-- The number of occurrences of an element. -/
def count (b : Bag α) (x : α) : Nat := (b.counts.get? x).getD 0

/-- The number of all occurrences. -/
def size (b : Bag α) : Nat := b.counts.entries.foldr (fun e n => e.2 + n) 0

/-- The number of different elements. -/
def distinct (b : Bag α) : Nat := b.counts.size

/-- Whether there is no occurrence. -/
def isEmpty (b : Bag α) : Bool := b.counts.entries.isEmpty

/-- The different elements in ascending order. -/
def elements (b : Bag α) : List α := b.counts.keys

/-- Every occurrence, in ascending order. -/
def toList (b : Bag α) : List α := b.counts.entries.flatMap fun e => List.replicate e.2 e.1

/-- The text of a bag: every occurrence, joined by stars. -/
def render (text : α → String) (b : Bag α) : String :=
  "\x7b" ++ String.intercalate " * " (b.toList.map text) ++ "\x7d"

/-- The text of a bag as a list: every occurrence in brackets, separated by commas. -/
def renderList (text : α → String) (b : Bag α) : String :=
  "[" ++ String.intercalate ", " (b.toList.map text) ++ "]"

/-! ### The order of bags -/

/-- Compares counted elements by the element, then by the number. -/
def compareCounted : α × Nat → α × Nat → Ordering :=
  compareLex (compareOn Prod.fst) (compareOn Prod.snd)

/-- Bags are ordered as the lists of their counted elements. -/
instance : Ord (Bag α) where
  compare b c := List.compareLex compareCounted b.counts.entries c.counts.entries

instance [TransOrd α] : TransCmp (compareCounted : α × Nat → α × Nat → Ordering) :=
  inferInstanceAs (TransCmp (compareLex (compareOn Prod.fst) (compareOn Prod.snd)))

instance [TransOrd α] : TransOrd (Bag α) where
  eq_swap {b c} :=
    @Std.OrientedCmp.eq_swap _ (List.compareLex compareCounted) _ b.counts.entries c.counts.entries
  isLE_trans {b c d} :=
    @TransCmp.isLE_trans _ (List.compareLex compareCounted) _ b.counts.entries c.counts.entries
      d.counts.entries

/-! ### Operations -/

variable [TransOrd α]

/-- Changes the number of occurrences of one element. -/
def alterCount (b : Bag α) (x : α) (f : Nat → Nat) : Bag α where
  counts := b.counts.alter x fun old =>
    if f (old.getD 0) = 0 then none else some (f (old.getD 0))
  positive e he := by
    obtain he | ⟨old, hold⟩ := SortedMap.mem_alterEntries he
    · exact b.positive e he
    · split at hold
      · cases hold
      · simp only [Option.some.injEq] at hold
        omega

/-- Adds a number of occurrences of an element. -/
def add (b : Bag α) (x : α) (n : Nat) : Bag α := b.alterCount x (· + n)

/-- Adds one occurrence. -/
def insert (b : Bag α) (x : α) : Bag α := b.add x 1

/-- Removes one occurrence, if there is one. -/
def eraseOne (b : Bag α) (x : α) : Bag α := b.alterCount x (· - 1)

/-- Removes one occurrence, if there is one, and tells whether there was one. -/
def removeOne (b : Bag α) (x : α) : Bool × Bag α :=
  match b.counts.get? x with
  | some _ => (true, b.eraseOne x)
  | none => (false, b)

/-- Adds counted elements; an element may be listed several times, or with the number zero. -/
def addCounts (b : Bag α) (l : List (α × Nat)) : Bag α := l.foldl (fun b e => b.add e.1 e.2) b

/-- Adds the elements of a list. -/
def extend (b : Bag α) (l : List α) : Bag α := l.foldl insert b

/-- The bag of counted elements. -/
def ofCounts (l : List (α × Nat)) : Bag α := empty.addCounts l

/-- The bag of the elements of a list. -/
def ofList (l : List α) : Bag α := empty.extend l

/-- The bag of one element. -/
def singleton (x : α) : Bag α := empty.insert x

/-- All occurrences of both bags. -/
def union (b c : Bag α) : Bag α := b.addCounts c.counts.entries

omit [TransOrd α] in
/-- Applies a function to every occurrence. -/
def map [Ord β] [TransOrd β] (f : α → β) (b : Bag α) : Bag β :=
  ofCounts (b.counts.entries.map fun e => (f e.1, e.2))

/-! ### Counting -/

variable [LawfulEqOrd α]

/-- A changed element has its new number, and every other number is as before. -/
theorem count_alterCount (b : Bag α) (x y : α) (f : Nat → Nat) :
    (b.alterCount x f).count y = if compare y x = .eq then f (b.count x) else b.count y := by
  simp only [count, alterCount, SortedMap.get?_alter]
  split
  · split
    next h => simp [h]
    next => rfl
  · rfl

/-- Added occurrences of an element count for it, and every other number is as before. -/
theorem count_add (b : Bag α) (x y : α) (n : Nat) :
    (b.add x n).count y = if compare y x = .eq then b.count x + n else b.count y :=
  count_alterCount b x y _

/-- An erased occurrence is missing from its element, and every other number is as before. -/
theorem count_eraseOne (b : Bag α) (x y : α) :
    (b.eraseOne x).count y = if compare y x = .eq then b.count x - 1 else b.count y :=
  count_alterCount b x y _

omit [TransOrd α] [LawfulEqOrd α] in
/-- A stored number is never zero. -/
theorem pos_of_lookupEntries {l : List (α × Nat)} (hl : ∀ e ∈ l, 0 < e.2) {x : α} {n : Nat}
    (h : SortedMap.lookupEntries x l = some n) : 0 < n := by
  induction l with
  | nil => simp [SortedMap.lookupEntries] at h
  | cons head rest ih =>
    simp only [SortedMap.lookupEntries] at h
    split at h
    · cases h
      exact hl head (by simp)
    · exact ih (fun e he => hl e (by simp [he])) h

/-- Bags with the same numbers of occurrences are equal. -/
theorem ext_count {b c : Bag α} (h : ∀ x, b.count x = c.count x) : b = c := by
  obtain ⟨counts, positive⟩ := b
  obtain ⟨counts', positive'⟩ := c
  have hcounts : counts = counts' := by
    apply SortedMap.ext_get?
    intro x
    have hx := h x
    simp only [count] at hx
    cases hb : counts.get? x with
    | none =>
      cases hc : counts'.get? x with
      | none => rfl
      | some n =>
        have := pos_of_lookupEntries positive' hc
        simp [hb, hc] at hx
        omega
    | some m =>
      have := pos_of_lookupEntries positive hb
      cases hc : counts'.get? x with
      | none =>
        simp [hb, hc] at hx
        omega
      | some n => simpa [hb, hc] using hx
  subst hcounts
  rfl

end Bag

end ViewLogic
