import ViewLogic.Order

/-!
# Maps sorted by key

A map is the list of its entries in strictly ascending order of their keys. Two maps with the same
look-ups are therefore equal, and the first entry with a property is the first one in key order.
Every update goes through `alter`, whose effect on look-ups is `get?_alter`.
-/

namespace ViewLogic

open Std (TransOrd LawfulEqOrd)

/-- A finite map, stored as its entries in strictly ascending key order. -/
structure SortedMap (κ β : Type) [Ord κ] where
  entries : List (κ × β)
  sorted : entries.Pairwise (fun a b => compare a.1 b.1 = .lt)
deriving DecidableEq

namespace SortedMap

variable {κ β γ : Type} [Ord κ]

/-- The map without entries. -/
def empty : SortedMap κ β := ⟨[], .nil⟩

instance : EmptyCollection (SortedMap κ β) := ⟨empty⟩

instance : Inhabited (SortedMap κ β) := ⟨empty⟩

/-- The keys in ascending order. -/
def keys (m : SortedMap κ β) : List κ := m.entries.map (·.1)

/-- The values in ascending order of their keys. -/
def values (m : SortedMap κ β) : List β := m.entries.map (·.2)

/-- The number of entries. -/
def size (m : SortedMap κ β) : Nat := m.entries.length

/-- The value stored under a key in a list of entries. -/
def lookupEntries (k : κ) : List (κ × β) → Option β
  | [] => none
  | (k', v) :: rest => if compare k k' = .eq then some v else lookupEntries k rest

/-- The value stored under a key. -/
def get? (m : SortedMap κ β) (k : κ) : Option β := lookupEntries k m.entries

/-- Whether a key has a value. -/
def contains (m : SortedMap κ β) (k : κ) : Bool := (m.get? k).isSome

/-- Replaces what a sorted list of entries stores under `k` by what `f` makes of it. -/
def alterEntries (k : κ) (f : Option β → Option β) : List (κ × β) → List (κ × β)
  | [] => (f none).toList.map (k, ·)
  | (k', v) :: rest =>
    match compare k k' with
    | .lt => (f none).toList.map (k, ·) ++ (k', v) :: rest
    | .eq => (f (some v)).toList.map (k', ·) ++ rest
    | .gt => (k', v) :: alterEntries k f rest

/-- An altered list has no new keys beside the altered one. -/
theorem key_mem_alterEntries {k : κ} {f : Option β → Option β} {l : List (κ × β)} {e : κ × β}
    (he : e ∈ alterEntries k f l) : e.1 = k ∨ ∃ e' ∈ l, e'.1 = e.1 := by
  induction l with
  | nil =>
    simp only [alterEntries, List.mem_map] at he
    obtain ⟨v, -, rfl⟩ := he
    exact .inl rfl
  | cons head rest ih =>
    simp only [alterEntries] at he
    split at he
    · simp only [List.mem_append, List.mem_map] at he
      obtain ⟨v, -, rfl⟩ | he := he
      · exact .inl rfl
      · exact .inr ⟨e, he, rfl⟩
    · simp only [List.mem_append, List.mem_map] at he
      obtain ⟨v, -, rfl⟩ | he := he
      · exact .inr ⟨head, by simp, rfl⟩
      · exact .inr ⟨e, by simp [he], rfl⟩
    · obtain rfl | he := List.mem_cons.mp he
      · exact .inr ⟨head, by simp, rfl⟩
      · obtain h | ⟨e', he', h⟩ := ih he
        · exact .inl h
        · exact .inr ⟨e', by simp [he'], h⟩

/-- An entry of an altered list was there before or holds a value that `f` returned. -/
theorem mem_alterEntries {k : κ} {f : Option β → Option β} {l : List (κ × β)} {e : κ × β}
    (he : e ∈ alterEntries k f l) : e ∈ l ∨ ∃ old, f old = some e.2 := by
  induction l with
  | nil =>
    simp only [alterEntries, List.mem_map, Option.mem_toList] at he
    obtain ⟨v, hv, rfl⟩ := he
    exact .inr ⟨none, hv⟩
  | cons head rest ih =>
    simp only [alterEntries] at he
    split at he
    · simp only [List.mem_append, List.mem_map, Option.mem_toList] at he
      obtain ⟨v, hv, rfl⟩ | he := he
      · exact .inr ⟨none, hv⟩
      · exact .inl he
    · simp only [List.mem_append, List.mem_map, Option.mem_toList] at he
      obtain ⟨v, hv, rfl⟩ | he := he
      · exact .inr ⟨some head.2, hv⟩
      · exact .inl (by simp [he])
    · obtain rfl | he := List.mem_cons.mp he
      · exact .inl (by simp)
      · obtain h | h := ih he
        · exact .inl (by simp [h])
        · exact .inr h

/-- Altering keeps the keys in strictly ascending order. -/
theorem sorted_alterEntries [TransOrd κ] {k : κ} {f : Option β → Option β} {l : List (κ × β)}
    (hl : l.Pairwise (fun a b => compare a.1 b.1 = .lt)) :
    (alterEntries k f l).Pairwise (fun a b => compare a.1 b.1 = .lt) := by
  induction l with
  | nil => cases h : f none <;> simp [alterEntries, h]
  | cons head rest ih =>
    obtain ⟨hhead, hrest⟩ := List.pairwise_cons.mp hl
    simp only [alterEntries]
    split
    next hlt =>
      cases f none with
      | none => simpa using hl
      | some v =>
        refine List.pairwise_cons.mpr ⟨fun e he => ?_, hl⟩
        obtain rfl | he := List.mem_cons.mp he
        · exact hlt
        · exact Std.TransCmp.lt_trans hlt (hhead e he)
    next =>
      cases f (some head.2) with
      | none => simpa using hrest
      | some v => exact List.pairwise_cons.mpr ⟨fun e he => hhead e he, hrest⟩
    next hgt =>
      refine List.pairwise_cons.mpr ⟨fun e he => ?_, ih hrest⟩
      obtain h | ⟨e', he', h⟩ := key_mem_alterEntries he
      · rw [h]
        exact Std.OrientedCmp.gt_iff_lt.mp hgt
      · rw [← h]
        exact hhead e' he'

variable [TransOrd κ]

/-- Replaces the value under a key by what `f` makes of it, `none` standing for no value. -/
def alter (m : SortedMap κ β) (k : κ) (f : Option β → Option β) : SortedMap κ β :=
  ⟨alterEntries k f m.entries, sorted_alterEntries m.sorted⟩

/-- Stores a value under a key, in place of any earlier one. -/
def insert (m : SortedMap κ β) (k : κ) (v : β) : SortedMap κ β := m.alter k fun _ => some v

/-- Removes a key with its value. -/
def erase (m : SortedMap κ β) (k : κ) : SortedMap κ β := m.alter k fun _ => none

omit [TransOrd κ] in
/-- Applies a function to every value. -/
def map (f : β → γ) (m : SortedMap κ β) : SortedMap κ γ :=
  ⟨m.entries.map fun e => (e.1, f e.2), List.pairwise_map.mpr m.sorted⟩

/-- The map of a list of entries; the last entry of a key wins. -/
def ofList (l : List (κ × β)) : SortedMap κ β := l.foldl (fun m e => m.insert e.1 e.2) empty

/-! ### Look-ups -/

omit [TransOrd κ] in
/-- A key that equals none of the keys of a list has no value in it. -/
theorem lookupEntries_eq_none {k : κ} {l : List (κ × β)} (h : ∀ e ∈ l, compare k e.1 ≠ .eq) :
    lookupEntries k l = none := by
  induction l with
  | nil => rfl
  | cons head rest ih =>
    have hhead := h head (by simp)
    simp only [lookupEntries, if_neg hhead]
    exact ih fun e he => h e (by simp [he])

/-- A key below the first key of a sorted list has no value in it. -/
theorem lookupEntries_eq_none_of_lt {k : κ} {e : κ × β} {rest : List (κ × β)}
    (hlt : compare k e.1 = .lt)
    (hsorted : (e :: rest).Pairwise (fun a b => compare a.1 b.1 = .lt)) :
    lookupEntries k (e :: rest) = none := by
  apply lookupEntries_eq_none
  intro e' he'
  obtain rfl | he' := List.mem_cons.mp he'
  · simp [hlt]
  · simp [Std.TransCmp.lt_trans hlt ((List.pairwise_cons.mp hsorted).1 e' he')]

variable [LawfulEqOrd κ]

/-- Altering changes the value under its own key and under no other. -/
theorem lookupEntries_alterEntries {k j : κ} {f : Option β → Option β} {l : List (κ × β)}
    (hl : l.Pairwise (fun a b => compare a.1 b.1 = .lt)) :
    lookupEntries j (alterEntries k f l) =
      if compare j k = .eq then f (lookupEntries k l) else lookupEntries j l := by
  induction l with
  | nil => cases h : f none <;> simp [alterEntries, lookupEntries, h]
  | cons head rest ih =>
    simp only [alterEntries]
    split
    next hlt =>
      have hnone := lookupEntries_eq_none_of_lt hlt hl
      rw [hnone]
      cases hf : f none with
      | none =>
        split
        next heq =>
          obtain rfl := LawfulEqOrd.eq_of_compare heq
          simpa [hf] using hnone
        next => rfl
      | some v => rfl
    next heq =>
      obtain rfl := LawfulEqOrd.eq_of_compare heq
      cases hf : f (some head.2) with
      | none =>
        split
        next hj =>
          obtain rfl := LawfulEqOrd.eq_of_compare hj
          have hnone : lookupEntries head.1 rest = none := lookupEntries_eq_none fun e he => by
            simp [(List.pairwise_cons.mp hl).1 e he]
          simp [lookupEntries, hf, hnone]
        next hj => simp [lookupEntries, hj]
      | some v =>
        split
        next hj => simp [lookupEntries, hf, hj]
        next hj => simp [lookupEntries, hj]
    next hgt =>
      have hne : compare k head.1 ≠ .eq := by simp [hgt]
      simp only [lookupEntries, ih (List.pairwise_cons.mp hl).2, if_neg hne]
      split
      next hj =>
        split
        next hk =>
          obtain rfl := LawfulEqOrd.eq_of_compare hk
          exact absurd hj hne
        next => rfl
      next => rfl

/-- Altering a key changes what is found under it, and nothing else. -/
theorem get?_alter (m : SortedMap κ β) (k j : κ) (f : Option β → Option β) :
    (m.alter k f).get? j = if compare j k = .eq then f (m.get? k) else m.get? j :=
  lookupEntries_alterEntries m.sorted

/-- An inserted value is found under its key, and every other look-up is as before. -/
theorem get?_insert (m : SortedMap κ β) (k j : κ) (v : β) :
    (m.insert k v).get? j = if compare j k = .eq then some v else m.get? j :=
  get?_alter m k j _

/-- An erased key is not found, and every other look-up is as before. -/
theorem get?_erase (m : SortedMap κ β) (k j : κ) :
    (m.erase k).get? j = if compare j k = .eq then none else m.get? j :=
  get?_alter m k j _

omit [TransOrd κ] [LawfulEqOrd κ] in
/-- Nothing is found in the empty map. -/
@[simp] theorem get?_empty (k : κ) : (∅ : SortedMap κ β).get? k = none := rfl

omit [TransOrd κ] [LawfulEqOrd κ] in
/-- A look-up in a mapped map finds the mapped value. -/
@[simp] theorem get?_map (f : β → γ) (m : SortedMap κ β) (k : κ) :
    (m.map f).get? k = (m.get? k).map f := by
  obtain ⟨entries, sorted⟩ := m
  simp only [map, get?]
  clear sorted
  induction entries with
  | nil => rfl
  | cons head rest ih =>
    simp only [List.map_cons, lookupEntries]
    split
    · rfl
    · exact ih

/-- Sorted lists of entries with the same look-ups are equal. -/
theorem entries_ext {l l' : List (κ × β)}
    (hl : l.Pairwise (fun a b => compare a.1 b.1 = .lt))
    (hl' : l'.Pairwise (fun a b => compare a.1 b.1 = .lt))
    (h : ∀ k, lookupEntries k l = lookupEntries k l') : l = l' := by
  induction l generalizing l' with
  | nil =>
    cases l' with
    | nil => rfl
    | cons e rest => simpa [lookupEntries] using h e.1
  | cons e rest ih =>
    cases l' with
    | nil => simpa [lookupEntries] using h e.1
    | cons e' rest' =>
      have hself := h e.1
      have hself' := h e'.1
      have heq : compare e.1 e'.1 = .eq := by
        cases hc : compare e.1 e'.1 with
        | eq => rfl
        | lt =>
          rw [lookupEntries_eq_none_of_lt hc hl'] at hself
          simp [lookupEntries] at hself
        | gt =>
          rw [lookupEntries_eq_none_of_lt (Std.OrientedCmp.gt_iff_lt.mp hc) hl] at hself'
          simp [lookupEntries] at hself'
      obtain ⟨k, v⟩ := e
      obtain ⟨k', v'⟩ := e'
      obtain rfl : k = k' := LawfulEqOrd.eq_of_compare heq
      obtain rfl : v = v' := by simpa [lookupEntries] using hself
      rw [ih (List.pairwise_cons.mp hl).2 (List.pairwise_cons.mp hl').2 fun j => ?_]
      by_cases hj : compare j k = .eq
      · obtain rfl := LawfulEqOrd.eq_of_compare hj
        rw [lookupEntries_eq_none fun e he => by simp [(List.pairwise_cons.mp hl).1 e he],
          lookupEntries_eq_none fun e he => by simp [(List.pairwise_cons.mp hl').1 e he]]
      · simpa [lookupEntries, hj] using h j

/-- Maps with the same look-ups are equal. -/
theorem ext_get? {m n : SortedMap κ β} (h : ∀ k, m.get? k = n.get? k) : m = n := by
  obtain ⟨entries, sorted⟩ := m
  obtain ⟨entries', sorted'⟩ := n
  obtain rfl : entries = entries' := entries_ext sorted sorted' h
  rfl

end SortedMap

end ViewLogic
