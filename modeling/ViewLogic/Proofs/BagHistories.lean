import Mathlib.Data.Multiset.AddSub
import Mathlib.Data.Multiset.MapFold
import Mathlib.Data.Multiset.Replicate
import ViewLogic.Proofs.Entries
import ViewLogic.Proofs.JsonForms

/-!
# Histories of bags

However a bag is made, it holds what the operations say: every operation does to the bag what its
counterpart does to a multiset. Since the stored numbers are positive and the elements are in order,
a bag is determined by the numbers of occurrences. So it does not matter in which order, how often
and with which zeros counted elements are listed when a bag is read.
-/

namespace ViewLogic

open Std (TransOrd LawfulEqOrd)

namespace Bag

/-- How a bag is made, by operations one after another. -/
inductive History : (α : Type) → [Ord α] → Type 1
  | empty {α : Type} [Ord α] : History α
  | ofList {α : Type} [Ord α] (l : List α) : History α
  | decode {α : Type} [Ord α] (l : List (α × Nat)) : History α
  | insert {α : Type} [Ord α] (h : History α) (x : α) : History α
  | add {α : Type} [Ord α] (h : History α) (x : α) (n : Nat) : History α
  | removeOne {α : Type} [Ord α] (h : History α) (x : α) : History α
  | extend {α : Type} [Ord α] (h : History α) (l : List α) : History α
  | union {α : Type} [Ord α] (h k : History α) : History α
  | map {α β : Type} [Ord α] [TransOrd α] [LawfulEqOrd α] [Ord β] (h : History α) (f : α → β) :
    History β

/-- Every occurrence of counted elements. -/
def occurrences {α : Type} (l : List (α × Nat)) : List α :=
  l.flatMap fun e => List.replicate e.2 e.1

/-- The number with which an element is listed, in all places together. -/
def total {α : Type} [DecidableEq α] (l : List (α × Nat)) (x : α) : Nat :=
  l.foldr (fun e n => if e.1 = x then e.2 + n else n) 0

namespace History

/-- The bag that the operations make. -/
def run : {α : Type} → [Ord α] → [TransOrd α] → History α → Bag α
  | _, _, _, empty => ∅
  | _, _, _, ofList l => .ofList l
  | _, _, _, decode l => .ofCounts l
  | _, _, _, insert h x => h.run.insert x
  | _, _, _, add h x n => h.run.add x n
  | _, _, _, removeOne h x => (h.run.removeOne x).2
  | _, _, _, extend h l => h.run.extend l
  | _, _, _, union h k => h.run.union k.run
  | _, _, _, map h f => h.run.map f

/-- The order decides whether elements are equal. -/
def decidableEq (α : Type) [Ord α] [LawfulEqOrd α] : DecidableEq α := fun a b =>
  decidable_of_iff (compare a b = .eq) Std.LawfulEqCmp.compare_eq_iff_eq

/-- The multiset that the operations describe. -/
def described : {α : Type} → [Ord α] → [LawfulEqOrd α] → History α → Multiset α
  | _, _, _, empty => 0
  | _, _, _, ofList l => l
  | _, _, _, decode l => occurrences l
  | _, _, _, insert h x => x ::ₘ h.described
  | _, _, _, add h x n => h.described + Multiset.replicate n x
  | α, _, _, removeOne h x => @Multiset.erase α (decidableEq α) h.described x
  | _, _, _, extend h l => h.described + l
  | _, _, _, union h k => h.described + k.described
  | _, _, _, map h f => h.described.map f

end History

/-! ### Operations on multisets -/

section Operations

variable {α β : Type} [Ord α] [Ord β]

/-- The multiset of the occurrences in a bag. -/
def toMultiset (b : Bag α) : Multiset α := b.toList

variable [LawfulEqOrd α]

/-- A bag and its multiset hold every element equally often. -/
theorem count_toMultiset [DecidableEq α] (b : Bag α) (x : α) :
    b.toMultiset.count x = b.count x := by
  rw [toMultiset, Multiset.coe_count, count_toList]

/-- The multiset of a bag holds the elements that occur in the bag. -/
theorem mem_toMultiset {b : Bag α} {x : α} : x ∈ b.toMultiset ↔ 0 < b.count x := by
  classical
  rw [← Multiset.count_pos, count_toMultiset]

variable [TransOrd α]

/-- Adding an element a number of times adds as many copies to the multiset. -/
theorem toMultiset_add (b : Bag α) (x : α) (n : Nat) :
    (b.add x n).toMultiset = b.toMultiset + Multiset.replicate n x := by
  classical
  ext y
  rw [Multiset.count_add, count_toMultiset, count_toMultiset, count_add_replicate,
    ← Multiset.coe_replicate, Multiset.coe_count]

/-- Inserting an element puts one copy into the multiset. -/
theorem toMultiset_insert (b : Bag α) (x : α) : (b.insert x).toMultiset = x ::ₘ b.toMultiset := by
  rw [insert, toMultiset_add, Multiset.replicate_one, Multiset.add_comm, Multiset.singleton_add]

/-- Removing tells whether the element is there, and removes one occurrence of it. -/
theorem removeOne_eq (b : Bag α) (x : α) :
    b.removeOne x = (decide (0 < b.count x), b.eraseOne x) := by
  unfold removeOne
  split
  next n hn =>
    have hpos : 0 < b.count x := by
      simpa [count, hn] using pos_of_lookupEntries b.positive hn
    simp [hpos]
  next hnone =>
    have hzero : b.count x = 0 := by simp [count, hnone]
    have hsame : b.eraseOne x = b := by
      apply ext_count
      intro y
      rw [count_eraseOne]
      split
      next hy => rw [LawfulEqOrd.eq_of_compare hy, hzero]
      next => rfl
    simp [hzero, hsame]

/-- Erasing an occurrence erases one copy from the multiset. -/
theorem toMultiset_eraseOne [DecidableEq α] (b : Bag α) (x : α) :
    (b.eraseOne x).toMultiset = b.toMultiset.erase x := by
  ext y
  rw [count_toMultiset, count_eraseOne]
  by_cases hy : y = x
  · subst hy
    rw [if_pos Std.ReflCmp.compare_self, Multiset.count_erase_self, count_toMultiset]
  · have hne : compare y x ≠ .eq := fun h => hy (LawfulEqOrd.eq_of_compare h)
    rw [if_neg hne, Multiset.count_erase_of_ne hy, count_toMultiset]

/-- Extending a bag by a list adds the list to the multiset. -/
theorem toMultiset_extend (b : Bag α) (l : List α) :
    (b.extend l).toMultiset = b.toMultiset + (l : Multiset α) := by
  classical
  ext y
  rw [Multiset.count_add, count_toMultiset, count_toMultiset, count_extend, Multiset.coe_count]

/-- A union of bags is the sum of the multisets. -/
theorem toMultiset_union (b c : Bag α) :
    (b.union c).toMultiset = b.toMultiset + c.toMultiset := by
  classical
  ext y
  rw [Multiset.count_add, count_toMultiset, count_toMultiset, count_toMultiset, count_union]

/-- The bag of a list is its multiset. -/
theorem toMultiset_ofList (l : List α) : (ofList l).toMultiset = l :=
  Multiset.coe_eq_coe.mpr (perm_toList_ofList l)

/-- The bag of counted elements holds all their occurrences. -/
theorem toMultiset_ofCounts (l : List (α × Nat)) : (ofCounts l).toMultiset = occurrences l := by
  classical
  ext y
  rw [count_toMultiset, ofCounts, count_addCounts, Multiset.coe_count]
  exact Nat.zero_add _

omit [LawfulEqOrd α] [TransOrd α] in
/-- Mapping a bag maps every copy in the multiset. -/
theorem toMultiset_map [LawfulEqOrd β] [TransOrd β] (b : Bag α) (f : α → β) :
    (b.map f).toMultiset = b.toMultiset.map f := by
  rw [map, toMultiset_ofCounts, toMultiset, toList, Multiset.map_coe, occurrences, List.flatMap_map,
    List.map_flatMap]
  simp only [List.map_replicate]

/-- Whatever operations make a bag, it holds what they describe. -/
theorem toMultiset_run {α : Type} [Ord α] (h : History α) :
    ∀ [TransOrd α] [LawfulEqOrd α], h.run.toMultiset = h.described := by
  -- The laws of the order come after the history, because a map leads to another order.
  induction h with
  | empty => intro _ _; rfl
  | ofList l => intro _ _; exact toMultiset_ofList l
  | decode l => intro _ _; exact toMultiset_ofCounts l
  | insert h x ih => intro _ _; rw [History.run, toMultiset_insert, ih, History.described]
  | add h x n ih => intro _ _; rw [History.run, toMultiset_add, ih, History.described]
  | @removeOne α _ h x ih =>
    intro _ _
    let _ := History.decidableEq α
    rw [History.run, removeOne_eq, toMultiset_eraseOne, ih, History.described]
  | extend h l ih => intro _ _; rw [History.run, toMultiset_extend, ih, History.described]
  | union h k ihh ihk => intro _ _; rw [History.run, toMultiset_union, ihh, ihk, History.described]
  | map h f ih => intro _ _; rw [History.run, toMultiset_map, ih, History.described]

end Operations

/-! ### Sorted occurrences -/

section Canonical

variable {α : Type} [Ord α]

/-- The occurrences in a bag are listed in order. -/
theorem pairwise_toList [LawfulEqOrd α] (b : Bag α) :
    b.toList.Pairwise fun x y => (compare x y).isLE := by
  rw [toList, List.pairwise_flatMap]
  constructor
  · intro e _
    rw [List.pairwise_replicate]
    simp
  · refine b.counts.sorted.imp fun {e e'} hlt x hx y hy => ?_
    rw [(List.mem_replicate.mp hx).2, (List.mem_replicate.mp hy).2, hlt]
    rfl

/-! ### Reading and writing -/

variable [TransOrd α] [LawfulEqOrd α]

/-- In the bag of counted elements, an element occurs as often as it is listed in total. -/
theorem count_ofCounts [DecidableEq α] (l : List (α × Nat)) (x : α) :
    (ofCounts l).count x = total l x := by
  rw [← count_toMultiset, toMultiset_ofCounts, Multiset.coe_count]
  induction l with
  | nil => rfl
  | cons e l ih =>
    rw [total, List.foldr_cons, ← total, ← ih, occurrences, List.flatMap_cons, List.count_append,
      List.count_replicate, ← occurrences]
    by_cases he : e.1 = x <;> simp [he]

/-- Counted elements make the same bag if and only if they have the same totals. -/
theorem ofCounts_eq_iff [DecidableEq α] {l l' : List (α × Nat)} :
    ofCounts l = ofCounts l' ↔ ∀ x, total l x = total l' x := by
  simp only [← count_ofCounts]
  exact ⟨fun h x => by rw [h], ext_count⟩

/-- The stored numbers of a bag make up the bag again. -/
theorem ofCounts_entries (b : Bag α) : ofCounts b.counts.entries = b := by
  classical
  apply ext_count
  intro x
  rw [← count_toMultiset, ← count_toMultiset, toMultiset_ofCounts]
  rfl

omit [Ord α] [TransOrd α] [LawfulEqOrd α] in
/-- Counted elements are read back, if the elements are and the numbers fit into 64 bits. -/
theorem countsOfJson?_countsToJson {read : Json → Option α} {write : α → Json}
    {l : List (α × Nat)}
    (h : ∀ e ∈ l, read (write e.1) = some e.1 ∧ e.2 < 18446744073709551616) :
    countsOfJson? read (countsToJson write l) = some l := by
  rw [countsOfJson?, countsToJson, Json.list?_arr]
  refine mapM_map_eq_some fun e he => ?_
  obtain ⟨helem, hnumber⟩ := h e he
  simp [helem, Json.nat64?_int hnumber]

omit [LawfulEqOrd α] in
/-- A written list of counted elements is read as their bag. -/
theorem ofJson?_countsToJson {read : Json → Option α} {write : α → Json} {l : List (α × Nat)}
    (h : ∀ e ∈ l, read (write e.1) = some e.1 ∧ e.2 < 18446744073709551616) :
    ofJson? read (.obj [("counts", countsToJson write l)]) = some (ofCounts l) := by
  simp [ofJson?, Json.required?, Json.field?, Json.fields?,
    countsOfJson?_countsToJson h]

end Canonical

/-- Bags are faithful and canonical. Whatever operations make a bag, no stored number is zero, every
element occurs as often as the operations say, and removing an element succeeds exactly if it is
there. Bags are equal if and only if every element occurs in both equally often. The bag of a list
lists its members in order. Counted elements are read as a bag that depends on their totals only,
and a written bag is read back. -/
theorem faithful_and_canonical {α : Type} [Ord α] [TransOrd α] [LawfulEqOrd α] [DecidableEq α] :
    (∀ h : History α,
      (∀ e ∈ h.run.counts.entries, 0 < e.2) ∧ (∀ x, h.run.count x = h.described.count x) ∧
        ∀ x, (h.run.removeOne x).1 = true ↔ x ∈ h.described) ∧
      (∀ b c : Bag α, b = c ↔ ∀ x, b.count x = c.count x) ∧
      (∀ l : List α, (ofList l).toList.Perm l ∧
        (ofList l).toList.Pairwise fun x y => (compare x y).isLE) ∧
      (∀ l l' : List (α × Nat), ofCounts l = ofCounts l' ↔ ∀ x, total l x = total l' x) ∧
      ∀ (read : Json → Option α) (write : α → Json),
        (∀ l : List (α × Nat),
          (∀ e ∈ l, read (write e.1) = some e.1 ∧ e.2 < 18446744073709551616) →
          ofJson? read (.obj [("counts", countsToJson write l)]) = some (ofCounts l)) ∧
        ∀ b : Bag α,
          (∀ e ∈ b.counts.entries, read (write e.1) = some e.1 ∧ e.2 < 18446744073709551616) →
          ofJson? read (b.toJson write) = some b := by
  refine ⟨fun h => ⟨h.run.positive, fun x => ?_, fun x => ?_⟩, fun b c => ?_, fun l => ?_,
    fun l l' => ofCounts_eq_iff, fun read write => ⟨fun l => ofJson?_countsToJson, fun b hb => ?_⟩⟩
  · rw [← toMultiset_run, count_toMultiset]
  · rw [removeOne_eq, decide_eq_true_iff, ← toMultiset_run, mem_toMultiset]
  · exact ⟨fun hbc x => by rw [hbc], ext_count⟩
  · exact ⟨perm_toList_ofList l, pairwise_toList (ofList l)⟩
  · rw [toJson, ofJson?_countsToJson hb, ofCounts_entries]

/-- Matches that are made from guarded atoms, read from a list with a repetition and a zero, and
removed again, one of them once more than it is there. A bag of guarded atoms over marked variables
is read back too, also at the last stage. -/
theorem faithful_and_canonical_matches :
    let lock : Held Var := ⟨.var "p", ⟨"Lock", []⟩⟩
    let tick : Held Var := ⟨.lit true, ⟨"Tick", [.int (.var "t")]⟩⟩
    let single (h : Held Var) : Match Var := ⟨h.guard, [h.item]⟩
    let counts : List (Match Var × Nat) := [(single tick, 2), (single lock, 0), (single tick, 1)]
    let made : History (Match Var) := .map (.ofList [tick, lock, tick]) single
    let h : History (Match Var) :=
      ((made.union (.decode counts)).removeOne (single lock)).removeOne (single lock)
    let last : MarkedVar := ⟨.intermediate ⟨Stage.limit, le_rfl⟩, "t"⟩
    let marked : Bag (Held MarkedVar) :=
      ofList [⟨.lit true, ⟨"Tick", [.int (.var last)]⟩⟩, ⟨.var ⟨.before, "p"⟩, ⟨"Lock", []⟩⟩]
    h.run.count (single tick) = 5 ∧ h.run.count (single lock) = 0 ∧
      (h.run.removeOne (single lock)).1 = false ∧
      h.run = ofCounts [(single tick, 4), (single tick, 1)] ∧
      ofJson? Match.ofJson? (.obj [("counts", countsToJson Match.toJson counts)]) =
        some (ofCounts [(single tick, 3)]) ∧
      ofJson? Match.ofJson? (h.run.toJson Match.toJson) = some h.run ∧
      ofJson? Held.ofJson? (marked.toJson Held.toJson) = some marked := by
  intro lock tick single counts made h last marked
  obtain ⟨hfaithful, -, -, htotal, hjson⟩ := faithful_and_canonical (α := Match Var)
  obtain ⟨-, hcount, hremove⟩ := hfaithful h
  obtain ⟨hdecode, hundo⟩ := hjson Match.ofJson? Match.toJson
  have hrun : h.run = ofCounts [(single tick, 4), (single tick, 1)] := by decide +kernel
  have hnumbers : ∀ e ∈ h.run.counts.entries, e.2 < 18446744073709551616 := by decide +kernel
  have hnumbers' : ∀ e ∈ counts, e.2 < 18446744073709551616 := by decide +kernel
  have hmarked : ∀ e ∈ marked.counts.entries, e.2 < 18446744073709551616 := by decide +kernel
  refine ⟨?_, ?_, ?_, hrun, ?_, ?_, ?_⟩
  · rw [hcount]
    decide +kernel
  · rw [hcount]
    decide +kernel
  · rw [Bool.eq_false_iff, ne_eq, hremove]
    decide +kernel
  · rw [hdecode counts fun e he => ⟨Match.ofJson?_toJson e.1, hnumbers' e he⟩, Option.some.injEq,
      htotal]
    intro x
    by_cases hx : single tick = x <;> simp [total, counts, hx]
  · exact hundo h.run fun e he => ⟨Match.ofJson?_toJson e.1, hnumbers e he⟩
  · exact (faithful_and_canonical.2.2.2.2 Held.ofJson? Held.toJson).2 marked fun e he =>
      ⟨Held.ofJson?_toJson e.1, hmarked e he⟩

end Bag

end ViewLogic
