import ViewLogic.Bag

/-!
# Entries of maps and elements of bags

A look-up in a sorted map finds exactly the entries of the map, and the number of occurrences in a
bag that is built from a list is the number of occurrences in the list. A union of bags adds up the
numbers of occurrences.
-/

namespace ViewLogic

open Std (TransOrd LawfulEqOrd)

namespace SortedMap

variable {κ β : Type} [Ord κ] [LawfulEqOrd κ]

/-- A look-up finds exactly the entries of a map. -/
theorem get?_eq_some_iff {m : SortedMap κ β} {k : κ} {v : β} :
    m.get? k = some v ↔ (k, v) ∈ m.entries := by
  obtain ⟨entries, sorted⟩ := m
  simp only [get?]
  induction entries with
  | nil => simp [lookupEntries]
  | cons head rest ih =>
    obtain ⟨hhead, hrest⟩ := List.pairwise_cons.mp sorted
    obtain ⟨k', v'⟩ := head
    simp only [lookupEntries, List.mem_cons, Prod.mk.injEq]
    split
    next heq =>
      obtain rfl := LawfulEqOrd.eq_of_compare heq
      have hnot : (k, v) ∉ rest := fun hmem => by simpa using hhead _ hmem
      simp [hnot, eq_comm]
    next hne =>
      have hk : k ≠ k' := by
        rintro rfl
        exact hne Std.ReflCmp.compare_self
      rw [ih hrest]
      simp [hk]

/-- What a look-up finds is a value of the map. -/
theorem mem_values_of_get? {m : SortedMap κ β} {k : κ} {v : β} (h : m.get? k = some v) :
    v ∈ m.values :=
  List.mem_map.mpr ⟨(k, v), get?_eq_some_iff.mp h, rfl⟩

/-- The keys of a map are those under which a look-up finds something. -/
theorem mem_keys_iff {m : SortedMap κ β} {k : κ} : k ∈ m.keys ↔ ∃ v, m.get? k = some v := by
  simp only [keys, List.mem_map, Prod.exists, exists_and_right, exists_eq_right, get?_eq_some_iff]

/-- No key of a map is repeated. -/
theorem nodup_keys (m : SortedMap κ β) : m.keys.Nodup := by
  refine List.pairwise_map.mpr (m.sorted.imp fun {a b} hlt heq => ?_)
  have hself : compare b.1 b.1 = .eq := Std.ReflCmp.compare_self
  rw [heq, hself] at hlt
  cases hlt

/-- The keys that come after a key are different from it. -/
theorem ne_of_entries_eq {m : SortedMap κ β} {k : κ} {v : β} {before after : List (κ × β)}
    (h : m.entries = before ++ (k, v) :: after) : ∀ entry ∈ after, entry.1 ≠ k := by
  have hnodup := m.nodup_keys
  rw [keys, h, List.map_append, List.map_cons] at hnodup
  have hnot := (List.nodup_cons.mp (List.nodup_append.mp hnodup).2.1).1
  rintro entry hentry rfl
  exact hnot (List.mem_map.mpr ⟨entry, hentry, rfl⟩)

/-- A key with a value comes twice if it is listed once more beside the keys. -/
theorem two_le_count_keys [DecidableEq κ] {m : SortedMap κ β} {k : κ} (h : m.contains k = true)
    (rest : List κ) : 2 ≤ (m.keys ++ k :: rest).count k := by
  obtain ⟨v, hv⟩ := Option.isSome_iff_exists.mp h
  have hkey := List.count_pos_iff.mpr (mem_keys_iff.mpr ⟨v, hv⟩)
  rw [List.count_append, List.count_cons_self]
  omega

/-- A map whose look-ups are those of another one, with some values changed or left out, has the
entries of the other one, changed and left out alike. -/
theorem entries_eq_filterMap {γ : Type} [TransOrd κ] {m : SortedMap κ β} {m' : SortedMap κ γ}
    {f : κ → β → Option γ} (h : ∀ k, m'.get? k = (m.get? k).bind (f k)) :
    m'.entries = m.entries.filterMap fun e => (f e.1 e.2).map (e.1, ·) := by
  have hsorted : (m.entries.filterMap fun e => (f e.1 e.2).map (e.1, ·)).Pairwise
      (fun a b => compare a.1 b.1 = .lt) := by
    refine List.Pairwise.filterMap _ (fun a a' hlt b hb b' hb' => ?_) m.sorted
    obtain ⟨v, -, rfl⟩ := Option.map_eq_some_iff.mp hb
    obtain ⟨v', -, rfl⟩ := Option.map_eq_some_iff.mp hb'
    exact hlt
  refine entries_ext m'.sorted hsorted fun k => Option.ext fun v => ?_
  have hleft : lookupEntries k m'.entries = some v ↔
      ∃ v', m.get? k = some v' ∧ f k v' = some v := by
    rw [← Option.bind_eq_some_iff, ← h k]
    rfl
  have hright : lookupEntries k (m.entries.filterMap fun e => (f e.1 e.2).map (e.1, ·)) = some v ↔
      (k, v) ∈ m.entries.filterMap fun e => (f e.1 e.2).map (e.1, ·) :=
    get?_eq_some_iff (m := ⟨_, hsorted⟩)
  simp only [hleft, hright, List.mem_filterMap, Option.map_eq_some_iff, Prod.mk.injEq,
    get?_eq_some_iff, Prod.exists]
  constructor
  · rintro ⟨v', hmem, hf⟩
    exact ⟨k, v', hmem, v, hf, rfl, rfl⟩
  · rintro ⟨_, v', hmem, _, hf, rfl, rfl⟩
    exact ⟨v', hmem, hf⟩

variable [TransOrd κ]

/-- Erasing a key and mapping the values can be exchanged. -/
theorem erase_map {γ : Type} (f : β → γ) (m : SortedMap κ β) (k : κ) :
    (m.map f).erase k = (m.erase k).map f := by
  apply ext_get?
  intro j
  simp only [get?_erase, get?_map]
  split <;> rfl

/-- What a search through the entries finds first is what it finds under the least key. -/
theorem findSome?_entries_eq_some_iff {γ : Type} {m : SortedMap κ β}
    {f : κ × β → Option γ} {c : γ} :
    m.entries.findSome? f = some c ↔ ∃ k v, m.get? k = some v ∧ f (k, v) = some c ∧
      ∀ k' v', m.get? k' = some v' → compare k' k = .lt → f (k', v') = none := by
  simp only [get?_eq_some_iff, List.findSome?_eq_some_iff]
  constructor
  · rintro ⟨before, ⟨k, v⟩, after, hsplit, hf, hbefore⟩
    refine ⟨k, v, by simp [hsplit], hf, fun k' v' hmem hlt => ?_⟩
    have hsorted := m.sorted
    rw [hsplit, List.pairwise_append, List.pairwise_cons] at hsorted
    rw [hsplit, List.mem_append, List.mem_cons] at hmem
    rcases hmem with hmem | heq | hmem
    · exact hbefore (k', v') hmem
    · obtain ⟨rfl, -⟩ := Prod.mk.inj heq
      simp at hlt
    · have hgt : compare k' k = .gt :=
        Std.OrientedCmp.gt_iff_lt.mpr (hsorted.2.1.1 (k', v') hmem)
      rw [hlt] at hgt
      cases hgt
  · rintro ⟨k, v, hmem, hf, hleast⟩
    obtain ⟨before, after, hsplit⟩ := List.append_of_mem hmem
    refine ⟨before, (k, v), after, hsplit, hf, fun e he => ?_⟩
    have hsorted := m.sorted
    rw [hsplit, List.pairwise_append] at hsorted
    exact hleast e.1 e.2 (by simp [hsplit, he]) (hsorted.2.2 e he (k, v) List.mem_cons_self)

/-- An inserted value is found under its key. -/
theorem get?_insert_self (m : SortedMap κ β) (k : κ) (v : β) : (m.insert k v).get? k = some v := by
  rw [get?_insert, if_pos Std.ReflCmp.compare_self]

/-- Inserting under one key leaves the look-ups of the others. -/
theorem get?_insert_of_ne (m : SortedMap κ β) {k j : κ} (h : j ≠ k) (v : β) :
    (m.insert k v).get? j = m.get? j := by
  rw [get?_insert, if_neg]
  rwa [Std.LawfulEqCmp.compare_eq_iff_eq]

/-- A new key joins the keys of a map. -/
theorem perm_keys_insert {m : SortedMap κ β} {k : κ} (h : ¬m.contains k = true) (v : β) :
    (m.insert k v).keys.Perm (k :: m.keys) := by
  have hnone : m.get? k = none := by simpa [contains] using h
  have hnew : k ∉ m.keys := by simp [mem_keys_iff, hnone]
  refine (List.perm_ext_iff_of_nodup (nodup_keys _)
    (List.nodup_cons.mpr ⟨hnew, m.nodup_keys⟩)).mpr fun j => ?_
  by_cases hj : j = k
  · simp [hj, mem_keys_iff, get?_insert_self]
  · simp [hj, mem_keys_iff, get?_insert_of_ne]

/-- A new key joins the keys of the map. -/
theorem perm_keys_insert_append {m : SortedMap κ β} {k : κ} (h : ¬m.contains k = true) (v : β)
    (rest : List κ) : ((m.insert k v).keys ++ rest).Perm (m.keys ++ k :: rest) :=
  ((perm_keys_insert h v).append_right rest).trans List.perm_middle.symm

section Insertions

variable {α : Type} {key : α → κ} {val : α → β} {l : List α} {m : SortedMap κ β}

/-- Of several insertions under a key the last one counts; without any, what was there before. -/
theorem get?_foldl_insert [DecidableEq κ] (k : κ) :
    (l.foldl (fun m a => m.insert (key a) (val a)) m).get? k =
      ((l.reverse.find? (key · = k)).map val).or (m.get? k) := by
  induction l generalizing m with
  | nil => rfl
  | cons a l ih =>
    rw [List.foldl_cons, ih, List.reverse_cons, List.find?_append]
    by_cases hk : key a = k
    · subst hk
      cases l.reverse.find? (key · = key a) <;> simp [get?_insert_self]
    · cases l.reverse.find? (key · = k) <;> simp [get?_insert_of_ne m (Ne.symm hk), hk]

/-- What is found after insertions was inserted, or was there before. -/
theorem exists_of_get?_foldl_insert {k : κ} {v : β}
    (h : (l.foldl (fun m a => m.insert (key a) (val a)) m).get? k = some v) :
    (∃ a ∈ l, key a = k ∧ val a = v) ∨ m.get? k = some v := by
  classical
  rw [get?_foldl_insert, Option.or_eq_some_iff, Option.map_eq_some_iff] at h
  rcases h with ⟨a, hfind, hval⟩ | ⟨-, hbefore⟩
  · have hkey : key a = k := by simpa using List.find?_some hfind
    exact .inl ⟨a, List.mem_reverse.mp (List.mem_of_find?_eq_some hfind), hkey, hval⟩
  · exact .inr hbefore

/-- Insertions under other keys leave a look-up as it is. -/
theorem get?_foldl_insert_of_ne {k : κ} (h : ∀ a ∈ l, key a ≠ k) :
    (l.foldl (fun m a => m.insert (key a) (val a)) m).get? k = m.get? k := by
  classical
  have hnone : l.reverse.find? (key · = k) = none := by simpa using h
  rw [get?_foldl_insert, hnone]
  rfl

/-- A value that shares its key with no other one is found once all are inserted. -/
theorem get?_foldl_insert_of_mem {a : α} (ha : a ∈ l) (hkey : ∀ b ∈ l, key b = key a → b = a) :
    (l.foldl (fun m a => m.insert (key a) (val a)) m).get? (key a) = some (val a) := by
  classical
  have hfind : l.reverse.find? (key · = key a) = some a := by
    cases hb : l.reverse.find? (key · = key a) with
    | none =>
      have hne := List.find?_eq_none.mp hb a (List.mem_reverse.mpr ha)
      simp at hne
    | some b =>
      have hmem := List.mem_reverse.mp (List.mem_of_find?_eq_some hb)
      rw [hkey b hmem (by simpa using List.find?_some hb)]
  rw [get?_foldl_insert, hfind]
  rfl

/-- Insertions give values to their keys, and take none away. -/
theorem contains_foldl_insert {k : κ} :
    (l.foldl (fun m a => m.insert (key a) (val a)) m).contains k = true ↔
      (∃ a ∈ l, key a = k) ∨ m.contains k = true := by
  classical
  rw [contains, get?_foldl_insert, Option.isSome_or, Bool.or_eq_true, Option.isSome_map,
    List.find?_isSome, contains]
  simp

/-- A map of values with different keys finds exactly these values. -/
theorem get?_foldl_insert_iff (hkey : ∀ a ∈ l, ∀ b ∈ l, key b = key a → b = a) {k : κ} {v : β} :
    (l.foldl (fun m a => m.insert (key a) (val a)) (∅ : SortedMap κ β)).get? k = some v ↔
      ∃ a ∈ l, key a = k ∧ val a = v := by
  constructor
  · intro h
    rcases exists_of_get?_foldl_insert h with hfound | hnone
    · exact hfound
    · cases hnone
  · rintro ⟨a, ha, rfl, rfl⟩
    exact get?_foldl_insert_of_mem ha (hkey a ha)

end Insertions

/-- What a map of a list of entries stores is one of the entries. -/
theorem mem_of_get?_ofList {l : List (κ × β)} {k : κ} {v : β} (h : (ofList l).get? k = some v) :
    (k, v) ∈ l := by
  rcases exists_of_get?_foldl_insert h with ⟨e, he, rfl, rfl⟩ | hnone
  · exact he
  · cases hnone

/-- In the map of a list, an entry is found if no other one has its key. -/
theorem get?_ofList_of_mem {l : List (κ × β)} {e : κ × β} (he : e ∈ l)
    (hkey : ∀ e' ∈ l, e'.1 = e.1 → e' = e) : (ofList l).get? e.1 = some e.2 :=
  get?_foldl_insert_of_mem he hkey

/-- A map of a list of entries has the keys of these. -/
theorem mem_keys_ofList {l : List (κ × β)} {k : κ} : k ∈ (ofList l).keys ↔ ∃ v, (k, v) ∈ l := by
  rw [mem_keys_iff, ← Option.isSome_iff_exists]
  refine contains_foldl_insert.trans ?_
  constructor
  · rintro (⟨e, he, rfl⟩ | hempty)
    · exact ⟨e.2, he⟩
    · cases hempty
  · rintro ⟨v, hv⟩
    exact .inl ⟨(k, v), hv, rfl⟩

/-- A map of numbered entries stores each under the name of its number, if these are different. -/
theorem get?_ofList_mapIdx {α : Type} (key : Nat → κ) (hkey : ∀ {n n'}, key n = key n' → n = n')
    (f : α → β) (l : List α) (k : κ) (b : β) :
    (ofList (l.mapIdx fun n a => (key n, f a))).get? k = some b ↔
      ∃ n a, l[n]? = some a ∧ key n = k ∧ f a = b := by
  constructor
  · intro h
    obtain ⟨n, hn, heq⟩ := List.mem_mapIdx.mp (mem_of_get?_ofList h)
    exact ⟨n, l[n], List.getElem?_eq_getElem hn, congrArg Prod.fst heq, congrArg Prod.snd heq⟩
  · rintro ⟨n, a, ha, rfl, rfl⟩
    obtain ⟨hn, rfl⟩ := List.getElem?_eq_some_iff.mp ha
    refine get?_ofList_of_mem (e := (key n, f l[n])) (List.mem_mapIdx.mpr ⟨n, hn, rfl⟩) ?_
    intro e he heq
    obtain ⟨n', hn', rfl⟩ := List.mem_mapIdx.mp he
    obtain rfl : n' = n := hkey heq
    rfl

end SortedMap

namespace Bag

variable {α : Type} [Ord α] [LawfulEqOrd α]

/-- The elements of a bag are those that occur. -/
theorem mem_elements {b : Bag α} {x : α} : x ∈ b.elements ↔ 0 < b.count x := by
  rw [elements, SortedMap.mem_keys_iff, count]
  cases hget : b.counts.get? x with
  | none => simp
  | some n => simp [pos_of_lookupEntries b.positive hget]

/-- An element is listed as often as it occurs. -/
theorem count_toList [DecidableEq α] (b : Bag α) (x : α) : b.toList.count x = b.count x := by
  obtain ⟨⟨entries, sorted⟩, positive⟩ := b
  simp only [toList, count, SortedMap.get?]
  clear positive
  induction entries with
  | nil => rfl
  | cons head rest ih =>
    obtain ⟨hhead, hrest⟩ := List.pairwise_cons.mp sorted
    rw [List.flatMap_cons, List.count_append, ih hrest, SortedMap.lookupEntries,
      List.count_replicate]
    by_cases hx : x = head.1
    · subst hx
      have hnone : SortedMap.lookupEntries head.1 rest = none :=
        SortedMap.lookupEntries_eq_none fun e he => by simp [hhead e he]
      simp [hnone]
    · have hne : compare x head.1 ≠ .eq := fun h => hx (LawfulEqOrd.eq_of_compare h)
      simp [hne, Ne.symm hx]

omit [LawfulEqOrd α] in
/-- The list of a bag is as long as the bag is large. -/
theorem length_toList (b : Bag α) : b.toList.length = b.size := by
  rw [toList, size]
  induction b.counts.entries with
  | nil => rfl
  | cons e entries ih => rw [List.flatMap_cons, List.length_append, List.length_replicate, ih]; rfl

variable [TransOrd α] [DecidableEq α]

/-- Adding an element a number of times counts like adding a list of copies. -/
theorem count_add_replicate (b : Bag α) (x y : α) (n : Nat) :
    (b.add x n).count y = b.count y + (List.replicate n x).count y := by
  rw [count_add, List.count_replicate]
  by_cases hy : y = x
  · subst hy
    simp
  · have hne : compare y x ≠ .eq := fun h => hy (LawfulEqOrd.eq_of_compare h)
    simp [hne, Ne.symm hy]

/-- In a bag extended by a list, the occurrences in both add up. -/
theorem count_extend (b : Bag α) (l : List α) (x : α) :
    (b.extend l).count x = b.count x + l.count x := by
  induction l generalizing b with
  | nil => rfl
  | cons y l ih =>
    rw [extend, List.foldl_cons, ← extend, ih, insert, count_add_replicate, Nat.add_assoc,
      ← List.count_append]
    rfl

/-- Added counted elements count like all their occurrences. -/
theorem count_addCounts (b : Bag α) (l : List (α × Nat)) (x : α) :
    (b.addCounts l).count x =
      b.count x + (l.flatMap fun e => List.replicate e.2 e.1).count x := by
  induction l generalizing b with
  | nil => rfl
  | cons e l ih =>
    rw [addCounts, List.foldl_cons, ← addCounts, ih, count_add_replicate, Nat.add_assoc,
      ← List.count_append, List.flatMap_cons]

/-- An element occurs in a union as often as in both bags together. -/
theorem count_union (b c : Bag α) (x : α) : (b.union c).count x = b.count x + c.count x := by
  rw [union, count_addCounts, ← count_toList c x, toList]

/-- An element occurs in the bag of a list as often as in the list. -/
theorem count_ofList (l : List α) (x : α) : (ofList l).count x = l.count x := by
  rw [ofList, count_extend]
  exact Nat.zero_add _

omit [DecidableEq α] in
/-- The bag of a list holds the elements of the list. -/
theorem perm_toList_ofList (l : List α) : (ofList l).toList.Perm l := by
  classical
  rw [List.perm_iff_count]
  intro x
  rw [count_toList, count_ofList]

omit [DecidableEq α] in
/-- The bag of a list is as large as the list is long. -/
theorem size_ofList (l : List α) : (ofList l).size = l.length := by
  rw [← length_toList, (perm_toList_ofList l).length_eq]

omit [DecidableEq α] in
/-- A list in another order has the same bag. -/
theorem ofList_eq_of_perm {l l' : List α} (h : l.Perm l') : ofList l = ofList l' := by
  classical
  apply ext_count
  intro x
  rw [count_ofList, count_ofList, h.count_eq]

omit [DecidableEq α] in
/-- A union lists the occurrences of both bags. -/
theorem perm_toList_union (b c : Bag α) : (b.union c).toList.Perm (b.toList ++ c.toList) := by
  classical
  rw [List.perm_iff_count]
  intro x
  rw [count_toList, count_union, List.count_append, count_toList, count_toList]

/-- The elements of the bag of a list are the members of the list. -/
theorem mem_elements_ofList {l : List α} {x : α} : x ∈ (ofList l).elements ↔ x ∈ l := by
  rw [mem_elements, count_ofList, List.count_pos_iff]

end Bag

end ViewLogic
