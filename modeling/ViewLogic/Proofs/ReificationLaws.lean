import Mathlib.Data.Nat.Factorial.Basic
import ViewLogic.Proofs.Selections

/-!
# Laws of reification

How many matches there are depends on the shapes only. For each shape the components choose
different occurrences one after another, so the number of choices falls by one at each component of
that shape, in whatever order the shapes are mixed. Further occurrences add matches and take none
away, and further patterns add theirs, in any order.
-/

namespace ViewLogic

open Std (TransOrd LawfulEqOrd)

variable {V P α γ δ σ : Type}

/-! ### The number of selections -/

/-- Mapped components select what they select through the map. -/
theorem selections_map_components (fits : γ → α → Bool) (f : δ → γ) (cs : List δ) (pool : List α) :
    selections fits (cs.map f) pool = selections (fun c a => fits (f c) a) cs pool := by
  induction cs generalizing pool with
  | nil => rfl
  | cons c cs ih => simp only [List.map_cons, selections, ih]

/-- A larger pool has the selections of the smaller one. They are those of the larger one that
choose none of its further elements, which are told apart here by a mark. -/
theorem selections_sublist_append (fits : γ → α → Bool) (cs : List γ) (pool extra : List α) :
    (selections fits cs pool).Sublist (selections fits cs (pool ++ extra)) := by
  let marked : List (α × Bool) := pool.map (·, true) ++ extra.map (·, false)
  have hpool : (marked.filter (·.2)).map (·.1) = pool := by
    simp [marked, List.filter_map, Function.comp_def]
  have hall : marked.map (·.1) = pool ++ extra := by
    simp [marked, Function.comp_def]
  rw [← hall]
  conv_lhs => rw [← hpool]
  rw [selections_map, selections_map, selections_filter]
  exact List.filter_sublist.map _

section Equal

variable [DecidableEq σ]

/-- If components choose what equals them, then the first one has a choice for each of its
occurrences, and the others choose from what is left. -/
theorem length_selections_cons (s : σ) (ss pool : List σ) :
    (selections (· == ·) (s :: ss) pool).length =
      pool.count s * (selections (· == ·) ss (pool.erase s)).length := by
  let chosen := (picks pool).filter fun p => s == p.1
  have hchosen : chosen.length = pool.count s := by
    rw [← List.countP_eq_length_filter]
    conv_rhs => rw [← map_fst_picks pool, List.count, List.countP_map]
    refine List.countP_congr fun p _ => ?_
    rw [Function.comp_apply, beq_iff_eq, beq_iff_eq]
    exact eq_comm
  have hrest (p : σ × List σ) (hp : p ∈ chosen) :
      ((selections (· == ·) ss p.2).map (p.1 :: ·)).length =
        (selections (· == ·) ss (pool.erase s)).length := by
    obtain ⟨hpick, hs⟩ := List.mem_filter.mp hp
    obtain rfl : s = p.1 := by simpa using hs
    have hperm : p.2.Perm (pool.erase p.1) := by
      simpa using (perm_of_mem_picks hpick).erase p.1
    rw [List.length_map, (selections_perm _ ss hperm).length_eq]
  rw [selections, List.length_flatMap, List.map_congr_left hrest, List.map_const',
    List.sum_replicate, hchosen, smul_eq_mul]

/-- The number of ways to choose a next occurrence falls by one with each choice. -/
theorem descFactorial_count_cons (s t : σ) (ss pool : List σ) :
    (pool.count t).descFactorial ((s :: ss).count t) =
      (if t = s then pool.count s else 1) *
        ((pool.erase s).count t).descFactorial (ss.count t) := by
  by_cases hts : t = s
  · subst hts
    rw [List.count_cons_self, List.count_erase_self, if_pos rfl]
    cases pool.count t with
    | zero => simp
    | succ n => rw [Nat.succ_descFactorial_succ, Nat.add_sub_cancel]
  · rw [List.count_cons_of_ne (Ne.symm hts), List.count_erase_of_ne hts, if_neg hts, one_mul]

/-- Equal elements are chosen without repetition, and those of different values independently of
each other. -/
theorem length_selections (ss pool : List σ) :
    (selections (· == ·) ss pool).length =
      ∏ t ∈ ss.toFinset, (pool.count t).descFactorial (ss.count t) := by
  induction ss generalizing pool with
  | nil => rfl
  | cons s ss ih =>
    have hnew : s ∉ ss.toFinset →
        ((pool.erase s).count s).descFactorial (ss.count s) = 1 := by
      intro hs
      rw [List.mem_toFinset] at hs
      rw [List.count_eq_zero_of_not_mem hs, Nat.descFactorial_zero]
    have hfirst : (∏ t ∈ insert s ss.toFinset, if t = s then pool.count s else 1) =
        pool.count s := by
      simp
    rw [length_selections_cons, ih, List.toFinset_cons]
    simp only [descFactorial_count_cons s _ ss pool, Finset.prod_mul_distrib, hfirst]
    rw [Finset.prod_insert_of_eq_one_if_notMem hnew]

end Equal

/-! ### The number of matches -/

/-- A name with a number of parameters. -/
structure Shape where
  name : String
  arity : Nat
deriving DecidableEq

/-- The name of an atom and the number of its parameters. -/
def Atom.shape (a : Atom P) : Shape := ⟨a.name, a.params.length⟩

/-- The shapes of the components of a pattern, from left to right. -/
def Pattern.shapes (p : Pattern) : List Shape := p.components.map Atom.shape

/-- The number of held occurrences of a shape. -/
def shapeCount [Ord V] (held : Bag (Held V)) (s : Shape) : Nat :=
  (held.toList.map (·.item.shape)).count s

/-- The number of ways to choose held occurrences for the components of a pattern: for each of its
shapes, as many factors as components, falling from the number of occurrences. -/
def Pattern.ways [Ord V] (p : Pattern) (held : Bag (Held V)) : Nat :=
  ∏ s ∈ p.shapes.toFinset, (shapeCount held s).descFactorial (p.shapes.count s)

/-- Atoms have the same shape exactly if their shapes are equal. -/
theorem Atom.sameShape_eq {Q : Type} (a : Atom P) (b : Atom Q) :
    a.sameShape b = (a.shape == b.shape) := by
  rw [Bool.eq_iff_iff, Atom.sameShape_iff, beq_iff_eq, shape, shape, Shape.mk.injEq]

/-- There are as many assignments as ways to match a pattern. -/
theorem length_assignments [Ord V] (p : Pattern) (held : Bag (Held V)) :
    (assignments p.components held.toList).length = p.ways held := by
  have hshapes : assignments p.components held.toList =
      selections (fun s g => s == g.item.shape) p.shapes held.toList := by
    rw [assignments_eq, Pattern.shapes, selections_map_components]
    simp only [Atom.sameShape_eq]
  have hways : p.ways held =
      (selections (· == ·) p.shapes (held.toList.map (·.item.shape))).length :=
    (length_selections _ _).symm
  rw [hshapes, hways, selections_map, List.length_map]

section Matches

variable [Ord V] [TransOrd V] [LawfulEqOrd V]

/-- The number of all matches is the sum, over the patterns, of the numbers of ways to choose
occurrences for their components. A pattern has no match if and only if one of its shapes has more
components than occurrences, and a pattern without components has one match. -/
theorem size_reify (held : Bag (Held V)) (patterns : List Pattern) :
    (reify held patterns).size = (patterns.map (·.ways held)).sum ∧
      ∀ p : Pattern, (p.ways held = 0 ↔ ∃ s, shapeCount held s < p.shapes.count s) ∧
        (p.components = [] → p.ways held = 1) := by
  refine ⟨?_, fun p => ⟨?_, fun hnil => ?_⟩⟩
  · rw [reify, Bag.size_ofList, List.length_flatMap]
    simp only [List.length_map, length_assignments]
  · simp only [Pattern.ways, Finset.prod_eq_zero_iff, Nat.descFactorial_eq_zero_iff_lt,
      List.mem_toFinset]
    constructor
    · rintro ⟨s, -, hs⟩
      exact ⟨s, hs⟩
    · rintro ⟨s, hs⟩
      exact ⟨s, List.count_pos_iff.mp (by omega), hs⟩
  · rw [Pattern.ways, Pattern.shapes, hnil]
    rfl

end Matches

/-- Three occurrences of a shape, two of them equal, and one of another shape: a pattern takes two
of the first shape around one of the other in six ways. An atom of the same name with another number
of parameters is not counted. -/
theorem size_reify_interleaved :
    let a : Atom (Expr Var) := ⟨"A", [.int (.var "x")]⟩
    let b : Atom (Expr Var) := ⟨"B", []⟩
    let held : Bag (Held Var) := .ofList
      [⟨.var "p", a⟩, ⟨.lit true, b⟩, ⟨.var "p", a⟩, ⟨.lit true, ⟨"A", []⟩⟩, ⟨.var "q", a⟩]
    let first (x : Var) : Pattern := .atom ⟨"A", [⟨.int, x⟩]⟩
    let other : Pattern := .atom ⟨"B", []⟩
    let around : Pattern := .join (.join (first "y") other) (first "z")
    let twice : Pattern := .join other other
    (reify held [around, .unit, twice]).size = 7 ∧ around.ways held = 6 ∧
      Pattern.unit.ways held = 1 ∧ twice.ways held = 0 := by
  intro a b held first other around twice
  obtain ⟨hsize, hways⟩ := size_reify held [around, .unit, twice]
  have haround : around.ways held = 6 := by decide +kernel
  have hunit : Pattern.unit.ways held = 1 := (hways .unit).2 rfl
  have htwice : twice.ways held = 0 := (hways twice).1.mpr ⟨⟨"B", 0⟩, by decide +kernel⟩
  refine ⟨?_, haround, hunit, htwice⟩
  simpa [haround, hunit, htwice] using hsize

/-! ### More occurrences and more patterns -/

section Matches

variable [Ord V] [TransOrd V] [LawfulEqOrd V]

/-- The order of the patterns does not matter. -/
theorem reify_congr_perm (held : Bag (Held V)) {patterns patterns' : List Pattern}
    (h : patterns.Perm patterns') : reify held patterns = reify held patterns' :=
  Bag.ofList_eq_of_perm (h.flatMap_right _)

/-- The matches of two lists of patterns are those of each together. -/
theorem reify_append (held : Bag (Held V)) (patterns patterns' : List Pattern) :
    reify held (patterns ++ patterns') = (reify held patterns).union (reify held patterns') := by
  apply Bag.ext_count
  intro v
  simp only [reify, Bag.count_union, Bag.count_ofList, List.flatMap_append, List.count_append]

/-- Further occurrences take no match away. -/
theorem count_reify_le_union (held extra : Bag (Held V)) (patterns : List Pattern) (v : Match V) :
    (reify held patterns).count v ≤ (reify (held.union extra) patterns).count v := by
  let found (pool : List (Held V)) : List (Match V) :=
    patterns.flatMap fun p => (assignments p.components pool).map Match.ofAssigned
  have hmore : (found held.toList).Sublist (found (held.toList ++ extra.toList)) := by
    refine .flatMap_right _ fun p _ => .map _ ?_
    simp only [assignments_eq]
    exact selections_sublist_append _ _ _ _
  have hunion : (found (held.union extra).toList).Perm (found (held.toList ++ extra.toList)) := by
    refine .flatMap_left _ fun p _ => .map _ ?_
    simp only [assignments_eq]
    exact selections_perm _ _ (Bag.perm_toList_union held extra)
  calc (reify held patterns).count v
      = (found held.toList).count v := Bag.count_ofList _ v
    _ ≤ (found (held.toList ++ extra.toList)).count v := hmore.count_le v
    _ = (found (held.union extra).toList).count v := (hunion.count_eq v).symm
    _ = (reify (held.union extra) patterns).count v := (Bag.count_ofList _ v).symm

/-- Reification is monotone in what is held and additive in the patterns: further occurrences take
no match away, the matches of joined lists of patterns are those of both, and the order of the
patterns does not matter. -/
theorem reify_monotone_additive (held extra : Bag (Held V)) (patterns patterns' : List Pattern) :
    (∀ v, (reify held patterns).count v ≤ (reify (held.union extra) patterns).count v) ∧
      reify held (patterns ++ patterns') = (reify held patterns).union (reify held patterns') ∧
      ∀ reordered, patterns.Perm reordered → reify held reordered = reify held patterns :=
  ⟨count_reify_le_union held extra patterns, reify_append held patterns patterns',
    fun _ h => (reify_congr_perm held h).symm⟩

end Matches

/-- An atom that is held once gives a match of one component. If it is held once more, beside
another one of its shape, then this match occurs twice. -/
theorem reify_monotone_additive_repeated :
    let a (x : Var) : Atom (Expr Var) := ⟨"A", [.int (.var x)]⟩
    let held : Bag (Held Var) := .ofList [⟨.var "p", a "y"⟩]
    let extra : Bag (Held Var) := .ofList [⟨.lit true, a "x"⟩, ⟨.var "p", a "y"⟩]
    let single : Pattern := .atom ⟨"A", [⟨.int, "z"⟩]⟩
    let double : Pattern := .join single single
    let v : Match Var := ⟨.var "p", [a "y"]⟩
    (reify held [single, double]).count v = 1 ∧
      1 ≤ (reify (held.union extra) [single, double]).count v ∧
      (reify (held.union extra) [single, double]).count v = 2 ∧
      reify held ([single] ++ [double]) = (reify held [single]).union (reify held [double]) ∧
      reify held [double, single] = reify held [single, double] := by
  intro a held extra single double v
  have hone : (reify held [single, double]).count v = 1 := by decide +kernel
  obtain ⟨hmonotone, -, hperm⟩ := reify_monotone_additive held extra [single, double] []
  obtain ⟨-, happend, -⟩ := reify_monotone_additive held extra [single] [double]
  refine ⟨hone, hone ▸ hmonotone v, by decide +kernel, happend, ?_⟩
  exact hperm [double, single] (.swap double single [])

end ViewLogic
