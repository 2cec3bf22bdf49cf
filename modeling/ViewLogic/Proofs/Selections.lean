import Mathlib.Algebra.BigOperators.Fin
import Mathlib.Data.Fintype.BigOperators
import ViewLogic.Proofs.Entries
import ViewLogic.Reification

/-!
# Matches are selections of occurrences

The search for matches consumes occurrences one after another. Its branches are followed here on the
positions of the occurrences, which differ even where the occurrences are equal: the lists of
positions that the search chooses are the injective maps from the components of a pattern, each of
them once. So a match occurs as often as there are such maps that give it.
-/

namespace ViewLogic

open Std (TransOrd LawfulEqOrd)

variable {V α β γ : Type}

/-! ### The search on any elements -/

/-- Every way to choose different elements of a pool, one that fits for each component. -/
def selections (fits : γ → α → Bool) : List γ → List α → List (List α)
  | [], _ => [[]]
  | c :: cs, pool =>
    ((picks pool).filter fun p => fits c p.1).flatMap fun p =>
      (selections fits cs p.2).map (p.1 :: ·)

/-- Assignments are the selections of occurrences of the same shape. -/
theorem assignments_eq (cs : List (Atom Decl)) (pool : List (Held V)) :
    assignments cs pool = selections (fun c g => c.sameShape g.item) cs pool := by
  induction cs generalizing pool with
  | nil => rfl
  | cons c cs ih => simp only [assignments, selections, ih]

/-- Picking from a mapped list maps what is picked and what remains. -/
theorem picks_map (f : α → β) (l : List α) :
    picks (l.map f) = (picks l).map fun p => (f p.1, p.2.map f) := by
  induction l with
  | nil => rfl
  | cons a l ih => simp [picks, ih]

/-- The search looks at an element only through whether it fits. -/
theorem selections_map (fits : γ → β → Bool) (f : α → β) (cs : List γ) (pool : List α) :
    selections fits cs (pool.map f) =
      (selections (fun c a => fits c (f a)) cs pool).map (List.map f) := by
  induction cs generalizing pool with
  | nil => rfl
  | cons c cs ih =>
    simp only [selections, picks_map, List.filter_map, List.flatMap_map, List.map_flatMap, ih,
      List.map_map]
    rfl

/-- Picking from a filtered list filters what is picked and what remains. -/
theorem picks_filter (q : α → Bool) (l : List α) :
    picks (l.filter q) = ((picks l).filter fun p => q p.1).map fun p => (p.1, p.2.filter q) := by
  induction l with
  | nil => rfl
  | cons a l ih =>
    simp only [picks, List.filter_cons, List.filter_map, Function.comp_def]
    cases hq : q a with
    | true => simp [picks, ih, hq, Function.comp_def]
    | false => simp [ih, hq, Function.comp_def]

/-- Choosing elements with a property is choosing from the elements with the property. -/
theorem selections_filter (fits : γ → α → Bool) (q : α → Bool) (cs : List γ) (pool : List α) :
    selections fits cs (pool.filter q) = (selections fits cs pool).filter (·.all q) := by
  induction cs generalizing pool with
  | nil => rfl
  | cons c cs ih =>
    simp only [selections, picks_filter, List.filter_map, List.flatMap_map, List.filter_flatMap, ih,
      Function.comp_def, List.all_cons]
    induction picks pool with
    | nil => rfl
    | cons p l ihl =>
      cases hfit : fits c p.1 <;> cases hq : q p.1 <;> simp [hfit, hq, ihl, -List.filter_filter]

/-- What is made of every pick, whatever the order of the remaining elements, does not depend on the
order of the elements. -/
theorem perm_flatMap_picks {f : α × List α → List β} {l l' : List α}
    (hf : ∀ a rest rest', rest.Perm rest' → (f (a, rest)).Perm (f (a, rest'))) (h : l.Perm l') :
    ((picks l).flatMap f).Perm ((picks l').flatMap f) := by
  induction h generalizing f with
  | nil => exact .refl _
  | cons a h ih =>
    simp only [picks, List.flatMap_cons, List.flatMap_map]
    exact (hf a _ _ h).append (ih fun b rest rest' hrest => hf b _ _ (hrest.cons a))
  | swap a b l =>
    simp only [picks, List.map_cons, List.map_map, List.flatMap_cons, List.flatMap_map]
    rw [← List.append_assoc, ← List.append_assoc]
    refine List.Perm.append List.perm_append_comm (.flatMap_left _ fun p _ => ?_)
    exact hf p.1 _ _ (.swap a b p.2)
  | trans _ _ ih ih' => exact (ih hf).trans (ih' hf)

/-- Another order of the pool changes the order of the selections only. -/
theorem selections_perm (fits : γ → α → Bool) (cs : List γ) {pool pool' : List α}
    (h : pool.Perm pool') : (selections fits cs pool).Perm (selections fits cs pool') := by
  have hfilter (c : γ) (cs : List γ) (l : List (α × List α)) :
      (l.filter fun p => fits c p.1).flatMap (fun p => (selections fits cs p.2).map (p.1 :: ·)) =
        l.flatMap fun p =>
          if fits c p.1 then (selections fits cs p.2).map (p.1 :: ·) else [] := by
    induction l with
    | nil => rfl
    | cons p l ih => cases hp : fits c p.1 <;> simp [hp, ih]
  induction cs generalizing pool pool' with
  | nil => exact .refl _
  | cons c cs ih =>
    rw [selections, selections, hfilter, hfilter]
    refine perm_flatMap_picks (fun a rest rest' hrest => ?_) h
    dsimp only
    split
    · exact (ih hrest).map _
    · exact .refl _

/-- Each element of a list is picked once, in order. -/
theorem map_fst_picks (l : List α) : (picks l).map (·.1) = l := by
  induction l with
  | nil => rfl
  | cons a l ih =>
    rw [picks, List.map_cons, List.map_map]
    exact congrArg (a :: ·) ih

/-- A picked element and the remaining elements are all elements. -/
theorem perm_of_mem_picks {l : List α} {p : α × List α} (h : p ∈ picks l) :
    (p.1 :: p.2).Perm l := by
  induction l generalizing p with
  | nil => cases h
  | cons a l ih =>
    rcases List.mem_cons.mp h with rfl | h
    · exact .refl _
    · obtain ⟨q, hq, rfl⟩ := List.mem_map.mp h
      exact (List.Perm.swap a q.1 q.2).trans ((ih hq).cons a)

/-- Every element of a list can be picked. -/
theorem exists_mem_picks {l : List α} {a : α} (h : a ∈ l) : ∃ rest, (a, rest) ∈ picks l := by
  rw [← map_fst_picks l] at h
  obtain ⟨⟨_, rest⟩, hp, rfl⟩ := List.mem_map.mp h
  exact ⟨rest, hp⟩

/-- From a pool without repetition the search chooses exactly the lists without repetition whose
elements come from the pool and fit. -/
theorem mem_selections {fits : γ → α → Bool} {cs : List γ} {pool l : List α} (hpool : pool.Nodup) :
    l ∈ selections fits cs pool ↔
      l.Nodup ∧ (∀ a ∈ l, a ∈ pool) ∧ List.Forall₂ (fun c a => fits c a = true) cs l := by
  induction cs generalizing pool l with
  | nil =>
    simp only [selections, List.mem_singleton, List.forall₂_nil_left_iff]
    constructor
    · rintro rfl
      simp
    · rintro ⟨-, -, rfl⟩
      rfl
  | cons c cs ih =>
    simp only [selections, List.mem_flatMap, List.mem_filter, List.mem_map]
    constructor
    · rintro ⟨⟨a, rest⟩, ⟨hpick, hfit⟩, l, hl, rfl⟩
      have hperm := perm_of_mem_picks hpick
      obtain ⟨hnot, hrest⟩ := List.nodup_cons.mp (hperm.nodup_iff.mpr hpool)
      obtain ⟨hnodup, hsub, hfits⟩ := (ih hrest).mp hl
      refine ⟨List.nodup_cons.mpr ⟨fun ha => hnot (hsub a ha), hnodup⟩, ?_, .cons hfit hfits⟩
      intro b hb
      rcases List.mem_cons.mp hb with rfl | hb
      · exact hperm.subset List.mem_cons_self
      · exact hperm.subset (List.mem_cons_of_mem _ (hsub b hb))
    · rintro ⟨hnodup, hsub, hfits⟩
      cases hfits with
      | cons hfit hfits =>
        next a l =>
        obtain ⟨hnot, hnodup⟩ := List.nodup_cons.mp hnodup
        obtain ⟨rest, hpick⟩ := exists_mem_picks (hsub a List.mem_cons_self)
        have hperm := perm_of_mem_picks hpick
        have hrest : rest.Nodup := (List.nodup_cons.mp (hperm.nodup_iff.mpr hpool)).2
        refine ⟨(a, rest), ⟨hpick, hfit⟩, l, (ih hrest).mpr ⟨hnodup, ?_, hfits⟩, rfl⟩
        intro b hb
        have hb' : b ∈ a :: rest := hperm.symm.subset (hsub b (List.mem_cons_of_mem _ hb))
        rcases List.mem_cons.mp hb' with rfl | hb'
        · exact absurd hb hnot
        · exact hb'

/-- From a pool without repetition no list is chosen twice. -/
theorem nodup_selections {fits : γ → α → Bool} {cs : List γ} {pool : List α}
    (hpool : pool.Nodup) : (selections fits cs pool).Nodup := by
  induction cs generalizing pool with
  | nil => exact List.nodup_singleton _
  | cons c cs ih =>
    have hfst : ((picks pool).map (·.1)).Nodup := by rwa [map_fst_picks]
    rw [selections, List.nodup_flatMap]
    constructor
    · intro p hp
      have hperm := perm_of_mem_picks (List.mem_filter.mp hp).1
      have hrest : p.2.Nodup := (List.nodup_cons.mp (hperm.nodup_iff.mpr hpool)).2
      exact (ih hrest).map (List.cons_injective)
    · refine ((List.pairwise_map.mp hfst).filter _).imp ?_
      intro p q hpq
      rw [Function.onFun, List.disjoint_left]
      rintro l hl hl'
      obtain ⟨_, -, rfl⟩ := List.mem_map.mp hl
      obtain ⟨_, -, heq⟩ := List.mem_map.mp hl'
      exact hpq (List.cons.inj heq).1.symm

/-! ### Occurrences and their positions -/

section Positions

variable {cs : List (Atom Decl)} {occurrences : List (Held V)}

/-- An injective map from components to occurrences of the same names and numbers of parameters. -/
def Assigns (cs : List (Atom Decl)) (occurrences : List (Held V))
    (f : Fin cs.length ↪ Fin occurrences.length) : Prop :=
  ∀ i, cs[i].name = occurrences[f i].item.name ∧
    cs[i].params.length = occurrences[f i].item.params.length

instance (f : Fin cs.length ↪ Fin occurrences.length) : Decidable (Assigns cs occurrences f) :=
  inferInstanceAs (Decidable (∀ _, _))

/-- The occurrences that a map assigns, in the order of the components. -/
def assigned {n : Nat} (occurrences : List (Held V)) (f : Fin n ↪ Fin occurrences.length) :
    List (Held V) :=
  List.ofFn fun i => occurrences[f i]

/-- The lists of positions that the search chooses. -/
def chosenPositions (cs : List (Atom Decl)) (occurrences : List (Held V)) :
    List (List (Fin occurrences.length)) :=
  selections (fun c n => c.sameShape occurrences[n].item) cs (List.finRange occurrences.length)

/-- Assignments are the chosen lists of positions, with the occurrences at them. -/
theorem assignments_eq_map_positions :
    assignments cs occurrences =
      (chosenPositions cs occurrences).map (List.map (occurrences[·])) := by
  have hpool : occurrences = (List.finRange occurrences.length).map (occurrences[·]) := by
    simp
  rw [assignments_eq]
  conv_lhs => rw [hpool]
  rw [selections_map]
  rfl

/-- Atoms have the same shape exactly if their names and their numbers of parameters are equal. -/
theorem Atom.sameShape_iff {P Q : Type} {a : Atom P} {b : Atom Q} :
    a.sameShape b = true ↔ a.name = b.name ∧ a.params.length = b.params.length := by
  simp [Atom.sameShape]

/-- The chosen lists of positions are those of the maps from the components. -/
theorem mem_chosenPositions {l : List (Fin occurrences.length)} :
    l ∈ chosenPositions cs occurrences ↔
      ∃ f : Fin cs.length ↪ Fin occurrences.length, Assigns cs occurrences f ∧ l = List.ofFn f := by
  rw [chosenPositions, mem_selections (List.nodup_finRange _)]
  constructor
  · rintro ⟨hnodup, -, hfits⟩
    obtain ⟨hlength, hfits⟩ := List.forall₂_iff_get.mp hfits
    refine ⟨⟨fun i => l.get (i.cast hlength), ?_⟩, ?_, ?_⟩
    · exact hnodup.injective_get.comp (Fin.cast_injective hlength)
    · intro i
      exact Atom.sameShape_iff.mp (hfits i.val i.isLt (hlength ▸ i.isLt))
    · refine List.ext_get (by simp [hlength]) fun n hn _ => ?_
      simp
  · rintro ⟨f, hf, rfl⟩
    refine ⟨List.nodup_ofFn.mpr f.injective, fun n _ => List.mem_finRange n, ?_⟩
    refine List.forall₂_iff_get.mpr ⟨by simp, fun n hn _ => ?_⟩
    simpa using Atom.sameShape_iff.mpr (hf ⟨n, hn⟩)

/-- The occurrences at the positions of a map are those that it assigns. -/
theorem map_ofFn_eq_assigned {n : Nat} (f : Fin n ↪ Fin occurrences.length) :
    (List.ofFn f).map (occurrences[·]) = assigned occurrences f :=
  List.map_ofFn

/-- The search assigns occurrences as the maps from the components do. -/
theorem mem_assignments {gs : List (Held V)} :
    gs ∈ assignments cs occurrences ↔
      ∃ f : Fin cs.length ↪ Fin occurrences.length,
        Assigns cs occurrences f ∧ gs = assigned occurrences f := by
  rw [assignments_eq_map_positions, List.mem_map]
  constructor
  · rintro ⟨l, hl, rfl⟩
    obtain ⟨f, hf, rfl⟩ := mem_chosenPositions.mp hl
    exact ⟨f, hf, map_ofFn_eq_assigned f⟩
  · rintro ⟨f, hf, rfl⟩
    exact ⟨List.ofFn f, mem_chosenPositions.mpr ⟨f, hf, rfl⟩, map_ofFn_eq_assigned f⟩

/-- The search assigns occurrences with a property as often as there are maps that do. -/
theorem countP_assignments (cs : List (Atom Decl)) (occurrences : List (Held V))
    (p : List (Held V) → Bool) :
    (assignments cs occurrences).countP p =
      (Finset.univ.filter fun f : Fin cs.length ↪ Fin occurrences.length =>
        Assigns cs occurrences f ∧ p (assigned occurrences f) = true).card := by
  let chosen := chosenPositions cs occurrences
  let q : List (Fin occurrences.length) → Bool := fun l => p (l.map (occurrences[·]))
  have hnodup : (chosen.filter q).Nodup := (nodup_selections (List.nodup_finRange _)).filter _
  let positions : (Fin cs.length ↪ Fin occurrences.length) → List (Fin occurrences.length) :=
    fun f => List.ofFn f
  have hinj : Function.Injective positions := List.ofFn_injective.comp DFunLike.coe_injective
  have himage : (chosen.filter q).toFinset =
      (Finset.univ.filter fun f : Fin cs.length ↪ Fin occurrences.length =>
        Assigns cs occurrences f ∧ p (assigned occurrences f) = true).image positions := by
    ext l
    simp only [List.mem_toFinset, List.mem_filter, Finset.mem_image, Finset.mem_filter,
      Finset.mem_univ, true_and]
    constructor
    · rintro ⟨hl, hq⟩
      obtain ⟨f, hf, rfl⟩ := mem_chosenPositions.mp hl
      exact ⟨f, ⟨hf, by rwa [← map_ofFn_eq_assigned]⟩, rfl⟩
    · rintro ⟨f, ⟨hf, hp⟩, rfl⟩
      refine ⟨mem_chosenPositions.mpr ⟨f, hf, rfl⟩, ?_⟩
      rwa [← map_ofFn_eq_assigned] at hp
  calc (assignments cs occurrences).countP p
      = (chosen.filter q).length := by
        rw [assignments_eq_map_positions, List.countP_map, List.countP_eq_length_filter]
        rfl
    _ = (chosen.filter q).toFinset.card := (List.toFinset_card_of_nodup hnodup).symm
    _ = _ := by rw [himage, Finset.card_image_of_injective _ hinj]

end Positions

/-! ### Matches -/

section Matches

variable [Ord V] [TransOrd V] [LawfulEqOrd V]

/-- The matches are those of the maps from the components of the patterns. -/
theorem mem_reify {held : Bag (Held V)} {patterns : List Pattern} {v : Match V} :
    v ∈ (reify held patterns).elements ↔
      ∃ p ∈ patterns, ∃ f : Fin p.components.length ↪ Fin held.toList.length,
        Assigns p.components held.toList f ∧ v = .ofAssigned (assigned held.toList f) := by
  rw [reify, Bag.mem_elements_ofList, List.mem_flatMap]
  constructor
  · rintro ⟨p, hp, hv⟩
    obtain ⟨gs, hgs, rfl⟩ := List.mem_map.mp hv
    obtain ⟨f, hf, rfl⟩ := mem_assignments.mp hgs
    exact ⟨p, hp, f, hf, rfl⟩
  · rintro ⟨p, hp, f, hf, rfl⟩
    exact ⟨p, hp, List.mem_map.mpr ⟨_, mem_assignments.mpr ⟨f, hf, rfl⟩, rfl⟩⟩

/-- A pattern, by its place in a list, and different occurrences for its components. -/
abbrev Selection (held : Bag (Held V)) (patterns : List Pattern) : Type :=
  (d : Fin patterns.length) × (Fin patterns[d].components.length ↪ Fin held.toList.length)

/-- The components have the names and numbers of parameters of the selected occurrences, and these,
in the order of the components, make up a match. -/
def Selection.Yields {held : Bag (Held V)} {patterns : List Pattern}
    (sel : Selection held patterns) (v : Match V) : Prop :=
  Assigns patterns[sel.1].components held.toList sel.2 ∧
    v.item = List.ofFn (fun i => held.toList[sel.2 i].item) ∧
    v.guard = .all (List.ofFn fun i => held.toList[sel.2 i].guard)

instance {held : Bag (Held V)} {patterns : List Pattern} (sel : Selection held patterns)
    (v : Match V) : Decidable (sel.Yields v) :=
  inferInstanceAs (Decidable (_ ∧ _ ∧ _))

/-- A match occurs as often as there are selections that yield it. -/
theorem count_reify (held : Bag (Held V)) (patterns : List Pattern) (v : Match V) :
    (reify held patterns).count v =
      (Finset.univ.filter fun sel : Selection held patterns => sel.Yields v).card := by
  have hpattern (p : Pattern) :
      ((assignments p.components held.toList).map Match.ofAssigned).count v =
        (Finset.univ.filter fun f : Fin p.components.length ↪ Fin held.toList.length =>
          Assigns p.components held.toList f ∧
            v = .ofAssigned (assigned held.toList f)).card := by
    rw [List.count, List.countP_map, countP_assignments]
    simp only [Function.comp_apply, beq_iff_eq, eq_comm (b := v)]
  have hyields (d : Fin patterns.length)
      (f : Fin patterns[d].components.length ↪ Fin held.toList.length) :
      Selection.Yields (⟨d, f⟩ : Selection held patterns) v ↔
        Assigns patterns[d].components held.toList f ∧
          v = .ofAssigned (assigned held.toList f) := by
    obtain ⟨guard, item⟩ := v
    simp only [Selection.Yields, Match.ofAssigned, assigned, List.map_ofFn, Guarded.mk.injEq]
    exact and_congr_right' and_comm
  have hsigma : (Finset.univ.filter fun sel : Selection held patterns => sel.Yields v) =
      Finset.univ.sigma fun d : Fin patterns.length => Finset.univ.filter fun f =>
        Assigns patterns[d].components held.toList f ∧
          v = .ofAssigned (assigned held.toList f) := by
    ext ⟨d, f⟩
    simp [hyields]
  rw [reify, Bag.count_ofList, List.count_flatMap, hsigma, Finset.card_sigma]
  simp only [Function.comp_def, hpattern]
  exact (Fin.sum_univ_fun_getElem patterns _).symm

end Matches

/-- Two equal occurrences beside a third one are selected in two ways for two components of their
shape. -/
theorem count_reify_pair :
    let a : Atom (Expr Var) := ⟨"A", [.int (.var "x")]⟩
    let held : Bag (Held Var) := .ofList [⟨.var "p", a⟩, ⟨.var "p", a⟩, ⟨.lit true, ⟨"B", []⟩⟩]
    let component (x : Var) : Pattern := .atom ⟨"A", [⟨.int, x⟩]⟩
    let patterns : List Pattern := [.atom ⟨"B", []⟩, .join (component "y") (component "z")]
    let v : Match Var := ⟨.conn .and [.var "p", .var "p"], [a, a]⟩
    (reify held patterns).count v = 2 ∧
      (Finset.univ.filter fun sel : Selection held patterns => sel.Yields v).card = 2 := by
  intro a held component patterns v
  have hcount : (reify held patterns).count v = 2 := by decide +kernel
  exact ⟨hcount, by rw [← count_reify, hcount]⟩

end ViewLogic
