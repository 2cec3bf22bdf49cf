import ViewLogic.Proofs.Meaning
import ViewLogic.Proofs.Selections

/-!
# Views under conditions

In a state, every condition of a view selects one of its branches. Flattening instead keeps the
atoms of both branches and collects the conditions above an atom in its guard, and the search for
matches mixes atoms of branches that exclude each other. What holds in the state is the same all the
same: the guards select the atoms of the chosen branches, and the matches of these.
-/

namespace ViewLogic

open Std (TransOrd LawfulEqOrd)
open scoped List

variable {V : Type} (I : Interpretation) (s : Valuation V)

/-- The atoms of the branches that the conditions of a view select in a state. -/
def View.chosen : View V → List (Atom (Expr V))
  | unit => []
  | atom a => [a]
  | join l r => l.chosen ++ r.chosen
  | ite cond yes no => if cond.eval I s then yes.chosen else no.chosen

/-- Below a guard that holds, the guards select the atoms of the chosen branches. Below any other
guard they select none. -/
theorem View.items_heldUnder (v : View V) (guard : BoolExpr V) :
    ((v.heldUnder guard).filter fun g => g.guard.eval I s).map (·.item) =
      if guard.eval I s then v.chosen I s else [] := by
  induction v generalizing guard with
  | unit => simp [heldUnder, chosen]
  | atom a => cases hguard : guard.eval I s <;> simp [heldUnder, chosen, hguard]
  | join l r ihl ihr =>
    rw [heldUnder, List.filter_append, List.map_append, ihl, ihr, chosen]
    cases guard.eval I s <;> rfl
  | ite cond yes no ihyes ihno =>
    rw [heldUnder, List.filter_append, List.map_append, ihyes, ihno, chosen]
    cases hguard : guard.eval I s <;> cases hcond : cond.eval I s <;>
      simp [BoolExpr.all, Connective.holds, hguard, hcond]

/-- The guard of a match holds if those of all assigned atoms do. -/
theorem Match.eval_guard_ofAssigned (gs : List (Held V)) :
    (ofAssigned gs).guard.eval I s = gs.all fun g => g.guard.eval I s := by
  rw [Bool.eq_iff_iff]
  simp [ofAssigned, BoolExpr.eval_all_eq_true]

section Items

variable (keep : Held V → Bool) (keepMatch : Match V → Bool)

/-- If a match is kept just in case all its atoms are, then the kept matches are those of the kept
occurrences. -/
theorem items_assignments (hkeep : ∀ gs, keepMatch (.ofAssigned gs) = gs.all keep)
    (cs : List (Atom Decl)) (pool : List (Held V)) :
    (((assignments cs pool).map Match.ofAssigned).filter keepMatch).map (·.item) =
      selections Atom.sameShape cs ((pool.filter keep).map (·.item)) := by
  rw [List.filter_map, List.map_map, assignments_eq, selections_map, selections_filter]
  simp only [Function.comp_def, hkeep]
  rfl

variable [Ord V] [TransOrd V] [LawfulEqOrd V]

/-- The kept matches of a bag are the selections of its kept occurrences. -/
theorem items_reify (hkeep : ∀ gs, keepMatch (.ofAssigned gs) = gs.all keep)
    (held : Bag (Held V)) (patterns : List Pattern) :
    (((reify held patterns).toList.filter keepMatch).map (·.item)).Perm
      (patterns.flatMap fun p => selections Atom.sameShape p.components
        ((held.toList.filter keep).map (·.item))) := by
  have hmatches : (reify held patterns).toList.Perm
      (patterns.flatMap fun p => (assignments p.components held.toList).map .ofAssigned) :=
    Bag.perm_toList_ofList _
  simpa only [List.filter_flatMap, List.map_flatMap, items_assignments _ _ hkeep]
    using (hmatches.filter keepMatch).map (·.item)

end Items

variable [Ord V] [TransOrd V] [LawfulEqOrd V]

/-- The guards of a flattened view select the atoms of the chosen branches. -/
theorem View.items_held (v : View V) :
    ((v.held.toList.filter fun g => g.guard.eval I s).map (·.item)).Perm (v.chosen I s) := by
  have hheld : v.held.toList.Perm (v.heldUnder (.lit true)) := Bag.perm_toList_ofList _
  have hitems := v.items_heldUnder I s (.lit true)
  rw [BoolExpr.eval, if_pos rfl] at hitems
  rw [← hitems]
  exact (hheld.filter _).map _

/-- The matches of atoms without guards are the selections of the atoms. -/
theorem items_reify_unguarded (atoms : List (Atom (Expr V))) (patterns : List Pattern) :
    ((reify (.ofList (atoms.map (⟨.lit true, ·⟩))) patterns).toList.map (·.item)).Perm
      (patterns.flatMap fun p => selections Atom.sameShape p.components atoms) := by
  let held : Bag (Held V) := .ofList (atoms.map (⟨.lit true, ·⟩))
  have hheld : held.toList.Perm (atoms.map (⟨.lit true, ·⟩)) := Bag.perm_toList_ofList _
  have hatoms : (held.toList.map (·.item)).Perm atoms := by
    simpa [Function.comp_def] using hheld.map (·.item)
  have hitems := items_reify (fun _ => true) (fun _ => true) (by simp) held patterns
  rw [List.filter_true, List.filter_true] at hitems
  exact hitems.trans (.flatMap_left _ fun p _ => selections_perm _ p.components hatoms)

/-- Resolving the conditions of a view in a state commutes with flattening the view and with finding
its matches. The atoms whose guards hold are those of the chosen branches, and the matches whose
guards hold are those of the chosen atoms without guards, each as often. -/
theorem View.resolve_conditions (v : View V) (patterns : List Pattern) :
    ((v.held.toList.filter fun g => g.guard.eval I s).map (·.item)).Perm (v.chosen I s) ∧
      (((reify v.held patterns).toList.filter fun w => w.guard.eval I s).map (·.item)).Perm
        ((reify (.ofList ((v.chosen I s).map (⟨.lit true, ·⟩))) patterns).toList.map (·.item)) := by
  refine ⟨v.items_held I s, ?_⟩
  calc ((reify v.held patterns).toList.filter fun w => w.guard.eval I s).map (·.item)
    _ ~ patterns.flatMap fun p => selections Atom.sameShape p.components
        ((v.held.toList.filter fun g => g.guard.eval I s).map (·.item)) :=
      items_reify _ _ (Match.eval_guard_ofAssigned I s) v.held patterns
    _ ~ patterns.flatMap fun p => selections Atom.sameShape p.components (v.chosen I s) :=
      .flatMap_left _ fun p _ => selections_perm _ p.components (v.items_held I s)
    _ ~ (reify (.ofList ((v.chosen I s).map (⟨.lit true, ·⟩))) patterns).toList.map (·.item) :=
      (items_reify_unguarded _ patterns).symm

/-- The atom `A` is held under three guards, which exclude each other in part. When `b` holds, it is
there twice, and of the six matches of a pattern of two such atoms two are there. -/
theorem View.resolve_conditions_repeated :
    let I : Interpretation := ⟨fun _ => 0, 0, fun _ _ => false, fun _ _ => 0, fun _ _ => false⟩
    let s : Valuation Var := ⟨fun _ => 0, fun x => x = "b"⟩
    let a : Atom (Expr Var) := ⟨"A", [.int (.var "x")]⟩
    let v : View Var :=
      .join (.ite (.var "b") (.atom a) (.ite (.var "c") (.atom a) .unit))
        (.ite (.not (.var "b")) (.atom ⟨"B", []⟩) (.atom a))
    let component : Pattern := .atom ⟨"A", [⟨.int, "y"⟩]⟩
    let matched := reify v.held [.join component component]
    matched.size = 6 ∧ v.chosen I s = [a, a] ∧
      ((v.held.toList.filter fun g => g.guard.eval I s).map (·.item)).Perm [a, a] ∧
      ((matched.toList.filter fun w => w.guard.eval I s).map (·.item)).Perm [[a, a], [a, a]] := by
  intro I s a v component matched
  have hchosen : v.chosen I s = [a, a] := by decide +kernel
  have hmatches : (reify (.ofList [⟨.lit true, a⟩, ⟨.lit true, a⟩])
      [.join component component]).toList.map (·.item) = [[a, a], [a, a]] := by
    decide +kernel
  obtain ⟨hatoms, hitems⟩ := v.resolve_conditions I s [.join component component]
  rw [hchosen] at hatoms hitems
  refine ⟨by decide +kernel, hchosen, hatoms, ?_⟩
  rw [← hmatches]
  exact hitems

end ViewLogic
