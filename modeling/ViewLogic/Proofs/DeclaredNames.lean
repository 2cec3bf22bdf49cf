import Mathlib.Data.List.Nodup
import ViewLogic.Proofs.ModelParts

/-!
# Names that are declared twice

Declarations that come one after another either all succeed, and then the names of the scope are the
declared ones, or fail at a name that comes twice. Declaring the variables of a script goes through
three such lists: the global variables, the local ones, and the local ones beside the global ones.
So it fails exactly if a name comes twice among all of them.
-/

namespace ViewLogic

namespace Scope

/-- The names that a scope declares are its keys. -/
theorem names_decls (s : Scope) : s.decls.map (·.name) = s.keys := by
  simp [decls, SortedMap.keys]

/-- Declarations all succeed, or fail at a name that comes twice. -/
theorem declare_all (s : Scope) (ds : List Decl) :
    (∃ t, ds.foldlM declare s = .ok t ∧ t.keys.Perm (s.keys ++ ds.map (·.name))) ∨
      ∃ x, ds.foldlM declare s = .error (.duplicateVar x) ∧
        2 ≤ (s.keys ++ ds.map (·.name)).count x := by
  induction ds generalizing s with
  | nil => exact .inl ⟨s, rfl, by simp⟩
  | cons d ds ih =>
    rw [List.foldlM_cons, declare]
    by_cases hcontains : s.contains d.name = true
    · refine .inr ⟨d.name, ?_, SortedMap.two_le_count_keys hcontains _⟩
      rw [if_pos hcontains]
      rfl
    · have hperm : ((s.insert d.name d.ty).keys ++ ds.map (·.name)).Perm
          (s.keys ++ (d :: ds).map (·.name)) :=
        SortedMap.perm_keys_insert_append hcontains d.ty _
      rw [if_neg hcontains]
      rcases ih (s.insert d.name d.ty) with ⟨t, ht, hkeys⟩ | ⟨x, hx, hcount⟩
      · exact .inl ⟨t, ht, hkeys.trans hperm⟩
      · exact .inr ⟨x, hx, by rwa [← hperm.count_eq]⟩

end Scope

namespace Script

/-- A name is declared twice among the global and the local variables. -/
def Redeclares (s : Script) (x : Var) : Prop := 2 ≤ ((s.globals ++ s.locals).map (·.name)).count x

/-- A script has its scopes, and then no name is declared twice, or its scopes fail at such a
name. -/
theorem scopes_cases (s : Script) :
    ((∃ globals locals, s.scopes = .ok (globals, locals)) ∧ ∀ x, ¬s.Redeclares x) ∨
      ∃ x, s.scopes = .error (.duplicateVar x) ∧ s.Redeclares x := by
  simp only [Redeclares, List.map_append]
  rcases Scope.declare_all ∅ s.globals with ⟨globals, hglobals, hgnames⟩ | ⟨x, hx, hcount⟩
  · rcases Scope.declare_all ∅ s.locals with ⟨locals, hlocals, hlnames⟩ | ⟨x, hx, hcount⟩
    · have hnames : (globals.keys ++ locals.decls.map (·.name)).Perm
          (s.globals.map (·.name) ++ s.locals.map (·.name)) := by
        rw [Scope.names_decls]
        exact hgnames.append hlnames
      rcases Scope.declare_all globals locals.decls with ⟨scope, hscope, hkeys⟩ | ⟨x, hx, hcount⟩
      · refine .inl ⟨⟨globals, locals, scopes_eq_ok.mpr ⟨hglobals, hlocals, scope, hscope⟩⟩, ?_⟩
        have hnodup := (hkeys.trans hnames).nodup_iff.mp scope.nodup_keys
        intro x hx
        have hone := List.nodup_iff_count_le_one.mp hnodup x
        omega
      · refine .inr ⟨x, ?_, by rwa [← hnames.count_eq]⟩
        simp only [scopes, Scope.ofDecls, Scope.merge, hglobals, hlocals, hx, bind, Except.bind]
    · have htwice : 2 ≤ (s.locals.map (·.name)).count x := hcount
      refine .inr ⟨x, ?_, by rw [List.count_append]; omega⟩
      simp only [scopes, Scope.ofDecls, hglobals, hx, bind, Except.bind]
  · have htwice : 2 ≤ (s.globals.map (·.name)).count x := hcount
    refine .inr ⟨x, ?_, by rw [List.count_append]; omega⟩
    simp only [scopes, Scope.ofDecls, hx, bind, Except.bind]

end Script

end ViewLogic
