import ViewLogic.Proofs.Composition

/-!
# Variables that a command does not write

The frame of a primitive keeps the declared variables that the primitive does not write. A
composition hands a kept value on through the stage in between. So a variable that no primitive of a
command writes has the same value after the command as before it, whatever the rules of the
primitives say and whichever stages their parameters read.
-/

namespace ViewLogic

/-! ### Written names -/

/-- A primitive writes the names that its parameters read as they are after it. -/
theorem Primitive.mem_written {p : Primitive} {x : Var} :
    x ∈ p.written ↔ ∃ leaf ∈ p.leaves, leaf.var = ⟨.after, x⟩ := by
  rw [written, SortedMap.mem_keys_ofList]
  simp only [List.mem_map, List.mem_filter, decide_eq_true_eq, Prod.mk.injEq, and_true]
  constructor
  · rintro ⟨-, ⟨ty, mark, name⟩, ⟨hleaf, rfl⟩, rfl⟩
    exact ⟨_, hleaf, rfl⟩
  · rintro ⟨⟨ty, _⟩, hleaf, rfl⟩
    exact ⟨(), _, ⟨hleaf, rfl⟩, rfl⟩

/-- A command that can change no variable writes none. -/
theorem Command.not_mem_written_of_isNop {c : Command} (h : c.isNop = true) {p : Primitive}
    (hp : p ∈ c) (x : Var) : x ∉ p.written := by
  rw [Primitive.mem_written]
  rintro ⟨leaf, hleaf, hafter⟩
  obtain ⟨e, he, hmem⟩ := List.mem_flatMap.mp hleaf
  have hparam := List.all_eq_true.mp (List.all_eq_true.mp h p hp) e he
  have hbefore := List.all_eq_true.mp (Bool.and_eq_true_iff.mp hparam).2 leaf hmem
  simp [hafter] at hbefore

/-! ### Kept values -/

namespace Relation

/-- Whenever a relation holds, a variable has the same value after it as before it. -/
def Keeps (r : Relation) (x : Leaf Var) : Prop :=
  ∀ (I : Interpretation) (ρ : Valuation MarkedVar), r.eval I ρ = true →
    (ρ.stateAt .after).read x = (ρ.stateAt .before).read x

variable {first second r : Relation} {x : Leaf Var}

/-- A composition keeps what both relations keep. The value passes through the stage in between,
which is the state after the first relation and the state before the second one. -/
theorem Keeps.compose (hfirst : first.Keeps x) (hsecond : second.Keeps x) :
    (compose first second).Keeps x := by
  intro I ρ h
  obtain ⟨hbelow, habove⟩ := eval_compose.mp h
  calc (ρ.stateAt .after).read x
      = (ρ.stateAt (.intermediate first.nextStage)).read x := hsecond I _ habove
    _ = (ρ.stateAt .before).read x := hfirst I _ hbelow

/-- Composed from left to right, relations keep what all of them keep. -/
theorem Keeps.foldl_compose {rs : List Relation} (hr : r.Keeps x) (hrs : ∀ r' ∈ rs, r'.Keeps x) :
    (rs.foldl Relation.compose r).Keeps x := by
  induction rs generalizing r with
  | nil => exact hr
  | cons r' rs ih =>
    obtain ⟨hr', hrs⟩ := List.forall_mem_cons.mp hrs
    exact ih (hr.compose hr') hrs

end Relation

namespace Semantics

variable {s : Semantics} {scope : Scope} {x : Var} {ty : Ty}

/-- The frame keeps every declared variable that is not written. -/
theorem keeps_frame {written : List Var} (hx : scope.get? x = some ty) (hwritten : x ∉ written) :
    (frame scope written).Keeps ⟨ty, x⟩ :=
  fun _ _ h => eval_frame.mp h x ty hx hwritten

/-- A primitive keeps the declared variables that it does not write, whatever its rule says. -/
theorem keeps_primitiveRelation {p : Primitive} {r : Relation}
    (h : s.primitiveRelation scope p = .ok r) (hx : scope.get? x = some ty)
    (hwritten : x ∉ p.written) : r.Keeps ⟨ty, x⟩ := by
  obtain ⟨-, body, -, rfl⟩ := primitiveRelation_eq_ok.mp h
  intro I ρ hρ
  have hframe := (BoolExpr.eval_all_eq_true I ρ).mp hρ (frame scope p.written) (by simp)
  exact keeps_frame hx hwritten I ρ hframe

/-- The composition of relations keeps the declared variables that all of them keep. -/
theorem keeps_composeAll {rs : List Relation} (hx : scope.get? x = some ty)
    (hrs : ∀ r ∈ rs, r.Keeps ⟨ty, x⟩) : (composeAll scope rs).Keeps ⟨ty, x⟩ := by
  cases rs with
  | nil => exact keeps_frame hx List.not_mem_nil
  | cons r rs =>
    obtain ⟨hr, hrs⟩ := List.forall_mem_cons.mp hrs
    exact hr.foldl_compose hrs

/-- A command keeps the declared variables that none of its primitives writes. -/
theorem keeps_commandRelation {cmd : Command} {r : Relation}
    (h : s.commandRelation scope cmd = .ok r) (hx : scope.get? x = some ty)
    (hwritten : ∀ p ∈ cmd, x ∉ p.written) : r.Keeps ⟨ty, x⟩ := by
  obtain ⟨rs, hrs, h⟩ := bind_eq_ok.mp h
  cases h
  refine keeps_composeAll hx fun r hr => ?_
  obtain ⟨p, hp, hpr⟩ := (mapM_eq_ok hrs).2 r hr
  exact keeps_primitiveRelation hpr hx (hwritten p hp)

/-- A command changes no declared variable that none of its primitives writes: every valuation that
satisfies its relation gives the variable the same value after the command as before it, at the type
of its declaration. A command whose parameters read the state before it only, and hold no symbolic
leaf, changes no declared variable at all. This also holds where stage numbers reach their limit. -/
theorem commandRelation_keeps_unwritten {cmd : Command} {r : Relation}
    (h : s.commandRelation scope cmd = .ok r) (I : Interpretation) (ρ : Valuation MarkedVar)
    (hρ : r.eval I ρ = true) :
    (∀ x ty, scope.get? x = some ty → (∀ p ∈ cmd, x ∉ p.written) →
        ρ.read ⟨ty, ⟨.after, x⟩⟩ = ρ.read ⟨ty, ⟨.before, x⟩⟩) ∧
      (cmd.isNop = true → ∀ x ty, scope.get? x = some ty →
        ρ.read ⟨ty, ⟨.after, x⟩⟩ = ρ.read ⟨ty, ⟨.before, x⟩⟩) := by
  have hkeeps (x : Var) (ty : Ty) (hx : scope.get? x = some ty)
      (hwritten : ∀ p ∈ cmd, x ∉ p.written) :
      ρ.read ⟨ty, ⟨.after, x⟩⟩ = ρ.read ⟨ty, ⟨.before, x⟩⟩ :=
    keeps_commandRelation h hx hwritten I ρ hρ
  refine ⟨hkeeps, fun hnop x ty hx => hkeeps x ty hx fun p hp => ?_⟩
  exact Command.not_mem_written_of_isNop hnop hp x

/-- Two primitives lead `x` from 0 through 1 to 3, by amounts that they read at stages of their own,
and `b` keeps its value through the three stages of the command. Two assumptions keep `x`. -/
theorem commandRelation_keeps_unwritten_stages :
    let I : Interpretation := ⟨fun _ => 0, 0, fun _ _ => false, fun _ _ => 0, fun _ _ => false⟩
    let scope : Scope := .ofList [("b", .bool), ("x", .int)]
    let sum : IntExpr MarkedVar :=
      .arith .add [.var ⟨.before, "x"⟩, .var ⟨.intermediate .zero, "x"⟩]
    let move : Primitive := ⟨"IAssign", [.int (.var ⟨.after, "x"⟩), .int sum]⟩
    let guard : Primitive :=
      ⟨"Assume", [.bool (.cmp .lt (.var ⟨.before, "x"⟩) (.const .one))]⟩
    let state (n : Int) : Valuation Var := ⟨fun _ => n, fun _ => true⟩
    let ρ := Relation.moments (state 0) (state 3) (state 0)
      fun n => state (if n.val = 2 then 2 else 1)
    let σ := Relation.moments (state 0) (state 0) (state 0) fun _ => state 0
    (∃ r, core.commandRelation scope [move, move] = .ok r ∧ r.eval I ρ = true ∧
      "b" ∉ move.written ∧ ρ.read ⟨.bool, ⟨.after, "b"⟩⟩ = ρ.read ⟨.bool, ⟨.before, "b"⟩⟩) ∧
    ∃ r, core.commandRelation scope [guard, guard] = .ok r ∧ r.eval I σ = true ∧
      Command.isNop [guard, guard] = true ∧
      σ.read ⟨.int, ⟨.after, "x"⟩⟩ = σ.read ⟨.int, ⟨.before, "x"⟩⟩ := by
  intro I scope sum move guard state ρ σ
  constructor
  · have hok : (core.commandRelation scope [move, move]).map (·.eval I ρ) = .ok true := by
      decide +kernel
    obtain ⟨r, hr, hρ⟩ := map_eq_ok.mp hok
    have hb : scope.get? "b" = some .bool := by decide +kernel
    have hwritten : "b" ∉ move.written := by decide +kernel
    refine ⟨r, hr, hρ, hwritten, ?_⟩
    exact (commandRelation_keeps_unwritten hr I ρ hρ).1 "b" .bool hb (by simpa using hwritten)
  · have hok : (core.commandRelation scope [guard, guard]).map (·.eval I σ) = .ok true := by
      decide +kernel
    obtain ⟨r, hr, hσ⟩ := map_eq_ok.mp hok
    have hx : scope.get? "x" = some .int := by decide +kernel
    have hnop : Command.isNop [guard, guard] = true := by decide +kernel
    exact ⟨r, hr, hσ, hnop, (commandRelation_keeps_unwritten hr I σ hσ).2 hnop "x" .int hx⟩

end Semantics

end ViewLogic
