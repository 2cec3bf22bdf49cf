import Mathlib.Algebra.BigOperators.Group.List.Basic
import ViewLogic.Expr.Simplify
import ViewLogic.Proofs.Preservation

/-!
# Composed relations

The relation of a command holds between two states if and only if its primitives lead from one to
the other through states in between. A composed relation reads the state in between at a fresh
stage. As long as no stage number reaches the limit, that stage is above the stages of the first
relation and below the stages of the second one, so neither captures a variable of the other.
-/

namespace ViewLogic

/-! ### Renamed variables -/

section Rename

variable {V W : Type}

/-- The values of variables under other names. -/
def Valuation.comap (f : V → W) (ρ : Valuation W) : Valuation V :=
  ⟨fun v => ρ.int (f v), fun v => ρ.bool (f v)⟩

/-- A renamed expression is evaluated where every variable has the value of its new name. -/
theorem BoolExpr.eval_rename (I : Interpretation) (ρ : Valuation W) (f : V → W) (e : BoolExpr V) :
    (e.rename f).eval I ρ = e.eval I (ρ.comap f) :=
  (Expr.eval_subst I (.ofRename f) ρ).2.1 e

/-- The image of a leaf under a renaming is one leaf of the same type. -/
theorem Subst.imageLeaves_ofRename (f : V → W) (leaf : Leaf V) :
    (ofRename f).imageLeaves leaf = [⟨leaf.ty, f leaf.var⟩] := by
  obtain ⟨ty, v⟩ := leaf
  cases ty <;> rfl

/-- The leaves of a renamed expression are the renamed leaves. -/
theorem BoolExpr.mem_leaves_rename {f : V → W} {e : BoolExpr V} {leaf : Leaf W} :
    leaf ∈ (e.rename f).leaves ↔ ∃ leaf' ∈ e.leaves, leaf = ⟨leaf'.ty, f leaf'.var⟩ := by
  simp only [rename, (Expr.leaves_subst _).2.1, List.mem_flatMap, Subst.imageLeaves_ofRename,
    List.mem_singleton]

end Rename

/-! ### Stage numbers -/

namespace Stage

/-- Below the limit, the next stage has the next number. -/
theorem val_next {s : Stage} (h : s.val < limit) : s.next.val = s.val + 1 :=
  Nat.min_eq_left h

/-- Up to the limit, stages are added as numbers. -/
theorem val_add {s k : Stage} (h : s.val + k.val ≤ limit) : (s.add k).val = s.val + k.val :=
  Nat.min_eq_left h

/-- A stage is determined by its number. -/
theorem ext_val {s t : Stage} (h : s.val = t.val) : s = t := by
  obtain ⟨n, hn⟩ := s
  obtain rfl : n = t.val := h
  rfl

/-- The stage of the number of a stage is that stage. -/
theorem ofNat_val (s : Stage) : ofNat s.val = s :=
  ext_val (Nat.min_eq_left s.val_le)

/-- The greater of two stages is within a bound exactly if both are. -/
theorem val_max_le_iff {s t : Stage} {k : Nat} :
    (s.max t).val ≤ k ↔ s.val ≤ k ∧ t.val ≤ k := by
  unfold Stage.max
  split <;> omega

end Stage

/-- A maximum that is taken over a list of leaves is bounded by the bounds of its parts. -/
theorem val_foldl_le_iff {f : Stage → Leaf MarkedVar → Stage} {P : Leaf MarkedVar → Prop} {k : Nat}
    (hf : ∀ s leaf, (f s leaf).val ≤ k ↔ s.val ≤ k ∧ P leaf) (leaves : List (Leaf MarkedVar))
    (s : Stage) : (leaves.foldl f s).val ≤ k ↔ s.val ≤ k ∧ ∀ leaf ∈ leaves, P leaf := by
  induction leaves generalizing s with
  | nil => simp
  | cons leaf leaves ih => rw [List.foldl_cons, ih, hf, List.forall_mem_cons, and_assoc]

/-- The stage after a list of leaves is the least one with all their stages before it. -/
theorem nextStageOf_val_le_iff {leaves : List (Leaf MarkedVar)} {k : Nat} :
    (nextStageOf leaves).val ≤ k ↔
      ∀ leaf ∈ leaves, ∀ n, leaf.var.mark = .intermediate n → n.next.val ≤ k := by
  refine (val_foldl_le_iff (fun s leaf => ?_) leaves .zero).trans
    (and_iff_right (Nat.zero_le k))
  cases leaf.var.mark with
  | intermediate n => simp [Stage.val_max_le_iff]
  | before | after | goal => simp

section NextStage

variable {e : Relation} {leaf : Leaf MarkedVar} {n : Stage}

/-- The stage after one that an expression reads is not beyond its next free stage. -/
theorem next_le_nextStage (hleaf : leaf ∈ e.leaves) (hn : leaf.var.mark = .intermediate n) :
    n.next.val ≤ e.nextStage.val :=
  nextStageOf_val_le_iff.mp (Nat.le_refl _) leaf hleaf n hn

/-- Below the limit, the next stage is above every stage of a relation. -/
theorem lt_nextStage (hlimit : e.nextStage.val < Stage.limit) (hleaf : leaf ∈ e.leaves)
    (hn : leaf.var.mark = .intermediate n) : n.val < e.nextStage.val := by
  have hnext := next_le_nextStage hleaf hn
  have hle := n.val_le
  by_cases hlt : n.val < Stage.limit
  · rw [Stage.val_next hlt] at hnext
    omega
  · have hlast : n.next.val = Stage.limit := Nat.min_eq_right (by omega)
    omega

end NextStage

/-! ### Two relations -/

namespace Relation

variable {I : Interpretation} {goal s s' : Valuation Var} {first second r : Relation}

/-- The valuation with given states before, after and in the goal, and at every stage. -/
def moments (before after goal : Valuation Var) (stages : Stage → Valuation Var) :
    Valuation MarkedVar :=
  let state : Mark → Valuation Var
    | .before => before
    | .after => after
    | .intermediate n => stages n
    | .goal => goal
  ⟨fun v => (state v.mark).int v.name, fun v => (state v.mark).bool v.name⟩

/-- A relation holds between two states, given the variables of the goal: some values of the
intermediate variables make it true. -/
def Relates (r : Relation) (I : Interpretation) (goal s s' : Valuation Var) : Prop :=
  ∃ stages : Stage → Valuation Var, r.eval I (moments s s' goal stages) = true

/-- Two relations have stage numbers for their composition. -/
def Composable (first second : Relation) : Prop :=
  first.nextStage.val + 1 + second.nextStage.val ≤ Stage.limit

/-- A composition holds if the first relation holds up to the stage in between and the second one
from there on, with its own stages moved up. -/
theorem eval_compose {ρ : Valuation MarkedVar} :
    (compose first second).eval I ρ = true ↔
      first.eval I (ρ.comap (.retime .after (.intermediate first.nextStage))) = true ∧
        second.eval I ((ρ.comap (.retime .before (.intermediate first.nextStage))).comap
          (.bump first.nextStage.next)) = true := by
  simp [compose, bump, BoolExpr.eval_all_eq_true, BoolExpr.eval_rename]

/-- What a relation reads before and after it is the same in the composition, where the state in
between is the one at the fresh stage. -/
theorem comap_moments_after (m : Stage) (stages : Stage → Valuation Var) :
    (moments s s' goal stages).comap (.retime .after (.intermediate m)) =
      moments s (stages m) goal stages := by
  ext ⟨mark, x⟩ <;> cases mark <;> rfl

/-- The second relation of a composition starts in the state of the stage in between. -/
theorem comap_moments_before (m : Stage) (stages : Stage → Valuation Var) :
    ((moments s s' goal stages).comap (.retime .before (.intermediate m))).comap (.bump m.next) =
      moments (stages m) s' goal fun n => stages (n.add m.next) := by
  ext ⟨mark, x⟩ <;> cases mark <;> rfl

/-- The truth of a relation depends on the stages that it mentions only. -/
theorem eval_moments_congr {stages stages' : Stage → Valuation Var}
    (h : ∀ leaf ∈ r.leaves, ∀ n, leaf.var.mark = .intermediate n → stages n = stages' n) :
    r.eval I (moments s s' goal stages) = r.eval I (moments s s' goal stages') := by
  apply (Expr.eval_congr I _ _).2.1 r
  rintro ⟨ty, mark, x⟩ hleaf
  cases mark with
  | intermediate n =>
    have hn := h _ hleaf n rfl
    cases ty <;> simp [Valuation.read, moments, hn]
  | before | after | goal => cases ty <;> rfl

/-- The stages of two relations around the stage in between. -/
def splice (m : Stage) (below : Stage → Valuation Var) (between : Valuation Var)
    (above : Stage → Valuation Var) (n : Stage) : Valuation Var :=
  if n.val < m.val then below n
  else if n = m then between
  else above (.ofNat (n.val - (m.val + 1)))

/-- Above the stage in between stand the stages of the second relation. -/
theorem splice_add {m n : Stage} {below above : Stage → Valuation Var} {between : Valuation Var}
    (hm : m.val < Stage.limit) (hn : n.val + (m.val + 1) ≤ Stage.limit) :
    splice m below between above (n.add m.next) = above n := by
  have hval : (n.add m.next).val = n.val + (m.val + 1) := by
    rw [Stage.val_add (by rwa [Stage.val_next hm]), Stage.val_next hm]
  have hne : n.add m.next ≠ m := by
    intro heq
    rw [heq] at hval
    omega
  rw [splice, if_neg (by omega), if_neg hne, hval, Nat.add_sub_cancel, Stage.ofNat_val]

/-- A composed relation holds between two states if and only if some state lies between them. -/
theorem relates_compose_iff (h : Composable first second) :
    (compose first second).Relates I goal s s' ↔
      ∃ between, first.Relates I goal s between ∧ second.Relates I goal between s' := by
  constructor
  · rintro ⟨stages, hstages⟩
    rw [eval_compose, comap_moments_after, comap_moments_before] at hstages
    exact ⟨stages first.nextStage, ⟨_, hstages.1⟩, ⟨_, hstages.2⟩⟩
  · rintro ⟨between, ⟨below, hbelow⟩, ⟨above, habove⟩⟩
    unfold Composable at h
    refine ⟨splice first.nextStage below between above, ?_⟩
    rw [eval_compose, comap_moments_after, comap_moments_before]
    have hbetween : splice first.nextStage below between above first.nextStage = between := by
      simp [splice]
    rw [hbetween]
    constructor
    · rw [← hbelow]
      apply eval_moments_congr
      intro leaf hleaf n hn
      rw [splice, if_pos (lt_nextStage (by omega) hleaf hn)]
    · rw [← habove]
      apply eval_moments_congr
      intro leaf hleaf n hn
      have hlt : n.val < second.nextStage.val := lt_nextStage (by omega) hleaf hn
      exact splice_add (by omega) (by omega)

/-- A composition needs the stages of both relations and one in between. -/
theorem nextStage_compose_le (h : Composable first second) :
    (compose first second).nextStage.val ≤ first.nextStage.val + 1 + second.nextStage.val := by
  unfold Composable at h
  rw [BoolExpr.nextStage, nextStageOf_val_le_iff]
  intro leaf hleaf n hn
  have hmem := BoolExpr.mem_leaves_of_combine hleaf
  simp only [BoolExpr.leavesAll_eq, List.flatMap_cons, List.flatMap_nil, List.append_nil,
    List.mem_append, BoolExpr.mem_leaves_rename, bump] at hmem
  suffices hlt : n.val < first.nextStage.val + 1 + second.nextStage.val from
    (Nat.min_le_left _ _).trans hlt
  rcases hmem with ⟨⟨ty, mark, x⟩, hfirst, rfl⟩ | ⟨_, ⟨⟨ty, mark, x⟩, hsecond, rfl⟩, rfl⟩
  · cases mark with
    | after =>
      obtain rfl : first.nextStage = n := Mark.intermediate.inj hn
      omega
    | intermediate k =>
      obtain rfl : k = n := Mark.intermediate.inj hn
      have hk : k.val < first.nextStage.val := lt_nextStage (by omega) hfirst rfl
      omega
    | before | goal => cases hn
  · cases mark with
    | before =>
      obtain rfl : first.nextStage = n := Mark.intermediate.inj hn
      omega
    | intermediate k =>
      obtain rfl : k.add first.nextStage.next = n := Mark.intermediate.inj hn
      have hk : k.val < second.nextStage.val := lt_nextStage (by omega) hsecond rfl
      have hnext : first.nextStage.next.val = first.nextStage.val + 1 := Stage.val_next (by omega)
      rw [Stage.val_add (by omega)]
      omega
    | after | goal => cases hn

/-! ### Any number of relations -/

/-- Relations lead from one state to another, one after the other. -/
def Steps (I : Interpretation) (goal : Valuation Var) :
    List Relation → Valuation Var → Valuation Var → Prop
  | [], s, s' => s = s'
  | r :: rs, s, s' => ∃ between, r.Relates I goal s between ∧ Steps I goal rs between s'

/-- Composed from left to right, relations hold between two states if and only if they lead from one
to the other. -/
theorem relates_foldl_compose_iff {rs : List Relation}
    (h : r.nextStage.val + (rs.map (·.nextStage.val + 1)).sum ≤ Stage.limit) :
    (rs.foldl compose r).Relates I goal s s' ↔ Steps I goal (r :: rs) s s' := by
  induction rs generalizing r s with
  | nil => simp [Steps]
  | cons r' rs ih =>
    rw [List.map_cons, List.sum_cons] at h
    have hcomposable : Composable r r' := by
      unfold Composable
      omega
    have hstages : (compose r r').nextStage.val ≤ r.nextStage.val + 1 + r'.nextStage.val :=
      nextStage_compose_le hcomposable
    rw [List.foldl_cons, ih (by omega), Steps]
    simp only [relates_compose_iff hcomposable, Steps]
    constructor
    · rintro ⟨t', ⟨t, hr, hr'⟩, hrs⟩
      exact ⟨t, hr, t', hr', hrs⟩
    · rintro ⟨t, hr, t', hr', hrs⟩
      exact ⟨t', ⟨t, hr, hr'⟩, hrs⟩

/-- Relations lead from one state to another along a sequence of states. -/
theorem steps_iff_exists_states {rs : List Relation} :
    Steps I goal rs s s' ↔
      ∃ states : Nat → Valuation Var, states 0 = s ∧ states rs.length = s' ∧
        ∀ i (hi : i < rs.length), rs[i].Relates I goal (states i) (states (i + 1)) := by
  induction rs generalizing s with
  | nil =>
    constructor
    · rintro rfl
      exact ⟨fun _ => s, rfl, rfl, fun i hi => absurd hi (Nat.not_lt_zero i)⟩
    · rintro ⟨states, rfl, rfl, -⟩
      rfl
  | cons r rs ih =>
    simp only [Steps, ih]
    constructor
    · rintro ⟨t, hr, states, rfl, rfl, hrs⟩
      refine ⟨fun i => i.casesOn s states, rfl, rfl, fun i hi => ?_⟩
      cases i with
      | zero => exact hr
      | succ i => exact hrs i (Nat.lt_of_succ_lt_succ hi)
    · rintro ⟨states, rfl, rfl, hrs⟩
      refine ⟨states 1, hrs 0 (Nat.succ_pos _), fun i => states (i + 1), rfl, rfl, fun i hi => ?_⟩
      exact hrs (i + 1) (Nat.succ_lt_succ hi)

end Relation

namespace Semantics

/-- Nothing changes between two states if and only if they agree on the declared variables. -/
theorem relates_frame_nil_iff {scope : Scope} {I : Interpretation} {goal s s' : Valuation Var} :
    (frame scope []).Relates I goal s s' ↔ scope.Agree s s' := by
  simp only [Relation.Relates, eval_frame_nil]
  constructor
  · rintro ⟨stages, h⟩
    exact h
  · intro h
    exact ⟨fun _ => s, h⟩

/-- The relation of a command is the sequential composition of the relations of its primitives, as
long as there are enough stage numbers. It holds between two states if and only if there are states
in between, one after each primitive, such that every primitive leads from one to the next; each
primitive has intermediate variables of its own. The empty command keeps the declared variables. -/
theorem relates_commandRelation_iff {semantics : Semantics} {scope : Scope} {cmd : Command}
    {r : Relation} (h : semantics.commandRelation scope cmd = .ok r) :
    ∃ rs, cmd.mapM (semantics.primitiveRelation scope) = .ok rs ∧
      ((rs.map (·.nextStage.val)).sum + cmd.length ≤ Stage.limit →
        ∀ (I : Interpretation) (goal s s' : Valuation Var),
          (cmd = [] → (r.Relates I goal s s' ↔ scope.Agree s s')) ∧
          (cmd ≠ [] → (r.Relates I goal s s' ↔
            ∃ states : Nat → Valuation Var, states 0 = s ∧ states cmd.length = s' ∧
              ∀ i (hi : i < rs.length), rs[i].Relates I goal (states i) (states (i + 1))))) := by
  obtain ⟨rs, hrs, h⟩ := bind_eq_ok.mp h
  cases h
  refine ⟨rs, hrs, fun hstages I goal s s' => ?_⟩
  have hlength : rs.length = cmd.length := length_of_mapM_eq_ok hrs
  have hnil : cmd = [] ↔ rs = [] := by
    rw [← List.length_eq_zero_iff, ← hlength, List.length_eq_zero_iff]
  rw [← hlength] at hstages ⊢
  rw [← Relation.steps_iff_exists_states, ne_eq, hnil]
  cases rs with
  | nil => simp [composeAll, relates_frame_nil_iff]
  | cons r rs =>
    have hsum : (rs.map (·.nextStage.val + 1)).sum =
        (rs.map (·.nextStage.val)).sum + rs.length := by
      rw [List.sum_map_add]
      simp
    rw [List.map_cons, List.sum_cons, List.length_cons] at hstages
    have hbound : r.nextStage.val + (rs.map (·.nextStage.val + 1)).sum ≤ Stage.limit := by omega
    simp [composeAll, Relation.relates_foldl_compose_iff hbound]

/-- A command that twice adds to `x` what `x` is at a stage of the primitive. The two amounts may
differ, though both primitives call their stage zero: the command leads from 0 through 1 to 3. -/
theorem relates_commandRelation_iff_own_stages :
    let I : Interpretation := ⟨fun _ => 0, 0, fun _ _ => false, fun _ _ => 0, fun _ _ => false⟩
    let scope : Scope := .ofList [("x", .int)]
    let sum : IntExpr MarkedVar :=
      .arith .add [.var ⟨.before, "x"⟩, .var ⟨.intermediate .zero, "x"⟩]
    let move : Primitive := ⟨"IAssign", [.int (.var ⟨.after, "x"⟩), .int sum]⟩
    let state (n : Int) : Valuation Var := ⟨fun _ => n, fun _ => false⟩
    ∃ r rs, core.commandRelation scope [move, move] = .ok r ∧
      [move, move].mapM (core.primitiveRelation scope) = .ok rs ∧
      (rs.map (·.nextStage.val)).sum + 2 ≤ Stage.limit ∧
      r.Relates I (state 0) (state 0) (state 3) := by
  intro I scope sum move state
  have hok : (core.commandRelation scope [move, move]).map (fun _ => ()) = .ok () := by
    decide +kernel
  obtain ⟨r, hr, -⟩ := map_eq_ok.mp hok
  obtain ⟨rs, hrs, hiff⟩ := relates_commandRelation_iff hr
  have hstages : ([move, move].mapM (core.primitiveRelation scope)).map (fun rs =>
      decide ((rs.map (·.nextStage.val)).sum + 2 ≤ Stage.limit)) = .ok true := by
    decide +kernel
  rw [hrs] at hstages
  have hbound := of_decide_eq_true (Except.ok.inj hstages)
  have hmove (n k : Int) (p : Relation) (hp : p ∈ rs)
      (htrue : (core.primitiveRelation scope move).map (fun p =>
        p.eval I (Relation.moments (state n) (state (n + k)) (state 0) fun _ => state k)) =
          .ok true) :
      p.Relates I (state 0) (state n) (state (n + k)) := by
    obtain ⟨a, ha, hap⟩ := (mapM_eq_ok hrs).2 p hp
    obtain rfl : a = move := by simpa using ha
    rw [hap] at htrue
    exact ⟨_, Except.ok.inj htrue⟩
  refine ⟨r, rs, hr, hrs, hbound, ((hiff hbound I _ _ _).2 (by simp)).mpr ?_⟩
  refine ⟨fun i => if i = 0 then state 0 else if i = 1 then state 1 else state 3, rfl, rfl, ?_⟩
  intro i hi
  have hlength : rs.length = 2 := length_of_mapM_eq_ok hrs
  obtain rfl | rfl : i = 0 ∨ i = 1 := by omega
  · exact hmove 0 1 _ (List.getElem_mem hi) (by decide +kernel)
  · exact hmove 1 2 _ (List.getElem_mem hi) (by decide +kernel)

end Semantics

end ViewLogic
