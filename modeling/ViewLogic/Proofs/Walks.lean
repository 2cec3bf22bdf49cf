import Mathlib.Computability.Language
import ViewLogic.Flow.Lowering

/-!
# Walks through a graph

The sequences of commands along the walks from one node to another form a language. Taking the first
arc of every walk gives a linear equation for it, and a part of the graph that can only be left
through one node splits off as a factor. So the walks through a graph can be computed in the algebra
of languages.
-/

namespace ViewLogic

variable {ν μ : Type}

/-- A walk to a node, given by its first node and the commands on its way. -/
inductive Walk (step : ν → Command → ν → Prop) (target : ν) : ν → List Command → Prop where
  | refl : Walk step target target []
  | cons {u v : ν} {cmd : Command} {w : List Command} (hstep : step u cmd v)
      (rest : Walk step target v w) : Walk step target u (cmd :: w)

/-- The sequences of commands along the walks from one node to another. -/
def walks (step : ν → Command → ν → Prop) (u v : ν) : Language Command := {w | Walk step v u w}

/-- The language of one command. -/
def Command.traces (cmd : Command) : Language Command := {[cmd]}

/-- The only trace of a command is the command itself. -/
theorem Command.mem_traces {cmd : Command} {w : List Command} : w ∈ cmd.traces ↔ w = [cmd] :=
  Iff.rfl

/-- Walks can be joined where one ends and the other starts. -/
theorem Walk.append {step : ν → Command → ν → Prop} {u v x : ν} {w w' : List Command}
    (h : Walk step x u w) (h' : Walk step v x w') : Walk step v u (w ++ w') := by
  induction h with
  | refl => exact h'
  | cons hstep _ ih => exact .cons hstep ih

/-- A walk along some steps is a walk along any that include them. -/
theorem Walk.mono {step step' : ν → Command → ν → Prop} {u v : ν} {w : List Command}
    (h : Walk step v u w) (hsub : ∀ u cmd v, step u cmd v → step' u cmd v) : Walk step' v u w := by
  induction h with
  | refl => exact .refl
  | cons hstep _ ih => exact .cons (hsub _ _ _ hstep) ih

/-- Other names for the nodes leave the walks as they are. -/
theorem walks_map {step : ν → Command → ν → Prop} {step' : μ → Command → μ → Prop} {f : ν → μ}
    (hf : Function.Injective f)
    (hstep : ∀ u cmd y, step' (f u) cmd y ↔ ∃ v, y = f v ∧ step u cmd v) (u v : ν) :
    walks step' (f u) (f v) = walks step u v := by
  ext w
  constructor
  · intro h
    generalize hx : f u = x at h
    induction h generalizing u with
    | refl =>
      obtain rfl := hf hx
      exact .refl
    | cons hfirst _ ih =>
      subst hx
      obtain ⟨y, rfl, hy⟩ := (hstep _ _ _).mp hfirst
      exact .cons hy (ih y rfl)
  · intro h
    induction h with
    | refl => exact .refl
    | cons hfirst _ ih => exact .cons ((hstep _ _ _).mpr ⟨_, rfl, hfirst⟩) ih

namespace Arc

/-- The walks along a list of arcs. -/
def walks (arcs : List Arc) (u v : Nat) : Language Command :=
  ViewLogic.walks (fun u cmd v => ⟨u, v, cmd⟩ ∈ arcs) u v

variable {arcs inner : List Arc} {u v exit : Nat}

/-- A walk ends at once or goes along an arc first. -/
theorem walks_eq (arcs : List Arc) (u v : Nat) :
    walks arcs u v = (if u = v then 1 else 0) +
      ((arcs.filter (·.src = u)).map fun arc => arc.cmd.traces * walks arcs arc.dest v).sum := by
  have hsum (l : List Arc) (w : List Command) :
      w ∈ (l.map fun arc => arc.cmd.traces * walks arcs arc.dest v).sum ↔
        ∃ arc ∈ l, ∃ w' ∈ walks arcs arc.dest v, arc.cmd :: w' = w := by
    induction l with
    | nil => simp
    | cons arc l ih =>
      simp [Language.mem_add, Language.mem_mul, Command.mem_traces, ih]
  ext w
  rw [Language.mem_add, hsum]
  constructor
  · intro h
    cases h with
    | refl => simp
    | cons hstep rest => exact .inr ⟨_, List.mem_filter.mpr ⟨hstep, by simp⟩, _, rest, rfl⟩
  · rintro (h | ⟨arc, harc, w', hw', rfl⟩)
    · split at h
      next heq =>
        obtain rfl : w = [] := h
        rw [heq]
        exact Walk.refl
      next => cases h
    · obtain ⟨hmem, hsrc⟩ := List.mem_filter.mp harc
      obtain rfl : arc.src = u := by simpa using hsrc
      exact .cons hmem hw'

/-- Walks that enter a part of the graph leave it through its exit, if it has no other one. -/
theorem walks_through {N : Set Nat} (hsub : inner ⊆ arcs)
    (hinside : ∀ arc ∈ arcs, arc.src ∈ N → arc.src ≠ exit → arc ∈ inner ∧ arc.dest ∈ N)
    (hu : u ∈ N) (hv : v ∈ N → v = exit) :
    walks arcs u v = walks inner u exit * walks arcs exit v := by
  ext w
  rw [Language.mem_mul]
  constructor
  · intro h
    induction h with
    | refl =>
      obtain rfl := hv hu
      exact ⟨[], .refl, [], .refl, rfl⟩
    | @cons u y cmd w hstep rest ih =>
      by_cases hexit : u = exit
      · subst hexit
        exact ⟨[], .refl, cmd :: w, .cons hstep rest, rfl⟩
      · obtain ⟨harc, hy⟩ := hinside _ hstep hu hexit
        obtain ⟨w₁, hw₁, w₂, hw₂, rfl⟩ := ih hy
        exact ⟨cmd :: w₁, .cons harc hw₁, w₂, hw₂, rfl⟩
  · rintro ⟨w₁, hw₁, w₂, hw₂, rfl⟩
    exact Walk.append (hw₁.mono fun _ _ _ harc => hsub harc) hw₂

/-- Walks stay in a part of the graph that has no exit. -/
theorem walks_inside {N : Set Nat} (hsub : inner ⊆ arcs)
    (hinside : ∀ arc ∈ arcs, arc.src ∈ N → arc ∈ inner ∧ arc.dest ∈ N) (hu : u ∈ N) :
    walks arcs u v = walks inner u v := by
  ext w
  constructor
  · intro h
    induction h with
    | refl => exact .refl
    | cons hstep _ ih =>
      obtain ⟨harc, hy⟩ := hinside _ hstep hu
      exact .cons harc (ih hy)
  · intro h
    exact h.mono fun _ _ _ harc => hsub harc

/-- Walks through one part of a graph and then through another that has no way back. -/
theorem walks_append {part tail : List Arc} {P Q : Set Nat} {mid : Nat}
    (hpart : ∀ arc ∈ part, arc.src ∈ P ∧ (arc.dest = mid ∨ arc.dest ∈ P))
    (htail : ∀ arc ∈ tail, arc.src ∈ Q ∧ arc.dest ∈ Q) (houtside : ∀ n ∈ P, n ∉ Q)
    (hmid : mid ∈ Q) (hu : u ∈ P) (hv : v ∈ Q) :
    walks (part ++ tail) u v = walks part u mid * walks tail mid v := by
  have hthrough : walks (part ++ tail) u v = walks part u mid * walks (part ++ tail) mid v := by
    apply walks_through (N := insert mid P) (List.subset_append_left part tail)
    · intro arc harc hsrc hexit
      rcases List.mem_append.mp harc with hmem | hmem
      · exact ⟨hmem, (hpart arc hmem).2⟩
      · exact absurd (htail arc hmem).1 (houtside _ (hsrc.resolve_left hexit))
    · exact .inr hu
    · exact fun h => h.resolve_right fun hP => houtside v hP hv
  have hinside : walks (part ++ tail) mid v = walks tail mid v := by
    apply walks_inside (List.subset_append_right part tail) _ hmid
    intro arc harc hsrc
    rcases List.mem_append.mp harc with hmem | hmem
    · exact absurd hsrc (houtside _ (hpart arc hmem).1)
    · exact ⟨hmem, (htail arc hmem).2⟩
  rw [hthrough, hinside]

end Arc

end ViewLogic
