import ViewLogic.Flow
import ViewLogic.Proofs.Entries

/-!
# Folding edges that do nothing

Folding an edge merges two nodes that hold the same, so what a node holds survives under the name
that the node is merged into. The invariant of the pass names the folded edges: every other edge is
still there, with its ends renamed.
-/

namespace ViewLogic

/-- An edge with its ends renamed. -/
def Edge.rename (π : String → String) (e : Edge) : Edge := ⟨π e.src, π e.dest, e.cmd⟩

namespace Flow

/-- The name of a node once `t` is merged into `s`. -/
def redirect (s t x : String) : String := if x = t then s else x

/-- Redirecting a node to itself changes no node. -/
theorem redirect_self (s x : String) : redirect s s x = x := by
  unfold redirect
  split
  next h => exact h.symm
  next => rfl

variable {g g' : Flow} {s t : String} {held : Bag (Held Var)}

/-- Merging a node with itself changes nothing. -/
theorem merge_self (g : Flow) (s : String) : g.merge s s = g := if_pos (.inl rfl)

/-- Merging two nodes that hold the same removes one of them and redirects its edges to the
other. -/
theorem merge_of_ne (hne : s ≠ t) (hs : g.nodes.get? s = some held)
    (ht : g.nodes.get? t = some held) :
    g.merge s t = ⟨(g.nodes.erase t).insert s held, g.edges.map (Edge.retarget s t)⟩ := by
  have hcontains : g.nodes.contains s = true := by simp [SortedMap.contains, hs]
  simp [merge, hne, hcontains, ht]

/-- Merging two nodes that hold the same keeps what every node holds. -/
theorem get?_nodes_merge (hs : g.nodes.get? s = some held) (ht : g.nodes.get? t = some held)
    (x : String) : (g.merge s t).nodes.get? (redirect s t x) = g.nodes.get? x := by
  by_cases hst : s = t
  · rw [← hst, merge_self, redirect_self]
  · rw [merge_of_ne hst hs ht]
    simp only [SortedMap.get?_insert, SortedMap.get?_erase, Std.LawfulEqCmp.compare_eq_iff_eq]
    by_cases hxt : x = t
    · simp [redirect, hxt, ht]
    · by_cases hxs : x = s
      · simp [redirect, hxs, hst, hs]
      · simp [redirect, hxt, hxs]

/-- Merging two nodes renames the ends of every edge. -/
theorem get?_edges_merge (hs : g.nodes.get? s = some held) (ht : g.nodes.get? t = some held)
    (name : String) :
    (g.merge s t).edges.get? name = (g.edges.get? name).map (Edge.rename (redirect s t)) := by
  by_cases hst : s = t
  · have hself : Edge.rename (redirect s s) = id := by
      funext e
      simp [Edge.rename, redirect_self]
    rw [← hst, merge_self, hself, Option.map_id_fun, id]
  · rw [merge_of_ne hst hs ht, SortedMap.get?_map]
    rfl

/-- A node of a merged flow was a node before, and it is not the one that is merged into another. -/
theorem of_contains_merge (hs : g.nodes.get? s = some held) (ht : g.nodes.get? t = some held)
    {n : String} (hn : (g.merge s t).nodes.contains n = true) :
    g.nodes.contains n = true ∧ redirect s t n = n := by
  by_cases hst : s = t
  · rw [← hst, merge_self] at hn
    rw [← hst]
    exact ⟨hn, redirect_self s n⟩
  · rw [merge_of_ne hst hs ht] at hn
    simp only [SortedMap.contains, SortedMap.get?_insert, SortedMap.get?_erase,
      Std.LawfulEqCmp.compare_eq_iff_eq] at hn ⊢
    by_cases hns : n = s
    · simp [hns, hs, redirect, hst]
    · by_cases hnt : n = t
      · simp [hnt, Ne.symm hst] at hn
      · simp only [hns, hnt, if_false] at hn
        exact ⟨hn, if_neg hnt⟩

/-- Merges two nodes and removes an edge. -/
def contract (g : Flow) (name s t : String) : Flow :=
  { g.merge s t with edges := (g.merge s t).edges.erase name }

/-- An edge is foldable exactly if it does nothing and its ends are nodes that hold the same. -/
theorem foldable_iff {e : Edge} :
    g.foldable e = true ↔
      e.cmd = [] ∧ ∃ held, g.nodes.get? e.src = some held ∧ g.nodes.get? e.dest = some held := by
  unfold foldable
  rw [Bool.and_eq_true, List.isEmpty_iff]
  refine and_congr_right fun _ => ?_
  split
  next held held' hsrc hdest =>
    rw [decide_eq_true_eq]
    constructor
    · rintro rfl
      exact ⟨held, hsrc, hdest⟩
    · rintro ⟨held'', h, h'⟩
      rw [hsrc] at h
      rw [hdest] at h'
      rw [Option.some.inj h, Option.some.inj h']
  next hnone =>
    simp only [Bool.false_eq_true, false_iff, not_exists, not_and]
    intro held hsrc hdest
    exact hnone held held hsrc hdest

/-- What a flow becomes when the foldable edges among `done` are folded: `π` gives each node the
name of the node that it is merged into. -/
structure Folded (g : Flow) (done : List String) (g' : Flow) (π : String → String) : Prop where
  nodes : ∀ n, g'.nodes.get? (π n) = g.nodes.get? n
  edges : ∀ name, g'.edges.get? name = (g.edges.get? name).bind fun e =>
    if name ∈ done ∧ g.foldable e = true then none else some (e.rename π)

namespace Folded

variable {done : List String} {π : String → String}

/-- Before any edge is folded, every node keeps its name. -/
theorem refl (g : Flow) : Folded g [] g id where
  nodes _ := rfl
  edges name := by
    cases g.edges.get? name <;> simp [Edge.rename]

/-- Renamed edges are foldable as they were. -/
theorem foldable_rename (h : Folded g done g' π) (e : Edge) :
    g'.foldable (e.rename π) = g.foldable e := by
  simp only [foldable, Edge.rename, h.nodes]

/-- An edge that is not foldable, or is folded already, needs no step. -/
theorem skip (h : Folded g done g' π) {name : String}
    (hdone : ∀ e, g.edges.get? name = some e → g.foldable e = true → name ∈ done) :
    Folded g (name :: done) g' π where
  nodes := h.nodes
  edges name' := by
    rw [h.edges name']
    cases he : g.edges.get? name' with
    | none => rfl
    | some e =>
      have hmem (hfold : g.foldable e = true) : name' ∈ name :: done ↔ name' ∈ done := by
        rw [List.mem_cons, or_iff_right_of_imp]
        rintro rfl
        exact hdone e he hfold
      simp only [Option.bind_some, and_congr_left hmem]

/-- Folding one more edge renames the ends of all others. -/
theorem contract (h : Folded g done g' π) {name : String} {e : Edge}
    (he : g.edges.get? name = some e) (hfold : g.foldable e = true) :
    Folded g (name :: done) (g'.contract name (π e.src) (π e.dest))
      fun n => redirect (π e.src) (π e.dest) (π n) := by
  obtain ⟨-, held, hsrc, hdest⟩ := foldable_iff.mp hfold
  rw [← h.nodes] at hsrc hdest
  constructor
  · intro n
    rw [← h.nodes n]
    exact get?_nodes_merge hsrc hdest (π n)
  · intro name'
    have hmerged := get?_edges_merge hsrc hdest name'
    rw [h.edges name'] at hmerged
    simp only [Flow.contract, SortedMap.get?_erase, Std.LawfulEqCmp.compare_eq_iff_eq]
    by_cases hne : name' = name
    · subst hne
      simp [he, hfold]
    · rw [if_neg hne, hmerged]
      cases g.edges.get? name' with
      | none => rfl
      | some e' =>
        simp only [Option.bind_some, List.mem_cons, hne, false_or]
        split <;> rfl

/-- What one step of the pass does: it folds an edge that was foldable from the start, or there is
no such edge left under the name and nothing changes. -/
theorem foldEdge_cases (h : Folded g done g' π) (name : String) :
    (∃ e, g.edges.get? name = some e ∧ g.foldable e = true ∧
        g'.foldEdge name = g'.contract name (π e.src) (π e.dest)) ∨
      ((∀ e, g.edges.get? name = some e → g.foldable e = true → name ∈ done) ∧
        g'.foldEdge name = g') := by
  have hedges := h.edges name
  unfold Flow.foldEdge
  split
  next e' he' =>
    rw [he'] at hedges
    obtain ⟨e, he, hkept⟩ := Option.bind_eq_some_iff.mp hedges.symm
    split at hkept
    next => cases hkept
    next =>
      cases hkept
      rw [h.foldable_rename]
      split
      next hfold => exact .inl ⟨e, he, hfold, rfl⟩
      next hfold =>
        refine .inr ⟨fun e'' he'' hfold'' => ?_, rfl⟩
        rw [he] at he''
        cases he''
        exact absurd hfold'' hfold
  next hnone =>
    refine .inr ⟨fun e he hfold => ?_, rfl⟩
    rw [hnone, he, Option.bind_some] at hedges
    split at hedges
    next hdone => exact hdone.1
    next => cases hedges

end Folded

/-- What the pass keeps: it is kept where an edge needs no step and where one more edge is
folded. -/
structure PassInvariant (g : Flow) (P : List String → Flow → (String → String) → Prop) : Prop where
  folded : ∀ {done g' π}, P done g' π → Folded g done g' π
  skip : ∀ {done g' π name}, P done g' π →
    (∀ e, g.edges.get? name = some e → g.foldable e = true → name ∈ done) → P (name :: done) g' π
  contract : ∀ {done g' π name e}, P done g' π → g.edges.get? name = some e →
    g.foldable e = true → P (name :: done) (g'.contract name (π e.src) (π e.dest))
      fun n => redirect (π e.src) (π e.dest) (π n)

namespace PassInvariant

variable {P : List String → Flow → (String → String) → Prop} {done : List String}
  {π : String → String}

/-- One step of the pass keeps what the pass keeps. -/
theorem foldEdge (hP : PassInvariant g P) (h : P done g' π) (name : String) :
    ∃ π', P (name :: done) (g'.foldEdge name) π' := by
  obtain ⟨e, he, hfold, heq⟩ | ⟨hdone, heq⟩ := (hP.folded h).foldEdge_cases name
  · rw [heq]
    exact ⟨_, hP.contract h he hfold⟩
  · rw [heq]
    exact ⟨π, hP.skip h hdone⟩

/-- All steps of the pass together keep what the pass keeps. -/
theorem foldl_foldEdge (hP : PassInvariant g P) (names : List String) (h : P done g' π) :
    ∃ π', P (names.reverse ++ done) (names.foldl Flow.foldEdge g') π' := by
  induction names generalizing done g' π with
  | nil => exact ⟨π, h⟩
  | cons name names ih =>
    obtain ⟨π', h'⟩ := hP.foldEdge h name
    simpa using ih h'

end PassInvariant

/-- The pass keeps what a flow becomes when foldable edges are folded. -/
theorem Folded.passInvariant (g : Flow) : PassInvariant g (Folded g) :=
  ⟨id, fun h hdone => h.skip hdone, fun h he hfold => h.contract he hfold⟩

/-- Any number of steps keep what the flow is folded to. -/
theorem Folded.foldl_foldEdge {done : List String} {π : String → String} (names : List String)
    (h : Folded g done g' π) :
    ∃ π', Folded g (names.reverse ++ done) (names.foldl Flow.foldEdge g') π' :=
  (Folded.passInvariant g).foldl_foldEdge names h

/-- Every edge of a partly folded flow is an edge of the flow with its ends renamed. -/
theorem Folded.exists_edge {done : List String} {π : String → String} (h : Folded g done g' π)
    {name : String} {e' : Edge} (he' : g'.edges.get? name = some e') :
    ∃ e, g.edges.get? name = some e ∧ e' = e.rename π := by
  rw [h.edges name] at he'
  obtain ⟨e, he, hkept⟩ := Option.bind_eq_some_iff.mp he'
  split at hkept
  · cases hkept
  · exact ⟨e, he, (Option.some.inj hkept).symm⟩

/-- What a reduced flow keeps: what the nodes hold, and every edge but foldable ones. -/
structure Reduces (g g' : Flow) (π : String → String) : Prop where
  nodes : ∀ n, g'.nodes.get? (π n) = g.nodes.get? n
  edges : ∀ name e, g.edges.get? name = some e →
    g.foldable e = true ∨ g'.edges.get? name = some (e.rename π)
  names : ∀ name e', g'.edges.get? name = some e' → ∃ e, g.edges.get? name = some e

/-- A folded flow is a reduced one. -/
theorem Folded.reduces {done : List String} {π : String → String} (h : Folded g done g' π) :
    Reduces g g' π where
  nodes := h.nodes
  edges name e he := by
    have hedges := h.edges name
    rw [he, Option.bind_some] at hedges
    by_cases hfold : g.foldable e = true
    · exact .inl hfold
    · exact .inr (by simpa [hfold] using hedges)
  names name e' he' := by
    obtain ⟨e, he, -⟩ := h.exists_edge he'
    exact ⟨e, he⟩

/-- Folding leaves out exactly the foldable edges and renames the ends of the others. -/
theorem exists_folded_fold (g : Flow) :
    ∃ π, (∀ n, g.fold.nodes.get? (π n) = g.nodes.get? n) ∧
      ∀ name, g.fold.edges.get? name = (g.edges.get? name).bind fun e =>
        if g.foldable e then none else some (e.rename π) := by
  obtain ⟨π, h⟩ := Folded.foldl_foldEdge g.edges.keys (Folded.refl g)
  refine ⟨π, h.nodes, fun name => (h.edges name).trans ?_⟩
  cases he : g.edges.get? name with
  | none => rfl
  | some e =>
    have hdone : name ∈ g.edges.keys := SortedMap.mem_keys_iff.mpr ⟨e, he⟩
    simp [hdone]

end Flow

end ViewLogic
