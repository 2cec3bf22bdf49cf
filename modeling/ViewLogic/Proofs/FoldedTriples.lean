import ViewLogic.Proofs.Modelling
import ViewLogic.Proofs.Preservation

/-!
# The triples of a folded graph

Folding the edges that do nothing keeps the triples of all other edges as they are: a node is merged
only with nodes that hold the same. A triple that is lost has the same matches before and after the
empty command, and this changes no declared variable, so its obligations are valid whatever the
definitions say.
-/

namespace ViewLogic

/-! ### The folded graph -/

namespace Flow

variable {g : Flow}

/-- An edge survives folding unless it is foldable. -/
theorem contains_edges_fold {name : String} {e : Edge} (h : g.edges.get? name = some e) :
    g.fold.edges.contains name = !g.foldable e := by
  obtain ⟨π, -, hedges⟩ := g.exists_folded_fold
  rw [SortedMap.contains, hedges, h, Option.bind_some]
  cases g.foldable e <;> rfl

end Flow

namespace Graph

/-- Folds the edges of a graph that do nothing. -/
def fold (g : Graph) : Graph := ⟨g.name, g.flow.fold, g.flow.dangling_fold.trans g.closed⟩

/-- The folded flow of a graph is a graph again. -/
theorem ofFlow_fold (g : Graph) : ofFlow g.name g.flow.fold = .ok g.fold :=
  ofFlow_of_dangling (g.flow.dangling_fold.trans g.closed)

/-- The edges that folding leaves out are those that do nothing between nodes that hold the same. -/
theorem contains_edges_fold_iff (g : Graph) {name : String} {e : Edge}
    (h : g.flow.edges.get? name = some e) :
    g.flow.fold.edges.contains name = false ↔
      e.cmd = [] ∧ g.flow.nodes.get? e.src = g.flow.nodes.get? e.dest := by
  obtain ⟨src, dest, hsrc, hdest⟩ := g.exists_ends h
  rw [Flow.contains_edges_fold h, Bool.not_eq_false', Flow.foldable_iff, hsrc, hdest]
  simp [eq_comm]

/-- The triples of a folded graph are those of the graph whose edges survive. -/
theorem triples_fold (g : Graph) (patterns : List Pattern) :
    g.fold.triples patterns =
      (g.triples patterns).filter fun t => g.flow.fold.edges.contains t.name := by
  obtain ⟨π, hnodes, hedges⟩ := g.flow.exists_folded_fold
  have hentries : g.fold.flow.edges.entries = _ := SortedMap.entries_eq_filterMap hedges
  rw [triples, triples, hentries, List.filterMap_filterMap, List.filter_filterMap]
  refine List.filterMap_congr fun entry hentry => ?_
  obtain ⟨name, e⟩ := entry
  have he : g.flow.edges.get? name = some e := SortedMap.get?_eq_some_iff.mpr hentry
  have hkept := Flow.contains_edges_fold he
  obtain ⟨src, dest, hsrc, hdest⟩ := g.exists_ends he
  cases hfold : g.flow.foldable e with
  | true => simp [hfold, hsrc, hdest, hkept, Option.filter]
  | false =>
    simp [hfold, hsrc, hdest, hkept, Option.filter, fold, Edge.rename, hnodes]

end Graph

/-! ### The triples that are lost -/

namespace Obligation.Context

variable {ctx : Context}

/-- The empty command assumes nothing and keeps every variable. -/
theorem commandParts_nil : ctx.commandParts [] = .ok (none, Semantics.frame ctx.scope []) := by
  unfold commandParts
  cases ctx.options.foldAssumes <;> rfl

/-- A command that does nothing leads from matches to the same matches. -/
theorem valid_of_nop {t : Triple} {os : List Obligation}
    (hglobals : ∀ x ty, ctx.globals.get? x = some ty → ctx.scope.get? x = some ty)
    (hcmd : t.cmd = []) (hsame : t.pre = t.post) (hos : ctx.obligations t = .ok os) :
    ∀ o ∈ os, ∀ I, o.Valid I := by
  obtain ⟨held, parts, goals, hheld, hparts, hgoals, rfl⟩ := obligations_eq_ok.mp hos
  rw [hcmd, commandParts_nil] at hparts
  cases hparts
  intro o ho I ρ hpre hrelation
  obtain ⟨n, hn, rfl⟩ := List.mem_mapIdx.mp ho
  dsimp only at hpre hrelation ⊢
  have hframe : (Semantics.frame ctx.scope []).eval I ρ = true := by
    split at hrelation
    · exact Semantics.eval_forgetSymbols_frame.mp hrelation
    · exact hrelation
  have hagree : ctx.scope.Agree (ρ.stateAt .before) (ρ.stateAt .after) :=
    Semantics.eval_frame_nil.mp hframe
  have hshows : ctx.Shows ρ .before (ρ.stateAt .after) := ⟨hagree.mono hglobals, hagree⟩
  have hgoal : ∀ goal ∈ goals, goal.eval I ρ = true := by
    intro goal hmem
    obtain ⟨v, hv, hinst⟩ := (mapM_eq_ok hgoals).2 goal hmem
    obtain ⟨r, hr, hinst'⟩ := (mapM_eq_ok hheld).1 v (hsame ▸ hv)
    have hbefore : r.eval I ρ = true := BoolExpr.eval_all_eq_true I ρ |>.mp hpre r hr
    rw [eval_instantiate (ctx.shows_stateAt ρ .after) hinst]
    exact (eval_instantiate hshows hinst').mp hbefore
  have hall : ∀ goal ∈ if goals.isEmpty then [.lit true] else goals, goal.eval I ρ = true := by
    split
    next => simp [BoolExpr.eval]
    next => exact hgoal
  exact hall _ (List.getElem_mem hn)

end Obligation.Context

namespace Graph

/-- Folding hides no obligation that fails. A folded graph is a graph; its triples are those of the
edges that survive, just as they were; the edges that are lost are those that do nothing between
nodes that hold the same; and every obligation that can be built for a lost triple is valid. -/
theorem fold_hides_no_failing_obligation (g : Graph) (patterns : List Pattern) :
    ofFlow g.name g.flow.fold = .ok g.fold ∧
      g.fold.triples patterns =
        (g.triples patterns).filter (fun t => g.flow.fold.edges.contains t.name) ∧
      (∀ name e, g.flow.edges.get? name = some e →
        (g.flow.fold.edges.contains name = false ↔
          e.cmd = [] ∧ g.flow.nodes.get? e.src = g.flow.nodes.get? e.dest)) ∧
      ∀ t ∈ g.triples patterns, g.flow.fold.edges.contains t.name = false →
        t.cmd = [] ∧ t.pre = t.post ∧
          ∀ (globals locals scope : Scope) (definitions : List Definition) (semantics : Semantics)
            (options : Options) (os : List Obligation), globals.merge locals = .ok scope →
            Obligation.Context.obligations ⟨globals, scope, definitions, semantics, options⟩ t =
              .ok os →
            ∀ o ∈ os, ∀ I, o.Valid I := by
  refine ⟨g.ofFlow_fold, g.triples_fold patterns, fun _ _ => g.contains_edges_fold_iff, ?_⟩
  intro t ht hlost
  obtain ⟨e, src, dest, he, hsrc, hdest, heq⟩ := mem_triples.mp ht
  obtain ⟨hcmd, hends⟩ := (g.contains_edges_fold_iff he).mp hlost
  rw [hsrc, hdest] at hends
  cases hends
  have hnop : t.cmd = [] := by rw [heq, hcmd]
  have hsame : t.pre = t.post := by rw [heq]
  refine ⟨hnop, hsame, ?_⟩
  intro globals locals scope definitions semantics options os hscope hos
  exact Obligation.Context.valid_of_nop (fun _ _ => Scope.get?_of_merge hscope) hnop hsame hos

/-- Two edges in a row are folded into one node, and a third one stays, as it leads to a node that
holds nothing. The second of the lost edges has an obligation, and this is valid. -/
theorem fold_hides_no_failing_obligation_chain :
    let shape : Pattern := .atom ⟨"V", [⟨.int, "a"⟩]⟩
    let held : Bag (Held Var) := .ofList [⟨.var "b", ⟨"V", [.int (.var "x")]⟩⟩]
    let flow : Flow :=
      ⟨.ofList [("m", held), ("n", held), ("o", held), ("p", ∅)],
        .ofList [("e", ⟨"m", "n", []⟩), ("f", ⟨"n", "o", []⟩), ("g", ⟨"o", "p", []⟩)]⟩
    let globals : Scope := .ofList [("y", .int)]
    let scope : Scope := .ofList [("b", .bool), ("x", .int), ("y", .int)]
    let ctx : Obligation.Context :=
      ⟨globals, scope, [⟨shape, some (.cmp .lt (.var "a") (.var "y"))⟩], .core, .standard⟩
    ∃ (g : Graph) (t : Triple) (os : List Obligation), g.flow = flow ∧
      t ∈ g.triples [shape] ∧ t.name = "f" ∧ (g.fold.triples [shape]).map (·.name) = ["g"] ∧
      ctx.obligations t = .ok os ∧ os.length = 1 ∧ ∀ o ∈ os, ∀ I, o.Valid I := by
  intro shape held flow globals scope ctx
  let g : Graph := ⟨"m", flow, by decide +kernel⟩
  let t : Triple := ⟨"f", reify held [shape], [], reify held [shape]⟩
  have ht : t ∈ g.triples [shape] := by decide +kernel
  have hlost : g.flow.fold.edges.contains t.name = false := by decide +kernel
  have hkept : (g.fold.triples [shape]).map (·.name) = ["g"] := by decide +kernel
  have hscope : globals.merge (.ofList [("b", .bool), ("x", .int)]) = .ok scope := by decide +kernel
  have hlength : (ctx.obligations t).map List.length = .ok 1 := by decide +kernel
  obtain ⟨os, hos, hone⟩ := map_eq_ok.mp hlength
  obtain ⟨-, -, -, hvalid⟩ := g.fold_hides_no_failing_obligation [shape]
  exact ⟨g, t, os, rfl, ht, rfl, hkept, hos, hone,
    (hvalid t ht hlost).2.2 _ _ _ _ _ _ os hscope hos⟩

end Graph

end ViewLogic
