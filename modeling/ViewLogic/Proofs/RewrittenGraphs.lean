import ViewLogic.Proofs.MethodGraphs

/-!
# Rewritten graphs

Merging two nodes renames the ends of edges, and folding leaves out edges, but neither gives an edge
an end that it lacks or takes one away. So a flow can be rewritten in any way before it is made a
graph: whether this succeeds, and which edge and which end the error names, is the same as at the
start. In a graph every edge has both ends, whichever nodes are merged, and so every edge has its
triple.
-/

namespace ViewLogic

/-- A step that rewrites a flow. -/
inductive Rewriting where
  | merge (s t : String)
  | fold

/-- The flow after a step. -/
def Rewriting.apply (g : Flow) : Rewriting → Flow
  | merge s t => g.merge s t
  | fold => g.fold

/-- The flow after several steps. -/
def Flow.rewrite (g : Flow) (steps : List Rewriting) : Flow := steps.foldl Rewriting.apply g

/-- The graph after several merges. -/
def Graph.mergeAll (g : Graph) (pairs : List (String × String)) : Graph :=
  pairs.foldl (fun g pair => g.merge pair.1 pair.2) g

/-! ### The first missing end -/

namespace Flow

/-- An edge is the first one, in the order of the names, that lacks an end, and this is the end that
it lacks. The source is named if both are missing. -/
def FirstMissing (g : Flow) (name node : String) : Prop :=
  ∃ e, g.edges.get? name = some e ∧ g.nodes.contains node = false ∧
    (node = e.src ∨ g.nodes.contains e.src = true ∧ node = e.dest) ∧
    ∀ name' e', g.edges.get? name' = some e' → compare name' name = .lt →
      g.nodes.contains e'.src = true ∧ g.nodes.contains e'.dest = true

/-- The end that an edge misses is no node: its source, or else its destination. -/
theorem missingEnd_eq_some_iff {nodes : SortedMap String (Bag (Held Var))} {e : Edge}
    {node : String} :
    e.missingEnd nodes = some node ↔ nodes.contains node = false ∧
      (node = e.src ∨ nodes.contains e.src = true ∧ node = e.dest) := by
  unfold Edge.missingEnd
  cases hsrc : nodes.contains e.src with
  | false => grind
  | true => cases hdest : nodes.contains e.dest <;> grind

/-- The edge and the end that are found missing are the first ones. -/
theorem dangling_eq_some_iff {g : Flow} {name node : String} :
    g.dangling = some (name, node) ↔ g.FirstMissing name node := by
  have hends (e : Edge) : e.missingEnd g.nodes = none ↔
      g.nodes.contains e.src = true ∧ g.nodes.contains e.dest = true := by
    simp [Edge.missingEnd_eq_none_iff, SortedMap.contains, Option.isSome_iff_exists]
  simp only [dangling, SortedMap.findSome?_entries_eq_some_iff, Option.map_eq_some_iff,
    Option.map_eq_none_iff, Prod.mk.injEq, hends]
  constructor
  · rintro ⟨name, e, he, ⟨node, hnode, rfl, rfl⟩, hbefore⟩
    obtain ⟨hmissing, hend⟩ := missingEnd_eq_some_iff.mp hnode
    exact ⟨e, he, hmissing, hend, hbefore⟩
  · rintro ⟨e, he, hmissing, hend, hbefore⟩
    exact ⟨name, e, he, ⟨node, missingEnd_eq_some_iff.mpr ⟨hmissing, hend⟩, rfl, rfl⟩, hbefore⟩

/-! ### Steps -/

/-- A rewriting step neither adds nor removes an end that is no node. -/
theorem dangling_apply (g : Flow) (step : Rewriting) : (step.apply g).dangling = g.dangling := by
  cases step with
  | merge s t => exact g.dangling_merge s t
  | fold => exact g.dangling_fold

/-- Any number of steps keep the first edge without an end, and which end it lacks. -/
theorem dangling_rewrite (g : Flow) (steps : List Rewriting) :
    (g.rewrite steps).dangling = g.dangling := by
  induction steps generalizing g with
  | nil => rfl
  | cons step steps ih => exact (ih (step.apply g)).trans (g.dangling_apply step)

/-- Merging nodes keeps the names of the edges. -/
theorem keys_edges_merge (g : Flow) (s t : String) :
    (g.merge s t).edges.keys = g.edges.keys := by
  unfold merge
  split
  next => rfl
  next =>
    split
    next => rfl
    next => simp [SortedMap.keys, SortedMap.map]

end Flow

/-! ### Graphs of rewritten flows -/

namespace Graph

/-- A flow is a graph exactly if every edge leads between nodes. -/
theorem exists_ofFlow?_iff {name : String} {f : Flow} :
    (∃ g, ofFlow? name f = some g) ↔ f.dangling = none := by
  unfold ofFlow?
  by_cases h : f.dangling = none <;> simp [h]

/-- The graph of a flow has that flow. -/
theorem flow_of_ofFlow? {name : String} {f : Flow} {g : Graph} (h : ofFlow? name f = some g) :
    g.flow = f := by
  unfold ofFlow? at h
  split at h
  · cases h
    rfl
  · cases h

/-- A flow is refused exactly if an edge misses an end, and then with the first such edge. -/
theorem ofFlow_eq_error_iff {name : String} {f : Flow} {err : Error} :
    ofFlow name f = .error err ↔
      ∃ edge node, f.dangling = some (edge, node) ∧ err = .missingNode name edge node := by
  unfold ofFlow
  split
  next hnone => simp [hnone]
  next edge node hsome => simp [hsome, eq_comm]

/-- Merging nodes keeps the names of all edges. -/
theorem keys_edges_mergeAll (g : Graph) (pairs : List (String × String)) :
    (g.mergeAll pairs).flow.edges.keys = g.flow.edges.keys := by
  induction pairs generalizing g with
  | nil => rfl
  | cons pair pairs ih =>
    exact (ih (g.merge pair.1 pair.2)).trans (g.flow.keys_edges_merge pair.1 pair.2)

/-- A graph has one triple for every edge, under the name of the edge and in the same order. -/
theorem map_name_triples (g : Graph) (patterns : List Pattern) :
    (g.triples patterns).map (·.name) = g.flow.edges.keys := by
  rw [triples, List.map_filterMap, SortedMap.keys, ← List.filterMap_eq_map]
  refine List.filterMap_congr fun entry hentry => ?_
  obtain ⟨src, dest, hsrc, hdest⟩ := g.exists_ends (SortedMap.get?_eq_some_iff.mpr hentry)
  simp [hsrc, hdest]

end Graph

/-- Rewriting keeps what is missing from a flow, whether or not something is: neither a merge nor a
fold changes the first edge without an end or the end that it lacks. Hence after any steps a flow
has a graph if and only if it had one at the start, and otherwise the error names what was missing
at the start. A graph whose nodes are merged in any way has one triple for every edge. -/
theorem Flow.rewriting_keeps_missing_end (g : Flow) :
    (∀ s t, (g.merge s t).dangling = g.dangling) ∧ g.fold.dangling = g.dangling ∧
      (∀ steps name,
        ((∃ graph, Graph.ofFlow? name (g.rewrite steps) = some graph) ↔
          ∃ graph, Graph.ofFlow? name g = some graph) ∧
        ∀ err, Graph.ofFlow name (g.rewrite steps) = .error err ↔
          ∃ edge node, g.FirstMissing edge node ∧ err = .missingNode name edge node) ∧
      ∀ name graph, Graph.ofFlow? name g = some graph → ∀ pairs patterns,
        (graph.mergeAll pairs).flow.edges.keys = g.edges.keys ∧
          ((graph.mergeAll pairs).triples patterns).map (·.name) =
            (graph.mergeAll pairs).flow.edges.keys ∧
          ∀ t ∈ (graph.mergeAll pairs).triples patterns,
            (graph.mergeAll pairs).flow.HasTriple patterns t := by
  refine ⟨g.dangling_merge, g.dangling_fold, fun steps name => ⟨?_, fun err => ?_⟩, ?_⟩
  · rw [Graph.exists_ofFlow?_iff, Graph.exists_ofFlow?_iff, g.dangling_rewrite]
  · rw [Graph.ofFlow_eq_error_iff, g.dangling_rewrite]
    simp only [dangling_eq_some_iff]
  · intro name graph hgraph pairs patterns
    refine ⟨?_, Graph.map_name_triples _ patterns, fun t ht => Graph.mem_triples.mp ht⟩
    rw [Graph.keys_edges_mergeAll, Graph.flow_of_ofFlow? hgraph]

/-- Folding `a` and merging nodes, one of them into a name that is no node, leaves the missing end
of `b` the first one; the ends of `c` are missing too. Without `b` and `c` there is a graph, and two
merges make both edges loops of its last node. -/
theorem Flow.rewriting_keeps_missing_end_loops :
    let held : Bag (Held Var) := .ofList [⟨.lit true, ⟨"V", []⟩⟩]
    let closed : Flow :=
      ⟨.ofList [("m", held), ("n", held), ("o", ∅)],
        .ofList [("a", ⟨"m", "n", []⟩), ("d", ⟨"n", "o", [⟨"P", []⟩]⟩)]⟩
    let gapped : Flow :=
      ⟨closed.nodes, (closed.edges.insert "b" ⟨"n", "x", []⟩).insert "c" ⟨"y", "z", []⟩⟩
    (∃ graph, Graph.ofFlow? "g" closed = some graph ∧
      ((graph.mergeAll [("o", "m"), ("o", "n")]).triples []).map (·.name) = ["a", "d"]) ∧
      Graph.ofFlow "g" (gapped.rewrite [.merge "x" "m", .fold, .merge "o" "m"]) =
        .error (.missingNode "g" "b" "x") := by
  intro held closed gapped
  obtain ⟨-, -, -, htriples⟩ := rewriting_keeps_missing_end closed
  obtain ⟨-, -, hsteps, -⟩ := rewriting_keeps_missing_end gapped
  have hclosed : closed.dangling = none := by decide +kernel
  have hkeys : closed.edges.keys = ["a", "d"] := by decide +kernel
  have hfirst : gapped.dangling = some ("b", "x") := by decide +kernel
  constructor
  · obtain ⟨graph, hgraph⟩ := Graph.exists_ofFlow?_iff.mpr hclosed
    obtain ⟨hmerged, hnames, -⟩ := htriples "g" graph hgraph [("o", "m"), ("o", "n")] []
    exact ⟨graph, hgraph, hnames.trans (hmerged.trans hkeys)⟩
  · exact ((hsteps _ "g").2 _).mpr ⟨"b", "x", dangling_eq_some_iff.mp hfirst, rfl⟩

end ViewLogic
