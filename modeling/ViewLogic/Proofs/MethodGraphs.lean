import Mathlib.Data.List.Basic
import ViewLogic.Model
import ViewLogic.Proofs.LoweredNodes
import ViewLogic.Proofs.NopFolding
import ViewLogic.Proofs.Outcomes

/-!
# The graphs of methods

No edge of a lowered method dangles, and folding edges that do nothing keeps the first edge that
dangles, if there is one. So a method has a graph as soon as its views fit their prototypes. The
triples of the graph are those of its edges: they have the names of the edges, and their two sides
are matches of views of the method.
-/

namespace ViewLogic

/-! ### Closed flows -/

/-- An edge misses no end exactly if both its ends are nodes. -/
theorem Edge.missingEnd_eq_none_iff {nodes : SortedMap String (Bag (Held Var))} {e : Edge} :
    e.missingEnd nodes = none ↔
      ∃ src dest, nodes.get? e.src = some src ∧ nodes.get? e.dest = some dest := by
  cases hsrc : nodes.get? e.src with
  | none => simp [missingEnd, SortedMap.contains, hsrc]
  | some src =>
    cases hdest : nodes.get? e.dest <;> simp [missingEnd, SortedMap.contains, hsrc, hdest]

/-- No edge of a flow is dangling exactly if both ends of each are nodes. -/
theorem Flow.dangling_eq_none_iff {g : Flow} :
    g.dangling = none ↔ ∀ name e, g.edges.get? name = some e →
      ∃ src dest, g.nodes.get? e.src = some src ∧ g.nodes.get? e.dest = some dest := by
  simp only [dangling, List.findSome?_eq_none_iff, Prod.forall, Option.map_eq_none_iff,
    Edge.missingEnd_eq_none_iff, SortedMap.get?_eq_some_iff]

/-- Both ends of an edge of a graph are nodes. -/
theorem Graph.exists_ends (g : Graph) {name : String} {e : Edge}
    (h : g.flow.edges.get? name = some e) :
    ∃ src dest, g.flow.nodes.get? e.src = some src ∧ g.flow.nodes.get? e.dest = some dest :=
  Flow.dangling_eq_none_iff.mp g.closed name e h

/-! ### Folding and missing nodes -/

namespace Flow

variable {g : Flow}

/-- A flow without one of its edges. -/
def eraseEdge (g : Flow) (name : String) : Flow := ⟨g.nodes, g.edges.erase name⟩

/-- It makes no difference whether an edge is removed before or after a merge. -/
theorem contract_eq_merge (g : Flow) (name s t : String) :
    g.contract name s t = (g.eraseEdge name).merge s t := by
  unfold contract merge eraseEdge
  by_cases hkept : s = t ∨ (!g.nodes.contains s) = true
  · simp only [if_pos hkept]
  · cases g.nodes.get? t with
    | none => simp only [if_neg hkept]
    | some held => simp only [if_neg hkept, SortedMap.erase_map]

/-- Removing an edge with both ends keeps the first edge without an end. -/
theorem dangling_eraseEdge {name : String} {e : Edge} (he : g.edges.get? name = some e)
    (hends : e.missingEnd g.nodes = none) : (g.eraseEdge name).dangling = g.dangling := by
  have hedges (name' : String) : (g.eraseEdge name).edges.get? name' =
      (g.edges.get? name').bind fun e' => if name' = name then none else some e' := by
    simp only [eraseEdge, SortedMap.get?_erase, Std.LawfulEqCmp.compare_eq_iff_eq]
    split <;> simp
  rw [dangling, dangling, ← List.head?_filterMap, ← List.head?_filterMap,
    SortedMap.entries_eq_filterMap hedges, List.filterMap_filterMap]
  congr 1
  refine List.filterMap_congr fun entry hentry => ?_
  by_cases hname : entry.1 = name
  · have hentry' : g.edges.get? entry.1 = some entry.2 := SortedMap.get?_eq_some_iff.mpr hentry
    rw [hname, he] at hentry'
    cases hentry'
    simp [hname, hends]
  · simp [hname, eraseEdge]

/-- A step of the pass keeps the first edge without an end, and which end it lacks. -/
theorem dangling_foldEdge (g : Flow) (name : String) : (g.foldEdge name).dangling = g.dangling := by
  unfold foldEdge
  split
  next e he =>
    split
    next hfold =>
      obtain ⟨-, held, hsrc, hdest⟩ := foldable_iff.mp hfold
      have hends : e.missingEnd g.nodes = none :=
        Edge.missingEnd_eq_none_iff.mpr ⟨held, held, hsrc, hdest⟩
      calc (g.contract name e.src e.dest).dangling
          = ((g.eraseEdge name).merge e.src e.dest).dangling := by rw [contract_eq_merge]
        _ = (g.eraseEdge name).dangling := dangling_merge _ _ _
        _ = g.dangling := dangling_eraseEdge he hends
    next => rfl
  next => rfl

/-- A pass over edges neither adds nor removes an end that is no node. -/
theorem dangling_foldl_foldEdge (names : List String) (g : Flow) :
    (names.foldl foldEdge g).dangling = g.dangling := by
  induction names generalizing g with
  | nil => rfl
  | cons name names ih => rw [List.foldl_cons, ih, dangling_foldEdge]

/-- Folding keeps the first edge without an end, and which end it lacks. -/
theorem dangling_fold (g : Flow) : g.fold.dangling = g.dangling :=
  dangling_foldl_foldEdge g.edges.keys g

end Flow

/-! ### Triples -/

/-- A triple is that of the edge of its name: it has the command of the edge between the matches of
what is held at the two ends. -/
def Flow.HasTriple (g : Flow) (patterns : List Pattern) (t : Triple) : Prop :=
  ∃ e src dest, g.edges.get? t.name = some e ∧
    g.nodes.get? e.src = some src ∧ g.nodes.get? e.dest = some dest ∧
    t = ⟨t.name, reify src patterns, e.cmd, reify dest patterns⟩

/-- The triples of a graph are those of its edges. -/
theorem Graph.mem_triples {g : Graph} {patterns : List Pattern} {t : Triple} :
    t ∈ g.triples patterns ↔ g.flow.HasTriple patterns t := by
  simp only [triples, List.mem_filterMap, Prod.exists, Option.bind_eq_bind,
    Option.bind_eq_some_iff, Option.some.injEq]
  constructor
  · rintro ⟨name, e, hmem, src, hsrc, dest, hdest, rfl⟩
    exact ⟨e, src, dest, SortedMap.get?_eq_some_iff.mpr hmem, hsrc, hdest, rfl⟩
  · rintro ⟨e, src, dest, hedge, hsrc, hdest, ht⟩
    exact ⟨t.name, e, SortedMap.get?_eq_some_iff.mp hedge, src, hsrc, dest, hdest, ht.symm⟩

/-- The triples of a graph have different names. -/
theorem Graph.eq_of_mem_triples {g : Graph} {patterns : List Pattern} {t t' : Triple}
    (ht : t ∈ g.triples patterns) (ht' : t' ∈ g.triples patterns) (hname : t.name = t'.name) :
    t = t' := by
  obtain ⟨e, src, dest, he, hsrc, hdest, heq⟩ := mem_triples.mp ht
  obtain ⟨e', src', dest', he', hsrc', hdest', heq'⟩ := mem_triples.mp ht'
  rw [← hname, he] at he'
  cases he'
  rw [hsrc] at hsrc'
  cases hsrc'
  rw [hdest] at hdest'
  cases hdest'
  rw [heq, heq', hname]

/-! ### Graphs of methods -/

/-- A flow without a dangling edge has a graph. -/
theorem Graph.ofFlow_of_dangling {name : String} {f : Flow} (h : f.dangling = none) :
    ofFlow name f = .ok ⟨name, f, h⟩ := by
  unfold ofFlow
  split
  next => rfl
  next hsome =>
    rw [h] at hsome
    cases hsome

/-- The flow of a method as it is modelled, with or without the edges that do nothing. -/
def Method.modelledFlow (m : Method) (options : Options) : Flow :=
  if options.foldNops then m.flow.fold else m.flow

/-- No edge of a lowered method dangles. -/
theorem Method.dangling_flow (m : Method) : m.flow.dangling = none := by
  rw [Flow.dangling_eq_none_iff]
  intro name e he
  obtain ⟨n, arc, harc, -, rfl⟩ := Fragment.get?_edges_toFlow.mp he
  obtain ⟨hsrc, hdest⟩ := Block.ends_lt_of_mem_lower (List.mem_of_getElem? harc)
  have hnode {k : Nat} (hk : k < m.body.lower.views.length) :
      m.flow.nodes.get? (nodeName m.name k) = some m.body.lower.views[k].held :=
    Fragment.get?_nodes_toFlow.mpr ⟨k, _, List.getElem?_eq_getElem hk, rfl, rfl⟩
  exact ⟨_, _, hnode hsrc, hnode hdest⟩

/-- Every edge of the flow of a method leads between nodes, whether edges are folded or not. -/
theorem Method.dangling_modelledFlow (m : Method) (options : Options) :
    (m.modelledFlow options).dangling = none := by
  unfold modelledFlow
  split
  · rw [Flow.dangling_fold, m.dangling_flow]
  · exact m.dangling_flow

/-- The graph of a method, whether or not its views fit their prototypes. -/
def Method.modelledGraph (m : Method) (options : Options) : Graph :=
  ⟨m.name, m.modelledFlow options, m.dangling_modelledFlow options⟩

/-- Checks that every view of a method fits its prototypes. -/
def Method.checkViews (m : Method) (ps : Prototypes) : Except Error Unit :=
  m.body.views.forM ps.checkView

/-- Only a view that does not fit its prototypes keeps a method from having its graph. -/
theorem Method.graph_eq (m : Method) (ps : Prototypes) (options : Options) :
    m.graph ps options = (m.checkViews ps).map fun _ => m.modelledGraph options := by
  have hflow : Graph.ofFlow m.name (m.modelledFlow options) = .ok (m.modelledGraph options) :=
    Graph.ofFlow_of_dangling (m.dangling_modelledFlow options)
  change (m.checkViews ps >>= fun _ => Graph.ofFlow m.name (m.modelledFlow options)) = _
  rw [hflow]
  cases m.checkViews ps <;> rfl

/-- A method has a graph exactly if its views fit, and then that of its flow. -/
theorem Method.graph_eq_ok {m : Method} {ps : Prototypes} {options : Options} {g : Graph} :
    m.graph ps options = .ok g ↔ m.checkViews ps = .ok () ∧ m.modelledGraph options = g := by
  rw [graph_eq, map_eq_ok]
  constructor
  · rintro ⟨_, hviews, hg⟩
    exact ⟨hviews, hg⟩
  · rintro ⟨hviews, hg⟩
    exact ⟨(), hviews, hg⟩

/-- The graph of a method has its flow. -/
theorem Method.flow_of_graph {m : Method} {ps : Prototypes} {options : Options} {g : Graph}
    (h : m.graph ps options = .ok g) : g.flow = m.modelledFlow options := by
  obtain ⟨-, rfl⟩ := graph_eq_ok.mp h
  rfl

/-- The modelled flow of a method is its flow, with some foldable edges folded. -/
theorem Method.exists_folded_modelledFlow (m : Method) (options : Options) :
    ∃ done π, m.flow.Folded done (m.modelledFlow options) π := by
  unfold modelledFlow
  split
  next => exact ⟨_, Flow.Folded.foldl_foldEdge m.flow.edges.keys (.refl m.flow)⟩
  next => exact ⟨[], id, .refl m.flow⟩

/-- The modelled flow of a method is its flow or a reduction of it. -/
theorem Method.reduces_modelledFlow (m : Method) (options : Options) :
    ∃ π, m.flow.Reduces (m.modelledFlow options) π := by
  obtain ⟨_, π, hfolded⟩ := m.exists_folded_modelledFlow options
  exact ⟨π, hfolded.reduces⟩

/-- The graph of a method keeps what its nodes hold and every edge but foldable ones. -/
theorem Method.reduces_of_graph {m : Method} {ps : Prototypes} {options : Options} {g : Graph}
    (h : m.graph ps options = .ok g) : ∃ π, m.flow.Reduces g.flow π := by
  rw [Method.flow_of_graph h]
  exact m.reduces_modelledFlow options

/-- The edges of a modelled method have names of their own. -/
theorem Method.edgeName_of_get?_edges {m : Method} {options : Options} {name : String} {e : Edge}
    (he : (m.modelledFlow options).edges.get? name = some e) : ∃ n, name = edgeName m.name n := by
  obtain ⟨π, hreduces⟩ := m.reduces_modelledFlow options
  obtain ⟨e', he'⟩ := hreduces.names name e he
  exact (Method.of_get?_edges_flow he').1

/-- The triples of a method are named after its edges. -/
theorem Method.edgeName_of_mem_triples {m : Method} {options : Options} {patterns : List Pattern}
    {t : Triple} (ht : t ∈ (m.modelledGraph options).triples patterns) :
    ∃ n, t.name = edgeName m.name n := by
  obtain ⟨e, -, -, he, -⟩ := Graph.mem_triples.mp ht
  exact edgeName_of_get?_edges he

/-- A triple named after an edge of a method comes from a method of the same name. -/
theorem Method.name_eq_of_edge {m m' : Method} {options : Options} {patterns : List Pattern}
    {t : Triple} {e : Edge} (ht : t ∈ (m'.modelledGraph options).triples patterns)
    (he : (m.modelledFlow options).edges.get? t.name = some e) : m'.name = m.name := by
  obtain ⟨n, hn⟩ := edgeName_of_get?_edges he
  obtain ⟨n', hn'⟩ := edgeName_of_mem_triples ht
  rw [hn] at hn'
  exact (edgeName_inj.mp hn').1.symm

/-- A node of a method holds a view of its text. -/
theorem Method.exists_view_of_node {m : Method} {name : String} {held : Bag (Held Var)}
    (h : m.flow.nodes.get? name = some held) : ∃ v ∈ m.body.views, v.held = held := by
  obtain ⟨n, v, hv, -, rfl⟩ := Fragment.get?_nodes_toFlow.mp h
  exact ⟨v, m.body.views_lower_perm.mem_iff.mp (List.mem_of_getElem? hv), rfl⟩

/-- The two sides of a triple of a method are matches of views of its text. -/
theorem Method.exists_views_of_mem_triples {m : Method} {options : Options}
    {patterns : List Pattern} {t : Triple}
    (ht : t ∈ (m.modelledGraph options).triples patterns) :
    (∃ v ∈ m.body.views, t.pre = reify v.held patterns) ∧
      ∃ v ∈ m.body.views, t.post = reify v.held patterns := by
  obtain ⟨_, π, hfolded⟩ := m.exists_folded_modelledFlow options
  obtain ⟨e', src, dest, he', hsrc, hdest, heq⟩ := Graph.mem_triples.mp ht
  obtain ⟨e, -, rfl⟩ := hfolded.exists_edge he'
  -- Folding renames the ends of an edge, and leaves what they hold.
  obtain ⟨v, hv, rfl⟩ := exists_view_of_node ((hfolded.nodes e.src).symm.trans hsrc)
  obtain ⟨w, hw, rfl⟩ := exists_view_of_node ((hfolded.nodes e.dest).symm.trans hdest)
  exact ⟨⟨v, hv, congrArg Triple.pre heq⟩, w, hw, congrArg Triple.post heq⟩

end ViewLogic
