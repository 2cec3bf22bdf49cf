import ViewLogic.Command
import ViewLogic.View

/-!
# Control flow

A flow has named nodes, each holding a bag of guarded atoms, and named edges, each carrying a
command. An edge may end at a node that the flow does not have; a graph is a flow without such an
edge. Merging two nodes neither adds nor removes one (`Flow.dangling_merge`).
-/

namespace ViewLogic

/-- A command between two nodes. -/
structure Edge where
  src : String
  dest : String
  cmd : Command
deriving DecidableEq

/-- Nodes with what is held there, and edges between them. -/
structure Flow where
  nodes : SortedMap String (Bag (Held Var))
  edges : SortedMap String Edge
deriving DecidableEq

/-- Makes an edge end at `s` wherever it ends at `t`. -/
def Edge.retarget (s t : String) (e : Edge) : Edge :=
  ⟨if e.src = t then s else e.src, if e.dest = t then s else e.dest, e.cmd⟩

/-- The end of an edge that is no node, the source before the destination. -/
def Edge.missingEnd (nodes : SortedMap String (Bag (Held Var))) (e : Edge) : Option String :=
  if !nodes.contains e.src then some e.src
  else if !nodes.contains e.dest then some e.dest
  else none

namespace Flow

/-- The flow without nodes and edges. -/
def empty : Flow := ⟨∅, ∅⟩

/-- The first edge with an end that is no node, and that end. -/
def dangling (g : Flow) : Option (String × String) :=
  g.edges.entries.findSome? fun entry => (entry.2.missingEnd g.nodes).map (entry.1, ·)

/-- Merges node `t` into node `s`, which takes the view of `t`. Nothing changes unless these are two
nodes of the flow. -/
def merge (g : Flow) (s t : String) : Flow :=
  if s = t ∨ !g.nodes.contains s then g
  else match g.nodes.get? t with
    | none => g
    | some held => ⟨(g.nodes.erase t).insert s held, g.edges.map (Edge.retarget s t)⟩

/-- Whether an edge does nothing between nodes that hold the same. -/
def foldable (g : Flow) (e : Edge) : Bool :=
  e.cmd.isEmpty &&
    match g.nodes.get? e.src, g.nodes.get? e.dest with
    | some held, some held' => held = held'
    | _, _ => false

/-- Merges the ends of an edge and removes it, if it is foldable. -/
def foldEdge (g : Flow) (name : String) : Flow :=
  match g.edges.get? name with
  | some e =>
    if g.foldable e then
      let merged := g.merge e.src e.dest
      { merged with edges := merged.edges.erase name }
    else g
  | none => g

/-- Folds the edges in the order of their names. Folding an edge changes neither what is held at the
ends of another edge nor its command, so one pass leaves no foldable edge. -/
def fold (g : Flow) : Flow := g.edges.keys.foldl foldEdge g

/-! ### Missing nodes -/

/-- What is a node when `t` is merged into `s`, with `s` in the place of `t`. -/
theorem contains_merge {nodes : SortedMap String (Bag (Held Var))} {s t : String}
    {held : Bag (Held Var)} (hs : nodes.contains s = true) (ht : nodes.get? t = some held)
    (x : String) :
    ((nodes.erase t).insert s held).contains (if x = t then s else x) = nodes.contains x := by
  simp only [SortedMap.contains, SortedMap.get?_insert, SortedMap.get?_erase,
    Std.LawfulEqCmp.compare_eq_iff_eq] at *
  by_cases hx : x = t
  · simp [hx, ht]
  · by_cases hxs : x = s
    · subst hxs
      simp [hx, hs]
    · simp [hx, hxs]

/-- An edge lacks the same end before and after a merge. -/
theorem missingEnd_merge {nodes : SortedMap String (Bag (Held Var))} {s t : String}
    {held : Bag (Held Var)} (hs : nodes.contains s = true) (ht : nodes.get? t = some held)
    (e : Edge) :
    (e.retarget s t).missingEnd ((nodes.erase t).insert s held) = e.missingEnd nodes := by
  have ht' : nodes.contains t = true := by simp [SortedMap.contains, ht]
  simp only [Edge.missingEnd, Edge.retarget, contains_merge hs ht]
  split
  next hsrc =>
    have hne : e.src ≠ t := by
      intro h
      simp [h, ht'] at hsrc
    simp [hne]
  next =>
    split
    next hdest =>
      have hne : e.dest ≠ t := by
        intro h
        simp [h, ht'] at hdest
      simp [hne]
    next => rfl

/-- Merging nodes keeps the first edge without an end, and which end it lacks. -/
theorem dangling_merge (g : Flow) (s t : String) : (g.merge s t).dangling = g.dangling := by
  unfold merge
  split
  next => rfl
  next hne =>
    simp only [not_or, Bool.not_eq_true, Bool.not_eq_false'] at hne
    split
    next => rfl
    next held ht =>
      simp only [dangling, SortedMap.map, List.findSome?_map]
      congr 1
      funext entry
      simp only [Function.comp_apply, missingEnd_merge hne.2 ht]

end Flow

/-- A named flow each of whose edges ends at nodes. -/
structure Graph where
  name : String
  flow : Flow
  closed : flow.dangling = none
deriving DecidableEq

namespace Graph

/-- The graph of a flow, unless an edge lacks an end. -/
def ofFlow? (name : String) (g : Flow) : Option Graph :=
  if h : g.dangling = none then some ⟨name, g, h⟩ else none

/-- The graph of a flow, or the first edge that lacks an end. -/
def ofFlow (name : String) (g : Flow) : Except Error Graph :=
  match h : g.dangling with
  | none => .ok ⟨name, g, h⟩
  | some (edge, node) => .error (.missingNode name edge node)

/-- Merges two nodes of a graph. -/
def merge (g : Graph) (s t : String) : Graph :=
  ⟨g.name, g.flow.merge s t, by rw [Flow.dangling_merge, g.closed]⟩

end Graph

end ViewLogic
