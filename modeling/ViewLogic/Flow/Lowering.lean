import ViewLogic.Flow
import ViewLogic.Script

/-!
# The flow of a method

Every view of a method becomes a node and every statement becomes edges between the nodes before and
after it. Nodes and edges are numbered in the order in which they arise, so a part of a method is
lowered to the list of its nodes and the list of its edges, given the number of its first node.
-/

namespace ViewLogic

/-- An edge between numbered nodes. -/
structure Arc where
  src : Nat
  dest : Nat
  cmd : Command

/-- The nodes of a part of a method, by the views held there, and the edges of the part. -/
structure Fragment where
  views : List (View Var)
  arcs : List Arc

namespace Fragment

/-- The fragment without nodes and edges. -/
def empty : Fragment := ⟨[], []⟩

/-- One fragment after another. -/
def append (a b : Fragment) : Fragment := ⟨a.views ++ b.views, a.arcs ++ b.arcs⟩

instance : Append Fragment := ⟨append⟩

/-- A fragment of edges only. -/
def ofArcs (arcs : List Arc) : Fragment := ⟨[], arcs⟩

/-- A fragment of one node. -/
def ofView (v : View Var) : Fragment := ⟨[v], []⟩

end Fragment

/-- The command that goes on if a condition holds before it. -/
def assumeTrue (cond : BoolExpr Var) : Command := .assume (cond.mark .before)

/-- The command that goes on if a condition does not hold before it. -/
def assumeFalse (cond : BoolExpr Var) : Command := .assume (cond.negate.mark .before)

mutual

/-- The fragment of a statement between two nodes, with new nodes numbered from `fresh`. -/
def Stmt.lower (src dest fresh : Nat) : Stmt → Fragment
  | .prim cmd => .ofArcs [⟨src, dest, cmd⟩]
  | .ifThen cond body =>
    let inner := body.lowerFrom fresh (fresh + 1)
    .ofView body.entry ++ inner.1 ++ .ofArcs
      [⟨src, fresh, assumeTrue cond⟩, ⟨inner.2, dest, []⟩, ⟨src, dest, assumeFalse cond⟩]
  | .ifElse cond yes no =>
    let inner := yes.lowerFrom fresh (fresh + 1)
    let fresh' := fresh + 1 + inner.1.views.length
    let inner' := no.lowerFrom fresh' (fresh' + 1)
    .ofView yes.entry ++ inner.1 ++
      .ofArcs [⟨src, fresh, assumeTrue cond⟩, ⟨inner.2, dest, []⟩] ++
      .ofView no.entry ++ inner'.1 ++
      .ofArcs [⟨src, fresh', assumeFalse cond⟩, ⟨inner'.2, dest, []⟩]
  | .whileDo cond body =>
    let inner := body.lowerFrom fresh (fresh + 1)
    .ofView body.entry ++ inner.1 ++ .ofArcs
      [⟨src, fresh, assumeTrue cond⟩, ⟨inner.2, src, []⟩, ⟨src, dest, assumeFalse cond⟩]
  | .doWhile body cond =>
    let inner := body.lowerFrom fresh (fresh + 1)
    .ofView body.entry ++ inner.1 ++ .ofArcs
      [⟨src, fresh, []⟩, ⟨inner.2, fresh, assumeTrue cond⟩, ⟨inner.2, dest, assumeFalse cond⟩]

/-- The fragment of a block without its first node, which is `cur`, and the number of its last node.
The node after a statement comes before the nodes inside the statement. -/
def Block.lowerFrom (cur fresh : Nat) : Block → Fragment × Nat
  | .done _ => (.empty, cur)
  | .next _ stmt rest =>
    let part := stmt.lower cur fresh (fresh + 1)
    let tail := rest.lowerFrom fresh (fresh + 1 + part.views.length)
    (.ofView rest.entry ++ part ++ tail.1, tail.2)

end

/-- The fragment of a whole block: its first node is the first one. -/
def Block.lower (b : Block) : Fragment := .ofView b.entry ++ (b.lowerFrom 0 1).1

/-- The name of a numbered node of a method. -/
def nodeName (method : String) (n : Nat) : String := method ++ "_V" ++ toString n

/-- The name of a numbered edge of a method. -/
def edgeName (method : String) (n : Nat) : String := method ++ "_C" ++ toString n

/-- The flow of a fragment, with the names of a method's nodes and edges. -/
def Fragment.toFlow (method : String) (f : Fragment) : Flow where
  nodes := .ofList (f.views.mapIdx fun n v => (nodeName method n, v.held))
  edges := .ofList (f.arcs.mapIdx fun n arc =>
    (edgeName method n, ⟨nodeName method arc.src, nodeName method arc.dest, arc.cmd⟩))

/-- The flow of a method. -/
def Method.flow (m : Method) : Flow := m.body.lower.toFlow m.name

end ViewLogic
