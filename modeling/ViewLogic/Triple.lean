import ViewLogic.Flow
import ViewLogic.Reification

/-!
# Triples

The triple of an edge says which matches are held before its command and which after it.
-/

namespace ViewLogic

/-- What is held before a command, the command, and what is held after it. -/
structure Triple where
  name : String
  pre : Bag (Match Var)
  cmd : Command
  post : Bag (Match Var)
deriving DecidableEq

namespace Triple

/-- The text of the number of matches on one side. -/
def matchesText (b : Bag (Match Var)) : String := "\x7b" ++ toString b.size ++ " matches\x7d"

/-- The text of a triple. -/
def render (t : Triple) : String :=
  t.name ++ ": " ++ matchesText t.pre ++ " " ++
    String.intercalate "; " (t.cmd.map Atom.render) ++ " " ++ matchesText t.post

end Triple

/-- The triples of the edges of a graph, in the order of their names. -/
def Graph.triples (g : Graph) (patterns : List Pattern) : List Triple :=
  g.flow.edges.entries.filterMap fun (name, e) => do
    let src ← g.flow.nodes.get? e.src
    let dest ← g.flow.nodes.get? e.dest
    some ⟨name, reify src patterns, e.cmd, reify dest patterns⟩

end ViewLogic
