import ViewLogic.Flow.Lowering
import ViewLogic.Options
import ViewLogic.Triple

/-!
# Models

The model of a script: its scopes, the prototypes and definitions that passed their checks, and the
graph of every method with the triples of its edges. What is wrong with one prototype, definition or
method is kept as a diagnostic, and the rest is modelled all the same.
-/

namespace ViewLogic

/-- An error with the part of the script that it concerns. -/
structure Diagnostic where
  context : String
  error : Error
deriving DecidableEq

/-- Keeps an error of one part as a diagnostic. A fatal error ends the modelling. -/
def report (ds : List Diagnostic) (context : String) (e : Error) :
    Except Error (List Diagnostic) :=
  match e.severity with
  | .fatal => .error e
  | .contained => .ok (ds ++ [⟨context, e⟩])

/-- The prototypes by name. -/
abbrev Prototypes := SortedMap String Prototype

namespace Prototypes

/-- The prototype of a view with a number of parameters. -/
def lookup (ps : Prototypes) (name : String) (arity : Nat) : Except Error Prototype :=
  match ps.get? name with
  | none => .error (.unknownView name)
  | some p =>
    if p.params.length = arity then .ok p
    else .error (.viewArity name p.params.length arity)

/-- Checks that each component of a pattern fits its prototype. -/
def checkPattern (ps : Prototypes) (p : Pattern) : Except Error Unit :=
  p.components.forM fun c => do
    let proto ← ps.lookup c.name c.params.length
    (c.params.zip proto.params).forM fun (formal, declared) =>
      if formal.ty = declared.ty then .ok ()
      else .error
        (.typeMismatch (c.name ++ "." ++ formal.name) declared.ty.render formal.ty.render)

/-- Checks that each atom of a view fits its prototype. -/
def checkView (ps : Prototypes) (v : View Var) : Except Error Unit :=
  v.atoms.forM fun a => do
    let proto ← ps.lookup a.name a.params.length
    (a.params.zip proto.params).forM fun (actual, declared) =>
      if actual.ty = declared.ty then .ok ()
      else .error
        (.typeMismatch (a.name ++ "." ++ declared.name) declared.ty.render actual.ty.render)

end Prototypes

/-- The graph of a method whose views fit their prototypes. -/
def Method.graph (m : Method) (ps : Prototypes) (options : Options) : Except Error Graph := do
  m.body.views.forM ps.checkView
  Graph.ofFlow m.name (if options.foldNops then m.flow.fold else m.flow)

/-- A script made ready for verification. -/
structure Model where
  globals : Scope
  locals : Scope
  prototypes : Prototypes
  definitions : List Definition
  graphs : SortedMap String Graph
  triples : SortedMap String Triple
  diagnostics : List Diagnostic

namespace Model

/-- All variables that a thread sees. -/
def scope (m : Model) : Except Error Scope := m.globals.merge m.locals

/-- The patterns of the definitions. -/
def patterns (m : Model) : List Pattern := m.definitions.map (·.pattern)

/-- A model with scopes only. -/
def ofScopes (globals locals : Scope) : Model := ⟨globals, locals, ∅, [], ∅, ∅, []⟩

/-- Adds a prototype; the first one of a name stays. -/
def addPrototype (m : Model) (p : Prototype) : Except Error Model :=
  if m.prototypes.contains p.name then do
    let ds ← report m.diagnostics ("view " ++ p.name)
      (.unsupported p.name "view declared twice")
    .ok { m with diagnostics := ds }
  else .ok { m with prototypes := m.prototypes.insert p.name p }

/-- Adds a definition whose pattern fits the prototypes. -/
def addDefinition (m : Model) (d : Definition) : Except Error Model :=
  match m.prototypes.checkPattern d.pattern with
  | .ok () => .ok { m with definitions := m.definitions ++ [d] }
  | .error e => do
    let ds ← report m.diagnostics ("constraint " ++ d.pattern.render) e
    .ok { m with diagnostics := ds }

/-- Adds the graph of a method and the triples of its edges. -/
def addMethod (options : Options) (m : Model) (method : Method) : Except Error Model :=
  match method.graph m.prototypes options with
  | .ok graph => .ok { m with
      graphs := m.graphs.insert method.name graph
      triples := (graph.triples m.patterns).foldl (fun ts t => ts.insert t.name t) m.triples }
  | .error e => do
    let ds ← report m.diagnostics ("method " ++ method.name) e
    .ok { m with diagnostics := ds }

end Model

/-- The model of a script. Only a variable that is declared twice stops it. -/
def Script.model (s : Script) (options : Options) : Except Error Model := do
  let globals ← Scope.ofDecls s.globals
  let locals ← Scope.ofDecls s.locals
  let _ ← globals.merge locals
  let m ← s.prototypes.foldlM Model.addPrototype (.ofScopes globals locals)
  let m ← s.definitions.foldlM Model.addDefinition m
  s.methods.foldlM (Model.addMethod options) m

end ViewLogic
