import ViewLogic.Model
import ViewLogic.Semantics

/-!
# Proof obligations

An obligation says that a goal holds after a command that starts in a state with a precondition. A
triple has one obligation for each different match held after its command; each assumes what all
matches held before the command say. A match says what the definitions of its shape say of its
atoms, as far as its guard holds.
-/

namespace ViewLogic

/-- A goal to prove of a command from a precondition. -/
structure Obligation where
  name : String
  pre : Relation
  cmd : Relation
  post : Relation
deriving DecidableEq

namespace Obligation

/-- The formula that no state satisfies if the goal holds. -/
def negatedClaim (o : Obligation) : Relation := .all [o.pre, o.cmd, o.post.negate]

/-- The text of an obligation. -/
def render (o : Obligation) : String :=
  o.name ++ ": " ++ o.pre.render ++ " && " ++ o.cmd.render ++ " => " ++ o.post.render

/-- What obligations are built from. -/
structure Context where
  globals : Scope
  scope : Scope
  definitions : List Definition
  semantics : Semantics
  options : Options

/-- Whether the atoms of a match have the shapes of the components of a pattern. -/
def fits (p : Pattern) (atoms : List (Atom (Expr Var))) : Bool :=
  p.components.length == atoms.length &&
    (p.components.zip atoms).all fun (c, a) => c.sameShape a

/-- Reads declared variables at a moment. -/
def marker (scope : Scope) (m : Mark) : Resolver Error Var MarkedVar where
  int x := do
    scope.expect x .int
    .ok (.var ⟨m, x⟩)
  bool x := do
    scope.expect x .bool
    .ok (.var ⟨m, x⟩)

namespace Context

/-- Gives one formal parameter of a pattern its actual one, read at a moment. -/
def bindParam (ctx : Context) (m : Mark) (actuals : Actuals) (view : String) (formal : Decl)
    (actual : Expr Var) : Except Error Actuals := do
  if formal.ty ≠ actual.ty then
    .error (.typeMismatch (view ++ "." ++ formal.name) formal.ty.render actual.ty.render)
  let marked ← actual.resolve (marker ctx.scope m)
  if actuals.contains formal.name then .error (.duplicateVar formal.name)
  else .ok (actuals.insert formal.name marked)

/-- The actual parameters of the atoms of a match, by the names that a pattern gives them. -/
def bindParams (ctx : Context) (m : Mark) (p : Pattern) (atoms : List (Atom (Expr Var))) :
    Except Error Actuals :=
  (p.components.zip atoms).foldlM (fun actuals (c, a) =>
    (c.params.zip a.params).foldlM (fun actuals (formal, actual) =>
      ctx.bindParam m actuals c.name formal actual) actuals) ∅

/-- What a definition says of the atoms of a match. Beside the parameters its body may read global
variables only. -/
def instantiateBody (ctx : Context) (m : Mark) (p : Pattern) (body : BoolExpr Var)
    (atoms : List (Atom (Expr Var))) : Except Error Relation := do
  let actuals ← ctx.bindParams m p atoms
  body.resolve (actuals.resolver fun ty x => do
    ctx.globals.expect x ty
    .ok ⟨m, x⟩)

/-- The definitions that say something of the atoms of a match. -/
def applicable (ctx : Context) (atoms : List (Atom (Expr Var))) :
    List (Pattern × BoolExpr Var) :=
  (ctx.definitions.filter fun d => fits d.pattern atoms).filterMap fun d =>
    d.body.map (d.pattern, ·)

/-- What a match says at a moment: if its guard holds, all applicable definitions. -/
def instantiate (ctx : Context) (m : Mark) (v : Match Var) : Except Error Relation := do
  let guard ← v.guard.resolve (marker ctx.scope m)
  let bodies ← (ctx.applicable v.item).mapM fun (p, body) => ctx.instantiateBody m p body v.item
  .ok (guard.entails (.all bodies))

/-- The condition that a command adds to the precondition, and its relation. -/
def commandParts (ctx : Context) (cmd : Command) : Except Error (Option Relation × Relation) :=
  match ctx.options.foldAssumes, cmd.assumed? with
  | true, some cond => do
    cmd.checkScope ctx.scope
    .ok (some cond, Semantics.frame ctx.scope [])
  | _, _ => do
    let r ← ctx.semantics.commandRelation ctx.scope cmd
    .ok (none, r)

/-- Names the goals of a triple: by the triple alone if there is one, else with its number. -/
def goalName (triple : String) (goals n : Nat) : String :=
  if goals = 1 then triple else triple ++ "/" ++ toString n

/-- The obligations of a triple. Without a goal there is one whose goal is true. -/
def obligations (ctx : Context) (t : Triple) : Except Error (List Obligation) := do
  let held ← t.pre.elements.mapM (ctx.instantiate .before)
  let (cond, relation) ← ctx.commandParts t.cmd
  let pre := match cond with
    | some cond => .all [.all held, cond]
    | none => .all held
  let cmd := if ctx.options.forgetSymbols then relation.forgetSymbols else relation
  let goals ← t.post.elements.mapM (ctx.instantiate .after)
  let goals := if goals.isEmpty then [.lit true] else goals
  .ok (goals.mapIdx fun n post => ⟨goalName t.name goals.length n, pre, cmd, post⟩)

end Context

end Obligation

/-- The obligations of a triple under their names, or its error under the name of the triple. -/
def Triple.named (t : Triple) :
    Except Error (List Obligation) → List (String × Except Error Obligation)
  | .ok os => os.map fun o => (o.name, .ok o)
  | .error e => [(t.name, .error e)]

/-- The obligations of a model, in the order of its triples. A triple whose obligations cannot be
built has one entry, which holds the error. -/
def Model.obligations (m : Model) (semantics : Semantics) (options : Options) :
    Except Error (List (String × Except Error Obligation)) := do
  let scope ← m.scope
  let ctx : Obligation.Context := ⟨m.globals, scope, m.definitions, semantics, options⟩
  .ok (m.triples.values.flatMap fun t => t.named (ctx.obligations t))

end ViewLogic
