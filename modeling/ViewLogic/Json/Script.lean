import ViewLogic.Json.Text
import ViewLogic.Json.View
import ViewLogic.Options
import ViewLogic.Script

/-!
# The JSON form of scripts and options

A script or the options of a run can be given as a text. Fields that are not known are skipped, and
what is skipped may be nested to any depth and hold garbled strings. The containers of the script
itself may be nested at most 127 deep; those of options are never nested so deep.
-/

namespace ViewLogic

/-- Reads a command. -/
def Command.ofJson? (j : Json) : Option Command := j.list? (Atom.ofJson? Expr.ofJson?)

/-- The JSON form of a command. -/
def Command.toJson (c : Command) : Json := .arr (c.map (Atom.toJson Expr.toJson))

mutual

/-- Reads a statement. -/
def Stmt.ofJson? (j : Json) : Option Stmt := do
  let (tag, ⟨part, _⟩) ← j.tagged?
  match tag with
  | "Prim" => (Command.ofJson? part).map .prim
  | "If" =>
    let cond ← part.required? BoolExpr.ofJson? "cond"
    let ⟨thenPart, _⟩ ← part.field? "then"
    let yes ← Block.ofJson? thenPart
    match part.field? "els" with
    | some ⟨.null, _⟩ | none => some (.ifThen cond yes)
    | some ⟨elsePart, _⟩ => some (.ifElse cond yes (← Block.ofJson? elsePart))
  | "While" =>
    let cond ← part.required? BoolExpr.ofJson? "cond"
    let ⟨body, _⟩ ← part.field? "body"
    some (.whileDo cond (← Block.ofJson? body))
  | "DoWhile" =>
    let cond ← part.required? BoolExpr.ofJson? "cond"
    let ⟨body, _⟩ ← part.field? "body"
    some (.doWhile (← Block.ofJson? body) cond)
  | _ => none
termination_by sizeOf j

/-- Reads a block. -/
def Block.ofJson? (j : Json) : Option Block := do
  let held ← j.required? View.ofJson? "pre"
  let ⟨part, _⟩ ← j.field? "steps"
  let items ← part.items?
  let steps ← items.mapM fun ⟨item, _⟩ => do
    let ⟨cmd, _⟩ ← item.field? "cmd"
    let stmt ← Stmt.ofJson? cmd
    let after ← item.required? View.ofJson? "post"
    some (stmt, after)
  some (.ofSteps held steps)
termination_by sizeOf j

end

/-- The JSON form of a block with the forms of its steps. -/
def blockJson (held : View Var) (steps : List Json) : Json :=
  .obj [("pre", held.toJson), ("steps", .arr steps)]

mutual

/-- The JSON form of a statement. -/
def Stmt.toJson : Stmt → Json
  | .prim cmd => .tagged "Prim" cmd.toJson
  | .ifThen cond body =>
    .tagged "If" (.obj [("cond", cond.toJson), ("then", blockJson body.entry body.stepsJson),
      ("els", .null)])
  | .ifElse cond yes no =>
    .tagged "If" (.obj [("cond", cond.toJson), ("then", blockJson yes.entry yes.stepsJson),
      ("els", blockJson no.entry no.stepsJson)])
  | .whileDo cond body =>
    .tagged "While" (.obj [("cond", cond.toJson), ("body", blockJson body.entry body.stepsJson)])
  | .doWhile body cond =>
    .tagged "DoWhile" (.obj [("body", blockJson body.entry body.stepsJson), ("cond", cond.toJson)])

/-- The JSON forms of the steps of a block. -/
def Block.stepsJson : Block → List Json
  | .done _ => []
  | .next _ stmt rest =>
    .obj [("cmd", stmt.toJson), ("post", rest.entry.toJson)] :: rest.stepsJson

end

/-- The JSON form of a block. -/
def Block.toJson (b : Block) : Json := blockJson b.entry b.stepsJson

/-- Reads a method. -/
def Method.ofJson? (j : Json) : Option Method := do
  let name ← j.required? Json.str? "name"
  let body ← j.required? Block.ofJson? "body"
  some ⟨name, body⟩

/-- The JSON form of a method. -/
def Method.toJson (m : Method) : Json := .obj [("name", .str m.name), ("body", m.body.toJson)]

namespace Script

/-- Reads a script; a missing field is an empty list. -/
def ofJson? (j : Json) : Option Script := do
  let prototypes ← j.optional? (Json.list? Prototype.ofJson?) "view_protos" []
  let globals ← j.optional? (Json.list? Decl.ofJson?) "globals" []
  let locals ← j.optional? (Json.list? Decl.ofJson?) "locals" []
  let definitions ← j.optional? (Json.list? Definition.ofJson?) "constraints" []
  let methods ← j.optional? (Json.list? Method.ofJson?) "methods" []
  some ⟨prototypes, globals, locals, definitions, methods⟩

/-- The JSON form of a script. -/
def toJson (s : Script) : Json :=
  .obj [("view_protos", .arr (s.prototypes.map Prototype.toJson)),
    ("globals", .arr (s.globals.map Decl.toJson)), ("locals", .arr (s.locals.map Decl.toJson)),
    ("constraints", .arr (s.definitions.map Definition.toJson)),
    ("methods", .arr (s.methods.map Method.toJson))]

/-- So many nested containers are too many in a script. -/
def depthLimit : Nat := 128

/-- The script of a text. Its depth is that of its JSON form, which leaves out what was skipped. -/
def parse? (text : String) : Option Script := do
  let s ← Json.parseAny? text >>= ofJson?
  if s.toJson.depth < depthLimit then some s else none

end Script

/-- Reads a mode. -/
def Mode.ofJson? (j : Json) : Option Mode :=
  match j.str? with
  | some "Translate" => some .translate
  | some "Combine" => some .combine
  | some "Sat" => some .check
  | _ => none

/-- The JSON form of a mode. -/
def Mode.toJson : Mode → Json
  | translate => .str "Translate"
  | combine => .str "Combine"
  | check => .str "Sat"

/-- Reads how work is spread. -/
def Dispatch.ofJson? (j : Json) : Option Dispatch := do
  let workers ← j.optional? (fun v => v.nat64?.map some) "max_parallelism" none
  let failFast ← j.optional? Json.bool? "fail_fast" false
  some ⟨workers, failFast⟩

namespace Options

/-- Reads options; a missing field takes its standard value. -/
def ofJson? (j : Json) : Option Options := do
  let mode ← j.optional? Mode.ofJson? "mode" standard.mode
  let dispatch ← j.optional? Dispatch.ofJson? "parallel" standard.dispatch
  let forgetSymbols ← j.optional? Json.bool? "drop_symbolic_equalities" standard.forgetSymbols
  let foldNops ← j.optional? Json.bool? "fold_nop_edges" standard.foldNops
  let foldAssumes ← j.optional? Json.bool? "fold_assumes" standard.foldAssumes
  some ⟨mode, dispatch, forgetSymbols, foldNops, foldAssumes⟩

/-- The options of a text. They may still be unusable. -/
def parse? (text : String) : Option Options := Json.parseAny? text >>= ofJson?

end Options

end ViewLogic
