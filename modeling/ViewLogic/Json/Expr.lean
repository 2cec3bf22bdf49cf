import ViewLogic.Expr.Basic
import ViewLogic.Json

/-!
# The JSON form of expressions

A form with parts is an object whose only field is named after the form; a literal is its name. The
form of a variable depends on the kind of variable.
-/

namespace ViewLogic

variable {V : Type}

/-- A kind of variable with a JSON form. -/
class JsonForm (α : Type) where
  ofJson? : Json → Option α
  toJson : α → Json

export JsonForm (ofJson? toJson)

namespace Json

/-- An object with one field. -/
def tagged (tag : String) (value : Json) : Json := obj [(tag, value)]

/-- Reads an array of values of a type. -/
def list? {α : Type} (read : Json → Option α) (j : Json) : Option (List α) := do
  let items ← j.items?
  items.mapM fun item => read item.1

/-- Reads a field that has to be there. -/
def required? {α : Type} (read : Json → Option α) (name : String) (j : Json) : Option α := do
  let value ← j.field? name
  read value.1

/-- Reads a field that may be missing from an object. -/
def optional? {α : Type} (read : Json → Option α) (name : String) (default : α) (j : Json) :
    Option α :=
  if j.isObj then
    match j.field? name with
    | some value => read value.1
    | none => some default
  else none

end Json

/-- The type that a name stands for. -/
def Ty.ofJson? (j : Json) : Option Ty :=
  match j.str? with
  | some "Int" => some .int
  | some "Bool" => some .bool
  | _ => none

/-- The JSON form of a type. -/
def Ty.toJson : Ty → Json
  | int => .str "Int"
  | bool => .str "Bool"

/-- Reads a declaration. -/
def Decl.ofJson? (j : Json) : Option Decl := do
  let ty ← j.required? Ty.ofJson? "ty"
  let name ← j.required? Json.str? "name"
  some ⟨ty, name⟩

/-- The JSON form of a declaration. -/
def Decl.toJson (d : Decl) : Json := .obj [("ty", d.ty.toJson), ("name", .str d.name)]

/-- Reads a marked variable. -/
def MarkedVar.ofJson? (j : Json) : Option MarkedVar := do
  let (tag, part) ← j.tagged?
  match tag with
  | "Before" => part.1.str?.map (⟨.before, ·⟩)
  | "After" => part.1.str?.map (⟨.after, ·⟩)
  | "Goal" => part.1.str?.map (⟨.goal, ·⟩)
  | "Intermediate" =>
    let (n, x) ← part.1.pair?
    let stage ← n.1.nat64? >>= Stage.ofNat?
    x.1.str?.map (⟨.intermediate stage, ·⟩)
  | _ => none

/-- The JSON form of a marked variable. -/
def MarkedVar.toJson (v : MarkedVar) : Json :=
  match v.mark with
  | .before => .tagged "Before" (.str v.name)
  | .after => .tagged "After" (.str v.name)
  | .goal => .tagged "Goal" (.str v.name)
  | .intermediate n => .tagged "Intermediate" (.arr [.int n.val, .str v.name])

instance : JsonForm Var := ⟨Json.str?, .str⟩

instance : JsonForm MarkedVar := ⟨MarkedVar.ofJson?, MarkedVar.toJson⟩

/-- The arithmetic operation that a tag stands for. -/
def ArithOp.ofTag? : String → Option ArithOp
  | "Add" => some add
  | "Sub" => some sub
  | "Mul" => some mul
  | _ => none

/-- The tag of an arithmetic operation. -/
def ArithOp.tag : ArithOp → String
  | add => "Add"
  | sub => "Sub"
  | mul => "Mul"

/-- The connective that a tag stands for. -/
def Connective.ofTag? : String → Option Connective
  | "And" => some and
  | "Or" => some or
  | _ => none

/-- The tag of a connective. -/
def Connective.tag : Connective → String
  | and => "And"
  | or => "Or"

/-- The comparison that a tag stands for. -/
def Comparison.ofTag? : String → Option Comparison
  | "Gt" => some gt
  | "Ge" => some ge
  | "Le" => some le
  | "Lt" => some lt
  | _ => none

/-- The tag of a comparison. -/
def Comparison.tag : Comparison → String
  | gt => "Gt"
  | ge => "Ge"
  | le => "Le"
  | lt => "Lt"

mutual

/-- Reads an integer expression. -/
def IntExpr.ofJson? [JsonForm V] (j : Json) : Option (IntExpr V) := do
  let (tag, ⟨part, _⟩) ← j.tagged?
  match tag with
  | "Const" => (part.int? >>= Constant.ofInt?).map .const
  | "Var" => (ViewLogic.ofJson? part).map .var
  | "Sym" =>
    let name ← part.required? Json.str? "name"
    let ⟨params, _⟩ ← part.field? "params"
    let items ← params.items?
    let args ← items.mapM fun ⟨item, _⟩ => Expr.ofJson? item
    some (.sym name args)
  | "Div" =>
    let (⟨l, _⟩, ⟨r, _⟩) ← part.pair?
    some (.div (← IntExpr.ofJson? l) (← IntExpr.ofJson? r))
  | _ =>
    let op ← ArithOp.ofTag? tag
    let items ← part.items?
    let es ← items.mapM fun ⟨item, _⟩ => IntExpr.ofJson? item
    some (.arith op es)
termination_by sizeOf j

/-- Reads a Boolean expression. -/
def BoolExpr.ofJson? [JsonForm V] (j : Json) : Option (BoolExpr V) :=
  match j.str? with
  | some "True" => some (.lit true)
  | some "False" => some (.lit false)
  | some _ => none
  | none => do
    let (tag, ⟨part, _⟩) ← j.tagged?
    match tag with
    | "Var" => (ViewLogic.ofJson? part).map .var
    | "Sym" =>
      let name ← part.required? Json.str? "name"
      let ⟨params, _⟩ ← part.field? "params"
      let items ← params.items?
      let args ← items.mapM fun ⟨item, _⟩ => Expr.ofJson? item
      some (.sym name args)
    | "Implies" =>
      let (⟨l, _⟩, ⟨r, _⟩) ← part.pair?
      some (.implies (← BoolExpr.ofJson? l) (← BoolExpr.ofJson? r))
    | "Eq" =>
      let (⟨l, _⟩, ⟨r, _⟩) ← part.pair?
      some (.eq (← Expr.ofJson? l) (← Expr.ofJson? r))
    | "Not" => some (.not (← BoolExpr.ofJson? part))
    | _ =>
      match Connective.ofTag? tag with
      | some op =>
        let items ← part.items?
        let es ← items.mapM fun ⟨item, _⟩ => BoolExpr.ofJson? item
        some (.conn op es)
      | none =>
        let op ← Comparison.ofTag? tag
        let (⟨l, _⟩, ⟨r, _⟩) ← part.pair?
        some (.cmp op (← IntExpr.ofJson? l) (← IntExpr.ofJson? r))
termination_by sizeOf j

/-- Reads an expression. -/
def Expr.ofJson? [JsonForm V] (j : Json) : Option (Expr V) := do
  let (tag, ⟨part, _⟩) ← j.tagged?
  match tag with
  | "Int" => (IntExpr.ofJson? part).map .int
  | "Bool" => (BoolExpr.ofJson? part).map .bool
  | _ => none
termination_by sizeOf j

end

/-- The JSON form of a symbolic leaf with the forms of its arguments. -/
def symbolJson (name : String) (args : List Json) : Json :=
  .tagged "Sym" (.obj [("name", .str name), ("params", .arr args)])

mutual

/-- The JSON form of an integer expression. -/
def IntExpr.toJson [JsonForm V] : IntExpr V → Json
  | .const c => .tagged "Const" (.int c.val)
  | .var v => .tagged "Var" (ViewLogic.toJson v)
  | .sym name args => symbolJson name (Expr.toJsonAll args)
  | .arith op es => .tagged op.tag (.arr (IntExpr.toJsonAll es))
  | .div l r => .tagged "Div" (.arr [l.toJson, r.toJson])

/-- The JSON forms of integer expressions. -/
def IntExpr.toJsonAll [JsonForm V] : List (IntExpr V) → List Json
  | [] => []
  | e :: es => e.toJson :: IntExpr.toJsonAll es

/-- The JSON form of a Boolean expression. -/
def BoolExpr.toJson [JsonForm V] : BoolExpr V → Json
  | .lit b => .str (if b then "True" else "False")
  | .var v => .tagged "Var" (ViewLogic.toJson v)
  | .sym name args => symbolJson name (Expr.toJsonAll args)
  | .conn op es => .tagged op.tag (.arr (BoolExpr.toJsonAll es))
  | .implies l r => .tagged "Implies" (.arr [l.toJson, r.toJson])
  | .eq l r => .tagged "Eq" (.arr [l.toJson, r.toJson])
  | .cmp op l r => .tagged op.tag (.arr [l.toJson, r.toJson])
  | .not e => .tagged "Not" e.toJson

/-- The JSON forms of Boolean expressions. -/
def BoolExpr.toJsonAll [JsonForm V] : List (BoolExpr V) → List Json
  | [] => []
  | e :: es => e.toJson :: BoolExpr.toJsonAll es

/-- The JSON form of an expression. -/
def Expr.toJson [JsonForm V] : Expr V → Json
  | .int e => .tagged "Int" e.toJson
  | .bool e => .tagged "Bool" e.toJson

/-- The JSON forms of expressions. -/
def Expr.toJsonAll [JsonForm V] : List (Expr V) → List Json
  | [] => []
  | e :: es => e.toJson :: Expr.toJsonAll es

end

end ViewLogic
