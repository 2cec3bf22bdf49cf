import ViewLogic.Command

/-!
# The meaning of commands

A rule gives a primitive its relation over formal parameters. The relation of a primitive is its
rule with the actual parameters put in, and the frame: every declared variable that it does not
write keeps its value. The relation of a command composes those of its primitives.
-/

namespace ViewLogic

/-- The relation of a primitive, over its formal parameters. -/
structure Rule where
  params : List Decl
  body : BoolExpr Var

/-- The actual parameters by the names of the formal ones. -/
abbrev Actuals := SortedMap Var (Expr MarkedVar)

/-- Puts actual parameters in place of formal ones. A variable that is no formal parameter is left
to `free`; a formal parameter may only be read at the type of its actual one. -/
def Actuals.resolver (actuals : Actuals) (free : Ty → Var → Except Error MarkedVar) :
    Resolver Error Var MarkedVar where
  int x :=
    match actuals.get? x with
    | some (.int e) => .ok e
    | some (.bool _) => .error (.typeMismatch x Ty.bool.render Ty.int.render)
    | none => (free .int x).map .var
  bool x :=
    match actuals.get? x with
    | some (.bool e) => .ok e
    | some (.int _) => .error (.typeMismatch x Ty.int.render Ty.bool.render)
    | none => (free .bool x).map .var

/-- The rules of the primitives by name. -/
structure Semantics where
  rules : SortedMap String Rule

namespace Semantics

/-- Adds a rule, in place of any earlier one of the same name. -/
def register (s : Semantics) (name : String) (rule : Rule) : Semantics :=
  ⟨s.rules.insert name rule⟩

/-- Only the rule of `Assume`, whose relation is its condition. -/
def minimal : Semantics :=
  register ⟨∅⟩ Command.assumeName ⟨[⟨.bool, "c"⟩], .var "c"⟩

/-- The equality of two integer expressions. -/
def intEq (l r : IntExpr Var) : BoolExpr Var := .eq (.int l) (.int r)

/-- The successor of an integer variable. -/
def succ (x : Var) : IntExpr Var := .arith .add [.var x, .const .one]

/-- Beside `Assume`: assignment of integers and Booleans, a counter, and a counter that is read as
it is increased. -/
def core : Semantics :=
  minimal
    |>.register "IAssign" ⟨[⟨.int, "dest"⟩, ⟨.int, "src"⟩], intEq (.var "dest") (.var "src")⟩
    |>.register "BAssign"
      ⟨[⟨.bool, "dest"⟩, ⟨.bool, "src"⟩], .eq (.bool (.var "dest")) (.bool (.var "src"))⟩
    |>.register "IIncr" ⟨[⟨.int, "dest"⟩, ⟨.int, "src"⟩], intEq (.var "dest") (succ "src")⟩
    |>.register "IFetchIncr"
      ⟨[⟨.int, "dest"⟩, ⟨.int, "ctr_after"⟩, ⟨.int, "ctr"⟩],
        .all [intEq (.var "dest") (.var "ctr"), intEq (.var "ctr_after") (succ "ctr")]⟩

/-- Pairs the formal parameters of a rule with actual ones of the same types. Of two formal
parameters of one name the last counts. -/
def bind (name : String) (formals : List Decl) (params : List (Expr MarkedVar)) :
    Except Error Actuals :=
  (formals.zip params).foldlM (fun actuals (formal, actual) =>
    if formal.ty = actual.ty then .ok (actuals.insert formal.name actual)
    else .error
      (.typeMismatch (name ++ "." ++ formal.name) formal.ty.render actual.ty.render)) ∅

/-- The rule of a primitive with its actual parameters put in. -/
def instantiate (s : Semantics) (p : Primitive) : Except Error Relation := do
  let some rule := s.rules.get? p.name
    | .error (.unsupported p.name "no semantics defined for primitive")
  if rule.params.length ≠ p.params.length then
    .error (.unsupported p.name
      s!"expects {rule.params.length} parameters, got {p.params.length}")
  let actuals ← bind p.name rule.params p.params
  rule.body.resolve (actuals.resolver fun _ x => .error (.unboundVar x))

/-- Every declared variable that is not written keeps its value. -/
def frame (scope : Scope) (written : List Var) : Relation :=
  .all ((scope.decls.filter (·.name ∉ written)).map fun d =>
    .eq (.ofVar d.ty ⟨.after, d.name⟩) (.ofVar d.ty ⟨.before, d.name⟩))

/-- The relation of a primitive, with its frame. -/
def primitiveRelation (s : Semantics) (scope : Scope) (p : Primitive) : Except Error Relation := do
  Command.checkScope [p] scope
  let body ← s.instantiate p
  .ok (.all [body, frame scope p.written])

/-- The composition of relations from left to right; without any, nothing changes. -/
def composeAll (scope : Scope) : List Relation → Relation
  | [] => frame scope []
  | r :: rs => rs.foldl Relation.compose r

/-- The relation of a command. -/
def commandRelation (s : Semantics) (scope : Scope) (c : Command) : Except Error Relation := do
  let relations ← c.mapM (s.primitiveRelation scope)
  .ok (composeAll scope relations)

end Semantics

end ViewLogic
