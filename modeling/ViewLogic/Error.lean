/-!
# Errors

The causes of failure. The wording of each is in `Error.message`, and whether it ends a run or only
concerns one part of a script is in `Error.severity`.
-/

namespace ViewLogic

/-- Why something could not be done. -/
inductive Error where
  /-- A variable is used without a declaration. -/
  | unboundVar (name : String)
  /-- A variable, or a formal parameter, has two declarations. -/
  | duplicateVar (name : String)
  /-- Something has another type than its place asks for. -/
  | typeMismatch (name expected got : String)
  /-- A view has the wrong number of parameters. -/
  | viewArity (view : String) (expected got : Nat)
  /-- A view has no prototype. -/
  | unknownView (view : String)
  /-- A construct has no meaning here. -/
  | unsupported (construct reason : String)
  /-- An edge of a graph ends at a node that the graph does not have. -/
  | missingNode (graph edge node : String)
  /-- A backend cannot express a formula. -/
  | untranslatable (text : String)
  /-- The options or the text of a script are unusable. -/
  | badConfig (text : String)
  /-- The run itself failed. -/
  | runtime (text : String)
deriving DecidableEq

/-- How far an error reaches. -/
inductive Severity where
  /-- The run ends. -/
  | fatal
  /-- Only one part of the script is affected. -/
  | contained
deriving DecidableEq

namespace Error

/-- The text of an error. -/
def message : Error → String
  | unboundVar name => s!"Variable not found: {name}"
  | duplicateVar name => s!"Variable declared twice: {name}"
  | typeMismatch name expected got => s!"Type mismatch for {name}: expected {expected}, got {got}"
  | viewArity view expected got => s!"View {view} expects {expected} parameters, got {got}"
  | unknownView view => s!"Unknown view: {view}"
  | unsupported construct reason => s!"Unsupported construct {construct}: {reason}"
  | missingNode graph edge node =>
    s!"No such node {node} (referenced by edge {edge} in graph {graph})"
  | untranslatable text => s!"Translator error: {text}"
  | badConfig text => s!"Config error: {text}"
  | runtime text => s!"Runtime error: {text}"

/-- Duplicate variables, unusable options and failures of the run are fatal; every other error
concerns one part of a script. -/
def severity : Error → Severity
  | duplicateVar _ | badConfig _ | runtime _ => .fatal
  | _ => .contained

end Error

end ViewLogic
