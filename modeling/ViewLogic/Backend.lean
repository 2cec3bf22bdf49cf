import ViewLogic.Obligation

/-!
# Backends

A backend has formulas of its own, and takes an obligation as far as the mode asks: its parts are
translated, then combined into the formula that no state satisfies if the obligation holds, then
that formula is checked. Obligations are independent, and every answer stays with its obligation.
-/

namespace ViewLogic

/-- Whether a combined formula can be satisfied. -/
inductive Verdict where
  /-- Some state satisfies it: the obligation fails. -/
  | sat
  /-- No state satisfies it: the obligation holds. -/
  | unsat
  | unknown (reason : String)
deriving DecidableEq

namespace Verdict

/-- Whether the obligation holds. -/
def isProved (v : Verdict) : Bool := v = unsat

/-- Whether the obligation fails. -/
def isRefuted (v : Verdict) : Bool := v = sat

/-- The text of a verdict. -/
def render : Verdict → String
  | sat => "sat"
  | unsat => "unsat"
  | unknown reason => "unknown (" ++ reason ++ ")"

end Verdict

/-- A solver for formulas of type `T`. -/
structure Backend (T : Type) where
  name : String
  translate : Relation → Except Error T
  conjoin : List T → T
  negate : T → T
  check : T → Except Error Verdict

/-- What a backend says of an obligation. -/
inductive Response (T : Type) where
  | translated (pre cmd post : T)
  | combined (formula : T)
  | checked (formula : T) (verdict : Verdict)

/-- The verdict of a response that went as far as checking. -/
def Response.verdict? {T : Type} : Response T → Option Verdict
  | checked _ verdict => some verdict
  | _ => none

namespace Backend

variable {T : Type}

/-- Takes one obligation as far as the mode asks. -/
def respond (b : Backend T) (mode : Mode) (o : Obligation) : Except Error (Response T) := do
  let pre ← b.translate o.pre
  let cmd ← b.translate o.cmd
  let post ← b.translate o.post
  let formula := b.conjoin [pre, cmd, b.negate post]
  match mode with
  | .translate => .ok (.translated pre cmd post)
  | .combine => .ok (.combined formula)
  | .check =>
    let verdict ← b.check formula
    .ok (.checked formula verdict)

/-- The entries that could be built. -/
def built {α : Type} (entries : List (String × Except Error α)) : List α :=
  entries.filterMap fun e => e.2.toOption

/-- Gives the answers to the entries that could be built, in order. -/
def align {α β : Type} :
    List (String × Except Error α) → List (Except Error β) → List (String × Except Error β)
  | [], _ => []
  | (name, .error e) :: entries, answers => (name, .error e) :: align entries answers
  | (name, .ok _) :: entries, answer :: answers => (name, answer) :: align entries answers
  | (name, .ok _) :: entries, [] =>
    (name, .error (.runtime ("no solver response for " ++ name))) :: align entries []

/-- Takes all obligations as far as the mode asks. An obligation that could not be built keeps its
error and reaches no backend. -/
def solveOn (pool : Pool) (b : Backend T) (mode : Mode) (dispatch : Dispatch)
    (entries : List (String × Except Error Obligation)) :
    Except Error (List (String × Except Error (Response T))) := do
  let answers ← dispatch.runOn pool (b.respond mode) (built entries)
  .ok (align entries answers)

/-- Takes all obligations as far as the mode asks, one after the other. -/
def solve (b : Backend T) (mode : Mode) (dispatch : Dispatch)
    (entries : List (String × Except Error Obligation)) :
    Except Error (List (String × Except Error (Response T))) :=
  b.solveOn .single mode dispatch entries

end Backend

end ViewLogic
