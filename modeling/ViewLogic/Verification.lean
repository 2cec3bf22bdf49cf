import ViewLogic.Backend

/-!
# Verification

A run models a script, builds the obligations of its methods and takes them through a backend. Its
report holds what went wrong in the model and one answer for each obligation.
-/

namespace ViewLogic

variable {T : Type}

/-- The outcome of a run. -/
structure Report (T : Type) where
  diagnostics : List Diagnostic
  responses : List (String × Except Error (Response T))

/-- How many answers of each kind a report holds. -/
structure Summary where
  total : Nat
  proved : Nat
  refuted : Nat
  undecided : Nat
  errors : Nat
  diagnostics : Nat
deriving DecidableEq

/-- What an answer comes to. -/
inductive Outcome where
  | proved
  | refuted
  | undecided
  | error
deriving DecidableEq

/-- The outcome of an answer. -/
def Outcome.ofAnswer : Except Error (Response T) → Outcome
  | .error _ => error
  | .ok r =>
    match r.verdict? with
    | some .unsat => proved
    | some .sat => refuted
    | _ => undecided

namespace Report

/-- The number of answers with an outcome. -/
def countOutcome (r : Report T) (o : Outcome) : Nat :=
  r.responses.countP fun answer => .ofAnswer answer.2 = o

/-- The numbers of a report. -/
def summary (r : Report T) : Summary where
  total := r.responses.length
  proved := r.countOutcome .proved
  refuted := r.countOutcome .refuted
  undecided := r.countOutcome .undecided
  errors := r.countOutcome .error
  diagnostics := r.diagnostics.length

/-- Whether nothing went wrong and every obligation is proved. -/
def allProved (r : Report T) : Bool :=
  r.summary.diagnostics = 0 ∧ r.summary.proved = r.summary.total

end Report

namespace Script

/-- The model of a script under usable options. -/
def validModel (s : Script) (options : Options) : Except Error Model := do
  options.validate
  s.model options

/-- Verifies a script, with the work on its obligations spread over a pool. -/
def verifyOn (pool : Pool) (s : Script) (semantics : Semantics) (options : Options)
    (b : Backend T) : Except Error (Report T) := do
  let m ← s.validModel options
  let entries ← m.obligations semantics options
  let responses ← b.solveOn pool options.mode options.dispatch entries
  .ok ⟨m.diagnostics, responses⟩

/-- Verifies a script, one obligation after the other. -/
def verify (s : Script) (semantics : Semantics) (options : Options) (b : Backend T) :
    Except Error (Report T) :=
  s.verifyOn .single semantics options b

end Script

end ViewLogic
