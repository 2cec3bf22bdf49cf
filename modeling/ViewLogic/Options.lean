import ViewLogic.Error

/-!
# Options of a run

How far each obligation is taken, how the work is spread, and which steps reduce graphs and
obligations on the way.
-/

namespace ViewLogic

/-- How far an obligation is taken through a backend. -/
inductive Mode where
  /-- Its parts are translated. -/
  | translate
  /-- The translated parts are combined into one formula. -/
  | combine
  /-- The formula is checked. -/
  | check
deriving DecidableEq

/-- How independent work is spread. It never changes a result or the order of results. -/
structure Dispatch where
  /-- The greatest number of workers; `none` is one for each processor. -/
  workers : Option Nat
  /-- Whether one failure ends the whole work. -/
  failFast : Bool
deriving DecidableEq

/-- The machine that runs workers at the same time. -/
structure Pool where
  /-- The number of processors. -/
  processors : Nat
  /-- Lets a number of workers apply a function to all items, or tells why they cannot start. -/
  map {α β : Type} (workers : Nat) (f : α → β) (items : List α) : Except String (List β)

/-- A single processor, which takes the items one after the other. -/
def Pool.single : Pool := ⟨1, fun _ f items => .ok (items.map f)⟩

namespace Dispatch

/-- One worker for each processor, and every failure kept where it arises. -/
def standard : Dispatch := ⟨none, false⟩

/-- Gathers results in their order. If one failure ends the work, then it ends with the first
one. -/
def collect {ε α : Type} (failFast : Bool) : List (Except ε α) → Except ε (List (Except ε α))
  | [] => .ok []
  | .error e :: rest =>
    if failFast then .error e else (collect failFast rest).map (.error e :: ·)
  | .ok a :: rest => (collect failFast rest).map (.ok a :: ·)

/-- Applies a function to every item and gathers the results. A pool takes part if there are at
least two items and two workers for them. -/
def runOn {α β : Type} (pool : Pool) (d : Dispatch) (f : α → Except Error β) (items : List α) :
    Except Error (List (Except Error β)) :=
  let workers := d.workers.getD pool.processors
  if items.isEmpty then .ok []
  else if items.length = 1 ∨ workers ≤ 1 then collect d.failFast (items.map f)
  else match pool.map (min workers items.length) f items with
    | .error reason => .error (.runtime ("Failed to create thread pool: " ++ reason))
    | .ok results => collect d.failFast results

/-- Applies a function to every item. The results are in the order of the items; a run that ends at
the first failure ends with the first one in that order. -/
def run {α β : Type} (d : Dispatch) (f : α → Except Error β) (items : List α) :
    Except Error (List (Except Error β)) := d.runOn .single f items

end Dispatch

/-- The options of a run. -/
structure Options where
  mode : Mode
  dispatch : Dispatch
  /-- Whether commands forget equalities with symbolic leaves. -/
  forgetSymbols : Bool
  /-- Whether edges that do nothing between equal nodes are folded. -/
  foldNops : Bool
  /-- Whether an assumed condition becomes part of the precondition. -/
  foldAssumes : Bool
deriving DecidableEq

namespace Options

/-- Everything is checked and every reducing step is taken. -/
def standard : Options := ⟨.check, .standard, true, true, true⟩

/-- Refuses options that leave no worker. -/
def validate (o : Options) : Except Error Unit :=
  if o.dispatch.workers = some 0 then
    .error (.badConfig "parallel.max_parallelism must be at least 1")
  else .ok ()

end Options

end ViewLogic
