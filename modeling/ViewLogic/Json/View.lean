import ViewLogic.Json.Expr
import ViewLogic.Reification

/-!
# The JSON form of views

Atoms, views, patterns, prototypes and definitions, and the bags of guarded atoms and of matches. A
bag is an object whose only field lists its elements with their numbers. When it is read, an element
may be listed several times, in any place, and with the number zero.
-/

namespace ViewLogic

open Std (TransOrd)

variable {V P α : Type}

/-- Reads an atom with parameters of a type. -/
def Atom.ofJson? (param : Json → Option P) (j : Json) : Option (Atom P) := do
  let name ← j.required? Json.str? "name"
  let params ← j.required? (Json.list? param) "params"
  some ⟨name, params⟩

/-- The JSON form of an atom. -/
def Atom.toJson (param : P → Json) (a : Atom P) : Json :=
  .obj [("name", .str a.name), ("params", .arr (a.params.map param))]

/-- Reads a view. -/
def View.ofJson? [JsonForm V] (j : Json) : Option (View V) :=
  match j.str? with
  | some "Unit" => some .unit
  | some _ => none
  | none => do
    let (tag, ⟨part, _⟩) ← j.tagged?
    match tag with
    | "Func" => (Atom.ofJson? Expr.ofJson? part).map .atom
    | "Join" =>
      let (⟨l, _⟩, ⟨r, _⟩) ← part.pair?
      some (.join (← View.ofJson? l) (← View.ofJson? r))
    | "If" =>
      match part.items? with
      | some [⟨cond, _⟩, ⟨yes, _⟩, ⟨no, _⟩] =>
        some (.ite (← BoolExpr.ofJson? cond) (← View.ofJson? yes) (← View.ofJson? no))
      | _ => none
    | _ => none
termination_by sizeOf j

/-- The JSON form of a view. -/
def View.toJson [JsonForm V] : View V → Json
  | unit => .str "Unit"
  | atom a => .tagged "Func" (a.toJson Expr.toJson)
  | join l r => .tagged "Join" (.arr [l.toJson, r.toJson])
  | ite cond yes no => .tagged "If" (.arr [cond.toJson, yes.toJson, no.toJson])

/-- Reads something with its guard. -/
def Guarded.ofJson? [JsonForm V] (item : Json → Option α) (j : Json) : Option (Guarded V α) := do
  let guard ← j.required? BoolExpr.ofJson? "guard"
  let item ← j.required? item "item"
  some ⟨guard, item⟩

/-- The JSON form of something with its guard. -/
def Guarded.toJson [JsonForm V] (item : α → Json) (g : Guarded V α) : Json :=
  .obj [("guard", g.guard.toJson), ("item", item g.item)]

/-- Reads a guarded atom. -/
def Held.ofJson? [JsonForm V] (j : Json) : Option (Held V) :=
  Guarded.ofJson? (Atom.ofJson? Expr.ofJson?) j

/-- The JSON form of a guarded atom. -/
def Held.toJson [JsonForm V] (h : Held V) : Json := Guarded.toJson (Atom.toJson Expr.toJson) h

/-- Reads a match. -/
def Match.ofJson? [JsonForm V] (j : Json) : Option (Match V) :=
  Guarded.ofJson? (Json.list? (Atom.ofJson? Expr.ofJson?)) j

/-- The JSON form of a match. -/
def Match.toJson [JsonForm V] (m : Match V) : Json :=
  Guarded.toJson (fun atoms => .arr (atoms.map (Atom.toJson Expr.toJson))) m

namespace Bag

/-- Reads counted elements. -/
def countsOfJson? (elem : Json → Option α) (j : Json) : Option (List (α × Nat)) :=
  j.list? fun entry => do
    let (x, n) ← entry.pair?
    some (← elem x.1, ← n.1.nat64?)

/-- The JSON form of counted elements. -/
def countsToJson (elem : α → Json) (l : List (α × Nat)) : Json :=
  .arr (l.map fun e => .arr [elem e.1, .int e.2])

variable [Ord α]

/-- Reads a bag. -/
def ofJson? [TransOrd α] (elem : Json → Option α) (j : Json) : Option (Bag α) :=
  (j.required? (countsOfJson? elem) "counts").map ofCounts

/-- The JSON form of a bag. -/
def toJson (elem : α → Json) (b : Bag α) : Json :=
  .obj [("counts", countsToJson elem b.counts.entries)]

end Bag

/-- Reads a pattern. -/
def Pattern.ofJson? (j : Json) : Option Pattern :=
  match j.str? with
  | some "Unit" => some .unit
  | some _ => none
  | none => do
    let (tag, ⟨part, _⟩) ← j.tagged?
    match tag with
    | "Func" => (Atom.ofJson? Decl.ofJson? part).map .atom
    | "Join" =>
      let (⟨l, _⟩, ⟨r, _⟩) ← part.pair?
      some (.join (← Pattern.ofJson? l) (← Pattern.ofJson? r))
    | _ => none
termination_by sizeOf j

/-- The JSON form of a pattern. -/
def Pattern.toJson : Pattern → Json
  | unit => .str "Unit"
  | atom a => .tagged "Func" (a.toJson Decl.toJson)
  | join l r => .tagged "Join" (.arr [l.toJson, r.toJson])

/-- Reads a prototype. -/
def Prototype.ofJson? (j : Json) : Option Prototype := do
  let name ← j.required? Json.str? "name"
  let params ← j.required? (Json.list? Decl.ofJson?) "params"
  some ⟨name, params⟩

/-- The JSON form of a prototype. -/
def Prototype.toJson (p : Prototype) : Json :=
  .obj [("name", .str p.name), ("params", .arr (p.params.map Decl.toJson))]

namespace Json

/-- Reads a value that may be null. -/
def nullable? {α : Type} (read : Json → Option α) (j : Json) : Option (Option α) :=
  if j.isNull then some none else (read j).map some

/-- The form of a value that may be missing. -/
def ofOption {α : Type} (write : α → Json) : Option α → Json
  | some a => write a
  | none => null

end Json

/-- Reads a definition; a missing body is no body. -/
def Definition.ofJson? (j : Json) : Option Definition := do
  let pattern ← j.required? Pattern.ofJson? "view"
  let body ← j.optional? (Json.nullable? BoolExpr.ofJson?) "body" none
  some ⟨pattern, body⟩

/-- The JSON form of a definition. -/
def Definition.toJson (d : Definition) : Json :=
  .obj [("view", d.pattern.toJson), ("body", .ofOption BoolExpr.toJson d.body)]

end ViewLogic
