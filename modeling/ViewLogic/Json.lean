/-!
# JSON values

A JSON value keeps its object fields in the order of the text. Integers are exact; any other number
is kept as its text. A string may escape half of a surrogate pair and then stands for no text; no
accessor gives anything for such a string, so it does no harm only where nobody looks. The accessors
return parts together with the fact that they are smaller than the value they come from, so that
functions on values end.
-/

namespace ViewLogic

/-- A JSON value. -/
inductive Json where
  | null
  | bool (b : Bool)
  | int (n : Int)
  | number (text : String)
  | str (s : String)
  /-- A string that stands for no text, or an object with such a name. -/
  | garbled
  | arr (items : List Json)
  | obj (fields : List (String × Json))

namespace Json

/-- A value inside another one. -/
abbrev Part (j : Json) : Type := { v : Json // sizeOf v < sizeOf j }

/-- The text of a string value. -/
def str? : Json → Option String
  | str s => some s
  | _ => none

/-- The value of a Boolean. -/
def bool? : Json → Option Bool
  | bool b => some b
  | _ => none

/-- The value of an integer. -/
def int? : Json → Option Int
  | int n => some n
  | _ => none

/-- The value of a natural number that fits into 64 bits. -/
def nat64? : Json → Option Nat
  | int n => if 0 ≤ n ∧ n < 18446744073709551616 then some n.toNat else none
  | _ => none

/-- Whether a value is the null value. -/
def isNull : Json → Bool
  | null => true
  | _ => false

/-- The items of an array. -/
def items? : (j : Json) → Option (List j.Part)
  | arr items => some (items.attach.map fun ⟨v, h⟩ => ⟨v, by
      have := List.sizeOf_lt_of_mem h
      simp only [arr.sizeOf_spec]
      omega⟩)
  | _ => none

/-- The fields of an object. -/
def fields? : (j : Json) → Option (List (String × j.Part))
  | obj fields => some (fields.attach.map fun ⟨(name, v), h⟩ => (name, ⟨v, by
      have := List.sizeOf_lt_of_mem h
      simp only [obj.sizeOf_spec, Prod.mk.sizeOf_spec] at this ⊢
      omega⟩))
  | _ => none

/-- The value of a field of an object; `none` for another value and for a missing field. -/
def field? (j : Json) (name : String) : Option j.Part := do
  let fields ← j.fields?
  fields.lookup name

/-- The only field of an object. -/
def tagged? (j : Json) : Option (String × j.Part) :=
  match j.fields? with
  | some [entry] => some entry
  | _ => none

/-- The two items of an array of two. -/
def pair? (j : Json) : Option (j.Part × j.Part) :=
  match j.items? with
  | some [a, b] => some (a, b)
  | _ => none

/-- Whether a value is an object. -/
def isObj : Json → Bool
  | obj _ => true
  | _ => false

mutual

/-- The greatest number of containers around a place inside a value. -/
def depth : Json → Nat
  | arr items => depthItems items + 1
  | obj fields => depthFields fields + 1
  | _ => 0

/-- The greatest depth of the items of an array. -/
def depthItems : List Json → Nat
  | [] => 0
  | v :: vs => max v.depth (depthItems vs)

/-- The greatest depth of the fields of an object. -/
def depthFields : List (String × Json) → Nat
  | [] => 0
  | (_, v) :: fields => max v.depth (depthFields fields)

end

end Json

end ViewLogic
