import ViewLogic.Variable

/-!
# Texts

Types whose values have a text, and the shapes that texts share.
-/

namespace ViewLogic

/-- A type whose values have a text. -/
class HasText (α : Type) where
  text : α → String

export HasText (text)

instance : HasText Var := ⟨id⟩

instance : HasText MarkedVar := ⟨MarkedVar.render⟩

instance : HasText Decl := ⟨Decl.render⟩

/-- Numbers are written in digits. -/
theorem isDigit_of_mem_toString {n : Nat} {c : Char} (h : c ∈ (toString n).toList) :
    c.isDigit = true := by
  rw [Nat.toString_eq_repr, Nat.toList_repr] at h
  exact Nat.isDigit_of_mem_toDigits (by decide) (by decide) h

/-- A text with a character that is no digit is no numeral. -/
theorem ne_toString_of_any {text : String} (h : text.toList.any (!·.isDigit) = true) (n : Nat) :
    text ≠ toString n := by
  rintro rfl
  obtain ⟨c, hc, hdigit⟩ := List.any_eq_true.mp h
  rw [isDigit_of_mem_toString hc] at hdigit
  cases hdigit

/-- Operands in parentheses, with a sign between each two. -/
def infixText (sign : String) (operands : List String) : String :=
  "(" ++ String.intercalate (" " ++ sign ++ " ") operands ++ ")"

/-- A name with its arguments in parentheses. -/
def callText (name : String) (args : List String) : String :=
  name ++ "(" ++ String.intercalate ", " args ++ ")"

/-- The name that stands for a symbolic leaf. -/
def symbolText (name : String) : String := "%\x7b" ++ name ++ "\x7d"

end ViewLogic
