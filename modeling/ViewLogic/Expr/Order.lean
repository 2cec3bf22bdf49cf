import ViewLogic.Expr.Basic

/-!
# The order of expressions

Expressions are ordered by their form, in the order in which the forms are listed, and then part by
part; a list of operands comes before its extensions. Spelling an expression as a list of letters
turns this into the lexicographic order of lists: each form has a rank, and every operand list says
before each operand that there is one more. A spelling is never the beginning of another one, so it
determines its expression (`Expr.spell_injective`), and equality of expressions is decidable.
-/

namespace ViewLogic

open Std (TransOrd LawfulEqOrd TransCmp)

/-- A letter of a spelling: a rank, an integer, a name or a variable. -/
structure Letter (V : Type) where
  rank : Nat
  num : Int
  name : String
  var : Option V

variable {V : Type}

namespace Letter

/-- The letter of a rank. -/
def ofRank (n : Nat) : Letter V := ⟨n, 0, "", none⟩

/-- The letter of an integer. -/
def ofInt (n : Int) : Letter V := ⟨0, n, "", none⟩

/-- The letter of a name. -/
def ofName (s : String) : Letter V := ⟨0, 0, s, none⟩

/-- The letter of a variable. -/
def ofVar (v : V) : Letter V := ⟨0, 0, "", some v⟩

variable [Ord V]

/-- Compares letters part by part. -/
def compareParts : Letter V → Letter V → Ordering :=
  compareLex (compareLex (compareOn rank) (compareOn num))
    (compareLex (compareOn name) (compareOn var))

instance : Ord (Letter V) := ⟨compareParts⟩

instance [TransOrd V] : TransOrd (Letter V) :=
  inferInstanceAs (TransCmp (compareLex (compareLex (compareOn rank) (compareOn num))
    (compareLex (compareOn name) (compareOn var))))

instance [LawfulEqOrd V] : LawfulEqOrd (Letter V) where
  compare_self {a} := by
    change compareParts a a = .eq
    simp [compareParts, compareLex, compareOn]
  eq_of_compare {a b} h := by
    obtain ⟨rank, num, name, var⟩ := a
    obtain ⟨rank', num', name', var'⟩ := b
    change compareParts _ _ = .eq at h
    simp only [compareParts, compareLex, compareOn, Ordering.then_eq_eq] at h
    obtain ⟨⟨hrank, hnum⟩, hname, hvar⟩ := h
    obtain rfl := LawfulEqOrd.eq_of_compare hrank
    obtain rfl := LawfulEqOrd.eq_of_compare hnum
    obtain rfl := LawfulEqOrd.eq_of_compare hname
    obtain rfl := LawfulEqOrd.eq_of_compare hvar
    rfl

end Letter

/-- The rank of an arithmetic operation. -/
def ArithOp.rank : ArithOp → Nat
  | add => 0
  | sub => 1
  | mul => 2

/-- The rank of a connective. -/
def Connective.rank : Connective → Nat
  | and => 0
  | or => 1

/-- The rank of a comparison. -/
def Comparison.rank : Comparison → Nat
  | gt => 0
  | ge => 1
  | le => 2
  | lt => 3

/-- The rank of a literal: the true one comes first. -/
def litRank : Bool → Nat
  | true => 0
  | false => 1

mutual

/-- The letters of an integer expression. -/
def IntExpr.spell : IntExpr V → List (Letter V)
  | .const c => [.ofRank 0, .ofInt c.val]
  | .var v => [.ofRank 1, .ofVar v]
  | .sym name args => .ofRank 2 :: .ofName name :: Expr.spellAll args
  | .arith op es => .ofRank 3 :: .ofRank op.rank :: IntExpr.spellAll es
  | .div l r => .ofRank 4 :: (l.spell ++ r.spell)

/-- The letters of a list of integer expressions. -/
def IntExpr.spellAll : List (IntExpr V) → List (Letter V)
  | [] => [.ofRank 0]
  | e :: es => .ofRank 1 :: (e.spell ++ IntExpr.spellAll es)

/-- The letters of a Boolean expression. -/
def BoolExpr.spell : BoolExpr V → List (Letter V)
  | .lit b => [.ofRank 0, .ofRank (litRank b)]
  | .var v => [.ofRank 1, .ofVar v]
  | .sym name args => .ofRank 2 :: .ofName name :: Expr.spellAll args
  | .conn op es => .ofRank 3 :: .ofRank op.rank :: BoolExpr.spellAll es
  | .implies l r => .ofRank 4 :: (l.spell ++ r.spell)
  | .eq l r => .ofRank 5 :: (l.spell ++ r.spell)
  | .cmp op l r => .ofRank 6 :: .ofRank op.rank :: (l.spell ++ r.spell)
  | .not e => .ofRank 7 :: e.spell

/-- The letters of a list of Boolean expressions. -/
def BoolExpr.spellAll : List (BoolExpr V) → List (Letter V)
  | [] => [.ofRank 0]
  | e :: es => .ofRank 1 :: (e.spell ++ BoolExpr.spellAll es)

/-- The letters of an expression. -/
def Expr.spell : Expr V → List (Letter V)
  | .int e => .ofRank 0 :: e.spell
  | .bool e => .ofRank 1 :: e.spell

/-- The letters of a list of expressions. -/
def Expr.spellAll : List (Expr V) → List (Letter V)
  | [] => [.ofRank 0]
  | e :: es => .ofRank 1 :: (e.spell ++ Expr.spellAll es)

end

/-! ### A spelling determines its expression -/

/-- Letters of ranks are equal only for equal ranks. -/
@[simp] theorem Letter.ofRank_inj {m n : Nat} : (ofRank m : Letter V) = ofRank n ↔ m = n := by
  simp [ofRank]

/-- Letters of integers are equal only for equal integers. -/
@[simp] theorem Letter.ofInt_inj {m n : Int} : (ofInt m : Letter V) = ofInt n ↔ m = n := by
  simp [ofInt]

/-- Letters of names are equal only for equal names. -/
@[simp] theorem Letter.ofName_inj {s t : String} : (ofName s : Letter V) = ofName t ↔ s = t := by
  simp [ofName]

/-- Letters of variables are equal only for equal variables. -/
@[simp] theorem Letter.ofVar_inj {v w : V} : ofVar v = ofVar w ↔ v = w := by
  simp [ofVar]

/-- A constant is determined by its value. -/
@[simp] theorem Constant.val_inj {c d : Constant} : c.val = d.val ↔ c = d := by
  cases c
  cases d
  simp

/-- Different arithmetic operations have different ranks. -/
@[simp] theorem ArithOp.rank_inj {op op' : ArithOp} : op.rank = op'.rank ↔ op = op' := by
  cases op <;> cases op' <;> decide

/-- Different connectives have different ranks. -/
@[simp] theorem Connective.rank_inj {op op' : Connective} : op.rank = op'.rank ↔ op = op' := by
  cases op <;> cases op' <;> decide

/-- Different comparisons have different ranks. -/
@[simp] theorem Comparison.rank_inj {op op' : Comparison} : op.rank = op'.rank ↔ op = op' := by
  cases op <;> cases op' <;> decide

/-- The two truth values have different ranks. -/
@[simp] theorem litRank_inj {b b' : Bool} : litRank b = litRank b' ↔ b = b' := by
  cases b <;> cases b' <;> decide

/-- The spelling of `a` followed by more letters is no other spelling followed by more letters. -/
def Unambiguous {α : Type} (spell : α → List (Letter V)) (a : α) : Prop :=
  ∀ b r s, spell a ++ r = spell b ++ s → a = b ∧ r = s

/-- Two operands spelled one after the other. -/
theorem Unambiguous.pair {α β : Type} {spell : α → List (Letter V)} {spell' : β → List (Letter V)}
    {a b : α} {a' b' : β} {r s : List (Letter V)} (ha : Unambiguous spell a)
    (ha' : Unambiguous spell' a') (h : spell a ++ (spell' a' ++ r) = spell b ++ (spell' b' ++ s)) :
    (a = b ∧ a' = b') ∧ r = s := by
  obtain ⟨hab, hrest⟩ := ha b _ _ h
  obtain ⟨hab', hend⟩ := ha' b' r s hrest
  exact ⟨⟨hab, hab'⟩, hend⟩

/-- A list of operands is spelled unambiguously if each operand is. -/
theorem Unambiguous.list {α : Type} (spell : α → List (Letter V))
    (spellAll : List α → List (Letter V)) (hnil : spellAll [] = [.ofRank 0])
    (hcons : ∀ a as, spellAll (a :: as) = .ofRank 1 :: (spell a ++ spellAll as))
    {as : List α} (has : ∀ a ∈ as, Unambiguous spell a) : Unambiguous spellAll as := by
  induction as with
  | nil =>
    intro bs r s h
    cases bs with
    | nil => simpa [hnil] using h
    | cons b bs => simp [hnil, hcons, Letter.ofRank_inj] at h
  | cons a as ih =>
    intro bs r s h
    cases bs with
    | nil => simp [hnil, hcons, Letter.ofRank_inj] at h
    | cons b bs =>
      simp only [hcons, List.cons_append, List.cons.injEq, true_and, List.append_assoc] at h
      have hrest := ih fun a ha => has a (by simp [ha])
      simpa using (has a (by simp)).pair hrest h

/-- Every expression is spelled unambiguously. -/
theorem Expr.unambiguous :
    (∀ e : IntExpr V, Unambiguous IntExpr.spell e) ∧
      (∀ e : BoolExpr V, Unambiguous BoolExpr.spell e) ∧
      ∀ e : Expr V, Unambiguous Expr.spell e := by
  have hargs {args : List (Expr V)} (h : ∀ a ∈ args, Unambiguous Expr.spell a) :
      Unambiguous Expr.spellAll args := .list Expr.spell _ rfl (fun _ _ => rfl) h
  have hints {es : List (IntExpr V)} (h : ∀ e ∈ es, Unambiguous IntExpr.spell e) :
      Unambiguous IntExpr.spellAll es := .list IntExpr.spell _ rfl (fun _ _ => rfl) h
  have hbools {es : List (BoolExpr V)} (h : ∀ e ∈ es, Unambiguous BoolExpr.spell e) :
      Unambiguous BoolExpr.spellAll es := .list BoolExpr.spell _ rfl (fun _ _ => rfl) h
  apply Expr.induct
  case const | intVar =>
    intro _ e r s h
    cases e <;> simp_all [IntExpr.spell]
  case intSym =>
    intro name args ih e r s h
    cases e <;> simp [IntExpr.spell] at h
    case sym => simpa [h.1] using hargs ih _ r s h.2
  case arith =>
    intro op es ih e r s h
    cases e <;> simp [IntExpr.spell] at h
    case arith => simpa [h.1] using hints ih _ r s h.2
  case div =>
    intro l r' hl hr e r s h
    cases e <;> simp [IntExpr.spell] at h
    case div => simpa using hl.pair hr h
  case lit | boolVar =>
    intro _ e r s h
    cases e <;> simp_all [BoolExpr.spell]
  case boolSym =>
    intro name args ih e r s h
    cases e <;> simp [BoolExpr.spell] at h
    case sym => simpa [h.1] using hargs ih _ r s h.2
  case conn =>
    intro op es ih e r s h
    cases e <;> simp [BoolExpr.spell] at h
    case conn => simpa [h.1] using hbools ih _ r s h.2
  case implies | eq =>
    intro l r' hl hr e r s h
    cases e <;> simp [BoolExpr.spell] at h
    simpa using hl.pair hr h
  case cmp =>
    intro op l r' hl hr e r s h
    cases e <;> simp [BoolExpr.spell] at h
    case cmp => simpa [h.1] using hl.pair hr h.2
  case not =>
    intro e' he e r s h
    cases e <;> simp [BoolExpr.spell] at h
    case not => simpa using he _ r s h
  case int | bool =>
    intro e' he e r s h
    cases e <;> simp [Expr.spell] at h
    simpa using he _ r s h

/-- A spelling determines its integer expression. -/
theorem IntExpr.spell_injective (e e' : IntExpr V) (h : e.spell = e'.spell) : e = e' :=
  (Expr.unambiguous.1 e e' [] [] (by simpa using h)).1

/-- A spelling determines its Boolean expression. -/
theorem BoolExpr.spell_injective (e e' : BoolExpr V) (h : e.spell = e'.spell) : e = e' :=
  (Expr.unambiguous.2.1 e e' [] [] (by simpa using h)).1

/-- A spelling determines its expression. -/
theorem Expr.spell_injective (e e' : Expr V) (h : e.spell = e'.spell) : e = e' :=
  (Expr.unambiguous.2.2 e e' [] [] (by simpa using h)).1

/-! ### The orders -/

section Instances

variable [Ord V]

instance : Ord (IntExpr V) := ⟨compareOn IntExpr.spell⟩

instance : Ord (BoolExpr V) := ⟨compareOn BoolExpr.spell⟩

instance : Ord (Expr V) := ⟨compareOn Expr.spell⟩

instance [TransOrd V] : TransOrd (IntExpr V) := inferInstanceAs (TransCmp (compareOn IntExpr.spell))

instance [TransOrd V] : TransOrd (BoolExpr V) :=
  inferInstanceAs (TransCmp (compareOn BoolExpr.spell))

instance [TransOrd V] : TransOrd (Expr V) := inferInstanceAs (TransCmp (compareOn Expr.spell))

variable [LawfulEqOrd V]

instance : LawfulEqOrd (IntExpr V) := lawfulEqCmp_compareOn IntExpr.spell_injective

instance : LawfulEqOrd (BoolExpr V) := lawfulEqCmp_compareOn BoolExpr.spell_injective

instance : LawfulEqOrd (Expr V) := lawfulEqCmp_compareOn Expr.spell_injective

instance : DecidableEq (IntExpr V) := fun e e' =>
  decidable_of_iff (compare e e' = .eq) Std.LawfulEqCmp.compare_eq_iff_eq

instance : DecidableEq (BoolExpr V) := fun e e' =>
  decidable_of_iff (compare e e' = .eq) Std.LawfulEqCmp.compare_eq_iff_eq

instance : DecidableEq (Expr V) := fun e e' =>
  decidable_of_iff (compare e e' = .eq) Std.LawfulEqCmp.compare_eq_iff_eq

end Instances

end ViewLogic
