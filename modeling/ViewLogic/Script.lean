import ViewLogic.Command
import ViewLogic.Pattern

/-!
# Scripts

A script declares variables, views and their definitions, and holds the methods to verify. The body
of a method alternates between views and statements: a view is held before the first statement and
after each.
-/

namespace ViewLogic

mutual

/-- A statement of a method. -/
inductive Stmt where
  | prim (cmd : Command)
  | ifThen (cond : BoolExpr Var) (body : Block)
  | ifElse (cond : BoolExpr Var) (yes no : Block)
  /-- A loop that tests its condition before each round. -/
  | whileDo (cond : BoolExpr Var) (body : Block)
  /-- A loop that tests its condition after each round. -/
  | doWhile (body : Block) (cond : BoolExpr Var)

/-- Statements between views. -/
inductive Block where
  /-- The last view. -/
  | done (held : View Var)
  /-- A view, a statement, and the block that starts with the view after the statement. -/
  | next (held : View Var) (stmt : Stmt) (rest : Block)

end

namespace Block

/-- The view held on entry. -/
def entry : Block → View Var
  | done held => held
  | next held _ _ => held

/-- The block of a first view and statements with the views after them. -/
def ofSteps (held : View Var) : List (Stmt × View Var) → Block
  | [] => done held
  | (stmt, after) :: steps => next held stmt (ofSteps after steps)

end Block

mutual

/-- The views inside a statement. -/
def Stmt.views : Stmt → List (View Var)
  | .prim _ => []
  | .ifThen _ body => body.views
  | .ifElse _ yes no => yes.views ++ no.views
  | .whileDo _ body => body.views
  | .doWhile body _ => body.views

/-- Every view of a block, in the order of the text. -/
def Block.views : Block → List (View Var)
  | .done held => [held]
  | .next held stmt rest => held :: (stmt.views ++ rest.views)

end

/-- A named method. -/
structure Method where
  name : String
  body : Block

/-- A program with its declarations and definitions. -/
structure Script where
  prototypes : List Prototype
  globals : List Decl
  locals : List Decl
  definitions : List Definition
  methods : List Method

end ViewLogic
