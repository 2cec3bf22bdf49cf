import ViewLogic.Atom
import ViewLogic.Backend
import ViewLogic.Backend.Propagation
import ViewLogic.Backend.SmtLib
import ViewLogic.Bag
import ViewLogic.Command
import ViewLogic.Distinct
import ViewLogic.Error
import ViewLogic.Expr.Basic
import ViewLogic.Expr.Connective
import ViewLogic.Expr.Constant
import ViewLogic.Expr.Leaf
import ViewLogic.Expr.Order
import ViewLogic.Expr.Render
import ViewLogic.Expr.Simplify
import ViewLogic.Expr.Substitution
import ViewLogic.Flow
import ViewLogic.Flow.Lowering
import ViewLogic.Json
import ViewLogic.Json.Expr
import ViewLogic.Json.Script
import ViewLogic.Json.Text
import ViewLogic.Json.Token
import ViewLogic.Json.View
import ViewLogic.Model
import ViewLogic.Obligation
import ViewLogic.Options
import ViewLogic.Order
import ViewLogic.Pattern
import ViewLogic.Proofs.AlignedAnswers
import ViewLogic.Proofs.Answers
import ViewLogic.Proofs.AssumeFolding
import ViewLogic.Proofs.BagHistories
import ViewLogic.Proofs.ClaimedParts
import ViewLogic.Proofs.CombinedTexts
import ViewLogic.Proofs.Composition
import ViewLogic.Proofs.Conditions
import ViewLogic.Proofs.ConstantFolding
import ViewLogic.Proofs.DeclaredLeaves
import ViewLogic.Proofs.DeclaredNames
import ViewLogic.Proofs.DeclaredSymbols
import ViewLogic.Proofs.Elimination
import ViewLogic.Proofs.EliminationRounds
import ViewLogic.Proofs.Entries
import ViewLogic.Proofs.FirstFailures
import ViewLogic.Proofs.FoldedQuotient
import ViewLogic.Proofs.FoldedTriples
import ViewLogic.Proofs.ForgottenSymbols
import ViewLogic.Proofs.HeldViews
import ViewLogic.Proofs.IndependentMethods
import ViewLogic.Proofs.Instantiation
import ViewLogic.Proofs.JsonForms
import ViewLogic.Proofs.KeptAnnotations
import ViewLogic.Proofs.KeptTriples
import ViewLogic.Proofs.LocalErrors
import ViewLogic.Proofs.LoweredNodes
import ViewLogic.Proofs.Lowering
import ViewLogic.Proofs.Meaning
import ViewLogic.Proofs.MethodGraphs
import ViewLogic.Proofs.ModelParts
import ViewLogic.Proofs.Modelling
import ViewLogic.Proofs.NopFolding
import ViewLogic.Proofs.NormalForms
import ViewLogic.Proofs.Outcomes
import ViewLogic.Proofs.ParameterTypes
import ViewLogic.Proofs.Preservation
import ViewLogic.Proofs.PrimitiveRelations
import ViewLogic.Proofs.ReificationLaws
import ViewLogic.Proofs.Resolution
import ViewLogic.Proofs.RewrittenGraphs
import ViewLogic.Proofs.Selections
import ViewLogic.Proofs.SmtMeaning
import ViewLogic.Proofs.SmtReading
import ViewLogic.Proofs.SmtSyntax
import ViewLogic.Proofs.SmtWriting
import ViewLogic.Proofs.Soundness
import ViewLogic.Proofs.StageArithmetic
import ViewLogic.Proofs.SubstitutionLaws
import ViewLogic.Proofs.Traces
import ViewLogic.Proofs.Translatable
import ViewLogic.Proofs.TypedScripts
import ViewLogic.Proofs.UnwrittenVariables
import ViewLogic.Proofs.Walks
import ViewLogic.Reification
import ViewLogic.Relation
import ViewLogic.Scope
import ViewLogic.Script
import ViewLogic.Semantics
import ViewLogic.SortedMap
import ViewLogic.Text
import ViewLogic.Triple
import ViewLogic.Variable
import ViewLogic.Verification
import ViewLogic.View
