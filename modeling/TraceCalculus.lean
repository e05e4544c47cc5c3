import TraceCalculus.Canonical.Form
import TraceCalculus.Expr.Tracking
import TraceCalculus.Formula.Printer
import TraceCalculus.Main
import TraceCalculus.Proofs.ValueLaws
import TraceCalculus.Value.Gradient
import TraceCalculus.Proofs.ProductSteps
import TraceCalculus.Proofs.Reading
import TraceCalculus.Proofs.Constructors
import TraceCalculus.Proofs.Instances
import TraceCalculus.Proofs.RuleLaws
import TraceCalculus.Proofs.RunRules
import TraceCalculus.Proofs.Typing
import TraceCalculus.Proofs.RunValue
import TraceCalculus.Proofs.RuleIdentity
import TraceCalculus.Proofs.DualValue
import TraceCalculus.Proofs.Perturbation
import TraceCalculus.Proofs.LinearTerms
import TraceCalculus.Proofs.ReadableForm
import TraceCalculus.Proofs.IsolatingSteps
import TraceCalculus.Proofs.Isolation
import TraceCalculus.Proofs.TraceFunction
import TraceCalculus.Proofs.TrueGradient
import TraceCalculus.Proofs.Fuel
import TraceCalculus.Proofs.Weights
import TraceCalculus.Proofs.RuleWeights
import TraceCalculus.Proofs.Descent
import TraceCalculus.Proofs.Termination
import TraceCalculus.Proofs.CanonicalShape
import TraceCalculus.Proofs.Journals
import TraceCalculus.Proofs.Budget
import TraceCalculus.Proofs.Congruence
import TraceCalculus.Proofs.Doubles
import TraceCalculus.Proofs.Idempotence
import TraceCalculus.Proofs.Simplified
import TraceCalculus.Proofs.Relabelling
import TraceCalculus.Proofs.SecondDifferential
import TraceCalculus.Proofs.Bulk
import TraceCalculus.Proofs.RuleNormalForm
import TraceCalculus.Proofs.FirstOrder
import TraceCalculus.Proofs.Memo
import TraceCalculus.Proofs.Renaming
import TraceCalculus.Formula.Grammar
import TraceCalculus.Proofs.DoubleText
import TraceCalculus.Proofs.Parsing
import TraceCalculus.Proofs.Printing
import TraceCalculus.Proofs.FormulaMeaning
import TraceCalculus.Proofs.Names
import TraceCalculus.Proofs.Phrases
import TraceCalculus.Proofs.Rereading
import TraceCalculus.Proofs.Places
import TraceCalculus.Proofs.Excerpts
import TraceCalculus.Proofs.Spans
import TraceCalculus.Proofs.DirectValue
import TraceCalculus.Proofs.CanonicalGradient
import TraceCalculus.Proofs.Prices
import TraceCalculus.Proofs.Enumeration
import TraceCalculus.Proofs.BudgetTermination
import TraceCalculus.Proofs.LineWords
import TraceCalculus.Proofs.Settings
import TraceCalculus.Proofs.ErrorPlaces
import TraceCalculus.Proofs.Diagnostics
import TraceCalculus.Proofs.ScalarFactors
import TraceCalculus.Proofs.ScalarFormulas
import TraceCalculus.Proofs.SettledForms
import TraceCalculus.Proofs.SettledTraces
import TraceCalculus.Proofs.TraceLinearity
import TraceCalculus.Proofs.Literals
import TraceCalculus.Proofs.Overflow
import TraceCalculus.Proofs.Matching
import TraceCalculus.Proofs.LongestTokens
import TraceCalculus.Proofs.Shapes
import TraceCalculus.Proofs.Holding
import TraceCalculus.Proofs.FirstDegree
import TraceCalculus.Proofs.GenuineSteps
import TraceCalculus.Proofs.StepValues
import TraceCalculus.Proofs.Brackets
import TraceCalculus.Proofs.UnclosedBrackets
import TraceCalculus.Proofs.Sizes
import TraceCalculus.Proofs.EqualExpressions
