import RuleAlgebra.Calculus.Antiderivative
import RuleAlgebra.Calculus.Derivative
import RuleAlgebra.Calculus.Limit
import RuleAlgebra.Calculus.Series
import RuleAlgebra.CommandLine.Options
import RuleAlgebra.CommandLine.Run
import RuleAlgebra.Decimal.General
import RuleAlgebra.Decimal.Numeral
import RuleAlgebra.Decimal.Shortest
import RuleAlgebra.Engine
import RuleAlgebra.Equation.Binary64
import RuleAlgebra.Equation.LinearSystem
import RuleAlgebra.Equation.Numeric
import RuleAlgebra.Equation.Solution
import RuleAlgebra.Equation.Solver
import RuleAlgebra.Expr.Basic
import RuleAlgebra.Expr.Build
import RuleAlgebra.Expr.Domain
import RuleAlgebra.Expr.Evaluation
import RuleAlgebra.Expr.Pattern
import RuleAlgebra.Expr.Printer
import RuleAlgebra.Expr.Substitution
import RuleAlgebra.Failure
import RuleAlgebra.Grammar.Parser
import RuleAlgebra.Grammar.Token
import RuleAlgebra.Main
import RuleAlgebra.Polynomial.Coefficient
import RuleAlgebra.Polynomial.Coefficients
import RuleAlgebra.Polynomial.Roots
import RuleAlgebra.Polynomial.Term
import RuleAlgebra.Proofs.AlgebraicRules
import RuleAlgebra.Proofs.AnswerVariables
import RuleAlgebra.Proofs.Antidifferentiation
import RuleAlgebra.Proofs.ArithmeticRules
import RuleAlgebra.Proofs.BestFractions
import RuleAlgebra.Proofs.BinaryOrder
import RuleAlgebra.Proofs.BinaryRange
import RuleAlgebra.Proofs.BinaryZeros
import RuleAlgebra.Proofs.CalculusVariables
import RuleAlgebra.Proofs.CancellationCosts
import RuleAlgebra.Proofs.CanonicalFractions
import RuleAlgebra.Proofs.CarriedSteps
import RuleAlgebra.Proofs.CommonFactorMasses
import RuleAlgebra.Proofs.CommonFactors
import RuleAlgebra.Proofs.ConstantVerdicts
import RuleAlgebra.Proofs.CopiedLibraries
import RuleAlgebra.Proofs.DerivativeRules
import RuleAlgebra.Proofs.Differentiability
import RuleAlgebra.Proofs.DifferentialLaws
import RuleAlgebra.Proofs.Differentiation
import RuleAlgebra.Proofs.DomainConditions
import RuleAlgebra.Proofs.Elimination
import RuleAlgebra.Proofs.EqualExpressions
import RuleAlgebra.Proofs.EqualRules
import RuleAlgebra.Proofs.EquationSides
import RuleAlgebra.Proofs.ExactCoefficients
import RuleAlgebra.Proofs.ExactEvaluation
import RuleAlgebra.Proofs.ExactScalars
import RuleAlgebra.Proofs.ExpandedForms
import RuleAlgebra.Proofs.ExpressionDegrees
import RuleAlgebra.Proofs.FactorCosts
import RuleAlgebra.Proofs.FailedLines
import RuleAlgebra.Proofs.FirstLexemes
import RuleAlgebra.Proofs.FunctionRules
import RuleAlgebra.Proofs.GrammarDerivations
import RuleAlgebra.Proofs.GrammarRecognition
import RuleAlgebra.Proofs.HeldIntegers
import RuleAlgebra.Proofs.Identities
import RuleAlgebra.Proofs.InheritedProperties
import RuleAlgebra.Proofs.InheritingRules
import RuleAlgebra.Proofs.Instantiation
import RuleAlgebra.Proofs.IntegerFactoring
import RuleAlgebra.Proofs.IntegrationRules
import RuleAlgebra.Proofs.Interpretation
import RuleAlgebra.Proofs.LatexCommands
import RuleAlgebra.Proofs.LatexReading
import RuleAlgebra.Proofs.Lexemes
import RuleAlgebra.Proofs.Lexing
import RuleAlgebra.Proofs.LinearArguments
import RuleAlgebra.Proofs.LinearEquations
import RuleAlgebra.Proofs.LinearForms
import RuleAlgebra.Proofs.LoadedRules
import RuleAlgebra.Proofs.LongestMatches
import RuleAlgebra.Proofs.MappedRules
import RuleAlgebra.Proofs.NameIndex
import RuleAlgebra.Proofs.NumberClasses
import RuleAlgebra.Proofs.Occurrences
import RuleAlgebra.Proofs.Outcomes
import RuleAlgebra.Proofs.Overflow
import RuleAlgebra.Proofs.OverflowingRules
import RuleAlgebra.Proofs.OverflowingRuns
import RuleAlgebra.Proofs.ParsedExpressions
import RuleAlgebra.Proofs.PatternMatching
import RuleAlgebra.Proofs.PolynomialSolutions
import RuleAlgebra.Proofs.PowerCosts
import RuleAlgebra.Proofs.PowerRules
import RuleAlgebra.Proofs.PrintedRules
import RuleAlgebra.Proofs.Printing
import RuleAlgebra.Proofs.PythagoreanIdentity
import RuleAlgebra.Proofs.RationalRoots
import RuleAlgebra.Proofs.RealEvaluation
import RuleAlgebra.Proofs.RealInterpretation
import RuleAlgebra.Proofs.RealSimplification
import RuleAlgebra.Proofs.ReductionCost
import RuleAlgebra.Proofs.RegroupedSums
import RuleAlgebra.Proofs.ReportedFailures
import RuleAlgebra.Proofs.RereadSums
import RuleAlgebra.Proofs.RootFactoring
import RuleAlgebra.Proofs.RootScan
import RuleAlgebra.Proofs.RootSearch
import RuleAlgebra.Proofs.RuleCosts
import RuleAlgebra.Proofs.RuleSwitches
import RuleAlgebra.Proofs.ScalarMaps
import RuleAlgebra.Proofs.ScriptRuns
import RuleAlgebra.Proofs.SeriesCoefficients
import RuleAlgebra.Proofs.SettledRuns
import RuleAlgebra.Proofs.SettledSamples
import RuleAlgebra.Proofs.SignedNumerals
import RuleAlgebra.Proofs.SignedZeros
import RuleAlgebra.Proofs.SimplifierInvariants
import RuleAlgebra.Proofs.SimplifierResults
import RuleAlgebra.Proofs.SimplifierSoundness
import RuleAlgebra.Proofs.SimplifierSteps
import RuleAlgebra.Proofs.SkeletonTexts
import RuleAlgebra.Proofs.SparsePolynomials
import RuleAlgebra.Proofs.StandardRules
import RuleAlgebra.Proofs.SubstitutedValues
import RuleAlgebra.Proofs.TermCosts
import RuleAlgebra.Proofs.TermMasses
import RuleAlgebra.Proofs.TermValues
import RuleAlgebra.Proofs.TopDownFactoring
import RuleAlgebra.Proofs.TokenStreams
import RuleAlgebra.Proofs.TopDownRewriting
import RuleAlgebra.Proofs.TracedComputations
import RuleAlgebra.Proofs.UnevaluatedIntegrals
import RuleAlgebra.Proofs.UnintegratedCalls
import RuleAlgebra.Proofs.VanishingDivisors
import RuleAlgebra.Proofs.Variables
import RuleAlgebra.Proofs.Words
import RuleAlgebra.Rule.Basic
import RuleAlgebra.Rule.Library
import RuleAlgebra.Rule.Line
import RuleAlgebra.Rules.Algebraic
import RuleAlgebra.Rules.Arithmetic
import RuleAlgebra.Rules.Expansion
import RuleAlgebra.Rules.Exponential
import RuleAlgebra.Rules.Factoring
import RuleAlgebra.Rules.Standard
import RuleAlgebra.Rules.Trigonometric
import RuleAlgebra.Scalar
import RuleAlgebra.Scalar.Binary64
import RuleAlgebra.Scalar.Exact
import RuleAlgebra.Scalar.Extended
import RuleAlgebra.Session.Basic
import RuleAlgebra.Session.Command
import RuleAlgebra.Session.Completion
import RuleAlgebra.Session.Files
import RuleAlgebra.Simplifier
import RuleAlgebra.Text.Blank
import RuleAlgebra.Text.CharClass
import RuleAlgebra.Text.Digit
import RuleAlgebra.Text.Lines
import RuleAlgebra.Text.LowerCase
import RuleAlgebra.Text.Printable
import RuleAlgebra.Text.Quoted
import RuleAlgebra.Text.Word
import RuleAlgebra.Trace
