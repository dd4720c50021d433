import Typeset.Continuation
import Typeset.Doc.Basic
import Typeset.Doc.Chain
import Typeset.Doc.Combinators
import Typeset.Doc.Normal
import Typeset.Doc.Token
import Typeset.Doc.Written
import Typeset.Failure
import Typeset.Highlight.Render
import Typeset.Highlight.Style
import Typeset.Highlight.TokenClass
import Typeset.Job
import Typeset.Layout.Command
import Typeset.Layout.Fits
import Typeset.Layout.Item
import Typeset.Layout.Run
import Typeset.Log
import Typeset.Modelica.Context
import Typeset.Modelica.Graphical
import Typeset.Modelica.Operator
import Typeset.Modelica.Policy
import Typeset.Modelica.Rules
import Typeset.Modelica.Rules.Basic
import Typeset.Modelica.Rules.Calls
import Typeset.Modelica.Rules.Classes
import Typeset.Modelica.Rules.Elements
import Typeset.Modelica.Rules.Expressions
import Typeset.Modelica.Rules.Modifications
import Typeset.Modelica.Rules.Statements
import Typeset.Modelica.Rules.Terminals
import Typeset.Number.Decimal
import Typeset.Number.Double
import Typeset.Number.Shortest
import Typeset.OperatorChain
import Typeset.Options
import Typeset.Outcome
import Typeset.Print.Basic
import Typeset.Print.Error
import Typeset.Print.Rule
import Typeset.Print.RuleTable
import Typeset.Print.Stock
import Typeset.Render
import Typeset.Scalar
import Typeset.Text.Alphabetic
import Typeset.Text.Blank
import Typeset.Text.CodeRange
import Typeset.Text.Cut
import Typeset.Text.DecimalDigit
import Typeset.Text.Printable
import Typeset.Text.Quoted
import Typeset.Text.Search
import Typeset.Text.Word
import Typeset.Tree.Node
import Typeset.Tree.Offset
import Typeset.Tree.Path
import Typeset.Tree.Position
import Typeset.Tree.Sexp.Reader
import Typeset.Tree.Sexp.Token
import Typeset.Value
import Typeset.Proofs.Normalization
import Typeset.Proofs.Subdocuments
import Typeset.Proofs.Fitting
import Typeset.Proofs.FirstLine
import Typeset.Proofs.LayoutRun
import Typeset.Proofs.Admissible
import Typeset.Proofs.LayoutSoundness
import Typeset.Proofs.FlatChoices
import Typeset.Proofs.HardLineLocality
import Typeset.Proofs.Ink
import Typeset.Proofs.SteadyCombinators
import Typeset.Proofs.Printing
import Typeset.Proofs.Modelica.SteadyRules
import Typeset.Proofs.FormattedInk
import Typeset.Proofs.SourceText
import Typeset.Proofs.Modelica.ExpressionSpelling
import Typeset.Proofs.Modelica.ExpressionChain
import Typeset.Proofs.Modelica.ExpressionTokens
import Typeset.Proofs.ForcedLines
import Typeset.Proofs.PlainDocuments
import Typeset.Proofs.InertStructure
import Typeset.Proofs.ShownTexts
import Typeset.Proofs.Modelica.VisitedNodes
import Typeset.Proofs.Modelica.CoveredChildren
import Typeset.Proofs.Modelica.CoveringRules
import Typeset.Proofs.Modelica.MissingParts
import Typeset.Proofs.Modelica.VisitedTokens
import Typeset.Proofs.Sexp.Grammar
import Typeset.Proofs.Sexp.Reading
import Typeset.Proofs.Highlighting
import Typeset.Proofs.Modelica.Association
import Typeset.Proofs.Modelica.Surroundings
import Typeset.Proofs.Modelica.Interchangeable
import Typeset.Proofs.Modelica.RespectingRules
import Typeset.Proofs.Modelica.Invariance
import Typeset.Proofs.RenderedColumns
import Typeset.Proofs.Modelica.SeparateDefinitions
import Typeset.Proofs.Sexp.ErrorOffsets
import Typeset.Proofs.Modelica.FormattingErrors
import Typeset.Proofs.FlatGroups
import Typeset.Proofs.NormalForm
import Typeset.Proofs.InOrderChain
import Typeset.Proofs.ChainContinuation
import Typeset.Proofs.Modelica.UnaryOperators
import Typeset.Proofs.BuiltDocuments
import Typeset.Proofs.Modelica.BuildingRules
import Typeset.Proofs.Modelica.CompactLiterals
import Typeset.Proofs.Modelica.CompactForm
import Typeset.Proofs.WordWrap
import Typeset.Proofs.LineComments
import Typeset.Proofs.Modelica.CommentLines
import Typeset.Proofs.CommaLists
import Typeset.Proofs.ChainLines
import Typeset.Proofs.SourcePositions
import Typeset.Proofs.Modelica.RecoveredTexts
import Typeset.Proofs.NodeSearch
import Typeset.Proofs.Sexp.Lexing
import Typeset.Proofs.PostOrderWalk
