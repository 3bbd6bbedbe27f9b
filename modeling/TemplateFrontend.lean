import TemplateFrontend.CommandLine.Run
import TemplateFrontend.Compiler.EntryPoints
import TemplateFrontend.Main
import TemplateFrontend.Proofs.Transform.EmissionSimplified
import TemplateFrontend.Proofs.Transform.LoweredFiles
import TemplateFrontend.Proofs.Expr.Grammar
import TemplateFrontend.Proofs.Expr.Parsing
import TemplateFrontend.Proofs.Expr.Lexemes
import TemplateFrontend.Proofs.Expr.Placement
import TemplateFrontend.Proofs.Markup.PrintTags
import TemplateFrontend.Proofs.Json.Text
import TemplateFrontend.Proofs.ValueType.Reading
import TemplateFrontend.Proofs.Compiler.Parsed
import TemplateFrontend.Proofs.Compiler.Phases
import TemplateFrontend.Proofs.Compiler.Separate
import TemplateFrontend.Proofs.Compiler.Forests
import TemplateFrontend.Proofs.Transform.Captures
import TemplateFrontend.Proofs.Compiler.References
import TemplateFrontend.Proofs.Compiler.EscapedConstants
import TemplateFrontend.Proofs.Compiler.BannedTexts
import TemplateFrontend.Proofs.Message.Collected
import TemplateFrontend.Proofs.Compiler.SameRegistry
import TemplateFrontend.Proofs.Compiler.SourceOrder
import TemplateFrontend.Proofs.Registry.DelegateKeys
import TemplateFrontend.Proofs.Compiler.Outcomes
import TemplateFrontend.Proofs.Compiler.Truncated
import TemplateFrontend.Proofs.Markup.NestedFiles
import TemplateFrontend.Proofs.Text.Boundaries
import TemplateFrontend.Proofs.Expr.Ranges
import TemplateFrontend.Proofs.Markup.TagRanges
import TemplateFrontend.Proofs.Markup.FrameLayout
import TemplateFrontend.Proofs.Markup.CommandLayout
import TemplateFrontend.Proofs.Markup.FileLayout
import TemplateFrontend.Proofs.Tree.Bindings
import TemplateFrontend.Proofs.Check.Undeclared
import TemplateFrontend.Proofs.Typing.Scopes
import TemplateFrontend.Proofs.Typing.Binders
import TemplateFrontend.Proofs.Expr.Descent
import TemplateFrontend.Proofs.Markup.Tracking
import TemplateFrontend.Proofs.Markup.BinderNames
import TemplateFrontend.Proofs.Markup.Advance
import TemplateFrontend.Proofs.Markup.Returns
import TemplateFrontend.Proofs.Expr.Parts
import TemplateFrontend.Proofs.Tree.AsWritten
import TemplateFrontend.Proofs.Compiler.SyntaxErrors
import TemplateFrontend.Proofs.Transform.NormalForms
import TemplateFrontend.Proofs.Typing.FoldedTypes
import TemplateFrontend.Proofs.Compiler.SimplifiedRuns
import TemplateFrontend.Proofs.ValueType.Order
import TemplateFrontend.Proofs.Typing.Problems
import TemplateFrontend.Proofs.Compiler.ResolvedFiles
import TemplateFrontend.Proofs.Number.Doubles
import TemplateFrontend.Proofs.Expr.Comparisons
import TemplateFrontend.Proofs.Typing.ItemTypes
import TemplateFrontend.Proofs.Plugin.Overloads
import TemplateFrontend.Proofs.Registry.Tables
import TemplateFrontend.Proofs.Check.FittingCalls
import TemplateFrontend.Proofs.Markup.ValueTags
import TemplateFrontend.Proofs.Markup.AttributeValues
import TemplateFrontend.Proofs.Markup.DocSteps
import TemplateFrontend.Proofs.Markup.TemplateDocs
import TemplateFrontend.Proofs.Expr.MovedTokens
import TemplateFrontend.Proofs.Markup.MovedTags
import TemplateFrontend.Proofs.Markup.MovedCommands
import TemplateFrontend.Proofs.Markup.MovedSteps
import TemplateFrontend.Proofs.Markup.PlainComments
import TemplateFrontend.Proofs.Transform.SpecialChars
import TemplateFrontend.Proofs.Message.SpecialChars
import TemplateFrontend.Proofs.Markup.SimpleCommands
import TemplateFrontend.Proofs.Markup.KeptTags
import TemplateFrontend.Proofs.Markup.TagTexts
import TemplateFrontend.Proofs.Transform.LoweredTags
import TemplateFrontend.Proofs.Number.Rounding
import TemplateFrontend.Proofs.Number.Shortest
import TemplateFrontend.Proofs.Number.DecimalText
import TemplateFrontend.Proofs.Expr.Rendering
import TemplateFrontend.Proofs.Expr.Sources
import TemplateFrontend.Proofs.Expr.PrintedLiterals
import TemplateFrontend.Proofs.Expr.RenderedTokens
import TemplateFrontend.Proofs.Expr.RoundTrip
import TemplateFrontend.Proofs.Settings.Constants
import TemplateFrontend.Proofs.Check.VisualElements
import TemplateFrontend.Proofs.Markup.JoinedLines
