import ServLang.Text.Position
import ServLang.Text.Utf8
import ServLang.Text.Decimal
import ServLang.Text.GraphemeExtend
import ServLang.Text.Unprintable
import ServLang.Text.Quoted
import ServLang.Scalar
import ServLang.Vocabulary
import ServLang.Token
import ServLang.Token.Lexer
import ServLang.Source
import ServLang.Document.Basic
import ServLang.Document.Path
import ServLang.Document.Printer
import ServLang.Document.Grammar
import ServLang.Document.WellFormed
import ServLang.Document.ParseError
import ServLang.Document.State
import ServLang.Document.Parser
import ServLang.Document.Symbols
import ServLang.Validation
import ServLang.Lint
import ServLang.Compilation
import ServLang.Command.Arguments
import ServLang.Command.Workspace
import ServLang.Command.Run
import ServLang.Main
import ServLang.Proofs.Run
import ServLang.Proofs.Acceptance
import ServLang.Proofs.ViablePrefix
import ServLang.Proofs.RoundTrip
import ServLang.Proofs.Declarations
import ServLang.Proofs.Listing
import ServLang.Proofs.Mentions
import ServLang.Proofs.FirstViolation
import ServLang.Proofs.LongestLexeme
import ServLang.Proofs.TokenGrammar
import ServLang.Proofs.Positions
import ServLang.Proofs.Tiling
import ServLang.Proofs.BadCharacters
import ServLang.Proofs.NormalForm
import ServLang.Proofs.Nesting
import ServLang.Proofs.Descent
import ServLang.Proofs.Findings
import ServLang.Proofs.Reordering
import ServLang.Proofs.Layout
import ServLang.Proofs.Concatenation
import ServLang.Proofs.Scoping
import ServLang.Proofs.Renaming
import ServLang.Proofs.Decoding
import ServLang.Proofs.Places
import ServLang.Proofs.Duplicates
import ServLang.Proofs.ManyFiles
import ServLang.Proofs.Expectations
import ServLang.Proofs.Calls
import ServLang.Proofs.Procedures
import ServLang.Proofs.RecursiveDescent
import ServLang.Proofs.Termination
import ServLang.Proofs.LinesAndColumns
import ServLang.Proofs.TargetTypes
import ServLang.Proofs.IntegerLiterals
import ServLang.Proofs.CanonicalLayout
