import TerseMarkup.Text.Bytes
import TerseMarkup.Text.CharClass
import TerseMarkup.Text.Position
import TerseMarkup.Literal.Quote
import TerseMarkup.Literal.Escape
import TerseMarkup.Terminal
import TerseMarkup.Cursor.Basic
import TerseMarkup.Cursor.Seek
import TerseMarkup.Document.Basic
import TerseMarkup.Json
import TerseMarkup.Document.Json
import TerseMarkup.Document.Html
import TerseMarkup.Grammar.Expectation
import TerseMarkup.Grammar.Journal
import TerseMarkup.Grammar.Rule
import TerseMarkup.Grammar.TagHead
import TerseMarkup.Grammar.Statement
import TerseMarkup.Document.Reader
import TerseMarkup.Compile
import TerseMarkup.Files.Path
import TerseMarkup.Files.Tree
import TerseMarkup.Command.Arguments
import TerseMarkup.Command.Report
import TerseMarkup.Command.Run
import TerseMarkup.Main
import TerseMarkup.Proofs.RuleOutcome
import TerseMarkup.Proofs.ClosingQuote
import TerseMarkup.Proofs.Lexeme
import TerseMarkup.Proofs.RuleRelation
import TerseMarkup.Proofs.Progress
import TerseMarkup.Proofs.Reading
import TerseMarkup.Proofs.Derivation
import TerseMarkup.Proofs.Soundness
import TerseMarkup.Proofs.Acceptance
import TerseMarkup.Proofs.WrittenForm
import TerseMarkup.Proofs.Replay
import TerseMarkup.Proofs.Machine
import TerseMarkup.Proofs.Following
import TerseMarkup.Proofs.Simulation
import TerseMarkup.Proofs.Completion
import TerseMarkup.Proofs.ErrorPlace
import TerseMarkup.Proofs.Unlimited
import TerseMarkup.Proofs.NestingLimit
import TerseMarkup.Proofs.FurthestPlace
import TerseMarkup.Proofs.MissedTokens
import TerseMarkup.Proofs.OptionalParts
import TerseMarkup.Proofs.ExpectedParts
import TerseMarkup.Proofs.OtherTexts
import TerseMarkup.Proofs.Session
import TerseMarkup.Proofs.Truncation
import TerseMarkup.Proofs.Layout
import TerseMarkup.Proofs.Respacing
import TerseMarkup.Proofs.Concatenation
import TerseMarkup.Proofs.NormalForm
import TerseMarkup.Proofs.UniqueReading
import TerseMarkup.Proofs.Markers
import TerseMarkup.Proofs.Seeking
import TerseMarkup.Proofs.Spelling
import TerseMarkup.Proofs.CommandOutcome
import TerseMarkup.Proofs.JsonReading
import TerseMarkup.Proofs.Backtracking
import TerseMarkup.Proofs.BodyShape
import TerseMarkup.Proofs.CodeUnits
import TerseMarkup.Proofs.Segments
import TerseMarkup.Proofs.ByteCuts
import TerseMarkup.Proofs.TextParts
import TerseMarkup.Proofs.Indentation
import TerseMarkup.Proofs.FileNames
import TerseMarkup.Proofs.DefaultBuild
import TerseMarkup.Proofs.LineAndColumn
import TerseMarkup.Proofs.RecursiveDescent
import TerseMarkup.Proofs.StepFrame
import TerseMarkup.Proofs.ProductionFrame
import TerseMarkup.Proofs.ParserSession
import TerseMarkup.Proofs.ByteScans
import TerseMarkup.Proofs.LiteralScans
import TerseMarkup.Proofs.ParserLog
