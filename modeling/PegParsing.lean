import PegParsing.Catalog.Samples
import PegParsing.Cursor.Marks
import PegParsing.Proofs.Grammar.Nullable
import PegParsing.Proofs.Symbol.LongestMatch
import PegParsing.Report
import PegParsing.Session
import PegParsing.Proofs.Parser.Finishing
import PegParsing.Proofs.Grammar.LeftRecursion
import PegParsing.Proofs.Grammar.Contract
import PegParsing.Proofs.Grammar.Supply
import PegParsing.Proofs.Parser.Acceptance
import PegParsing.Proofs.Parser.Reading
import PegParsing.Proofs.Number.Numeral
import PegParsing.Proofs.Value.Dict
import PegParsing.Proofs.Json.Syntax
import PegParsing.Proofs.Json.Parts
import PegParsing.Proofs.Json.Soundness
import PegParsing.Proofs.Json.Rows
import PegParsing.Proofs.Json.Completeness
import PegParsing.Proofs.Json.Document
import PegParsing.Proofs.Grammar.Gathering
import PegParsing.Proofs.Grammar.Choice
import PegParsing.Proofs.Grammar.Sequence
import PegParsing.Proofs.Parser.Distribution
import PegParsing.Proofs.Parser.Outcomes
import PegParsing.Proofs.Grammar.Kinds
import PegParsing.Proofs.Grammar.Rewriting
import PegParsing.Proofs.Grammar.Surfacing
import PegParsing.Proofs.Grammar.Shape
import PegParsing.Proofs.Grammar.Capture
import PegParsing.Proofs.Grammar.Report
import PegParsing.Proofs.Grammar.Greedy
import PegParsing.Proofs.Grammar.Halting
import PegParsing.Proofs.Grammar.Words
import PegParsing.Proofs.Parser.Munching
import PegParsing.Proofs.Parser.FixedText
import PegParsing.Proofs.Parser.Spelling
import PegParsing.Proofs.Number.Literal
import PegParsing.Proofs.Parser.Runs
import PegParsing.Proofs.Number.Integer
import PegParsing.Proofs.Number.Rounding
import PegParsing.Proofs.Number.Range
import PegParsing.Proofs.Symbol.Duplicates
import PegParsing.Proofs.Grammar.Expansion
import PegParsing.Proofs.Number.Signs
import PegParsing.Proofs.Number.Refusals
import PegParsing.Proofs.Cursor.Movement
