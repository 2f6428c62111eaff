import CssTokens.Json.Options
import CssTokens.Json.Token
import CssTokens.Serialize.Token
import CssTokens.Tokenizer.Description
import CssTokens.Proofs.Roundtrip.Identifier
import CssTokens.Proofs.Run.Consumption
import CssTokens.Proofs.Run.Standalone
import CssTokens.Proofs.Run.Comments
import CssTokens.Proofs.Run.Session
import CssTokens.Proofs.Roundtrip.Quoted
import CssTokens.Proofs.Roundtrip.Numeral
import CssTokens.Proofs.Roundtrip.NumberText
import CssTokens.Proofs.Roundtrip.Number
import CssTokens.Proofs.Bytes.Decoder
import CssTokens.Proofs.Bytes.Source
import CssTokens.Proofs.Bytes.Utf8
import CssTokens.Proofs.Bytes.Utf16
import CssTokens.Proofs.Bytes.Tokens
import CssTokens.Proofs.Refinement.Agreement
import CssTokens.Proofs.Refinement.Failing
import CssTokens.Proofs.Run.NormalForm
import CssTokens.Proofs.Run.Resume
import CssTokens.Proofs.Run.Cursor
import CssTokens.Proofs.Run.WellFormed
import CssTokens.Proofs.Roundtrip.Function
import CssTokens.Proofs.Run.Lines
import CssTokens.Proofs.Refinement.Lookahead
import CssTokens.Proofs.Text.Prefix
import CssTokens.Proofs.Text.CodePoint
import CssTokens.Proofs.Run.Lookahead
import CssTokens.Proofs.Roundtrip.BadUrl
import CssTokens.Proofs.Binary64.Value
import CssTokens.Proofs.Binary64.Decimal
import CssTokens.Proofs.Binary64.Rounding
import CssTokens.Proofs.Binary64.Scaled
import CssTokens.Proofs.Binary64.Shortest
import CssTokens.Proofs.Roundtrip.Digits
import CssTokens.Proofs.Roundtrip.WrittenFloat
import CssTokens.Proofs.Roundtrip.Float
import CssTokens.Proofs.Reading.Draining
import CssTokens.Proofs.Reading.Next
import CssTokens.Proofs.Reading.Stack
import CssTokens.Proofs.Bytes.Failures
import CssTokens.Proofs.Reading.Failures
import CssTokens.Proofs.Reading.GiveBack
import CssTokens.Proofs.Grammar.Number
import CssTokens.Proofs.Grammar.NumberValue
import CssTokens.Proofs.Grammar.Name
import CssTokens.Proofs.Grammar.Quoted
import CssTokens.Proofs.Split.Kind
import CssTokens.Proofs.Grammar.Enclosed
import CssTokens.Proofs.Grammar.Url
import CssTokens.Proofs.Output.Limited
import CssTokens.Proofs.Roundtrip.Plain
import CssTokens.Proofs.Roundtrip.HexEscape
import CssTokens.Proofs.Json.Mark
import CssTokens.Proofs.Json.Value
import CssTokens.Proofs.Json.Number
import CssTokens.Proofs.Json.Token
import CssTokens.Proofs.Output.Description
