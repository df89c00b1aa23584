import CssColor.Cache
import CssColor.Calc.Expression
import CssColor.Calc.Grammar
import CssColor.Calc.Reduce
import CssColor.Calc.Term
import CssColor.Calc.Unit
import CssColor.Color.Basic
import CssColor.Color.HueArc
import CssColor.Color.Mixing
import CssColor.Color.Space
import CssColor.Color.Text
import CssColor.CommandLine.Arguments
import CssColor.CommandLine.Run
import CssColor.Conversion.Basic
import CssColor.Conversion.Cylinder
import CssColor.Conversion.Lab
import CssColor.Conversion.Matrix
import CssColor.Conversion.Primaries
import CssColor.Conversion.Transfer
import CssColor.Cursor
import CssColor.Error
import CssColor.Main
import CssColor.Number.Basic
import CssColor.Number.Decimal
import CssColor.Number.Double
import CssColor.Number.Text
import CssColor.Options
import CssColor.Output
import CssColor.Property
import CssColor.Resolution
import CssColor.Resolver
import CssColor.Text.Blank
import CssColor.Text.Quoted
import CssColor.Text.Shown
import CssColor.Token.Basic
import CssColor.Token.Lexer
import CssColor.Token.Rule
import CssColor.Value.Basic
import CssColor.Value.Grammar
import CssColor.Value.Named
import CssColor.Value.Resolve
import CssColor.Value.Specified
import CssColor.Proofs.Resolver.History
import CssColor.Proofs.Calc.Agreement
import CssColor.Proofs.Color.Range
import CssColor.Proofs.Property.Expansion
import CssColor.Proofs.Property.Substitution
import CssColor.Proofs.Value.Agreement
import CssColor.Proofs.Value.BlockDepth
import CssColor.Proofs.Value.Range
import CssColor.Proofs.Token.LetterCase
import CssColor.Proofs.Value.Nesting
import CssColor.Proofs.Calc.LetterCase
import CssColor.Proofs.Value.LetterCase
import CssColor.Proofs.Number.Binary
import CssColor.Proofs.Number.Decimal
import CssColor.Proofs.Number.Double
import CssColor.Proofs.Number.Printing
import CssColor.Proofs.Number.Numeral
import CssColor.Proofs.Token.Spelling
import CssColor.Proofs.Number.Rounding
import CssColor.Proofs.Token.Recognition
import CssColor.Proofs.Value.Reading
import CssColor.Proofs.Value.ColorText
import CssColor.Proofs.Number.Byte
import CssColor.Proofs.Value.FixedPoint
import CssColor.Proofs.Calc.Soundness
import CssColor.Proofs.Calc.Texts
import CssColor.Proofs.Calc.Written
import CssColor.Proofs.Calc.Leaves
import CssColor.Proofs.Value.ArgumentText
import CssColor.Proofs.Value.MixText
import CssColor.Proofs.Calc.NormalForm
import CssColor.Proofs.Value.SpecifiedText
import CssColor.Proofs.Number.Exact
import CssColor.Proofs.Value.HexDigits
import CssColor.Proofs.Token.Blanks
import CssColor.Proofs.Calc.Value
import CssColor.Proofs.Calc.Locality
import CssColor.Proofs.Calc.Totals
import CssColor.Proofs.Calc.SumValue
import CssColor.Proofs.Calc.ProductValue
import CssColor.Proofs.Calc.Evaluation
import CssColor.Proofs.Calc.Arithmetic
import CssColor.Proofs.Calc.Folding
import CssColor.Proofs.Calc.UnitType
import CssColor.Proofs.Value.UnknownNames
import CssColor.Proofs.Color.HueArc
import CssColor.Proofs.Color.Mixing
import CssColor.Proofs.Value.SwappedMix
import CssColor.Proofs.Color.Missing
import CssColor.Proofs.Conversion.Matrix
import CssColor.Proofs.Number.Real
import CssColor.Proofs.Conversion.HueWheel
import CssColor.Proofs.Conversion.Lab
import CssColor.Proofs.Conversion.Cylinder
import CssColor.Proofs.Number.SixDigits
import CssColor.Proofs.Value.Formats
import CssColor.Proofs.Value.ReadBack
import CssColor.Proofs.Value.Settled
import CssColor.Proofs.Token.Legible
import CssColor.Proofs.Token.Neighbours
import CssColor.Proofs.Value.PassedThrough
import CssColor.Proofs.Value.CurrentColor
import CssColor.Proofs.Token.Confinement
import CssColor.Proofs.Calc.Confinement
import CssColor.Proofs.Value.Confinement
import CssColor.Proofs.Cursor.Locality
import CssColor.Proofs.Cursor.Block
import CssColor.Proofs.Cursor.Position
import CssColor.Proofs.Cursor.Program
import CssColor.Proofs.Cursor.Stepwise
import CssColor.Proofs.Value.Alternatives
import CssColor.Proofs.Number.Order
import CssColor.Proofs.Calc.Order
import CssColor.Proofs.Value.NamedParts
import CssColor.Proofs.Number.Literal
import CssColor.Proofs.Number.LongestNumeral
import CssColor.Proofs.Token.Comments
import CssColor.Proofs.Token.Reader
import CssColor.Proofs.Token.Offsets
import CssColor.Proofs.Token.Termination
import CssColor.Proofs.Token.Numerals
import CssColor.Proofs.Token.Interruption
import CssColor.Proofs.Token.Insertion
