import ThemeColor.Command.Session
import ThemeColor.Main
import ThemeColor.Proofs.Agreement
import ThemeColor.Proofs.Bracketing
import ThemeColor.Proofs.ChannelReading
import ThemeColor.Proofs.ColorReading
import ThemeColor.Proofs.ColorText
import ThemeColor.Proofs.Conversion
import ThemeColor.Proofs.DefinedNames
import ThemeColor.Proofs.Extent
import ThemeColor.Proofs.FoldingRules
import ThemeColor.Proofs.Grammar
import ThemeColor.Proofs.HexDigits
import ThemeColor.Proofs.HexRoundTrip
import ThemeColor.Proofs.Importance
import ThemeColor.Proofs.Interpretation
import ThemeColor.Proofs.LiteralUnits
import ThemeColor.Proofs.Negation
import ThemeColor.Proofs.Nesting
import ThemeColor.Proofs.NormalForm
import ThemeColor.Proofs.NumberReading
import ThemeColor.Proofs.Outcome
import ThemeColor.Proofs.Ranges
import ThemeColor.Proofs.Recoloring
import ThemeColor.Proofs.Recovery
import ThemeColor.Proofs.Relocation
import ThemeColor.Proofs.RoundTrip
import ThemeColor.Proofs.Slices
import ThemeColor.Proofs.Splitting
import ThemeColor.Proofs.Substitution
import ThemeColor.Proofs.Textbook
import ThemeColor.Proofs.Tiling
import ThemeColor.Proofs.Units
import ThemeColor.Proofs.WarnedOnce
import ThemeColor.Proofs.WarningTrace
import ThemeColor.Proofs.Mixing
import ThemeColor.Proofs.Quoting
import ThemeColor.Proofs.Filling
import ThemeColor.Proofs.TameText
import ThemeColor.Proofs.ChannelLayout
import ThemeColor.Proofs.Unescaping
import ThemeColor.Proofs.LongestName
import ThemeColor.Proofs.HexNotation
import ThemeColor.Proofs.LongestNumber
import ThemeColor.Proofs.LoopTurns
import ThemeColor.Proofs.Progress
import ThemeColor.Proofs.PlaceholderSearch
import ThemeColor.Proofs.PropertyNames
import ThemeColor.Proofs.BracketLanguage
import ThemeColor.Proofs.FaultPlaces
import ThemeColor.Proofs.CompactText
import ThemeColor.Proofs.ExactValue
import ThemeColor.Proofs.Growth
import ThemeColor.Proofs.NameSearch
import ThemeColor.Proofs.NearestDouble
