import TickLabels.Text
import TickLabels.Binary64.Power
import TickLabels.Pattern.Token
import TickLabels.Pattern.Lexer
import TickLabels.Pattern.Span
import TickLabels.Pattern.Sections
import TickLabels.Pattern.Standard
import TickLabels.Pattern.Metadata
import TickLabels.Pattern.Section
import TickLabels.Pattern.NumberFormat
import TickLabels.Pattern.Fraction
import TickLabels.Decimal.Numeral
import TickLabels.Decimal.Digits
import TickLabels.Binary64.Decode
import TickLabels.Decimal.Shortest
import TickLabels.Binary64.Rounding
import TickLabels.Calendar.Weekday
import TickLabels.Culture
import TickLabels.Culture.Known
import TickLabels.Options
import TickLabels.Render.Grouping
import TickLabels.Render.Standard
import TickLabels.Render.Section
import TickLabels.Render.Number
import TickLabels.Cache.Recent
import TickLabels.Cache.Metadata
import TickLabels.Cache.Format
import TickLabels.Binary64.Tolerance
import TickLabels.Units.Unit
import TickLabels.Units.Table
import TickLabels.Units.System
import TickLabels.Calendar.Date
import TickLabels.Calendar.Reading
import TickLabels.Calendar.Interface
import TickLabels.Calendar.Civil
import TickLabels.Calendar.Instant
import TickLabels.Calendar.Arithmetic
import TickLabels.Calendar.TimeUnit
import TickLabels.Ticks.Numeric
import TickLabels.Ticks.Inference
import TickLabels.Ticks.Dates
import TickLabels.Ticks.Cover
import TickLabels.Proofs.Binary64.Arithmetic
import TickLabels.Proofs.Binary64.Encoding
import TickLabels.Proofs.Decimal.Normal
import TickLabels.Proofs.Decimal.Numeral
import TickLabels.Proofs.Decimal.Value
import TickLabels.Proofs.Pattern.Plain
import TickLabels.Proofs.Pattern.Relexing
import TickLabels.Proofs.Pattern.Splitting
import TickLabels.Proofs.Pattern.Rewriting
import TickLabels.Proofs.Pattern.Tiling
import TickLabels.Proofs.Pattern.Overwriting
import TickLabels.Proofs.Pattern.Widening
import TickLabels.Proofs.Calendar.Arithmetic
import TickLabels.Proofs.Calendar.Dates
import TickLabels.Proofs.Calendar.Instants
import TickLabels.Proofs.Calendar.Months
import TickLabels.Proofs.Calendar.Spans
import TickLabels.Proofs.Calendar.MonthDays
import TickLabels.Proofs.Ticks.Numeric
import TickLabels.Proofs.Ticks.Runs
import TickLabels.Proofs.Ticks.Enclosure
import TickLabels.Proofs.Ticks.Axis
import TickLabels.Proofs.Ticks.Spacing
import TickLabels.Proofs.Ticks.Coverage
import TickLabels.Proofs.Ticks.Grid
import TickLabels.Proofs.Ticks.Jump
import TickLabels.Proofs.Ticks.LeastStep
import TickLabels.Proofs.Ticks.Frame
import TickLabels.Proofs.Ticks.Calendar
import TickLabels.Proofs.Ticks.Alignment
import TickLabels.Proofs.Ticks.Extension
import TickLabels.Proofs.Ticks.Moving
import TickLabels.Proofs.Ticks.Differences
import TickLabels.Proofs.Ticks.Inference
import TickLabels.Proofs.Render.Contributions
import TickLabels.Proofs.Render.Layout
import TickLabels.Proofs.Render.PlainNotation
import TickLabels.Proofs.Render.StandardAsCustom
import TickLabels.Proofs.Pattern.Items
import TickLabels.Proofs.Pattern.Decimals
import TickLabels.Proofs.Units.Acceptance
import TickLabels.Proofs.Cache.Recency
import TickLabels.Proofs.Units.Table
import TickLabels.Proofs.Binary64.Order
import TickLabels.Proofs.Binary64.Tolerance
import TickLabels.Proofs.Units.Selection
import TickLabels.Proofs.Pattern.Mantissa
import TickLabels.Proofs.Render.Exponent
import TickLabels.Proofs.Units.Scientific
import TickLabels.Proofs.Cache.Formats
import TickLabels.Proofs.Units.Renaming
import TickLabels.Proofs.Decimal.Rounding
import TickLabels.Proofs.Binary64.Nearest
import TickLabels.Proofs.Binary64.Signed
import TickLabels.Proofs.Binary64.Monotone
import TickLabels.Proofs.Decimal.Shortest
import TickLabels.Proofs.Render.Reading
import TickLabels.Proofs.Render.General
import TickLabels.Proofs.Render.ScientificNotation
import TickLabels.Proofs.Render.Groups
import TickLabels.Proofs.Render.Sign
import TickLabels.Proofs.Render.Overflow
import TickLabels.Proofs.Render.Order
import TickLabels.Proofs.Render.Templates
import TickLabels.Proofs.Render.Quoting
import TickLabels.Proofs.Units.Ranges
import TickLabels.Proofs.Units.OwnExponent
import TickLabels.Proofs.Units.Labels
import TickLabels.Proofs.Render.Notation
import TickLabels.Proofs.Binary64.Noise
import TickLabels.Proofs.Render.Written
import TickLabels.Proofs.Units.WholeUnits
import TickLabels.Proofs.Pattern.Commas
import TickLabels.Proofs.Pattern.Factors
import TickLabels.Proofs.Render.Description
