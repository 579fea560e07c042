import SolarTakeoff.Config.Load
import SolarTakeoff.Proofs.Formula.Parsing
import SolarTakeoff.Proofs.Line.Order
import SolarTakeoff.Proofs.Report.Totals
import SolarTakeoff.Records.Line
import SolarTakeoff.Report
import SolarTakeoff.Proofs.Formula.Evaluation
import SolarTakeoff.Proofs.Catalog.Lines
import SolarTakeoff.Proofs.Formula.Accepted
import SolarTakeoff.Proofs.Quantity.Accepted
import SolarTakeoff.Proofs.Line.PartialRuns
import SolarTakeoff.Proofs.Catalog.Battery
import SolarTakeoff.Proofs.Formula.Inputs
import SolarTakeoff.Proofs.Quantity.Inputs
import SolarTakeoff.Proofs.Binary64.Monotone
import SolarTakeoff.Proofs.Quantity.Monotone
import SolarTakeoff.Proofs.Formula.Tokens
import SolarTakeoff.Proofs.Formula.Validated
import SolarTakeoff.Proofs.Decimal.Positional
import SolarTakeoff.Proofs.Binary64.Text
import SolarTakeoff.Proofs.Quantity.Details
import SolarTakeoff.Proofs.Json.Tokens
import SolarTakeoff.Proofs.Json.Writing
import SolarTakeoff.Proofs.Json.Quoting
import SolarTakeoff.Proofs.Records.Fields
import SolarTakeoff.Proofs.Records.Json
import SolarTakeoff.Proofs.Summary.Groups
import SolarTakeoff.Proofs.Line.Account
import SolarTakeoff.Proofs.Catalog.Snapshot
import SolarTakeoff.Proofs.Config.Load
import SolarTakeoff.Proofs.Binary64.Whole
import SolarTakeoff.Proofs.Summary.Suppliers
import SolarTakeoff.Proofs.Money.Tax
import SolarTakeoff.Proofs.Quantity.NotFinite
import SolarTakeoff.Proofs.Line.Prices
import SolarTakeoff.Proofs.Binary64.Exact
import SolarTakeoff.Proofs.Money.Precision
import SolarTakeoff.Proofs.Quantity.Nearest
import SolarTakeoff.Proofs.Validation.Catalog
import SolarTakeoff.Proofs.Config.Override
import SolarTakeoff.Proofs.Formula.Scanning
import SolarTakeoff.Proofs.Formula.Spacing
import SolarTakeoff.Proofs.Formula.Extent
import SolarTakeoff.Proofs.Line.Product
import SolarTakeoff.Proofs.Money.Text
import SolarTakeoff.Proofs.Quantity.Warnings
import SolarTakeoff.Proofs.Formula.Positions
import SolarTakeoff.Proofs.Catalog.Tags
import SolarTakeoff.Proofs.Binary64.BriefText
import SolarTakeoff.Proofs.Binary64.Ends
import SolarTakeoff.Proofs.Binary64.Extremes
import SolarTakeoff.Proofs.Formula.Calls
