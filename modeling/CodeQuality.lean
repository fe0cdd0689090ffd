import CodeQuality.Main
import CodeQuality.FileTree.Listing
import CodeQuality.Json.Coefficients
import CodeQuality.Proofs.Double.Rounding
import CodeQuality.Proofs.Double.Significand
import CodeQuality.Proofs.Double.Arithmetic
import CodeQuality.Proofs.Double.Denotation
import CodeQuality.Proofs.Double.Whole
import CodeQuality.Proofs.Curves.Readings
import CodeQuality.Proofs.Curves.Rises
import CodeQuality.Proofs.Curves.Penalties
import CodeQuality.Proofs.Validation
import CodeQuality.Proofs.Curves.Escalations
import CodeQuality.Proofs.Scores
import CodeQuality.Proofs.MergedTotals
import CodeQuality.Proofs.Curves.Order
import CodeQuality.Proofs.OverallScores
import CodeQuality.Proofs.QualityGate
import CodeQuality.Proofs.Batches
import CodeQuality.Proofs.FileOrder
import CodeQuality.Proofs.Comparability
import CodeQuality.Proofs.Settings.DistinctKeys
import CodeQuality.Proofs.Settings.Layering
import CodeQuality.Proofs.Settings.CurveLayers
import CodeQuality.Proofs.Settings.LayerAgreement
import CodeQuality.Proofs.ModeOverride
import CodeQuality.Proofs.Double.Order
import CodeQuality.Proofs.Curves.Steady
import CodeQuality.Proofs.HealthOrder
import CodeQuality.Proofs.DuplicationModes
import CodeQuality.Proofs.Json.Numerals
import CodeQuality.Proofs.Json.Strings
import CodeQuality.Proofs.Json.Reading
import CodeQuality.Proofs.Json.Records
import CodeQuality.Proofs.Double.Roundoff
import CodeQuality.Proofs.Double.Scaled
import CodeQuality.Proofs.Double.Shortest
import CodeQuality.Proofs.Json.Doubles
import CodeQuality.Proofs.Json.RoundTrips
import CodeQuality.Proofs.Double.Absorption
import CodeQuality.Proofs.Overflow
import CodeQuality.Proofs.FiniteReports
import CodeQuality.Proofs.RunFailures
import CodeQuality.Proofs.SettingsCheck
import CodeQuality.Proofs.Double.Bits
import CodeQuality.Proofs.Double.TotalOrder
import CodeQuality.Proofs.Text.ByteOrder
import CodeQuality.Proofs.Ranks
import CodeQuality.Proofs.Criticism
import CodeQuality.Proofs.ReviewPriority
import CodeQuality.Proofs.Double.Integral
import CodeQuality.Proofs.HealthBreakdown
import CodeQuality.Proofs.ProjectMeans
import CodeQuality.Proofs.Double.Scale
import CodeQuality.Proofs.Double.Sums
import CodeQuality.Proofs.IssueOrder
import CodeQuality.Proofs.OverallBounds
import CodeQuality.Proofs.Curves.Breakpoints
import CodeQuality.Proofs.StandardCriticism
import CodeQuality.Proofs.Text.Lines
import CodeQuality.Proofs.RankingTable
import CodeQuality.Proofs.Json.Grammar
import CodeQuality.Proofs.Json.Rewriting
import CodeQuality.Proofs.BundleSpellings
import CodeQuality.Proofs.IdleEscalation
import CodeQuality.Proofs.Double.Tolerance
import CodeQuality.Proofs.Settings.CustomShares
