import TreeMetrics.Data.Numeral
import TreeMetrics.Memo.Script
import TreeMetrics.Metric.Formula
import TreeMetrics.Metric.Operations
import TreeMetrics.Tree.Rows
import TreeMetrics.Twig.Report
import TreeMetrics.Proofs.Memo.DataMap
import TreeMetrics.Proofs.Memo.Refinement
import TreeMetrics.Proofs.Metric.Store
import TreeMetrics.Proofs.Metric.Run
import TreeMetrics.Proofs.Metric.Transparency
import TreeMetrics.Proofs.Metric.Isolation
import TreeMetrics.Proofs.Metric.Log
import TreeMetrics.Proofs.Metric.Refill
import TreeMetrics.Proofs.Metric.AtMostOnce
import TreeMetrics.Proofs.Grammar.Derivation
import TreeMetrics.Proofs.Grammar.Termination
import TreeMetrics.Proofs.Twig.Survey
import TreeMetrics.Proofs.Twig.Progress
import TreeMetrics.Proofs.Twig.Words
import TreeMetrics.Proofs.Twig.Schema
import TreeMetrics.Proofs.Twig.Makes
import TreeMetrics.Proofs.Twig.Shape
import TreeMetrics.Proofs.Twig.DanglingElse
import TreeMetrics.Proofs.Twig.Census
import TreeMetrics.Proofs.Twig.Printer
import TreeMetrics.Proofs.Twig.Reading
import TreeMetrics.Proofs.Twig.ReadExpression
import TreeMetrics.Proofs.Twig.ReadStatement
import TreeMetrics.Proofs.Twig.RoundTrip
import TreeMetrics.Proofs.Document.Placement
import TreeMetrics.Proofs.Document.Streams
import TreeMetrics.Proofs.Document.Axes
import TreeMetrics.Proofs.Twig.Spacing
import TreeMetrics.Proofs.Twig.Abreast
import TreeMetrics.Proofs.Twig.LayoutIndependence
import TreeMetrics.Proofs.Twig.Lines
import TreeMetrics.Proofs.Twig.GapText
import TreeMetrics.Proofs.Twig.Enclosure
import TreeMetrics.Proofs.Twig.Declaration
import TreeMetrics.Proofs.Twig.Concatenation
import TreeMetrics.Proofs.Data.NameMap
import TreeMetrics.Proofs.Metric.Number
import TreeMetrics.Proofs.Twig.Report
import TreeMetrics.Proofs.Twig.Completeness
import TreeMetrics.Proofs.Twig.Locality
import TreeMetrics.Proofs.Twig.Conditions
import TreeMetrics.Proofs.Twig.Precedence
import TreeMetrics.Proofs.Document.Preorder
import TreeMetrics.Proofs.Document.Lineage
import TreeMetrics.Proofs.Document.Search
import TreeMetrics.Proofs.Metric.Exact
import TreeMetrics.Proofs.Twig.Statements
import TreeMetrics.Proofs.Twig.Complexity
import TreeMetrics.Proofs.Twig.Belonging
import TreeMetrics.Proofs.Metric.Canonical
import TreeMetrics.Proofs.Twig.PoolSize
import TreeMetrics.Proofs.Twig.LineSpans
import TreeMetrics.Proofs.Document.Siblings
import TreeMetrics.Proofs.Document.SizeHint
import TreeMetrics.Proofs.Grammar.Sequence
import TreeMetrics.Proofs.Grammar.Failure
import TreeMetrics.Proofs.Twig.SyntaxError
import TreeMetrics.Proofs.Twig.Stretch
import TreeMetrics.Proofs.Twig.Continuation
import TreeMetrics.Proofs.Twig.Series
import TreeMetrics.Proofs.Twig.BareCall
import TreeMetrics.Proofs.Twig.WordBoundary
import TreeMetrics.Proofs.Document.ListView
import TreeMetrics.Proofs.Metric.Lookup
import TreeMetrics.Proofs.Metric.Rational
import TreeMetrics.Proofs.Metric.Integral
import TreeMetrics.Proofs.Metric.ConfigForm
