import DynamicSql.Config.Document
import DynamicSql.Config.LogSettings
import DynamicSql.Expr.Expression
import DynamicSql.Fault.Report
import DynamicSql.Parameter
import DynamicSql.Value.Document
import DynamicSql.Value.Type
import DynamicSql.Template.QueryDocument
import DynamicSql.Template.Template
import DynamicSql.Interception.Chain
import DynamicSql.Interception.StatementLog
import DynamicSql.Proofs.Template.Markers
import DynamicSql.Proofs.Template.Iteration
import DynamicSql.Proofs.Template.Noninterference
import DynamicSql.Proofs.Peg
import DynamicSql.Proofs.Template.Scoping
import DynamicSql.Proofs.Template.Aliases
import DynamicSql.Proofs.Expr.Acceptance
import DynamicSql.Proofs.Expr.PathReadings
import DynamicSql.Proofs.Template.PathPlaceholders
import DynamicSql.Proofs.Template.Verbatim
import DynamicSql.Proofs.Interception.Reach
import DynamicSql.Proofs.Interception.Transparency
import DynamicSql.Proofs.Template.Escaping
import DynamicSql.Proofs.Expr.Substitution
import DynamicSql.Proofs.Json.Scalars
import DynamicSql.Proofs.Json.Documents
import DynamicSql.Proofs.Value.Documents
import DynamicSql.Proofs.Template.QueryDocuments
import DynamicSql.Proofs.Template.Lookups
import DynamicSql.Proofs.Template.DocumentParameters
import DynamicSql.Proofs.Value.Comparison
import DynamicSql.Proofs.Template.Rescanning
import DynamicSql.Proofs.Template.FirstSegments
import DynamicSql.Proofs.Template.ExpressionPlaceholders
import DynamicSql.Proofs.Interception.Narrowing
import DynamicSql.Proofs.Template.Tiling
import DynamicSql.Proofs.Template.OutOfRange
import DynamicSql.Proofs.Template.QuotedKeys
import DynamicSql.Proofs.Json.Numbers
import DynamicSql.Proofs.Value.KeyOrder
import DynamicSql.Proofs.Template.Trimming
import DynamicSql.Proofs.Text.Words
import DynamicSql.Proofs.Template.BalancedCalls
import DynamicSql.Proofs.Template.Connectors
import DynamicSql.Proofs.Template.Appending
import DynamicSql.Proofs.Value.Navigation
import DynamicSql.Proofs.Template.QuotedDefaults
import DynamicSql.Proofs.Expr.Attempts
import DynamicSql.Proofs.Expr.Cutoff
import DynamicSql.Proofs.Expr.Arithmetic
import DynamicSql.Proofs.Interception.DeclaredSet
import DynamicSql.Proofs.Template.UnorderedParameters
import DynamicSql.Proofs.Template.RecordedSources
import DynamicSql.Proofs.Template.QuickCheck
