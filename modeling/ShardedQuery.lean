import ShardedQuery.Proofs.Pushdown.Skipped
import ShardedQuery.Proofs.Pushdown.Unnested
import ShardedQuery.Proofs.Pushdown.Elements
import ShardedQuery.Proofs.Split.Window
import ShardedQuery.Proofs.Plan.Clashes
import ShardedQuery.Proofs.Split.Records
import ShardedQuery.Proofs.ResultType
import ShardedQuery.Proofs.Access.Intervals
import ShardedQuery.Proofs.Graph.Substitution
import ShardedQuery.Proofs.Graph.WhereClause
import ShardedQuery.Proofs.Split.WellFormed
import ShardedQuery.Proofs.Passes.Duplicates
import ShardedQuery.Proofs.Matching.Equivalence
import ShardedQuery.Proofs.Matching.Scopes
import ShardedQuery.Proofs.Table.Keys
import ShardedQuery.Proofs.Value.TotalOrder
import ShardedQuery.Proofs.Value.Equality
import ShardedQuery.Proofs.Table.Paths
import ShardedQuery.Proofs.Passes.InPlace
import ShardedQuery.Proofs.Layout.Conditions
import ShardedQuery.Proofs.Graph.KeptTypes
import ShardedQuery.Proofs.Refresh
import ShardedQuery.Proofs.Reordering
