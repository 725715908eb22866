import AutomatisedPipeline.Cfg.AllWays
import AutomatisedPipeline.Cfg.Select
import AutomatisedPipeline.Clustering.NeverLoses
import AutomatisedPipeline.Cochange.Resume
import AutomatisedPipeline.Diff.Exact
import AutomatisedPipeline.Freshness.Fresh
import AutomatisedPipeline.Index.Classify
import AutomatisedPipeline.Indexer.Refinement
import AutomatisedPipeline.Resolver.Ambiguity
import AutomatisedPipeline.Security.Check
import AutomatisedPipeline.SemanticDiff.NewCycles
import AutomatisedPipeline.Verification.Receipt
import AutomatisedPipeline.Zera.GraphState
import AutomatisedPipeline.GraphCache.Cache
import AutomatisedPipeline.GraphCache.Contract
import AutomatisedPipeline.Codec.Utf8
import AutomatisedPipeline.Codec.Reader
import AutomatisedPipeline.LspClient.Framing
import AutomatisedPipeline.Search.VectorFormat
import AutomatisedPipeline.Search.Vector
import AutomatisedPipeline.Findings.Index
import AutomatisedPipeline.SemanticDiff.Dangling
import AutomatisedPipeline.Indexer.CoverageFull
import AutomatisedPipeline.Indexer.CoverageMerge
import AutomatisedPipeline.Cfg.Canonical
import AutomatisedPipeline.DocClaims.ItemGates
import AutomatisedPipeline.DocClaims.Counts
import AutomatisedPipeline.DocClaims.Floor
import AutomatisedPipeline.DocClaims.Sound
import AutomatisedPipeline.DocClaims.Variants
import AutomatisedPipeline.Resolver.FileIds
import AutomatisedPipeline.Artifact.Export
import AutomatisedPipeline.Artifact.Sidecar
import AutomatisedPipeline.Resolver.CallSites
import AutomatisedPipeline.Resolver.ReasonMarker
import AutomatisedPipeline.Cypher.Query
import AutomatisedPipeline.Store.Ddl
import AutomatisedPipeline.Impact.Dependents
import AutomatisedPipeline.Impact.Names
import AutomatisedPipeline.Impact.OtherOwner
import AutomatisedPipeline.Impact.OpenSites
import AutomatisedPipeline.Impact.GetImpact
import AutomatisedPipeline.Search.Context
import AutomatisedPipeline.Search.SameNeighbours
import AutomatisedPipeline.Impact.Complete
import AutomatisedPipeline.Impact.Accounted
import AutomatisedPipeline.Cfg.Compiles
import AutomatisedPipeline.Logic.Spread
import AutomatisedPipeline.Cfg.CargoFeatures
import AutomatisedPipeline.Cfg.FeatureGated
import AutomatisedPipeline.Cfg.CompiledOut
import AutomatisedPipeline.Cfg.TargetContext
import AutomatisedPipeline.Resolver.Boundaries
import AutomatisedPipeline.Cfg.CanonicalForm
import AutomatisedPipeline.Cfg.Rearranged
import AutomatisedPipeline.Logic.BreadthFirst
import AutomatisedPipeline.Clustering.Repair
import AutomatisedPipeline.Query.LimitClause
import AutomatisedPipeline.Logic.FirstMatch
import AutomatisedPipeline.Resolver.TypeEdges
import AutomatisedPipeline.Resolver.TypeOrder
import AutomatisedPipeline.Resolver.OrderFree
import AutomatisedPipeline.Iac.Parts
import AutomatisedPipeline.Iac.Targets
import AutomatisedPipeline.Iac.Runs
import AutomatisedPipeline.Clustering.Process
import AutomatisedPipeline.Logic.MapOrder
import AutomatisedPipeline.Search.Rrf
import AutomatisedPipeline.Search.Hybrid
import AutomatisedPipeline.LspClient.Uri
import AutomatisedPipeline.Cochange.Coefficients
import AutomatisedPipeline.Zera.Codebook
import AutomatisedPipeline.Zera.Grammar
import AutomatisedPipeline.Zera.Lossless
import AutomatisedPipeline.Logic.Float32
import AutomatisedPipeline.Search.Idf
import AutomatisedPipeline.Cfg.Comments
import AutomatisedPipeline.Cfg.Invisible
import AutomatisedPipeline.Resolver.Includes
import AutomatisedPipeline.Resolver.Declarations
import AutomatisedPipeline.Indexer.Relative
import AutomatisedPipeline.Indexer.WalkPolicy
import AutomatisedPipeline.Resolver.NestedScope
import AutomatisedPipeline.Resolver.CallerLabel
import AutomatisedPipeline.Resolver.UseRows
import AutomatisedPipeline.Resolver.Reexport
import AutomatisedPipeline.Resolver.Binding
import AutomatisedPipeline.Logic.Chains
import AutomatisedPipeline.History.Collect
import AutomatisedPipeline.History.Touches
import AutomatisedPipeline.History.Spine
import AutomatisedPipeline.Text.Json
import AutomatisedPipeline.HostInstall.Hooks
import AutomatisedPipeline.Resolver.StopPoints
import AutomatisedPipeline.Resolver.Statements
import AutomatisedPipeline.Parser.HeaderCode
import AutomatisedPipeline.Parser.WalkCtx
import AutomatisedPipeline.Iac.ImageRef
import AutomatisedPipeline.Iac.Dockerfile
import AutomatisedPipeline.Text.Padding
import AutomatisedPipeline.Security.ImportOwner
import AutomatisedPipeline.MacroExpansion.Destination
import AutomatisedPipeline.Resolver.MemberCalls
import AutomatisedPipeline.Traces.Ingest
import AutomatisedPipeline.Traces.Additive
import AutomatisedPipeline.Logic.Passed
import AutomatisedPipeline.Text.Yaml
import AutomatisedPipeline.Iac.YamlLine
import AutomatisedPipeline.Iac.Kustomize
import AutomatisedPipeline.Iac.K8s
import AutomatisedPipeline.Logic.Calendar
import AutomatisedPipeline.HandlerUtil.Civil
import AutomatisedPipeline.QueryHandlers.GraphPaths
import AutomatisedPipeline.LspResolver.Sites
import AutomatisedPipeline.LspResolver.Edges
import AutomatisedPipeline.Resolver.PathOrigin
import AutomatisedPipeline.Logic.BestByKey
import AutomatisedPipeline.PrdInput.Matching
import AutomatisedPipeline.Artifact.Import
import AutomatisedPipeline.Logic.Run
import AutomatisedPipeline.LspClient.Readiness
import AutomatisedPipeline.LspClient.Session
import AutomatisedPipeline.LspResolver.Pass
import AutomatisedPipeline.Cfg.ModuleFiles
import AutomatisedPipeline.MacroExpansion.Layer
import AutomatisedPipeline.Freshness.Pairing
