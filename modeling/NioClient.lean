import NioClient.Library.Execution
import NioClient.Library.Program
import NioClient.Library.OnceCells
import NioClient.Library.OnceCellsInvariant
import NioClient.Library.OnceCellsAgreement
import NioClient.Library.OnceCellsLabels
import NioClient.Library.Mealy
import NioClient.Library.RecencyList
import NioClient.Library.RecencyInclusion
import NioClient.Library.Selection
import NioClient.Library.Traversal
import NioClient.Library.PercentEncoding
import NioClient.Library.FloatingPoint
import NioClient.Library.MachineTime
import NioClient.Library.Changelog
import NioClient.Library.Potential
import NioClient.Library.Latency
import NioClient.Session.Entry
import NioClient.Session.Lru
import NioClient.Session.LruRefinement
import NioClient.Session.LruRuns
import NioClient.Session.Reference
import NioClient.Session.SingleFlight
import NioClient.Session.SingleFlightInvariant
import NioClient.Session.Resolver
import NioClient.Session.Sequential
import NioClient.Session.ResolverStep
import NioClient.Session.Provenance
import NioClient.Session.Staleness
import NioClient.Session.RefreshAhead
import NioClient.Session.Confinement
import NioClient.Session.MonotonicReads
import NioClient.Session.SignOut
import NioClient.Session.Expiry
import NioClient.Session.SingleFlightRuns
import NioClient.Session.Retention
import NioClient.Session.Faults
import NioClient.Session.Work
import NioClient.Session.Quiescence
import NioClient.Session.Cancellation
import NioClient.Session.Outage
import NioClient.Session.ResponseTime
import NioClient.Session.AnswerAge
import NioClient.Session.Service
import NioClient.Session.Demand
import NioClient.Session.ColdMisses
import NioClient.Session.Token
import NioClient.Session.TokenView
import NioClient.Session.Noninterference
import NioClient.Check.Wire
import NioClient.Check.Watch
import NioClient.Check.Codec
import NioClient.Check.Read
import NioClient.Session.GrpcFetcher
import NioClient.Session.Deadlines
import NioClient.Check.Client
import NioClient.Check.Memo
import NioClient.Check.Pinning
import NioClient.Check.Calls
import NioClient.Check.WatchResume
import NioClient.Check.ReadsByName
import NioClient.Check.Opacity
import NioClient.Axum.Extractors
import NioClient.Axum.Mediation
import NioClient.Axum.MethodGate
import NioClient.Axum.SigninLocation
import NioClient.Axum.Responses
import NioClient.Axum.Handlers
import NioClient.Webapp.Backend
import NioClient.Webapp.App
import NioClient.Webapp.Grants
import NioClient.Webapp.Serving
import NioClient.Webapp.ServingStep
import NioClient.Webapp.Requests
import NioClient.Webapp.Entitlement
import NioClient.Webapp.Revocation
import NioClient.Webapp.Knowledge
import NioClient.Webapp.Decisions
import NioClient.Library.OnceCellsLoad
import NioClient.Check.MemoLoad
import NioClient.Webapp.Pages
import NioClient.Library.Budget
import NioClient.Webapp.Completion
