import Olivia.Runs.CheckThenAct
import Olivia.Core.Outcome
import Olivia.Core.OutcomeLaws
import Olivia.Core.PriceDigits
import Olivia.Core.Mounting
import Olivia.Core.ValidPath
import Olivia.Core.Canonical
import Olivia.Core.PredicateEvent
import Olivia.Core.Announcement
import Olivia.Core.Attestation
import Olivia.Oracle.KeyChain
import Olivia.Secp256k1.Group
import Olivia.Core.Json
import Olivia.Secp256k1.Sample
import Olivia.Secp256k1.Anticipated
import Olivia.Secp256k1.Equivocation
import Olivia.Oracle.Announcing
import Olivia.Oracle.Verifying
import Olivia.Db.InMemory
import Olivia.Db.Postgres
import Olivia.Db.Store
import Olivia.Oracle.Oracle
import Olivia.Oracle.Attesting
import Olivia.Oracle.Equivocating
import Olivia.Oracle.Ledger
import Olivia.Oracle.Lifecycle
import Olivia.Oracle.Finality
import Olivia.Oracle.Settling
import Olivia.Oracle.Stores
import Olivia.Secp256k1.Opening
import Olivia.Runs.Sequential
import Olivia.Oracle.Linearizable
import Olivia.Oracle.Service
import Olivia.Oracle.Starting
import Olivia.Oracle.Nonces
import Olivia.Db.ReadEvent
import Olivia.Db.Prefixed
import Olivia.Db.Described
import Olivia.Db.Ltree
import Olivia.Db.KindFilter
import Olivia.Db.Children
import Olivia.Db.NodeEvents
import Olivia.Db.Dates
import Olivia.Db.Boundaries
import Olivia.Db.Browsing
import Olivia.Db.Tree
import Olivia.Rest.EventNodes
import Olivia.Describe.Distinct
import Olivia.Sources.CompleteRelated
import Olivia.Sources.Siblings
import Olivia.Runs.Logged
import Olivia.Runs.Local
import Olivia.Runs.Lockstep
import Olivia.Db.Agreement
import Olivia.Db.PgQueries
import Olivia.Db.PgNodes
import Olivia.Oracle.OracleLoop
import Olivia.Sources.Ticker
import Olivia.Sources.Predicate
import Olivia.Sources.TickerIds
import Olivia.Sources.OutcomeCreator
import Olivia.Sources.TimeOutcome
import Olivia.Rest.Asking
import Olivia.Rest.Contracts
import Olivia.Rest.Serving
import Olivia.Text.Hex
import Olivia.Core.GroupObject
import Olivia.Oracle.Objects
import Olivia.Oracle.Sharing
