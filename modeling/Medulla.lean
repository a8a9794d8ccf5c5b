import Medulla.Lane.CounterBounds
import Medulla.Mutation.NonceConsumption
import Medulla.Outbox.LeaseFencing
import Medulla.WorkItem.Priority
import Medulla.Mutation.AtMostOnce
import Medulla.Outbox.AckOrder
import Medulla.Outbox.InflightCounter
import Medulla.Placement.RecoveryRuns
import Medulla.Mutation.OwnerWindow
import Medulla.Outbox.Backfill
import Medulla.Query.Maintenance
import Medulla.Query.AnswerPreservation
import Medulla.CrossShard.OneOutcome
import Medulla.Statechart.Flat
import Medulla.Solve.Exactness
import Medulla.Solve.Scalarisation
import Medulla.WorkItem.LeaseFencing
import Medulla.Resource.Watermarks
import Medulla.WorkItem.Quota
import Medulla.Broker.Links
import Medulla.Rdf.RoundTrip
import Medulla.Index.Interleaving
import Medulla.Occ.Serializability
import Medulla.Raft.LogRefinement
import Medulla.Tsdb.Convergence
import Medulla.Placement.Epochs
import Medulla.Epistemic.Acceptance
import Medulla.Epistemic.Recompute
import Medulla.Calvin.SequenceOrder
import Medulla.Calvin.Ollp
import Medulla.Calvin.EpochFanIn
import Medulla.CrossShard.Endpoints
import Medulla.Cep.Live
import Medulla.Cep.Sequences
import Medulla.Graph.Bitemporal
import Medulla.KvCache.SharedBlocks
import Medulla.Redb.FileNames
import Medulla.Finance.AverageCost
import Medulla.GraphAlgos.KCore
import Medulla.Statechart.Entries
