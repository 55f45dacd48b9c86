import Epochs.Cli.IndexRoots
import Epochs.Cli.Scripts
import Epochs.Core.BitFlips
import Epochs.Core.Cache
import Epochs.Core.HashTexts
import Epochs.Disk.Outages
import Epochs.Disk.Tiling
import Epochs.Disk.TornIndex
import Epochs.Disk.VerifiedReads
import Epochs.Hamt.Canonical
import Epochs.Hamt.RoundTrips
import Epochs.Ql.Batches
import Epochs.Ql.BranchNames
import Epochs.Ql.Catalog
import Epochs.Ql.EdgeQueries
import Epochs.Ql.Failures
import Epochs.Ql.FastForward
import Epochs.Ql.Filters
import Epochs.Ql.Heads
import Epochs.Ql.Hops
import Epochs.Ql.Joins
import Epochs.Ql.Lineage
import Epochs.Ql.Payloads
import Epochs.Ql.Renaming
import Epochs.Ql.Targets
import Epochs.Server.Connections
import Epochs.Store.Ancestors
import Epochs.Store.Branches
import Epochs.Store.Caches
import Epochs.Store.CommitIds
import Epochs.Store.MergeBase
