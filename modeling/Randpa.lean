import Randpa.Basic
import Randpa.Messages
import Randpa.PrefixTree
import Randpa.State
import Randpa.Round
import Randpa.Engine
import Randpa.TreeLaws
import Randpa.Steps
import Randpa.Run
import Randpa.Reachable
import Randpa.Quorum
import Randpa.Lifecycle
import Randpa.PrevoteOrder
import Randpa.Queue
import Randpa.Cluster
import Randpa.TreeInvariants
import Randpa.BlockNumbers
import Randpa.Voters
import Randpa.Threaded
import Randpa.ProofRecord
import Randpa.Accountability
import Randpa.Filters
import Randpa.Roles
import Randpa.Progress
import Randpa.Supermajority
import Randpa.CatchUp
