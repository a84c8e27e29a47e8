import Substrate.AuthoritySetHistory
import Substrate.StandardChanges
import Substrate.FreeingBumpPanics
import Substrate.FreeingBumpSound
import Substrate.OverlayedChangesLockstep
import Substrate.BasePoolImports
import Substrate.BasePoolRuns
import Substrate.ReadyMeansReady
import Substrate.StateAvailability
import Substrate.EpochPruning
import Substrate.BalancesIssuance
import Substrate.StakingRuns
import Substrate.SchedulerLookup
import Substrate.PeersetAlloc
import Substrate.ForkTreeQueries
import Substrate.ExtraRequestsRuns
import Substrate.DemocracyTally
import Substrate.DemocracyLocks
import Substrate.OverlayedExtrinsics
import Substrate.OverlayRevert
import Substrate.CompactSolution
import Substrate.Pjr
import Substrate.BalancesReports
import Substrate.Rational128
import Substrate.VoteThreshold
import Substrate.Era
import Substrate.GrandpaSessions
import Substrate.StorageCache
