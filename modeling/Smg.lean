import Smg.Mesh.LwwGossip
import Smg.Mesh.RateLimitGossip
import Smg.Mesh.OrMap
import Smg.Mesh.StreamDelivery
import Smg.Gateway.TreeRepair
import Smg.KvIndex.LaneMapRefines
import Smg.KvIndex.LanePoolDelivery
import Smg.Scheduler.Accounting
import Smg.Scheduler.Dispatch
import Smg.KvIndex.TokenTreeBudget
import Smg.Tokenizer.ScannersCorrect
import Smg.Tokenizer.MergeCorrect
import Smg.Mcp.DynamicServers
import Smg.Gateway.RegistryRings
import Smg.Workflow.SchedulerRuns
import Smg.Workflow.Cancellation
import Smg.Tokenizer.StopMatcher
import Smg.Gateway.SseCuts
import Smg.Gateway.LoadState
import Smg.Gateway.RegistryRace
import Smg.Tokenizer.PatternClasses
import Smg.Gateway.RingLookup
import Smg.Symphony.AdmittedTypes
