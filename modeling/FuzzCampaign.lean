import FuzzCampaign.Main
import FuzzCampaign.Proofs.Arborescence.Completion
import FuzzCampaign.Proofs.Arborescence.Greedy
import FuzzCampaign.Proofs.Arborescence.HeapLedger
import FuzzCampaign.Proofs.Arborescence.LightestTree
import FuzzCampaign.Proofs.CallGraph.Folding
import FuzzCampaign.Proofs.CallGraph.RoundTrip
import FuzzCampaign.Proofs.Campaign.Archive
import FuzzCampaign.Proofs.Campaign.Duty
import FuzzCampaign.Proofs.Campaign.SeedHistory
import FuzzCampaign.Proofs.Campaign.Tiling
import FuzzCampaign.Proofs.Consistency
import FuzzCampaign.Proofs.Coverage.CallLog
import FuzzCampaign.Proofs.Coverage.Windows
import FuzzCampaign.Proofs.Fleet.Rotation
import FuzzCampaign.Proofs.Partition.Colours
import FuzzCampaign.Proofs.Partition.Distribution
import FuzzCampaign.Proofs.Partition.EvenLoad
import FuzzCampaign.Proofs.Partition.Makespan
import FuzzCampaign.Proofs.Partition.TaskText
import FuzzCampaign.Rehearsal.Script
