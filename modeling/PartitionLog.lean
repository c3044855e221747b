import PartitionLog.Config.Form
import PartitionLog.Main
import PartitionLog.Proofs.Detection
import PartitionLog.Proofs.WithinStream
import PartitionLog.Proofs.Snapshots
import PartitionLog.Proofs.FreeSpace
import PartitionLog.Session
import PartitionLog.Proofs.Damage
import PartitionLog.Proofs.Processors
import PartitionLog.Proofs.RoleFit
import PartitionLog.Proofs.Dumps
import PartitionLog.Proofs.RoundTrip
import PartitionLog.Proofs.Exclusion
import PartitionLog.Proofs.RoleHealth
import PartitionLog.Proofs.Truncation
import PartitionLog.Proofs.Standstill
import PartitionLog.Proofs.Bursts
import PartitionLog.Proofs.TornReads
import PartitionLog.Proofs.HaltNotices
import PartitionLog.Proofs.FlushWindow
import PartitionLog.Proofs.SnapshotCodec
import PartitionLog.Proofs.Resumption
import PartitionLog.Proofs.Density
import PartitionLog.Proofs.FloorMap
import PartitionLog.Proofs.Interchange
import PartitionLog.Proofs.BlockSizes
import PartitionLog.Proofs.Overlong
import PartitionLog.Proofs.Progress
