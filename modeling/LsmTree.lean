import LsmTree.Proof.ChatInterleaving
import LsmTree.Proof.Cli
import LsmTree.Proof.CompactDamage
import LsmTree.Proof.PowerLoss
import LsmTree.Proof.FormatLimits
import LsmTree.Proof.FileSafety
import LsmTree.Proof.Ingestion
import LsmTree.Proof.SkipListRuns
import LsmTree.Proof.Ltm
import LsmTree.Proof.MemoryStore
import LsmTree.Proof.PrefixScan
import LsmTree.Proof.Snapshot
import LsmTree.Proof.TableLookup
import LsmTree.Proof.WalCut
import LsmTree.Proof.WriteBuffer
import LsmTree.Proof.DiskImage
