import DagMempool.Proofs.AckCallback
import DagMempool.Proofs.AckLifetime
import DagMempool.Proofs.AckSoundness
import DagMempool.Proofs.BatchLimits
import DagMempool.Proofs.BatchStores
import DagMempool.Proofs.BitSetOps
import DagMempool.Proofs.CausalDag
import DagMempool.Proofs.CertificateOnce
import DagMempool.Proofs.CertificateUniqueness
import DagMempool.Proofs.CollectionExact
import DagMempool.Proofs.ContentDigests
import DagMempool.Proofs.DagAtomicity
import DagMempool.Proofs.DagReload
import DagMempool.Proofs.DigestConservation
import DagMempool.Proofs.DoubleVotes
import DagMempool.Proofs.Epochs
import DagMempool.Proofs.Equivocation
import DagMempool.Proofs.FlowGate
import DagMempool.Proofs.FlowStates
import DagMempool.Proofs.HeaderIntegrity
import DagMempool.Proofs.HeaderParents
import DagMempool.Proofs.HeaderSelection
import DagMempool.Proofs.HistoryCache
import DagMempool.Proofs.HistoryCacheKeys
import DagMempool.Proofs.OrphanBuffer
import DagMempool.Proofs.OrphanDelivery
import DagMempool.Proofs.PeerHeights
import DagMempool.Proofs.QuorumSize
import DagMempool.Proofs.RecoveryAgreement
import DagMempool.Proofs.Restart
import DagMempool.Proofs.RetryPeers
import DagMempool.Proofs.ScaleDown
import DagMempool.Proofs.StopFlush
import DagMempool.Proofs.SyncTransfer
import DagMempool.Proofs.TxIndexAnswers
import DagMempool.Proofs.TxIndexMaps
import DagMempool.Proofs.TxRecovery
import DagMempool.Proofs.WaitingHeaders
