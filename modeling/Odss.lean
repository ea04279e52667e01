import Odss.Proofs.UmNrSegmentation
import Odss.Proofs.PdcpCount
import Odss.Proofs.TimerWheel
import Odss.Proofs.DlSharing
import Odss.Proofs.SlicerIdentity
import Odss.Proofs.NexRanMirror
import Odss.Proofs.TimerQueue
import Odss.Proofs.SubscriptionLife
import Odss.Proofs.RaSched
import Odss.Proofs.UciPusch
import Odss.Proofs.PerBounds
import Odss.Proofs.ExtGroups
import Odss.Proofs.SchPduNr
import Odss.Proofs.GtpuHeader
import Odss.Proofs.SchedNrEvents
import Odss.Proofs.RandomAccess
import Odss.Proofs.BsrStall
import Odss.Proofs.BsrTruth
import Odss.Proofs.DciCodec
import Odss.Proofs.AmRetxQueue
import Odss.Proofs.AmReassembly
import Odss.Proofs.HssAuth
import Odss.Proofs.AmNrCodec
import Odss.Proofs.AmRxDiscard
import Odss.Proofs.UmNrMalformed
import Odss.Proofs.UmNrOrder
import Odss.Proofs.AmBufferState
import Odss.Proofs.UmLteIntact
import Odss.Proofs.AmSegmentCheck
import Odss.Proofs.PdcpRxCounts
import Odss.Proofs.PdcchAtomic
import Odss.Proofs.UndeliveredQueue
import Odss.Proofs.TxPduLength
import Odss.Proofs.RxPduBounds
import Odss.Proofs.CtrlAllocTrace
import Odss.Proofs.PdcpRoundTrip
import Odss.Proofs.LengthDeterminant
import Odss.Proofs.PackSequence
import Odss.Proofs.SubbandCqi
import Odss.Proofs.OptimRbgmask
import Odss.Proofs.RbViews
import Odss.Proofs.RarPduNr
import Odss.Proofs.SchPduBounds
import Odss.Proofs.ArrayRefine
import Odss.Proofs.DciHarq
import Odss.Proofs.BitsetWords
import Odss.Phy.Sliv
import Odss.Phy.Cbsegm
import Odss.Rrc.RrcCfgUtils
import Odss.Phy.BitCopy
import Odss.Common.ByteBufferQueue
import Odss.Phy.RmConv
import Odss.Phy.Crc
import Odss.Ue.UlHarq
import Odss.Ue.DlHarq
import Odss.Proofs.RadarLoop
