import Odss.Rlc.AmTypes

/-!
# `Odss.Rlc.AmSegmentPool`: SDU segments and delivery information

A segment resource ties an RLC PDU to a PDCP PDU that it carries a piece of. It is on the
list of the RLC PDU until that PDU leaves the transmit window, and on the list of the PDCP
PDU until the piece is acknowledged or the information dropped. When both sides have
released it, it returns to the free list (`rlc_am_pdu_segment_pool`, `pdcp_pdu_info` and
`buffered_pdcp_pdu_list` of `rlc_am_lte.h`).

Segments are numbered. An intrusive list is the list of the numbers of its segments.
-/

set_option linter.all false

namespace Odss.Rlc

/-! ### The pool -/

/-- `segment_resource`, with `none` for the invalid sequence numbers. -/
structure SegmentResource where
  rlcSn : Option Nat
  pdcpSn : Option Nat
deriving DecidableEq, Repr

/-- `empty` -/
def SegmentResource.isEmpty (segment : SegmentResource) : Bool :=
  segment.rlcSn.isNone && segment.pdcpSn.isNone

/-- `rlc_am_pdu_segment_pool` -/
structure SegmentPool where
  freeList : List Nat
  segments : Nat → SegmentResource

namespace SegmentPool

/-- `MAX_POOL_SIZE` -/
def maxPoolSize : Nat := 16384

/-- The free list after the constructor has pushed the first `n` segments. -/
def initFreeList : Nat → List Nat
  | 0 => []
  | n + 1 => n :: initFreeList n

/-- The constructor. -/
def init : SegmentPool := ⟨initFreeList maxPoolSize, fun _ => ⟨none, none⟩⟩

/-- `has_segments` -/
def hasSegments (pool : SegmentPool) : Bool := !pool.freeList.isEmpty

/-- `release_pdcp_sn` of the segment `id`. -/
def releasePdcpSn (pool : SegmentPool) (id : Nat) : SegmentPool :=
  let segment := { pool.segments id with pdcpSn := none }
  { freeList := if segment.isEmpty then id :: pool.freeList else pool.freeList
    segments := Function.update pool.segments id segment }

/-- `release_rlc_sn` of the segment `id`. -/
def releaseRlcSn (pool : SegmentPool) (id : Nat) : SegmentPool :=
  let segment := { pool.segments id with rlcSn := none }
  { freeList := if segment.isEmpty then id :: pool.freeList else pool.freeList
    segments := Function.update pool.segments id segment }

/-- The destructor of `rlc_amd_tx_pdu` for a PDU with the segments `ids`. -/
def releaseRlcSns (pool : SegmentPool) (ids : List Nat) : SegmentPool :=
  ids.foldl releaseRlcSn pool

end SegmentPool

/-! ### Delivery information -/

/-- `pdcp_pdu_info`, with `none` for the invalid PDCP SN. -/
structure PdcpPduInfo where
  sn : Option Nat
  fullyTxed : Bool
  list : List Nat
deriving DecidableEq, Repr

namespace PdcpPduInfo

/-- A default `pdcp_pdu_info`. -/
def init : PdcpPduInfo := ⟨none, false, []⟩

/-- `fully_acked` -/
def fullyAcked (info : PdcpPduInfo) : Bool := info.fullyTxed && info.list.isEmpty

end PdcpPduInfo

/-- `buffered_pdcp_pdu_list` -/
structure BufferedPdcpPduList where
  bufferedPdus : Nat → PdcpPduInfo
  statusReportPdu : PdcpPduInfo
  count : Nat

namespace BufferedPdcpPduList

/-- `status_report_sn` -/
def statusReportSn : Nat := 2 ^ 32 - 1

/-- `buffer_size` -/
def bufferSize : Nat := 4096

/-- The constructor. -/
def init : BufferedPdcpPduList := ⟨fun _ => .init, .init, 0⟩

/-- `get_pdu_` -/
def getPdu (l : BufferedPdcpPduList) (sn : Nat) : PdcpPduInfo :=
  if sn = statusReportSn then l.statusReportPdu else l.bufferedPdus (sn % bufferSize)

/-- An assignment through the reference that `get_pdu_` returns. -/
def setPdu (l : BufferedPdcpPduList) (sn : Nat) (info : PdcpPduInfo) : BufferedPdcpPduList :=
  if sn = statusReportSn then { l with statusReportPdu := info }
  else { l with bufferedPdus := Function.update l.bufferedPdus (sn % bufferSize) info }

/-- `has_pdcp_sn` -/
def hasPdcpSn (l : BufferedPdcpPduList) (sn : Nat) : Bool := (l.getPdu sn).sn == some sn

end BufferedPdcpPduList

/-! ### Operations on both -/

/-- The pool with the delivery information. -/
structure SduInfo where
  pool : SegmentPool
  infos : BufferedPdcpPduList

namespace SduInfo

/-- After construction. -/
def init : SduInfo := ⟨.init, .init⟩

/-- `pdcp_pdu_info::clear` for the information of `sn`: each segment on its list is
acknowledged. -/
def clearPdu (i : SduInfo) (sn : Nat) : SduInfo where
  pool := (i.infos.getPdu sn).list.foldl SegmentPool.releasePdcpSn i.pool
  infos := i.infos.setPdu sn .init

/-- `clear_pdcp_sdu` -/
def clearPdcpSdu (i : SduInfo) (sn : Nat) : SduInfo :=
  if (i.infos.getPdu sn).sn.isNone then i
  else
    let i := i.clearPdu sn
    { i with infos := { i.infos with count := i.infos.count - 1 } }

/-- `add_pdcp_sdu` of an SN that is not there. The information of another SN in the same
slot is dropped. -/
def addPdcpSdu (i : SduInfo) (sn : Nat) : SduInfo :=
  let i := i.clearPdcpSdu sn
  { i with
    infos := { i.infos.setPdu sn { i.infos.getPdu sn with sn := some sn } with
      count := i.infos.count + 1 } }

/-- `make_segment` for the RLC PDU `rlcSn` and the information of `sn`. It returns the new
segment, which `add_segment` puts in front of the list of the RLC PDU. -/
def makeSegment (i : SduInfo) (rlcSn sn : Nat) : SduInfo × List Nat :=
  match i.pool.freeList with
  | [] => (i, [])
  | id :: freeList =>
    let info := i.infos.getPdu sn
    ({ pool := {
        freeList := freeList
        segments := Function.update i.pool.segments id ⟨some rlcSn, info.sn⟩ }
       infos := i.infos.setPdu sn { info with list := id :: info.list } }, [id])

/-- `fully_txed = true` for the information of `sn`. -/
def setFullyTxed (i : SduInfo) (sn : Nat) : SduInfo :=
  { i with infos := i.infos.setPdu sn { i.infos.getPdu sn with fullyTxed := true } }

/-- `ack_segment` of the segment `id` for the information of `sn`. -/
def ackSegment (i : SduInfo) (sn id : Nat) : SduInfo where
  pool := i.pool.releasePdcpSn id
  infos :=
    let info := i.infos.getPdu sn
    i.infos.setPdu sn { info with list := info.list.erase id }

/-- The destructor of an RLC PDU with the segments `ids`. -/
def releasePdu (i : SduInfo) (ids : List Nat) : SduInfo :=
  { i with pool := i.pool.releaseRlcSns ids }

/-- `buffered_pdcp_pdu_list::clear`. It leaves the information of the status report. -/
def clear (i : SduInfo) : SduInfo where
  pool := (List.range BufferedPdcpPduList.bufferSize).foldl
    (fun pool k => (i.infos.bufferedPdus k).list.foldl SegmentPool.releasePdcpSn pool) i.pool
  infos := { i.infos with bufferedPdus := fun _ => .init, count := 0 }

end SduInfo

end Odss.Rlc
