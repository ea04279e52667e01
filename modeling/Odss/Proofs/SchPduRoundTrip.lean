import Odss.Proofs.SchPduWrite

/-!
# `Odss.Proofs.SchPduRoundTrip`: MAC PDUs that are written and read

A PDU with CEs and SDUs is written, and read with the same limit of subheaders. `RoundTrips` is
that the reader finds the CEs and then the SDUs, as they were put in, and nothing else but
padding.

* `readSubheaders_header` and `readPayloads_eq` are the reader on what the writer has written.
* `contents_place` is what it finds, and `nofBytes_of_contents` what follows from it.
* `roundTrips_iff` is the exact condition.
-/

set_option linter.all false

namespace Odss.Mac.RxSubh

open Odss.Rlc SchPdu

/-! ### The subheaders -/

/-- The subheader that is read where `s` was written. -/
def ofSubh (isUl : Bool) (s : SchSubh) (isLast : Bool) : RxSubh where
  lcid := s.lcid
  nofBytes := if s.isSdu then (if isLast then 0 else s.nofBytes) else sizeofCe isUl s.lcid
  payload := 0

theorem getD_of_drop {pdu : Bytes} {ptr : Nat} {bytes : Bytes} (h : pdu.drop ptr = bytes) (k : Nat) :
    pdu.getD (ptr + k) 0 = bytes.getD k 0 := by
  rw [← h, List.getD_eq_getElem?_getD, List.getD_eq_getElem?_getD, List.getElem?_drop]

theorem drop_add_of_drop {pdu : Bytes} {ptr : Nat} {front rest : Bytes}
    (h : pdu.drop ptr = front ++ rest) : pdu.drop (ptr + front.length) = rest := by
  rw [← List.drop_drop, h, List.drop_left]

theorem toNat_lengthField {n : Nat} (h : n < 2 ^ 15) :
    (128 ≤ n → (UInt8.ofNat (128 + n / 256 % 128)).toNat / 128 = 1 ∧
      (UInt8.ofNat (128 + n / 256 % 128)).toNat % 128 * 256 + (UInt8.ofNat (n % 256)).toNat = n) ∧
    (n < 128 → (UInt8.ofNat (n % 128)).toNat / 128 ≠ 1 ∧
      (UInt8.ofNat (n % 128)).toNat % 128 = n) := by
  simp only [UInt8.toNat_ofNat']
  omega

/-- A subheader is read as it was written, up to the size of a last SDU. -/
theorem readSubheader_write (isUl : Bool) {isLast : Bool} {s : SchSubh} {pdu rest : Bytes} {ptr : Nat}
    (h : Writable s) (hpdu : pdu.drop ptr = s.writeSubheader isLast ++ rest) :
    readSubheader isUl pdu ptr = (ofSubh isUl s isLast, !isLast, ptr + s.headerSize isLast) := by
  have h0 := getD_of_drop hpdu 0
  have h1 := getD_of_drop hpdu 1
  have h2 := getD_of_drop hpdu 2
  obtain ⟨hlcid, hsdu⟩ := h
  have hoctet : (UInt8.ofNat ((if isLast then 0 else 32) + s.lcid % 32)).toNat / 32 % 2
      = (if isLast then 0 else 1) ∧
      (UInt8.ofNat ((if isLast then 0 else 32) + s.lcid % 32)).toNat % 32 = s.lcid := by
    rw [UInt8.toNat_ofNat']
    cases isLast <;> simp <;> omega
  have hfirst : pdu.getD ptr 0 = UInt8.ofNat ((if isLast then 0 else 32) + s.lcid % 32) := h0
  unfold readSubheader
  simp only [hfirst, hoctet.1, hoctet.2]
  cases hs : isSduLcid s.lcid with
  | false =>
    have hnot : s.isSdu = false := hs
    cases isLast <;> simp [ofSubh, SchSubh.headerSize, hnot]
  | true =>
    have his : s.isSdu = true := hs
    obtain ⟨hpos, hlt⟩ := hsdu his
    cases isLast with
    | true => simp [ofSubh, SchSubh.headerSize, his]
    | false =>
      obtain ⟨hlong, hshort⟩ := toNat_lengthField hlt
      by_cases hlen : 128 ≤ s.nofBytes
      · obtain ⟨hflag, hval⟩ := hlong hlen
        simp only [SchSubh.writeSubheader, his, SchSubh.lengthField, if_pos hlen] at h1 h2
        have hb1 : pdu.getD (ptr + 1) 0 = UInt8.ofNat (128 + s.nofBytes / 256 % 128) := h1
        have hb2 : pdu.getD (ptr + 2) 0 = UInt8.ofNat (s.nofBytes % 256) := h2
        have hsize : s.headerSize false = 3 := by
          rw [SchSubh.headerSize, if_neg Bool.false_ne_true, if_pos his, sizeHeaderSdu,
            if_neg (by omega), if_neg (by omega)]
        simp only [hb1, hb2, hflag, hval, hsize]
        simp [ofSubh, his]
      · obtain ⟨hflag, hval⟩ := hshort (by omega)
        simp only [SchSubh.writeSubheader, his, SchSubh.lengthField, if_neg hlen] at h1
        have hb1 : pdu.getD (ptr + 1) 0 = UInt8.ofNat (s.nofBytes % 128) := h1
        have hsize : s.headerSize false = 2 := by
          rw [SchSubh.headerSize, if_neg Bool.false_ne_true, if_pos his, sizeHeaderSdu,
            if_neg (by omega), if_pos (by omega)]
        simp only [hb1, hflag, hval, hsize]
        simp [ofSubh, his]

section Header

variable (isUl : Bool) {pduLen : Nat} {pdu rest : Bytes} {front : List SchSubh} {last : SchSubh}
  {ptr follow : Nat}

theorem headerBytes_cons (s : SchSubh) (front : List SchSubh) (last : SchSubh) :
    headerBytes (s :: front) last = s.writeSubheader false ++ headerBytes front last := by
  rw [headerBytes, List.flatMap_cons, List.append_assoc]
  rfl

theorem length_headerBytes_pos (front : List SchSubh) (last : SchSubh) :
    0 < (headerBytes front last).length := by
  rw [headerBytes, List.length_append]
  exact Nat.lt_of_lt_of_le (Nat.zero_lt_succ _) (Nat.le_add_left _ _)

theorem readSubheaders_cons {s : SchSubh} (hs : Writable s)
    (hpdu : pdu.drop ptr = headerBytes (s :: front) last ++ rest)
    (hlen : ptr + (headerBytes (s :: front) last).length ≤ pduLen) :
    readSubheaders isUl pduLen pdu follow ptr =
      match follow with
      | 0 => some ([ofSubh isUl s false], ptr + (s.writeSubheader false).length)
      | follow + 1 =>
        (readSubheaders isUl pduLen pdu follow (ptr + (s.writeSubheader false).length)).map
          fun x => (ofSubh isUl s false :: x.1, x.2) := by
  have hpos := length_headerBytes_pos front last
  rw [headerBytes_cons, List.append_assoc] at hpdu
  rw [headerBytes_cons, List.length_append] at hlen
  have hread := readSubheader_write isUl hs hpdu
  rw [← length_writeSubheader hs] at hread
  have hmore : ¬ (ptr + (s.writeSubheader false).length ≥ pduLen) := by omega
  have hlt : pduLen > ptr + (s.writeSubheader false).length := by omega
  cases follow with
  | zero =>
    rw [readSubheaders, hread]
    simp only [Bool.not_false, Bool.true_and, decide_eq_true_eq, if_neg hmore]
  | succ follow =>
    conv_lhs => rw [readSubheaders, hread]
    simp only [Bool.not_false, Bool.true_and, decide_eq_true_eq, if_neg hmore, if_pos hlt]

theorem readSubheaders_header (hw : ∀ s ∈ front, Writable s) (hlast : Writable last)
    (hpdu : pdu.drop ptr = headerBytes front last ++ rest)
    (hlen : ptr + (headerBytes front last).length ≤ pduLen) (hle : front.length ≤ follow) :
    readSubheaders isUl pduLen pdu follow ptr =
      some (front.map (ofSubh isUl · false) ++ [ofSubh isUl last true],
        ptr + (headerBytes front last).length) := by
  induction front generalizing ptr follow with
  | nil =>
    have hpdu : pdu.drop ptr = last.writeSubheader true ++ rest := hpdu
    have hread := readSubheader_write isUl hlast hpdu
    unfold readSubheaders
    rw [hread, ← length_writeSubheader hlast]
    cases follow <;> rfl
  | cons s front ih =>
    rw [readSubheaders_cons isUl (hw s List.mem_cons_self) hpdu hlen]
    rw [headerBytes_cons] at hpdu hlen ⊢
    rw [List.append_assoc] at hpdu
    rw [List.length_append] at hlen ⊢
    cases follow with
    | zero => cases hle
    | succ follow =>
      have hrest := ih (fun s' hs' => hw s' (List.mem_cons_of_mem _ hs')) (drop_add_of_drop hpdu)
        (by omega) (Nat.le_of_succ_le_succ hle)
      simp only [hrest, Option.map_some, Nat.add_assoc]
      rfl

theorem readSubheaders_limit (hw : ∀ s ∈ front, Writable s)
    (hpdu : pdu.drop ptr = headerBytes front last ++ rest)
    (hlen : ptr + (headerBytes front last).length ≤ pduLen) (hlt : follow < front.length) :
    ∃ ptr', readSubheaders isUl pduLen pdu follow ptr =
      some ((front.take (follow + 1)).map (ofSubh isUl · false), ptr') ∧ ptr' ≤ pduLen := by
  induction front generalizing ptr follow with
  | nil => cases hlt
  | cons s front ih =>
    rw [readSubheaders_cons isUl (hw s List.mem_cons_self) hpdu hlen]
    rw [headerBytes_cons] at hpdu hlen
    rw [List.append_assoc] at hpdu
    rw [List.length_append] at hlen
    cases follow with
    | zero => exact ⟨_, rfl, by omega⟩
    | succ follow =>
      obtain ⟨ptr', hrest, hptr⟩ := ih (fun s' hs' => hw s' (List.mem_cons_of_mem _ hs'))
        (drop_add_of_drop hpdu) (by omega) (Nat.lt_of_succ_lt_succ hlt)
      refine ⟨ptr', ?_, hptr⟩
      simp only [hrest, Option.map_some]
      rfl

end Header

/-! ### The payloads -/

/-- The subheaders with the positions of their payloads. -/
def place : List RxSubh → Nat → List RxSubh
  | [], _ => []
  | s :: ss, ptr => { s with payload := ptr } :: place ss (ptr + s.nofBytes)

theorem place_append (ss ss' : List RxSubh) (ptr : Nat) :
    place (ss ++ ss') ptr = place ss ptr ++ place ss' (ptr + (ss.map nofBytes).sum) := by
  induction ss generalizing ptr with
  | nil => rfl
  | cons s ss ih => simp only [List.cons_append, place, ih, List.map_cons, List.sum_cons,
      Nat.add_assoc]

/-- What does not look at the position is as before. -/
theorem map_place {α : Type} (f : RxSubh → α) (hf : ∀ (s : RxSubh) ptr, f { s with payload := ptr } = f s)
    (ss : List RxSubh) (ptr : Nat) : (place ss ptr).map f = ss.map f := by
  induction ss generalizing ptr with
  | nil => rfl
  | cons s ss ih => rw [place, List.map_cons, List.map_cons, ih, hf]

theorem readPayloads_eq {pduLen : Nat} {ss : List RxSubh} {ptr : Nat} (h : ptr ≤ pduLen) :
    readPayloads pduLen ss ptr
      = if ptr + (ss.map nofBytes).sum ≤ pduLen then some (place ss ptr) else none := by
  induction ss generalizing ptr with
  | nil => exact (if_pos h).symm
  | cons s ss ih =>
    rw [readPayloads, List.map_cons, List.sum_cons]
    by_cases hfits : ptr + s.nofBytes > pduLen
    · rw [if_pos hfits, if_neg (by omega)]
    · rw [if_neg hfits, ih (Nat.le_of_not_lt hfits), ← Nat.add_assoc]
      split <;> rfl

theorem correctLast_concat (pduLen : Nat) (ss : List RxSubh) (s : RxSubh) :
    correctLast pduLen (ss ++ [s]) =
      if (ss.map sizePlusHeader).sum + 1 ≤ pduLen then
        ss ++ [{ s with nofBytes := pduLen - (ss.map sizePlusHeader).sum - 1 }]
      else [] := by
  rw [correctLast, List.getLast?_concat, List.dropLast_concat]

theorem parsePacket_eq {isUl : Bool} {maxSubheaders pduLen : Nat} {pdu : Bytes} {ss : List RxSubh}
    {s : RxSubh} {ptr : Nat} (hmax : maxSubheaders ≠ 0) (hptr : ptr ≤ pduLen)
    (hread : readSubheaders isUl pduLen pdu (maxSubheaders - 2) 0 = some (ss ++ [s], ptr)) :
    parsePacket isUl maxSubheaders pduLen pdu =
      if ptr + ((ss ++ [s]).map nofBytes).sum ≤ pduLen ∧
          (ss.map sizePlusHeader).sum + 1 ≤ pduLen then
        place ss ptr ++ [{ s with
          nofBytes := pduLen - (ss.map sizePlusHeader).sum - 1
          payload := ptr + (ss.map nofBytes).sum }]
      else [] := by
  have hsize := map_place sizePlusHeader (fun s ptr => rfl) ss ptr
  rw [parsePacket, if_neg hmax, hread]
  simp only [readPayloads_eq hptr]
  by_cases hfits : ptr + ((ss ++ [s]).map nofBytes).sum ≤ pduLen
  · rw [if_pos hfits]
    simp only [place_append, place, correctLast_concat, hsize, hfits, true_and]
  · rw [if_neg hfits, if_neg fun h => hfits h.1]

/-! ### What is found -/

/-- What the reader finds besides padding: of each CE and SDU whether it is an SDU, its LCID, its
size and its bytes. -/
def contents (pdu : Bytes) (ss : List RxSubh) : List (Bool × Nat × Nat × Bytes) :=
  (ss.filter fun s => s.lcid != paddingLcid).map fun s =>
    (isSduLcid s.lcid, s.lcid, s.nofBytes, (pdu.drop s.payload).take s.nofBytes)

theorem contents_append (pdu : Bytes) (ss ss' : List RxSubh) :
    contents pdu (ss ++ ss') = contents pdu ss ++ contents pdu ss' := by
  rw [contents, List.filter_append, List.map_append]
  rfl

theorem contents_padding {pdu : Bytes} {s : RxSubh} (h : s.lcid = paddingLcid) :
    contents pdu [s] = [] := by
  rw [contents, List.filter_cons, if_neg (by simp [h])]
  rfl

theorem contents_cons {pdu : Bytes} {s : RxSubh} (h : s.lcid ≠ paddingLcid) (ss : List RxSubh) :
    contents pdu (s :: ss) =
      (isSduLcid s.lcid, s.lcid, s.nofBytes, (pdu.drop s.payload).take s.nofBytes)
        :: contents pdu ss := by
  rw [contents, List.filter_cons, if_pos (by simp [h])]
  rfl

theorem length_contents (pdu : Bytes) (ss : List RxSubh) :
    (contents pdu ss).length = ((ss.map lcid).filter (· != paddingLcid)).length := by
  rw [contents, List.length_map, List.filter_map, List.length_map]
  rfl

end Odss.Mac.RxSubh

namespace Odss.Mac.SchPdu

open Odss.Rlc RxSubh

/-- What has been put in, as the reader should find it. -/
def Insert.content (op : Insert) : Bool × Nat × Nat × Bytes :=
  (op.isSdu, op.lcid, op.bytes.length, op.bytes)

section Contents

variable {isUl : Bool} {V : List Insert} (hv : ValidLcids V)

include hv

theorem lcid_ne_padding {op : Insert} (hop : op ∈ V) : op.lcid ≠ paddingLcid := by
  intro heq
  cases hs : op.isSdu with
  | false => exact absurd (heq ▸ (Insert.lcid_of_not_isSdu hs).2) (by decide)
  | true => exact absurd (heq ▸ hv op hop hs) (by decide)

theorem nofBytes_ofSubh {op : Insert} (hop : op ∈ V) (hces : CesSized isUl V) :
    (ofSubh isUl op.subh false).nofBytes = op.bytes.length := by
  have hs := isSdu_subh (hv op hop)
  cases hsdu : op.isSdu with
  | false =>
    rw [hsdu] at hs
    have hsize := hces op hop hsdu
    simp only [ofSubh, hs, Bool.false_eq_true, if_false]
    exact hsize.symm
  | true =>
    rw [hsdu] at hs
    simp only [ofSubh, hs, Bool.false_eq_true, if_true, if_false]
    rfl

theorem sizePlusHeader_ofSubh {op : Insert} (hop : op ∈ V)
    (hn : (ofSubh isUl op.subh false).nofBytes = op.bytes.length) :
    (ofSubh isUl op.subh false).sizePlusHeader = op.fullSize := by
  have hs : isSduLcid (ofSubh isUl op.subh false).lcid = op.isSdu := isSdu_subh (hv op hop)
  rw [sizePlusHeader, hn, hs, Insert.fullSize]
  split <;> rfl

/-- Where the bytes that were put in are, the reader finds them. -/
theorem contents_place {pdu rest : Bytes} {ptr : Nat}
    (hn : ∀ op ∈ V, (ofSubh isUl op.subh false).nofBytes = op.bytes.length)
    (hpdu : pdu.drop ptr = V.flatMap Insert.bytes ++ rest) :
    contents pdu (place (V.map fun op => ofSubh isUl op.subh false) ptr)
      = V.map Insert.content := by
  induction V generalizing ptr with
  | nil => rfl
  | cons op V ih =>
    have hlcid := lcid_ne_padding hv List.mem_cons_self
    have hsize := hn op List.mem_cons_self
    rw [List.flatMap_cons, List.append_assoc] at hpdu
    have hrest := ih (fun op' hop' => hv op' (List.mem_cons_of_mem _ hop'))
      (fun op' hop' => hn op' (List.mem_cons_of_mem _ hop')) (drop_add_of_drop hpdu)
    have hs : isSduLcid op.lcid = op.isSdu := isSdu_subh (hv op List.mem_cons_self)
    rw [List.map_cons, place, contents_cons hlcid, hsize, hrest, List.map_cons]
    have hbytes : (pdu.drop ptr).take op.bytes.length = op.bytes := by rw [hpdu, List.take_left]
    show (isSduLcid op.lcid, op.lcid, op.bytes.length, (pdu.drop ptr).take op.bytes.length) :: _ = _
    rw [hs, hbytes]
    rfl

/-- If the reader finds what was put in, it has read the sizes. -/
theorem nofBytes_of_contents {pdu : Bytes} {ptr : Nat} {ss : List RxSubh}
    {X : List (Bool × Nat × Nat × Bytes)}
    (h : contents pdu (place (V.map fun op => ofSubh isUl op.subh false) ptr ++ ss)
      = V.map Insert.content ++ X) :
    (∀ op ∈ V, (ofSubh isUl op.subh false).nofBytes = op.bytes.length) ∧ contents pdu ss = X := by
  induction V generalizing ptr with
  | nil => exact ⟨nofun, h⟩
  | cons op V ih =>
    have hlcid := lcid_ne_padding hv List.mem_cons_self
    rw [List.map_cons, place, List.cons_append, contents_cons hlcid, List.map_cons,
      List.cons_append] at h
    obtain ⟨hop, hV⟩ := List.cons.inj h
    obtain ⟨hn, hX⟩ := ih (fun op' hop' => hv op' (List.mem_cons_of_mem _ hop')) hV
    refine ⟨fun op' hop' => ?_, hX⟩
    rcases List.mem_cons.mp hop' with rfl | hop'
    · exact congrArg (·.2.2.1) hop
    · exact hn op' hop'

end Contents

/-! ### Reading what was written -/

section Reader

variable {ops V : List Insert} {p : SchPdu} {front : List SchSubh} {last : SchSubh}

/-- The subheaders that the reader gets of `V`. -/
def rxSubhs (isUl : Bool) (V : List Insert) : List RxSubh :=
  V.map fun op => ofSubh isUl op.subh false

theorem sum_nofBytes {isUl : Bool}
    (hn : ∀ op ∈ V, (ofSubh isUl op.subh false).nofBytes = op.bytes.length) :
    ((rxSubhs isUl V).map nofBytes).sum = (V.map fun op => op.bytes.length).sum := by
  rw [rxSubhs, List.map_map]
  exact congrArg List.sum (List.map_congr_left fun op hop => hn op hop)

theorem sum_sizePlusHeader {isUl : Bool} (hv : ValidLcids V)
    (hn : ∀ op ∈ V, (ofSubh isUl op.subh false).nofBytes = op.bytes.length) :
    ((rxSubhs isUl V).map sizePlusHeader).sum = (V.map Insert.fullSize).sum := by
  rw [rxSubhs, List.map_map]
  refine congrArg List.sum (List.map_congr_left fun op hop => ?_)
  exact sizePlusHeader_ofSubh hv hop (hn op hop)

/-- What the reader gets of the padding in front. -/
def rxPadding (isUl : Bool) (n : Nat) : List RxSubh :=
  List.replicate n (ofSubh isUl (.padding 0) false)

theorem sizeofCe_padding (isUl : Bool) : sizeofCe isUl paddingLcid = 0 := by
  cases isUl <;> rfl

theorem nofBytes_padding (isUl isLast : Bool) (n : Nat) :
    (ofSubh isUl (.padding n) isLast).nofBytes = 0 := sizeofCe_padding isUl

theorem sum_rxPadding (isUl : Bool) (n : Nat) :
    ((rxPadding isUl n).map nofBytes).sum = 0 ∧ ((rxPadding isUl n).map sizePlusHeader).sum = n := by
  have hsize : (ofSubh isUl (.padding 0) false).sizePlusHeader = 1 := by
    show 1 + (ofSubh isUl (.padding 0) false).nofBytes = 1
    rw [nofBytes_padding]
  rw [rxPadding, List.map_replicate, List.map_replicate, List.sum_replicate_nat,
    List.sum_replicate_nat, nofBytes_padding, hsize, Nat.mul_zero, Nat.mul_one]
  exact ⟨rfl, rfl⟩

theorem contents_rxPadding {pdu : Bytes} (isUl : Bool) (n ptr : Nat) :
    contents pdu (place (rxPadding isUl n) ptr) = [] := by
  induction n generalizing ptr with
  | zero => rfl
  | succ n ih =>
    rw [rxPadding, List.replicate_succ, place, ← List.singleton_append, contents_append,
      contents_padding rfl]
    exact ih _

theorem ValidLcids.inOrder (hv : ValidLcids ops) (hV : V = inOrder ops) : ValidLcids V :=
  hv.subset fun _ hop => (perm_inOrder ops).mem_iff.mp (hV ▸ hop)

theorem CesSized.inOrder {isUl : Bool} (hces : CesSized isUl ops) (hV : V = inOrder ops) :
    CesSized isUl V :=
  fun op hop => hces op ((perm_inOrder ops).mem_iff.mp (hV ▸ hop))

theorem map_ofSubh_front (isUl : Bool) (n : Nat) (V : List Insert) :
    (List.replicate n (SchSubh.padding 0) ++ V.map Insert.subh).map (ofSubh isUl · false)
      = rxPadding isUl n ++ rxSubhs isUl V := by
  rw [List.map_append, List.map_replicate, List.map_map]
  rfl

theorem sum_headerSize_front (n : Nat) (V : List Insert) :
    ((List.replicate n (SchSubh.padding 0) ++ V.map Insert.subh).map (·.headerSize false)).sum
      = n + (V.map fun op => op.subh.headerSize false).sum := by
  rw [List.map_append, List.sum_append, List.map_replicate, List.sum_replicate_nat, List.map_map]
  exact congrArg (· + _) (Nat.mul_one n)

/-- What the reader finds when it has got some padding, the subheaders of `V` and another one. -/
theorem contents_parsePacket {isUl : Bool} {maxSubheaders pduLen n H : Nat} {pdu : Bytes}
    {s : RxSubh} (hmax : maxSubheaders ≠ 0) (hH : H ≤ pduLen)
    (hread : readSubheaders isUl pduLen pdu (maxSubheaders - 2) 0
      = some (rxPadding isUl n ++ rxSubhs isUl V ++ [s], H)) :
    contents pdu (parsePacket isUl maxSubheaders pduLen pdu) =
      if H + ((rxSubhs isUl V).map nofBytes).sum + s.nofBytes ≤ pduLen ∧
          n + ((rxSubhs isUl V).map sizePlusHeader).sum + 1 ≤ pduLen then
        contents pdu (place (rxSubhs isUl V) H ++ [{ s with
          nofBytes := pduLen - (n + ((rxSubhs isUl V).map sizePlusHeader).sum) - 1
          payload := H + ((rxSubhs isUl V).map nofBytes).sum }])
      else [] := by
  obtain ⟨hpad, hpadSize⟩ := sum_rxPadding isUl n
  rw [parsePacket_eq hmax hH hread]
  simp only [List.map_append, List.sum_append, hpad, hpadSize, List.map_cons, List.map_nil,
    List.sum_cons, List.sum_nil, Nat.zero_add, Nat.add_zero, Nat.add_assoc]
  split
  · rw [place_append, hpad, Nat.add_zero, List.append_assoc, contents_append, contents_rxPadding,
      List.nil_append]
  · rfl

theorem Built.headers_le (h : Built ops p) (hv : ValidLcids ops) (hzero : unaccounted 0 ops = 0)
    (hV : V = SchPdu.inOrder ops) (hl : Layout p V front last) :
    0 + (headerBytes front last).length ≤ p.pduLen := by
  rw [h.pduLen_eq hv hzero hV hl, Nat.zero_add, Nat.add_assoc]
  exact Nat.le_add_right _ _

/-- The reader finds what was put in, and the padding behind it. -/
theorem Built.contents_multi (h : Built ops p) (hv : ValidLcids ops) (hzero : unaccounted 0 ops = 0)
    (hV : V = SchPdu.inOrder ops) (hmulti : p.multibytePadding = true)
    (hces : CesSized p.isUl ops) (hmax : p.maxSubheaders ≠ 0)
    (hle : V.length ≤ p.maxSubheaders - 2) {pdu : Bytes}
    (hpdu : pdu = headerBytes (V.map Insert.subh) (.padding p.numPadding)
      ++ V.flatMap Insert.bytes ++ List.replicate p.numPadding 0) :
    contents pdu (parsePacket p.isUl p.maxSubheaders p.pduLen pdu) = V.map Insert.content := by
  have hl := Layout.multi V hmulti
  obtain ⟨hfront, hlast⟩ := hl.writable h hv hV
  have hlen := h.pduLen_eq hv hzero hV hl
  have hvV := hv.inOrder hV
  have hn : ∀ op ∈ V, (ofSubh p.isUl op.subh false).nofBytes = op.bytes.length :=
    fun op hop => nofBytes_ofSubh hvV hop (hces.inOrder hV)
  have hsum := sum_nofBytes hn
  have hsize := sum_sizePlusHeader hvV hn
  have hfull := sum_fullSize hvV
  have hhs := sum_headerSize_front 0 V
  have hheader := length_headerBytes hfront hlast
  rw [List.append_assoc] at hpdu
  have hdrop : pdu.drop 0 = _ := hpdu
  have hread := readSubheaders_header p.isUl hfront hlast hdrop
    (h.headers_le hv hzero hV hl) ((List.length_map _).trans_le hle)
  have hbehind := drop_add_of_drop hdrop
  rw [Nat.zero_add] at hread hbehind
  have hss := map_ofSubh_front p.isUl 0 V
  rw [List.replicate_zero, List.nil_append] at hss hhs
  rw [hss] at hread
  rw [hhs] at hheader
  rw [contents_parsePacket hmax (by omega) hread, if_pos, contents_append, contents_padding rfl,
    List.append_nil]
  · exact contents_place hvV hn hbehind
  · rw [hsum, hsize, nofBytes_padding]
    omega

/-- The reader finds what was put in, the last one with the size that is left. -/
theorem Built.contents_short (h : Built ops p) (hv : ValidLcids ops) (hzero : unaccounted 0 ops = 0)
    {v : Insert} (hV : V ++ [v] = SchPdu.inOrder ops) (hmulti : p.multibytePadding = false)
    (hces : CesSized p.isUl ops) (hmax : p.maxSubheaders ≠ 0)
    (hle : p.onetwoPadding + V.length ≤ p.maxSubheaders - 2) {pdu : Bytes}
    (hpdu : pdu = headerBytes
        (List.replicate p.onetwoPadding (SchSubh.padding 0) ++ V.map Insert.subh) v.subh
      ++ (V ++ [v]).flatMap Insert.bytes ++ List.replicate p.numPadding 0) :
    contents pdu (parsePacket p.isUl p.maxSubheaders p.pduLen pdu)
      = (V ++ [v]).map Insert.content := by
  have hl := Layout.short V v hmulti
  obtain ⟨hfront, hlast⟩ := hl.writable h hv hV
  have hlen := h.pduLen_eq hv hzero hV hl
  have hvVv := hv.inOrder hV
  have hvmem : v ∈ V ++ [v] := List.mem_append_right _ List.mem_cons_self
  have hvV : ValidLcids V := hvVv.subset (List.subset_append_left _ _)
  have hnVv : ∀ op ∈ V ++ [v], (ofSubh p.isUl op.subh false).nofBytes = op.bytes.length :=
    fun op hop => nofBytes_ofSubh hvVv hop (hces.inOrder hV)
  have hn : ∀ op ∈ V, (ofSubh p.isUl op.subh false).nofBytes = op.bytes.length :=
    fun op hop => hnVv op (List.mem_append_left _ hop)
  have hsum := sum_nofBytes hn
  have hsize := sum_sizePlusHeader hvV hn
  have hfull := sum_fullSize hvV
  have hheader := length_headerBytes hfront hlast
  -- The last one is an SDU without a size or a CE with its own.
  have hvn : (ofSubh p.isUl v.subh true).nofBytes ≤ v.bytes.length := by
    have hvn := hnVv v hvmem
    unfold ofSubh at hvn ⊢
    simp only [if_true] at hvn ⊢
    split_ifs at hvn ⊢ <;> omega
  rw [List.append_assoc] at hpdu
  have hdrop : pdu.drop 0 = _ := hpdu
  have hfollow : (List.replicate p.onetwoPadding (SchSubh.padding 0)
      ++ V.map Insert.subh).length ≤ p.maxSubheaders - 2 := by
    rw [List.length_append, List.length_replicate, List.length_map]
    exact hle
  have hread := readSubheaders_header p.isUl hfront hlast hdrop (h.headers_le hv hzero hV hl)
    hfollow
  have hbehind := drop_add_of_drop hdrop
  rw [Nat.zero_add] at hread hbehind
  rw [map_ofSubh_front] at hread
  rw [sum_headerSize_front] at hheader
  generalize (headerBytes _ v.subh).length = H at hread hbehind hheader hlen
  have hpadding : p.numPadding = 0 := by
    rw [numPadding, hmulti]
    rfl
  rw [List.map_append, List.sum_append] at hlen
  simp only [List.map_cons, List.map_nil, List.sum_cons, List.sum_nil] at hlen
  have hrest : p.pduLen - (p.onetwoPadding + ((rxSubhs p.isUl V).map sizePlusHeader).sum) - 1
      = v.bytes.length := by
    rw [hsize]
    omega
  rw [contents_parsePacket hmax (by omega) hread, if_pos, hrest, contents_append,
    contents_cons (lcid_ne_padding hvVv hvmem), List.map_append]
  · rw [List.flatMap_append, List.append_assoc] at hbehind
    have hVfound := contents_place hvV hn hbehind
    have hVlen : (V.flatMap Insert.bytes).length = (V.map fun op => op.bytes.length).sum :=
      List.length_flatMap
    have hvfound : (pdu.drop (H + ((rxSubhs p.isUl V).map nofBytes).sum)).take v.bytes.length
        = v.bytes := by
      rw [hsum, ← hVlen, drop_add_of_drop hbehind, List.flatMap_cons, List.flatMap_nil,
        List.append_nil, List.take_left]
    have hs : isSduLcid v.lcid = v.isSdu := isSdu_subh (hvVv v hvmem)
    show _ ++ [(isSduLcid v.lcid, v.lcid, v.bytes.length,
      (pdu.drop (H + ((rxSubhs p.isUl V).map nofBytes).sum)).take v.bytes.length)] = _
    rw [hvfound, hs]
    exact congrArg (· ++ _) hVfound
  · rw [hsum, hsize]
    omega

/-! ### What follows from a round trip -/

theorem headerSize_pos {s : SchSubh} (h : Writable s) : 0 < s.headerSize false := by
  rw [← length_writeSubheader h]
  exact Nat.zero_lt_succ _

theorem map_lcid_parsePacket {isUl : Bool} {maxSubheaders pduLen ptr : Nat} {pdu : Bytes}
    {ss : List RxSubh} (hptr : ptr ≤ pduLen)
    (hread : readSubheaders isUl pduLen pdu (maxSubheaders - 2) 0 = some (ss, ptr)) :
    ((parsePacket isUl maxSubheaders pduLen pdu).map RxSubh.lcid).Sublist (ss.map RxSubh.lcid) := by
  by_cases hmax : maxSubheaders = 0
  · rw [parsePacket, if_pos hmax]
    exact List.nil_sublist _
  rcases List.eq_nil_or_concat ss with rfl | ⟨ss, s, rfl⟩
  · rw [parsePacket, if_neg hmax, hread]
    exact List.Sublist.refl _
  · rw [List.concat_eq_append] at hread ⊢
    rw [parsePacket_eq hmax hptr hread]
    split
    · rw [List.map_append, List.map_append, map_place RxSubh.lcid fun s ptr => rfl]
      exact List.Sublist.refl _
    · exact List.nil_sublist _

theorem length_writePayload (s : SchSubh) (isUl : Bool) :
    (s.writePayload isUl).length = sizeofCe isUl s.lcid := by
  have hle : sizeofCe isUl s.lcid ≤ 6 := by
    unfold sizeofCe ulCeSize dlCeSize
    split <;> split <;> decide
  rw [SchSubh.writePayload, List.length_take, List.length_append, List.length_replicate]
  omega

section RoundTrip

variable {rest pdu : Bytes} (h : Built ops p) (hv : ValidLcids ops) (hzero : unaccounted 0 ops = 0)

include h hv hzero

/-- With the padding behind, the reader takes it for a part of the last subheader when it stops in
front of it. -/
theorem Built.limit_multi {v : Insert} (hV : V ++ [v] = SchPdu.inOrder ops)
    (hmulti : p.multibytePadding = true)
    (hpdu : pdu = headerBytes ((V ++ [v]).map Insert.subh) (.padding p.numPadding) ++ rest)
    (hfound : contents pdu (parsePacket p.isUl p.maxSubheaders p.pduLen pdu)
      = (V ++ [v]).map Insert.content) : (V ++ [v]).length ≤ p.maxSubheaders - 2 := by
  have hl := Layout.multi (V ++ [v]) hmulti
  obtain ⟨hfront, hlast⟩ := hl.writable h hv hV
  have hlen := h.pduLen_eq hv hzero hV hl
  have hvVv := hv.inOrder hV
  have hvmem : v ∈ V ++ [v] := List.mem_append_right _ List.mem_cons_self
  have hvV : ValidLcids V := hvVv.subset (List.subset_append_left _ _)
  have hheader := length_headerBytes hfront hlast
  have hdrop : pdu.drop 0 = _ := hpdu
  by_contra hlimit
  have hroom : (V ++ [v]).length < p.maxSubheaders := by
    have hperm := (perm_inOrder ops).length_eq
    rw [hV, hperm]
    refine h.room ?_
    rintro rfl
    simp [inOrder] at hV
  have hlimit' : p.maxSubheaders - 2 < ((V ++ [v]).map Insert.subh).length := by
    rw [List.length_map]
    omega
  obtain ⟨ptr, hread, hptr⟩ := readSubheaders_limit p.isUl hfront hdrop
    (h.headers_le hv hzero hV hl) hlimit'
  have hall : (((V ++ [v]).map Insert.subh).take (p.maxSubheaders - 2 + 1)).map
      (ofSubh p.isUl · false)
        = rxPadding p.isUl 0 ++ rxSubhs p.isUl V ++ [ofSubh p.isUl v.subh false] := by
    rw [List.take_of_length_le (by rw [List.length_map]; omega), List.map_map, List.map_append]
    rfl
  rw [hall] at hread
  rw [contents_parsePacket (by omega) hptr hread, List.map_append] at hfound
  split at hfound
  · obtain ⟨hn, hvfound⟩ := nofBytes_of_contents hvV hfound
    have hsize := sum_sizePlusHeader hvV hn
    have hfull := sum_fullSize hvV
    have hpos := headerSize_pos (hfront v.subh (List.mem_map_of_mem hvmem))
    rw [contents_cons (lcid_ne_padding hvVv hvmem)] at hvfound
    have hvn : p.pduLen - (0 + ((rxSubhs p.isUl V).map sizePlusHeader).sum) - 1
        = v.bytes.length := congrArg (·.2.2.1) (List.cons.inj hvfound).1
    have hhs := sum_headerSize_front 0 V
    rw [List.replicate_zero, List.nil_append, Nat.zero_add] at hhs
    generalize (headerBytes _ _).length = H at hheader hlen
    rw [List.map_append, List.map_append, List.sum_append, hhs] at hheader
    rw [List.map_append, List.sum_append] at hlen
    simp only [List.map_cons, List.map_nil, List.sum_cons, List.sum_nil] at hheader hlen
    omega
  · simp at hfound

/-- With the padding in front, the reader does not come to the last subheader when it stops. -/
theorem Built.limit_short {v : Insert} (hV : V ++ [v] = SchPdu.inOrder ops)
    (hmulti : p.multibytePadding = false)
    (hpdu : pdu = headerBytes
      (List.replicate p.onetwoPadding (SchSubh.padding 0) ++ V.map Insert.subh) v.subh ++ rest)
    (hfound : contents pdu (parsePacket p.isUl p.maxSubheaders p.pduLen pdu)
      = (V ++ [v]).map Insert.content) : p.onetwoPadding + V.length ≤ p.maxSubheaders - 2 := by
  have hl := Layout.short V v hmulti
  obtain ⟨hfront, hlast⟩ := hl.writable h hv hV
  have hlen := h.pduLen_eq hv hzero hV hl
  have hdrop : pdu.drop 0 = _ := hpdu
  by_contra hlimit
  have hlt : p.maxSubheaders - 2
      < (List.replicate p.onetwoPadding (SchSubh.padding 0) ++ V.map Insert.subh).length := by
    rw [List.length_append, List.length_replicate, List.length_map]
    omega
  obtain ⟨ptr, hread, hptr⟩ := readSubheaders_limit p.isUl hfront hdrop
    (h.headers_le hv hzero hV hl) hlt
  have hcount := congrArg List.length hfound
  rw [length_contents, List.length_map, List.length_append, List.length_singleton] at hcount
  -- Nothing but the subheaders of `V` is read besides padding.
  have hread' := ((map_lcid_parsePacket hptr hread).filter (· != paddingLcid)).length_le
  have hfront' := ((((List.take_sublist (p.maxSubheaders - 2 + 1)
    (List.replicate p.onetwoPadding (SchSubh.padding 0) ++ V.map Insert.subh)).map
      (ofSubh p.isUl · false)).map RxSubh.lcid).filter (· != paddingLcid)).length_le
  have hpads : (((rxPadding p.isUl p.onetwoPadding).map RxSubh.lcid).filter
      (· != paddingLcid)) = [] := by
    rw [rxPadding, List.map_replicate, List.filter_replicate]
    exact if_neg Bool.false_ne_true
  have hVs : (((rxSubhs p.isUl V).map RxSubh.lcid).filter (· != paddingLcid)).length ≤ V.length := by
    have hle := List.length_filter_le (· != paddingLcid) ((rxSubhs p.isUl V).map RxSubh.lcid)
    rwa [List.length_map, rxSubhs, List.length_map] at hle
  rw [map_ofSubh_front, List.map_append, List.filter_append, hpads, List.nil_append] at hfront'
  omega

/-- With the padding behind, the CEs have the sizes that the reader expects. -/
theorem Built.ces_multi (hV : V = SchPdu.inOrder ops) (hmulti : p.multibytePadding = true)
    (hmax : p.maxSubheaders ≠ 0) (hle : V.length ≤ p.maxSubheaders - 2)
    (hpdu : pdu = headerBytes (V.map Insert.subh) (.padding p.numPadding) ++ rest)
    (hfound : contents pdu (parsePacket p.isUl p.maxSubheaders p.pduLen pdu)
      = V.map Insert.content) :
    ∀ op ∈ V, (ofSubh p.isUl op.subh false).nofBytes = op.bytes.length := by
  have hl := Layout.multi V hmulti
  obtain ⟨hfront, hlast⟩ := hl.writable h hv hV
  have hbound := h.headers_le hv hzero hV hl
  have hdrop : pdu.drop 0 = _ := hpdu
  have hread := readSubheaders_header p.isUl hfront hlast hdrop hbound
    ((List.length_map _).trans_le hle)
  have hss := map_ofSubh_front p.isUl 0 V
  rw [List.replicate_zero, List.nil_append] at hss
  rw [hss] at hread
  rw [contents_parsePacket hmax hbound hread] at hfound
  split at hfound
  · rw [← List.append_nil (V.map Insert.content)] at hfound
    exact (nofBytes_of_contents (hv.inOrder hV) hfound).1
  · intro op hop
    rw [List.map_eq_nil_iff.mp hfound.symm] at hop
    cases hop

/-- Otherwise all but the last one have them, and the last one ends with the PDU. -/
theorem Built.ces_short {v : Insert} (hV : V ++ [v] = SchPdu.inOrder ops)
    (hmulti : p.multibytePadding = false) (hmax : p.maxSubheaders ≠ 0)
    (hle : p.onetwoPadding + V.length ≤ p.maxSubheaders - 2)
    (hpdu : pdu = headerBytes
      (List.replicate p.onetwoPadding (SchSubh.padding 0) ++ V.map Insert.subh) v.subh ++ rest)
    (hfound : contents pdu (parsePacket p.isUl p.maxSubheaders p.pduLen pdu)
      = (V ++ [v]).map Insert.content) :
    (∀ op ∈ V, (ofSubh p.isUl op.subh false).nofBytes = op.bytes.length) ∧
      (ofSubh p.isUl v.subh true).nofBytes ≤ v.bytes.length ∧
      (pdu.drop (p.pduLen - v.bytes.length)).take v.bytes.length = v.bytes := by
  have hl := Layout.short V v hmulti
  obtain ⟨hfront, hlast⟩ := hl.writable h hv hV
  have hlen := h.pduLen_eq hv hzero hV hl
  have hbound := h.headers_le hv hzero hV hl
  have hvVv := hv.inOrder hV
  have hvmem : v ∈ V ++ [v] := List.mem_append_right _ List.mem_cons_self
  have hvV : ValidLcids V := hvVv.subset (List.subset_append_left _ _)
  have hdrop : pdu.drop 0 = _ := hpdu
  have hfollow : (List.replicate p.onetwoPadding (SchSubh.padding 0)
      ++ V.map Insert.subh).length ≤ p.maxSubheaders - 2 := by
    rw [List.length_append, List.length_replicate, List.length_map]
    exact hle
  have hread := readSubheaders_header p.isUl hfront hlast hdrop hbound hfollow
  rw [map_ofSubh_front] at hread
  rw [contents_parsePacket hmax hbound hread, List.map_append] at hfound
  have hpadding : p.numPadding = 0 := by
    rw [numPadding, hmulti]
    rfl
  rw [hpadding, List.map_append, List.sum_append] at hlen
  simp only [List.map_cons, List.map_nil, List.sum_cons, List.sum_nil] at hlen
  split at hfound
  · next hcond =>
    obtain ⟨hn, hvfound⟩ := nofBytes_of_contents hvV hfound
    have hsum := sum_nofBytes hn
    rw [contents_cons (lcid_ne_padding hvVv hvmem)] at hvfound
    have hcontent := (List.cons.inj hvfound).1
    have hvn : p.pduLen - _ - 1 = v.bytes.length := congrArg (·.2.2.1) hcontent
    have hvb : (pdu.drop _).take (p.pduLen - _ - 1) = v.bytes := congrArg (·.2.2.2) hcontent
    rw [hvn, hsum] at hvb
    rw [hsum] at hcond
    have hpos : p.pduLen - v.bytes.length = 0 + (headerBytes
        (List.replicate p.onetwoPadding (SchSubh.padding 0) ++ V.map Insert.subh) v.subh).length
          + (V.map fun op => op.bytes.length).sum := by omega
    refine ⟨hn, by omega, ?_⟩
    rw [hpos]
    exact hvb
  · simp at hfound

/-- If the last one is a CE with more bytes than are written of it, the PDU ends with what was in the
buffer. -/
theorem Built.last_stale {v : Insert} (hV : V ++ [v] = SchPdu.inOrder ops)
    (hmulti : p.multibytePadding = false) (hce : v.isSdu = false)
    (hn : ∀ op ∈ V, (ofSubh p.isUl op.subh false).nofBytes = op.bytes.length)
    (hlt : sizeofCe p.isUl v.lcid < v.bytes.length) (stale : Nat → UInt8) :
    ((p.written stale).take p.nBytes)[p.pduLen - 1]? = some (stale (p.pduLen - 1)) := by
  rcases h.split_inOrder hzero hV with ⟨hlast, rfl, hall⟩ | ⟨_, _, _, _, _, hsdu, _, _⟩
  · have hl := Layout.short V v hmulti
    have hpadding : p.numPadding = 0 := by
      rw [numPadding, hmulti]
      rfl
    have hsdus : p.sdus = [] := by
      rw [h.sdus, List.flatMap_eq_nil_iff]
      intro op hop
      rw [Insert.sduBytes, hall op hop]
      rfl
    have hsize := h.nBytes_eq hv
    have hpay := h.payload_eq hv
    rw [hsdus, List.length_nil, List.map_append, List.sum_append] at hpay
    rw [hpadding, hzero] at hsize
    have hbytes : p.nBytes = p.totalHeaderSize := by rw [nBytes, hsdus, List.length_nil, Nat.zero_add]
    -- The CEs in front of the last one have all their bytes.
    have hces : p.writeCePayloads.length
        = (V.map fun op => op.bytes.length).sum + sizeofCe p.isUl v.lcid := by
      rw [writeCePayloads, h.subheaders, filter_not_isSdu_subh hv, List.filter_eq_self.mpr,
        List.length_flatMap, List.map_map, List.map_append, List.sum_append]
      · have hV' : (V.map ((fun s => (SchSubh.writePayload s p.isUl).length) ∘ Insert.subh)).sum
            = (V.map fun op => op.bytes.length).sum := by
          refine congrArg List.sum (List.map_congr_left fun op hop => ?_)
          have hop' := List.mem_append_left [v] hop
          have hs : op.subh.isSdu = false := by rw [isSdu_subh (hv op hop'), hall op hop']
          have hsize := hn op hop
          unfold ofSubh at hsize
          rw [hs] at hsize
          exact (length_writePayload op.subh p.isUl).trans hsize
        rw [hV']
        exact congrArg (_ + ·) (length_writePayload v.subh p.isUl)
      · intro op hop
        rw [hall op hop]
        rfl
    have hheaders := h.length_headers hv hzero hV hl
    have hfront : p.writeFront.length < p.totalHeaderSize := by
      rw [writeFront, h.headers_eq hv hzero hV hl, List.length_append, hheaders, hces,
        totalHeaderSize]
      simp only [List.map_cons, List.map_nil, List.sum_cons, List.sum_nil] at hpay
      omega
    have hlast : p.writeFront.length + (p.pduLen - 1 - p.writeFront.length) = p.pduLen - 1 := by
      omega
    rw [List.getElem?_take_of_lt (by omega), written, hsdus, List.append_nil,
      List.getElem?_append_right (by omega), List.getElem?_drop, hlast, List.getElem?_map,
      List.getElem?_range (by omega)]
    rfl
  · rw [hce] at hsdu
    cases hsdu

end RoundTrip

/-! ### The exact condition -/

/-- For everything that is in the buffer before, the PDU is written and the reader finds the CEs
and then the SDUs. -/
def RoundTrips (ops : List Insert) (p : SchPdu) : Prop :=
  ∀ stale, ∃ pdu, p.writePacket stale = some pdu ∧
    contents pdu (parsePacket p.isUl p.maxSubheaders p.pduLen pdu)
      = (SchPdu.inOrder ops).map Insert.content

/-- The subheaders of padding that are written. -/
def padSubheaders (p : SchPdu) : Nat := if p.multibytePadding then 1 else p.onetwoPadding

/-- What the reader finds has the kinds and the LCIDs of what was put in. -/
theorem validLcids_of_contents {pdu : Bytes} {ss : List RxSubh}
    (h : contents pdu ss = (SchPdu.inOrder ops).map Insert.content) : ValidLcids ops := by
  intro op hop hsdu
  have hmem : op.content ∈ contents pdu ss := by
    rw [h]
    exact List.mem_map_of_mem ((perm_inOrder ops).mem_iff.mpr hop)
  obtain ⟨s, -, hs⟩ := List.mem_map.mp hmem
  have hkind : isSduLcid s.lcid = op.isSdu := congrArg (·.1) hs
  have hlcid : s.lcid = op.lcid := congrArg (·.2.1) hs
  rw [hlcid, hsdu] at hkind
  exact of_decide_eq_true hkind

theorem contents_of_padding {isUl : Bool} {maxSubheaders pduLen n : Nat} {pdu rest : Bytes}
    (hlen : 0 < pduLen) (hpdu : pdu = headerBytes [] (.padding n) ++ rest) :
    contents pdu (parsePacket isUl maxSubheaders pduLen pdu) = [] := by
  by_cases hmax : maxSubheaders = 0
  · rw [parsePacket, if_pos hmax]
    rfl
  have hdrop : pdu.drop 0 = headerBytes [] (.padding n) ++ rest := hpdu
  have hread := readSubheaders_header isUl (fun s hs => by cases hs) (writable_padding n) hdrop
    (Nat.succ_le_of_lt hlen) (Nat.zero_le (maxSubheaders - 2))
  have hread' : readSubheaders isUl pduLen pdu (maxSubheaders - 2) 0
      = some (rxPadding isUl 0 ++ rxSubhs isUl [] ++ [ofSubh isUl (.padding n) true], 1) := hread
  rw [contents_parsePacket hmax (Nat.succ_le_of_lt hlen) hread']
  split
  · exact contents_padding rfl
  · rfl

theorem parsePacket_zero (isUl : Bool) (maxSubheaders : Nat) :
    parsePacket isUl maxSubheaders 0 [] = [] := by
  unfold parsePacket readSubheaders
  split
  · rfl
  · cases maxSubheaders - 2 <;> rfl

/-- Without any CE or SDU only the place in the buffer matters. -/
theorem Built.roundTrips_nil (h : Built [] p) : RoundTrips [] p ↔ p.Fits := by
  have hv : ValidLcids [] := nofun
  have hrem := h.rem
  have hgrow : p.lastSduGrowth = 0 := by
    refine lastSduGrowth_of_none ?_
    cases hlast : p.lastSduIdx with
    | none => rfl
    | some i =>
      obtain ⟨op, hop, -⟩ := h.last i hlast
      cases hop
  have hrem : p.remLen = p.pduLen := by
    rw [hgrow] at hrem
    exact hrem
  have hsize := h.nBytes_eq hv
  rw [show unaccounted 0 [] = 0 from rfl, Nat.add_zero] at hsize
  constructor
  · intro hrt
    obtain ⟨pdu, hw, -⟩ := hrt fun _ => 0
    exact ((h.writePacket_eq_some hv).mp hw).1
  · intro hfits stale
    refine ⟨_, (h.writePacket_eq_some hv).mpr ⟨hfits, trivial, rfl⟩, ?_⟩
    show contents _ _ = []
    rcases Nat.eq_zero_or_pos p.pduLen with hlen | hlen
    · have hnb : p.nBytes = 0 := by omega
      have hnp : p.numPadding = 0 := by omega
      rw [body, hlen, hnb, hnp]
      exact congrArg (contents _) (parsePacket_zero p.isUl p.maxSubheaders)
    cases hmulti : p.multibytePadding with
    | true =>
      obtain ⟨rest, hrest, -⟩ := h.written_eq hv rfl rfl (Layout.multi [] hmulti) stale
      rw [body, hrest, List.append_assoc]
      exact contents_of_padding hlen rfl
    | false =>
      have hpadding : p.numPadding = 0 := by
        rw [numPadding, hmulti]
        rfl
      have honetwo : p.onetwoPadding = p.pduLen := by
        rw [onetwoPadding, hmulti, hrem]
        rfl
      -- One or two subheaders of padding without an E bit.
      have hwritten : ∃ rest, p.written stale = headerBytes [] (.padding 0) ++ rest := by
        obtain ⟨n, hn⟩ := Nat.exists_eq_succ_of_ne_zero (Nat.ne_of_gt hlen)
        rw [written, writeFront, writeOnetwoPadding, honetwo, decide_eq_false (Nat.lt_irrefl _), hn,
          List.replicate_succ, List.flatMap_cons]
        simp only [List.append_assoc]
        exact ⟨_, rfl⟩
      obtain ⟨rest, hrest⟩ := hwritten
      have hone : (headerBytes [] (.padding 0)).length ≤ p.nBytes := by
        show 1 ≤ p.nBytes
        omega
      rw [body, hrest, List.take_append, List.take_of_length_le hone, List.append_assoc]
      exact contents_of_padding hlen rfl

theorem cesSized_of_nofBytes {isUl : Bool} (hv : ValidLcids V)
    (hn : ∀ op ∈ V, (ofSubh isUl op.subh false).nofBytes = op.bytes.length) : CesSized isUl V := by
  intro op hop hce
  have hs : op.subh.isSdu = false := by rw [isSdu_subh (hv op hop), hce]
  have hsize := hn op hop
  unfold ofSubh at hsize
  rw [hs] at hsize
  exact hsize.symm

theorem CesSized.of_inOrder {isUl : Bool} (hces : CesSized isUl (SchPdu.inOrder ops)) :
    CesSized isUl ops :=
  fun op hop => hces op ((perm_inOrder ops).mem_iff.mpr hop)

section NonEmpty

variable (h : Built ops p) (hne : ops ≠ [])

include h hne

theorem exists_inOrder_eq_concat : ∃ V v, SchPdu.inOrder ops = V ++ [v] ∧
    V.length + 1 = ops.length ∧ V.length + 1 < p.maxSubheaders := by
  have hlength := (perm_inOrder ops).length_eq
  have hroom := h.room hne
  rcases List.eq_nil_or_concat (SchPdu.inOrder ops) with hnil | ⟨V, v, hV⟩
  · rw [hnil] at hlength
    exact absurd (List.length_eq_zero_iff.mp hlength.symm) hne
  · rw [List.concat_eq_append] at hV
    rw [hV, List.length_append, List.length_singleton] at hlength
    exact ⟨V, v, hV, hlength, by omega⟩

theorem Built.roundTrips_of (hv : ValidLcids ops) (hacc : Accounted 0 ops)
    (hces : CesSized p.isUl ops) (hfits : p.Fits)
    (hlimit : ops.length + p.padSubheaders < p.maxSubheaders) : RoundTrips ops p := by
  intro stale
  have hzero := (unaccounted_eq_zero_iff h.nonempty).mpr hacc
  obtain ⟨V, v, hV, hlength, hroom⟩ := exists_inOrder_eq_concat h hne
  refine ⟨_, (h.writePacket_eq_some hv).mpr ⟨hfits, hacc, rfl⟩, ?_⟩
  rw [hV]
  cases hmulti : p.multibytePadding with
  | true =>
    have hpads : p.padSubheaders = 1 := by rw [padSubheaders, if_pos hmulti]
    refine h.contents_multi hv hzero hV.symm hmulti hces (by omega) ?_ ?_
    · rw [List.length_append, List.length_singleton]
      omega
    · rw [body, h.written_of_cesSized hv hzero hV.symm (Layout.multi _ hmulti) hces]
  | false =>
    have hpads : p.padSubheaders = p.onetwoPadding := by
      rw [padSubheaders, hmulti]
      rfl
    refine h.contents_short hv hzero hV.symm hmulti hces (by omega) (by omega) ?_
    rw [body, h.written_of_cesSized hv hzero hV.symm (Layout.short V v hmulti) hces]

theorem Built.of_roundTrips (hrt : RoundTrips ops p) :
    ValidLcids ops ∧ Accounted 0 ops ∧ CesSized p.isUl ops ∧ p.Fits ∧
      ops.length + p.padSubheaders < p.maxSubheaders := by
  obtain ⟨V, v, hV, hlength, hroom⟩ := exists_inOrder_eq_concat h hne
  have hv : ValidLcids ops := by
    obtain ⟨pdu, -, hfound⟩ := hrt fun _ => 0
    exact validLcids_of_contents hfound
  have hwrites : ∀ stale, p.Fits ∧ Accounted 0 ops ∧
      contents (p.body stale) (parsePacket p.isUl p.maxSubheaders p.pduLen (p.body stale))
        = (V ++ [v]).map Insert.content := by
    intro stale
    obtain ⟨pdu, hw, hfound⟩ := hrt stale
    obtain ⟨hfits, hacc, rfl⟩ := (h.writePacket_eq_some hv).mp hw
    rw [hV] at hfound
    exact ⟨hfits, hacc, hfound⟩
  obtain ⟨hfits, hacc, hfound⟩ := hwrites fun _ => 0
  have hzero := (unaccounted_eq_zero_iff h.nonempty).mpr hacc
  have hvVv := hv.inOrder hV.symm
  cases hmulti : p.multibytePadding with
  | true =>
    obtain ⟨rest, hrest, -⟩ :=
      h.written_eq hv hzero hV.symm (Layout.multi _ hmulti) fun _ => 0
    rw [body, hrest, List.append_assoc] at hfound
    have hlimit := h.limit_multi hv hzero hV.symm hmulti rfl hfound
    have hn := h.ces_multi hv hzero hV.symm hmulti (by omega) hlimit rfl hfound
    have hpads : p.padSubheaders = 1 := by rw [padSubheaders, if_pos hmulti]
    rw [List.length_append, List.length_singleton] at hlimit
    refine ⟨hv, hacc, CesSized.of_inOrder ?_, hfits, by omega⟩
    rw [hV]
    exact cesSized_of_nofBytes hvVv hn
  | false =>
    have hpads : p.padSubheaders = p.onetwoPadding := by
      rw [padSubheaders, hmulti]
      rfl
    have hshort : ∀ stale, p.onetwoPadding + V.length ≤ p.maxSubheaders - 2 ∧
        (∀ op ∈ V, (ofSubh p.isUl op.subh false).nofBytes = op.bytes.length) ∧
        (ofSubh p.isUl v.subh true).nofBytes ≤ v.bytes.length ∧
        ((p.body stale).drop (p.pduLen - v.bytes.length)).take v.bytes.length = v.bytes := by
      intro stale
      obtain ⟨-, -, hfound⟩ := hwrites stale
      obtain ⟨rest, hrest, -⟩ :=
        h.written_eq hv hzero hV.symm (Layout.short V v hmulti) stale
      rw [body, hrest, List.append_assoc] at hfound ⊢
      have hlimit := h.limit_short hv hzero hV.symm hmulti rfl hfound
      exact ⟨hlimit, h.ces_short hv hzero hV.symm hmulti (by omega) hlimit rfl hfound⟩
    obtain ⟨hlimit, hn, hle, -⟩ := hshort fun _ => 0
    refine ⟨hv, hacc, CesSized.of_inOrder ?_, hfits, by omega⟩
    rw [hV]
    have hvV : ValidLcids V := hvVv.subset (List.subset_append_left _ _)
    intro op hop hce
    rcases List.mem_append.mp hop with hop | hop
    · exact cesSized_of_nofBytes hvV hn op hop hce
    obtain rfl := List.mem_singleton.mp hop
    have hs : op.subh.isSdu = false := by rw [isSdu_subh (hvVv op (by simp)), hce]
    have hsize : sizeofCe p.isUl op.lcid ≤ op.bytes.length := by
      unfold ofSubh at hle
      rw [hs] at hle
      exact hle
    by_contra hne'
    have hlt : sizeofCe p.isUl op.lcid < op.bytes.length := by omega
    -- The last byte is the one that was in the buffer.
    have hlast : ∀ stale : Nat → UInt8, op.bytes[op.bytes.length - 1]? = some (stale (p.pduLen - 1)) := by
      intro stale
      have hstale := h.last_stale hv hzero hV.symm hmulti hce hn hlt stale
      have hin := (List.getElem?_eq_some_iff.mp hstale).1
      have hend : p.pduLen - op.bytes.length + (op.bytes.length - 1) = p.pduLen - 1 := by
        have hlen := h.pduLen_eq hv hzero hV.symm (Layout.short V op hmulti)
        rw [List.map_append, List.sum_append] at hlen
        simp only [List.map_cons, List.map_nil, List.sum_cons, List.sum_nil] at hlen
        omega
      have hbytes : (((p.body stale).drop (p.pduLen - op.bytes.length)).take
          op.bytes.length)[op.bytes.length - 1]? = op.bytes[op.bytes.length - 1]? :=
        congrArg (·[op.bytes.length - 1]?) (hshort stale).2.2.2
      rw [List.getElem?_take_of_lt (by omega), List.getElem?_drop, hend, body,
        List.getElem?_append_left hin, hstale] at hbytes
      exact hbytes.symm
    have hzeros := hlast fun _ => 0
    rw [hlast fun _ => 1] at hzeros
    exact absurd (Option.some.inj hzeros) (by decide)

end NonEmpty

end Reader

/-! ### The condition on what is put in -/

/-- What the header of the last SDU is shorter when it is the last one of all. -/
def shortening (ops : List Insert) : Nat :=
  match (ops.filter Insert.isSdu).getLast? with
  | none => 0
  | some op => sizeHeaderSdu op.bytes.length - 1

/-- The bytes of the SDUs. -/
def sduSize (ops : List Insert) : Nat := (ops.flatMap Insert.sduBytes).length

/-- The bytes that are left of a PDU, with a short header of the last SDU. -/
def spare (pduLen : Nat) (ops : List Insert) : Nat :=
  pduLen + shortening ops - (ops.map Insert.fullSize).sum

/-- The subheaders of padding. -/
def padHeaders (pduLen : Nat) (ops : List Insert) : Nat :=
  if spare pduLen ops > 2 then 1 else spare pduLen ops

/-- The bytes of padding behind the SDUs. -/
def padBytes (pduLen : Nat) (ops : List Insert) : Nat :=
  if spare pduLen ops > 2 then spare pduLen ops - 1 - shortening ops else 0

/-- The condition on what is put into a PDU. -/
structure Readable (maxSubheaders pduLen : Nat) (isUl : Bool) (ops : List Insert) : Prop where
  lcids : ValidLcids ops
  accounted : Accounted 0 ops
  ces : CesSized isUl ops
  headroom : pduLen ≤ bufferHeadroom + sduSize ops + padBytes pduLen ops
  tailroom : padBytes pduLen ops ≤ bufferTailroom - sduSize ops
  limit : ops = [] ∨ ops.length + padHeaders pduLen ops < maxSubheaders

section Sizes

variable {ops : List Insert} {p : SchPdu} (h : Built ops p)

include h

theorem Built.lastSduGrowth_eq_shortening (hzero : unaccounted 0 ops = 0) :
    p.lastSduGrowth = shortening ops := by
  cases hlast : p.lastSduIdx with
  | none =>
    have hnil : ops.filter Insert.isSdu = [] :=
      List.filter_eq_nil_iff.mpr fun op hop hsdu => by
        rw [h.isSdu_of_none hzero hlast hop] at hsdu
        cases hsdu
    rw [lastSduGrowth_of_none hlast, shortening, hnil]
    rfl
  | some i =>
    have hne : ops ≠ [] := by
      rintro rfl
      obtain ⟨op, hop, -⟩ := h.last i hlast
      cases hop
    obtain ⟨V, v, hV, -, -⟩ := exists_inOrder_eq_concat h hne
    rcases h.split_inOrder hzero hV.symm with ⟨hnone, -, -⟩ | ⟨front, back, -, -, hsubh, -, -, rfl⟩
    · rw [hlast] at hnone
      cases hnone
    · rw [inOrder, List.append_assoc] at hV
      rw [shortening, List.append_cancel_left hV, List.getLast?_concat, lastSduGrowth, hsubh]
      rfl

theorem Built.remLen_eq (hzero : unaccounted 0 ops = 0) : p.remLen = spare p.pduLen ops := by
  have hrem := h.rem
  rw [hzero, h.lastSduGrowth_eq_shortening hzero] at hrem
  unfold spare
  omega

theorem Built.numPadding_eq_padBytes (hv : ValidLcids ops) (hzero : unaccounted 0 ops = 0) :
    p.numPadding = padBytes p.pduLen ops := by
  rw [h.numPadding_eq hv, h.lastSduGrowth_eq_shortening hzero, multibytePadding,
    h.remLen_eq hzero, padBytes]
  simp only [decide_eq_true_eq]

theorem Built.padSubheaders_eq (hzero : unaccounted 0 ops = 0) :
    p.padSubheaders = padHeaders p.pduLen ops := by
  rw [padSubheaders, onetwoPadding, multibytePadding, h.remLen_eq hzero, padHeaders]
  simp only [decide_eq_true_eq]
  split <;> rfl

theorem Built.fits_iff (hv : ValidLcids ops) (hzero : unaccounted 0 ops = 0) :
    p.Fits ↔ p.pduLen ≤ bufferHeadroom + sduSize ops + padBytes p.pduLen ops ∧
      padBytes p.pduLen ops ≤ bufferTailroom - sduSize ops := by
  have hsize := h.nBytes_eq hv
  rw [hzero, nBytes, h.numPadding_eq_padBytes hv hzero, h.sdus] at hsize
  rw [Fits, SchPdu.tailroom, h.numPadding_eq_padBytes hv hzero, h.sdus]
  refine and_congr ?_ Iff.rfl
  unfold sduSize
  omega

end Sizes

/-- What is put into a PDU is what the reader finds if and only if the condition holds: each SDU has
a LCID of one and fits twice into the buffer when `set_sdu` has its bytes, each CE has the size that
its LCID has in the direction of the PDU, the buffer has the room, and no more subheaders are
written, with those of padding, than the reader takes. -/
theorem roundTrips_iff {maxSubheaders pduLen : Nat} {isUl : Bool} {ops : List Insert} {p : SchPdu}
    (h : (initTx maxSubheaders pduLen isUl).insertAll ops = some p) :
    RoundTrips ops p ↔ Readable maxSubheaders pduLen isUl ops := by
  obtain ⟨hbuilt, hmax, hlen, hul⟩ := built_insertAll (built_initTx maxSubheaders pduLen isUl) h
  rw [List.nil_append] at hbuilt
  have hmax : p.maxSubheaders = maxSubheaders := hmax
  have hlen : p.pduLen = pduLen := hlen
  have hul : p.isUl = isUl := hul
  subst hmax hlen hul
  have hzero : Accounted 0 ops → unaccounted 0 ops = 0 :=
    (unaccounted_eq_zero_iff hbuilt.nonempty).mpr
  by_cases hne : ops = []
  · subst hne
    have hv : ValidLcids [] := nofun
    rw [hbuilt.roundTrips_nil, hbuilt.fits_iff hv rfl]
    exact ⟨fun hfits => ⟨hv, trivial, nofun, hfits.1, hfits.2, .inl rfl⟩,
      fun hread => ⟨hread.headroom, hread.tailroom⟩⟩
  constructor
  · intro hrt
    obtain ⟨hv, hacc, hces, hfits, hlimit⟩ := hbuilt.of_roundTrips hne hrt
    obtain ⟨hhead, htail⟩ := (hbuilt.fits_iff hv (hzero hacc)).mp hfits
    rw [hbuilt.padSubheaders_eq (hzero hacc)] at hlimit
    exact ⟨hv, hacc, hces, hhead, htail, .inr hlimit⟩
  · intro hread
    have hfits := (hbuilt.fits_iff hread.lcids (hzero hread.accounted)).mpr
      ⟨hread.headroom, hread.tailroom⟩
    refine hbuilt.roundTrips_of hne hread.lcids hread.accounted hread.ces hfits ?_
    rw [hbuilt.padSubheaders_eq (hzero hread.accounted)]
    exact hread.limit.resolve_left hne

/-- The example: an SDU, a BSR and an SDU that the interface has returned, in an uplink PDU. -/
def exampleOps : List Insert :=
  [.setSdu 3 [1, 2, 3], .setBsr (fun i => 100 * i.val) .short, .readSdu 4 10 [7, 8]]

theorem roundTrips_uplink :
    ∃ p, (initTx 20 30 true).insertAll exampleOps = some p ∧ RoundTrips exampleOps p := by
  have h : ((initTx 20 30 true).insertAll exampleOps).isSome = true := by decide
  obtain ⟨p, hp⟩ := Option.isSome_iff_exists.mp h
  refine ⟨p, hp, (roundTrips_iff hp).mpr ?_⟩
  exact {
    lcids := by unfold ValidLcids; decide
    accounted := ⟨by decide, trivial, trivial, trivial⟩
    ces := by unfold CesSized; decide
    headroom := by decide
    tailroom := by decide
    limit := .inr (by decide) }

/-- Nineteen SDUs of one byte. -/
def fullOps : List Insert := List.replicate 19 (.setSdu 1 [7])

/-- Nineteen SDUs are put into a PDU of at most twenty subheaders with some bytes left. The writer
adds the subheader of the padding, the reader stops in front of it and takes the padding for a
part of the last SDU. -/
theorem not_roundTrips_limit :
    ∃ p, (initTx 20 80 true).insertAll fullOps = some p ∧ ¬ RoundTrips fullOps p := by
  have hother : ((initTx 20 80 true).insertAll fullOps).map
      (fun p => (p.writePacket fun _ => 0).map fun pdu =>
        contents pdu (parsePacket p.isUl p.maxSubheaders p.pduLen pdu)
          == (inOrder fullOps).map Insert.content) = some (some false) := by
    decide +kernel
  obtain ⟨p, hp, hparse⟩ := Option.map_eq_some_iff.mp hother
  refine ⟨p, hp, fun h => ?_⟩
  obtain ⟨pdu, hw, hfound⟩ := h fun _ => 0
  rw [hw, Option.map_some, hfound, beq_self_eq_true] at hparse
  cases hparse

end Odss.Mac.SchPdu
