import Pingfs.Block.MemoryBlockManager
import Pingfs.Lib.Framing
import Pingfs.Lib.Program
import Pingfs.Ping.IcmpPacket

/-!
# Receiving packets

`Ping` appends the bytes of every receive to `data_buffer_` and takes whole IPv4 packets off its
front, by their total-length field. An ICMP echo reply among them is published.

An uninitialised byte, where a stream ends before a field does, is the parameter `uninit`.

Sources: `ping.cc`, `data_buffer.cc`, `ip_v4_stream.hpp`, `ip_v4.cc`, `icmp_header.cc`.

## Main results

* `framing_independent` — what is published does not depend on how the packets are cut
* `reply_published` — an echo reply among datagrams that are made up of whole packets is published
-/

namespace Pingfs

/-! ## Reading headers -/

namespace IpV4Stream

/-- `IpV4Stream::read_byte`. -/
def readByte (uninit : UInt8) : Bytes → UInt8 × Bytes
  | [] => (uninit, [])
  | val :: stream => (val, stream)

/-- `IpV4Stream::read_unsigned_short`. The two bytes are read into the memory of a `uint16_t`. -/
def readUnsignedShort (uninit : UInt8) : Bytes → UInt16 × Bytes
  | [] => (ntohs (uninit.toUInt16 ||| uninit.toUInt16 <<< 8), [])
  | [b] => (ntohs (b.toUInt16 ||| uninit.toUInt16 <<< 8), [])
  | b :: c :: stream => (ntohs (b.toUInt16 ||| c.toUInt16 <<< 8), stream)

end IpV4Stream

open IpV4Stream

/-- The fields of `class IpV4`. -/
structure IpV4 where
  length : UInt16
  proto : UInt8
  deriving DecidableEq, Repr

/-- `IpV4::MIN_SIZE`. -/
def IpV4.MIN_SIZE : ℕ := 20

/-- `IpV4::IpV4`, with the stream after the header. -/
def IpV4.read (uninit : UInt8) (stream : Bytes) (length : ℕ) : Except Halt (IpV4 × Bytes) :=
  -- version, ihl, differentiated services
  let (_, stream) := readUnsignedShort uninit stream
  let (totalLength, stream) := readUnsignedShort uninit stream
  -- identification
  let (_, stream) := readUnsignedShort uninit stream
  -- flags, fragment offset
  let (_, stream) := readUnsignedShort uninit stream
  -- TTL
  let (_, stream) := readByte uninit stream
  let (proto, stream) := readByte uninit stream
  if length < MIN_SIZE then .error (.threw "Cannot deserialize header; too short")
  else
    -- checksum
    let (_, stream) := readUnsignedShort uninit stream
    -- source ip address
    let (_, stream) := readUnsignedShort uninit stream
    let (_, stream) := readUnsignedShort uninit stream
    -- dest ip address
    let (_, stream) := readUnsignedShort uninit stream
    let (_, stream) := readUnsignedShort uninit stream
    .ok (⟨totalLength, proto⟩, stream)

/-- `IpV4::is_icmp`. -/
def IpV4.isIcmp (ipV4 : IpV4) : Bool := ipV4.proto == 1

/-- The fields of `class IcmpHeader`. -/
structure IcmpHeader where
  type : UInt8
  code : UInt8
  checksum : UInt16
  identifier : UInt16
  sequenceNumber : UInt16
  deriving DecidableEq, Repr

/-- `IcmpHeader::IcmpHeader`, with the stream after the header. -/
def IcmpHeader.read (uninit : UInt8) (stream : Bytes) : IcmpHeader × Bytes :=
  let (type, stream) := readByte uninit stream
  let (code, stream) := readByte uninit stream
  let (checksum, stream) := readUnsignedShort uninit stream
  let (identifier, stream) := readUnsignedShort uninit stream
  let (sequenceNumber, stream) := readUnsignedShort uninit stream
  (⟨type, code, checksum, identifier, sequenceNumber⟩, stream)

def EchoResponse.CODE : UInt8 := 0

def EchoResponse.TYPE : UInt8 := 0

/-! ## Ping -/

/-- `data_buffer_` of `class Ping`, and the responses posted to `notify`, in order. -/
structure Ping where
  dataBuffer : Bytes
  published : List EchoResponse
  deriving DecidableEq, Repr

namespace Ping

/-- `Ping::Ping`. -/
def new : Ping := ⟨[], []⟩

/-- `std::vector<char>::max_size()`. -/
def maxSize : ℕ := 2 ^ 63 - 1

/-- `Ping::check_notify`. -/
def checkNotify (uninit : UInt8) (s : Ping) : Outcome Halt Ping Bool :=
  let copy := s.dataBuffer
  if copy.length < IpV4.MIN_SIZE then .returned false s
  else
    match IpV4.read uninit copy copy.length with
    | .error e => .halted e s
    | .ok (ipV4, stream) =>
      -- more bytes to read for this packet
      if ipV4.length.toNat > copy.length then .returned false s
      else
        let s := { s with dataBuffer := copy.drop ipV4.length.toNat }
        if !ipV4.isIcmp then .returned true s
        else
          let (icmpHeader, stream) := IcmpHeader.read uninit stream
          if icmpHeader.code ≠ EchoResponse.CODE then .returned true s
          else if icmpHeader.type ≠ EchoResponse.TYPE then .returned true s
          else
            -- a total length below 28 wraps around
            let size := ipV4.length.toUInt64 - IpV4.MIN_SIZE.toUInt64 - 8
            if size.toNat > maxSize then .halted (.threw "std::length_error") s
            else
              let data := stream.takeD size.toNat 0
              .returned true { s with
                published := s.published ++
                  [⟨icmpHeader.identifier, icmpHeader.sequenceNumber, data⟩] }

/-- The loop of `internal_check_notify`. -/
def internalCheckNotifyLoop (uninit : UInt8) : ℕ → Ping → Outcome Halt Ping Unit
  | 0, s => .halted .diverged s
  | fuel + 1, s =>
    (checkNotify uninit s).bind fun consumed s =>
      if consumed && s.dataBuffer.length ≠ 0 then internalCheckNotifyLoop uninit fuel s
      else .returned () s

/-- `Ping::internal_check_notify`. A round that takes no bytes off the buffer is made again for
ever (`diverges_of_checkNotify`), so there are at most as many rounds as bytes, and the last. -/
def internalCheckNotify (uninit : UInt8) (s : Ping) : Outcome Halt Ping Unit :=
  internalCheckNotifyLoop uninit (s.dataBuffer.length + 1) s

/-- The append of `handle_receive`, followed by the `internal_check_notify` that it posts. -/
def receive (uninit : UInt8) (s : Ping) (chunk : Bytes) : Outcome Halt Ping Unit :=
  internalCheckNotify uninit { s with dataBuffer := s.dataBuffer ++ chunk }

/-- Another chunk is received, if those before returned. -/
def receiveNext (uninit : UInt8) (o : Outcome Halt Ping Unit) (chunk : Bytes) :
    Outcome Halt Ping Unit := o.bind fun _ s => receive uninit s chunk

/-- Chunks received one after another. -/
def receiveAll (uninit : UInt8) (chunks : List Bytes) : Outcome Halt Ping Unit :=
  chunks.foldl (receiveNext uninit) (.returned () new)

end Ping

/-! ## Packets -/

/-- A 16-bit field in network order. -/
def ofBytes (high low : UInt8) : UInt16 := (high.toUInt16 <<< 8) ||| low.toUInt16

theorem toNat_ofBytes (high low : UInt8) :
    (ofBytes high low).toNat = high.toNat * 2 ^ 8 + low.toNat := by
  have hhigh := high.toNat_lt
  have hlow := low.toNat_lt
  rw [ofBytes, UInt16.toNat_or, UInt16.toNat_shiftLeft, UInt8.toNat_toUInt16, UInt8.toNat_toUInt16]
  show high.toNat <<< 8 % 2 ^ 16 ||| low.toNat = _
  rw [Nat.shiftLeft_eq, Nat.mod_eq_of_lt (by omega), ← Nat.shiftLeft_eq,
    ← Nat.shiftLeft_add_eq_or_of_lt hlow]

theorem ntohs_memory (b c : UInt8) : ntohs (b.toUInt16 ||| c.toUInt16 <<< 8) = ofBytes b c := by
  have hb := b.toNat_lt
  have hc := c.toNat_lt
  have hmemory := toNat_ofBytes c b
  rw [ofBytes, UInt16.or_comm] at hmemory
  have hswap := toNat_ntohs (b.toUInt16 ||| c.toUInt16 <<< 8)
  apply UInt16.toNat.inj
  rw [hswap, hmemory, toNat_ofBytes]
  omega

/-- What `put_short` writes is read back. -/
theorem ofBytes_putShort (s : UInt16) :
    ofBytes (s >>> 8).toUInt8 (s &&& 0x00FF).toUInt8 = s := by
  have hs := s.toNat_lt
  apply UInt16.toNat.inj
  rw [toNat_ofBytes, toNat_high, toNat_low]
  omega

namespace Packet

def byteAt (p : Bytes) (i : ℕ) : UInt8 := p.getD i 0

def shortAt (p : Bytes) (i : ℕ) : UInt16 := ofBytes (byteAt p i) (byteAt p (i + 1))

/-- The total-length field. -/
def totalLength (p : Bytes) : ℕ := (shortAt p 2).toNat

/-- The protocol field says ICMP. -/
def IsIcmp (p : Bytes) : Prop := byteAt p 9 = 1

/-- An ICMP packet with the type and code of an echo reply. -/
def IsReply (p : Bytes) : Prop := IsIcmp p ∧ byteAt p 20 = 0 ∧ byteAt p 21 = 0

instance (p : Bytes) : Decidable (IsIcmp p) := inferInstanceAs (Decidable (_ = _))

instance (p : Bytes) : Decidable (IsReply p) := inferInstanceAs (Decidable (_ ∧ _))

/-- What is published for a packet. -/
def response (p : Bytes) : Option EchoResponse :=
  if IsReply p then some ⟨shortAt p 24, shortAt p 26, p.drop 28⟩ else none

/-- A whole IPv4 packet. If it is an ICMP packet, it has an ICMP header. -/
structure IsPacket (p : Bytes) : Prop where
  header : 20 ≤ p.length
  total : totalLength p = p.length
  icmp : IsIcmp p → 28 ≤ p.length

/-- What `check_notify` takes off the buffer without looking at what follows: an IPv4 packet that,
if it is an ICMP packet, has an ICMP header or goes on until it is seen not to be a reply. -/
structure IsFrame (p : Bytes) : Prop where
  header : 20 ≤ p.length
  total : totalLength p = p.length
  icmp : IsIcmp p → 28 ≤ p.length ∨ (21 ≤ p.length ∧ byteAt p 20 ≠ 0) ∨
    (22 ≤ p.length ∧ byteAt p 21 ≠ 0)

variable {p more : Bytes} {i : ℕ}

theorem IsPacket.isFrame (h : IsPacket p) : IsFrame p :=
  ⟨h.header, h.total, fun hicmp => Or.inl (h.icmp hicmp)⟩

theorem byteAt_append (h : i < p.length) : byteAt (p ++ more) i = byteAt p i := by
  rw [byteAt, List.getD_append _ _ _ _ h]
  rfl

theorem byteAt_append_length : byteAt (p ++ more) (p.length + i) = byteAt more i := by
  rw [byteAt, List.getD_append_right _ _ _ _ (Nat.le_add_right ..), Nat.add_sub_cancel_left]
  rfl

theorem shortAt_append (h : i + 1 < p.length) : shortAt (p ++ more) i = shortAt p i := by
  rw [shortAt, byteAt_append (by omega), byteAt_append h]
  rfl

theorem readByte_drop (uninit : UInt8) (h : i < p.length) :
    readByte uninit (p.drop i) = (byteAt p i, p.drop (i + 1)) := by
  rw [List.drop_eq_getElem_cons h, readByte, byteAt, List.getD_eq_getElem _ _ h]

theorem readByte_drop_getD (uninit : UInt8) (p : Bytes) (i : ℕ) :
    readByte uninit (p.drop i) = (p.getD i uninit, p.drop (i + 1)) := by
  by_cases h : i < p.length
  · rw [readByte_drop uninit h, byteAt, List.getD_eq_getElem _ _ h, List.getD_eq_getElem _ _ h]
  · rw [List.drop_eq_nil_of_le (by omega), List.drop_eq_nil_of_le (by omega),
      List.getD_eq_default _ _ (by omega)]
    rfl

theorem readUnsignedShort_drop (uninit : UInt8) (h : i + 1 < p.length) :
    readUnsignedShort uninit (p.drop i) = (shortAt p i, p.drop (i + 2)) := by
  rw [List.drop_eq_getElem_cons (by omega), List.drop_eq_getElem_cons h, readUnsignedShort,
    ntohs_memory, shortAt, byteAt, byteAt, List.getD_eq_getElem _ _ (by omega),
    List.getD_eq_getElem _ _ h]

/-- The IP header is read. -/
theorem read_ipV4 (uninit : UInt8) (h : 20 ≤ p.length) :
    IpV4.read uninit p p.length = .ok (⟨shortAt p 2, byteAt p 9⟩, p.drop 20) := by
  have hfirst := readUnsignedShort_drop uninit (show 0 + 1 < p.length by omega)
  rw [List.drop_zero] at hfirst
  have hshort : ¬ p.length < IpV4.MIN_SIZE := by simpa [IpV4.MIN_SIZE] using h
  rw [IpV4.read]
  simp only [hfirst, hshort, if_false]
  simp (disch := omega) only [readUnsignedShort_drop, readByte_drop, Nat.reduceAdd]

/-- The ICMP header is read. -/
theorem read_icmpHeader (uninit : UInt8) (h : 28 ≤ p.length) :
    IcmpHeader.read uninit (p.drop 20) =
      (⟨byteAt p 20, byteAt p 21, shortAt p 22, shortAt p 24, shortAt p 26⟩, p.drop 28) := by
  rw [IcmpHeader.read]
  simp (disch := omega) only [readUnsignedShort_drop, readByte_drop, Nat.reduceAdd]

/-- The type and the code of an ICMP header, if need be from beyond the end. -/
theorem type_code_read (uninit : UInt8) (p : Bytes) :
    (IcmpHeader.read uninit (p.drop 20)).1.type = p.getD 20 uninit ∧
      (IcmpHeader.read uninit (p.drop 20)).1.code = p.getD 21 uninit := by
  rw [IcmpHeader.read, readByte_drop_getD]
  simp only [readByte_drop_getD, Nat.reduceAdd, and_self]

/-- The buffer holds all of the packet at its front. -/
def IsWhole (b : Bytes) : Prop := 20 ≤ b.length ∧ totalLength b ≤ b.length

instance (b : Bytes) : Decidable (IsWhole b) := inferInstanceAs (Decidable (_ ∧ _))

/-- What is read at the front of the buffer is an ICMP echo reply. If the buffer ends before the
type or the code, these are `uninit`. -/
def ReadsReply (uninit : UInt8) (b : Bytes) : Prop :=
  IsIcmp b ∧ b.getD 20 uninit = 0 ∧ b.getD 21 uninit = 0

instance (uninit : UInt8) (b : Bytes) : Decidable (ReadsReply uninit b) :=
  inferInstanceAs (Decidable (_ ∧ _))

/-- **Nothing is taken** of a packet that has not come in whole. -/
theorem checkNotify_of_not_isWhole {b : Bytes} (h : ¬ IsWhole b) (uninit : UInt8)
    (published : List EchoResponse) :
    Ping.checkNotify uninit ⟨b, published⟩ = .returned false ⟨b, published⟩ := by
  by_cases hmin : b.length < IpV4.MIN_SIZE
  · simp only [Ping.checkNotify, hmin, if_true]
  · have hheader : 20 ≤ b.length := Nat.not_lt.mp hmin
    have hmore : (shortAt b 2).toNat > b.length := Nat.not_le.mp fun htotal => h ⟨hheader, htotal⟩
    simp only [Ping.checkNotify, hmin, if_false, read_ipV4 uninit hheader, hmore, if_true]

/-- The payload of a packet that has both headers. -/
theorem toNat_size (length : UInt16) (h : 28 ≤ length.toNat) :
    (length.toUInt64 - IpV4.MIN_SIZE.toUInt64 - 8).toNat = length.toNat - 28 := by
  have hsmall := length.toNat_lt
  rw [UInt64.toNat_sub, UInt64.toNat_sub, UInt16.toNat_toUInt64]
  show (2 ^ 64 - 8 + (2 ^ 64 - 20 + length.toNat) % 2 ^ 64) % 2 ^ 64 = _
  omega

/-- That of a shorter packet is more than a `vector` can hold. -/
theorem maxSize_lt_toNat_size (length : UInt16) (h : length.toNat < 28) :
    Ping.maxSize < (length.toUInt64 - IpV4.MIN_SIZE.toUInt64 - 8).toNat := by
  rw [UInt64.toNat_sub, UInt64.toNat_sub, UInt16.toNat_toUInt64, Ping.maxSize]
  show _ < (2 ^ 64 - 8 + (2 ^ 64 - 20 + length.toNat) % 2 ^ 64) % 2 ^ 64
  omega

/-- **What has come in whole** is taken off the buffer. If it is read as an echo reply, it is
published, or a `vector` is asked for that is too long. -/
theorem checkNotify_of_isWhole {b : Bytes} (h : IsWhole b) (uninit : UInt8)
    (published : List EchoResponse) :
    Ping.checkNotify uninit ⟨b, published⟩ =
      if ReadsReply uninit b then
        if totalLength b < 28 then
          .halted (.threw "std::length_error") ⟨b.drop (totalLength b), published⟩
        else
          .returned true ⟨b.drop (totalLength b),
            published ++ [⟨shortAt b 24, shortAt b 26, (b.take (totalLength b)).drop 28⟩]⟩
      else .returned true ⟨b.drop (totalLength b), published⟩ := by
  obtain ⟨hheader, htotal⟩ := h
  rw [totalLength] at htotal ⊢
  have hmin : ¬ b.length < IpV4.MIN_SIZE := Nat.not_lt.mpr hheader
  have hwhole : ¬ (shortAt b 2).toNat > b.length := Nat.not_lt.mpr htotal
  obtain ⟨htype, hcode⟩ := type_code_read uninit b
  simp only [Ping.checkNotify, hmin, if_false, read_ipV4 uninit hheader, hwhole, IpV4.isIcmp]
  by_cases hicmp : IsIcmp b
  · have hicmp' : (byteAt b 9 == 1) = true := beq_iff_eq.mpr hicmp
    simp only [hicmp', Bool.not_true, Bool.false_eq_true, if_false, htype, hcode]
    by_cases hreads : ReadsReply uninit b
    · have hzero : ¬ b.getD 20 uninit ≠ EchoResponse.TYPE := not_not_intro hreads.2.1
      have hzero' : ¬ b.getD 21 uninit ≠ EchoResponse.CODE := not_not_intro hreads.2.2
      rw [if_neg hzero', if_neg hzero, if_pos hreads]
      by_cases hheaders : (shortAt b 2).toNat < 28
      · rw [if_pos hheaders, if_pos (maxSize_lt_toNat_size _ hheaders)]
      · have hsize := toNat_size _ (Nat.not_lt.mp hheaders)
        have hsmall := (shortAt b 2).toNat_lt
        have hfits : ¬ (shortAt b 2).toNat - 28 > Ping.maxSize := by
          rw [Ping.maxSize]
          omega
        have hdata : (b.drop 28).takeD ((shortAt b 2).toNat - 28) 0 =
            (b.take (shortAt b 2).toNat).drop 28 := by
          rw [List.takeD_eq_take _ (by rw [List.length_drop]; omega), List.drop_take]
        rw [if_neg hheaders, hsize, if_neg hfits, read_icmpHeader uninit (by omega), hdata]
    · rw [if_neg hreads]
      by_cases hzero' : b.getD 21 uninit = EchoResponse.CODE
      · have hzero : b.getD 20 uninit ≠ EchoResponse.TYPE := fun hzero =>
          hreads ⟨hicmp, hzero, hzero'⟩
        rw [if_neg (not_not_intro hzero'), if_pos hzero]
      · rw [if_pos hzero']
  · have hicmp' : (byteAt b 9 == 1) = false := beq_eq_false_iff_ne.mpr hicmp
    have hreads : ¬ ReadsReply uninit b := fun hreads => hicmp hreads.1
    simp only [hicmp', Bool.not_false, if_true, if_neg hreads]

/-- What follows a frame does not make it an echo reply. -/
theorem IsFrame.readsReply_append (h : IsFrame p) (uninit : UInt8) (more : Bytes) :
    ReadsReply uninit (p ++ more) ↔ IsReply p := by
  have hheader := h.header
  have hicmp : IsIcmp (p ++ more) ↔ IsIcmp p := by rw [IsIcmp, IsIcmp, byteAt_append (by omega)]
  have hbyte : ∀ {i : ℕ}, i < p.length → (p ++ more).getD i uninit = byteAt p i := by
    intro i hi
    rw [List.getD_append _ _ _ _ hi, byteAt, List.getD_eq_getElem _ _ hi,
      List.getD_eq_getElem _ _ hi]
  constructor
  · rintro ⟨hicmp', hzero, hzero'⟩
    rw [hicmp] at hicmp'
    rcases h.icmp hicmp' with hlength | ⟨hlength, hne⟩ | ⟨hlength, hne⟩
    · rw [hbyte (by omega)] at hzero hzero'
      exact ⟨hicmp', hzero, hzero'⟩
    · rw [hbyte (by omega)] at hzero
      exact absurd hzero hne
    · rw [hbyte (by omega)] at hzero'
      exact absurd hzero' hne
  · rintro ⟨hicmp', hzero, hzero'⟩
    have hlength : 22 ≤ p.length := by
      rcases h.icmp hicmp' with hlength | ⟨-, hne⟩ | ⟨-, hne⟩
      · omega
      · exact absurd hzero hne
      · exact absurd hzero' hne
    rw [ReadsReply, hicmp, hbyte (by omega), hbyte (by omega)]
    exact ⟨hicmp', hzero, hzero'⟩

/-- A reply is long enough for its header. -/
theorem IsFrame.le_of_isReply (h : IsFrame p) (hreply : IsReply p) : 28 ≤ p.length := by
  rcases h.icmp hreply.1 with hlength | ⟨-, hne⟩ | ⟨-, hne⟩
  · exact hlength
  · exact absurd hreply.2.1 hne
  · exact absurd hreply.2.2 hne

/-- **A whole packet at the front of the buffer** is taken off it and, if it is an echo reply,
published. -/
theorem checkNotify_frame (h : IsFrame p) (uninit : UInt8) (more : Bytes)
    (published : List EchoResponse) :
    Ping.checkNotify uninit ⟨p ++ more, published⟩ =
      .returned true ⟨more, published ++ (response p).toList⟩ := by
  have hheader := h.header
  have htotal : totalLength (p ++ more) = p.length := by
    rw [totalLength, shortAt_append (by omega)]
    exact h.total
  have hlength : (p ++ more).length = p.length + more.length := List.length_append
  have hwhole : IsWhole (p ++ more) := ⟨by omega, by omega⟩
  rw [checkNotify_of_isWhole hwhole, htotal, List.drop_left, List.take_left]
  by_cases hreply : IsReply p
  · have hfull := h.le_of_isReply hreply
    rw [if_pos ((h.readsReply_append uninit more).mpr hreply), if_neg (by omega),
      shortAt_append (by omega), shortAt_append (by omega), response, if_pos hreply,
      Option.toList_some]
  · rw [if_neg (mt (h.readsReply_append uninit more).mp hreply), response, if_neg hreply,
      Option.toList_none, List.append_nil]

theorem prefixFree_isFrame : Framing.PrefixFree IsFrame := by
  rintro f g hf hg ⟨tail, rfl⟩
  have hheader := hf.header
  have htotal := hg.total
  rw [totalLength, shortAt_append (by omega)] at htotal
  have hlength : f.length = (f ++ tail).length := hf.total.symm.trans htotal
  exact List.IsPrefix.eq_of_length (List.prefix_append f tail) hlength

/-- **An unfinished packet** stays in the buffer. -/
theorem checkNotify_unfinished {u : Bytes} (h : Framing.Unfinished IsFrame u) (uninit : UInt8)
    (published : List EchoResponse) :
    Ping.checkNotify uninit ⟨u, published⟩ = .returned false ⟨u, published⟩ := by
  obtain ⟨f, hf, ⟨tail, rfl⟩, hne⟩ := h
  have htail : 0 < tail.length := by
    rw [List.length_pos_iff]
    rintro rfl
    exact hne (List.append_nil u).symm
  refine checkNotify_of_not_isWhole ?_ uninit published
  rintro ⟨hheader, hwhole⟩
  have htotal := hf.total
  rw [totalLength, shortAt_append (by omega), ← totalLength, List.length_append] at htotal
  omega

end Packet

namespace Ping

open Packet

/-! ### Rounds without end -/

variable {uninit : UInt8} {s s' : Ping}

/-- How `check_notify` ends. -/
inductive Checked (uninit : UInt8) (s : Ping) : Outcome Halt Ping Bool → Prop
  | waits (hwhole : ¬ IsWhole s.dataBuffer) : Checked uninit s (.returned false s)
  | passes (hwhole : IsWhole s.dataBuffer) (hreads : ¬ ReadsReply uninit s.dataBuffer) :
    Checked uninit s
      (.returned true { s with dataBuffer := s.dataBuffer.drop (totalLength s.dataBuffer) })
  | throws (hwhole : IsWhole s.dataBuffer) (hreads : ReadsReply uninit s.dataBuffer)
      (hheaders : totalLength s.dataBuffer < 28) :
    Checked uninit s (.halted (.threw "std::length_error")
      { s with dataBuffer := s.dataBuffer.drop (totalLength s.dataBuffer) })
  | publishes (hwhole : IsWhole s.dataBuffer) (hreads : ReadsReply uninit s.dataBuffer)
      (hheaders : 28 ≤ totalLength s.dataBuffer) :
    Checked uninit s (.returned true ⟨s.dataBuffer.drop (totalLength s.dataBuffer),
      s.published ++ [⟨shortAt s.dataBuffer 24, shortAt s.dataBuffer 26,
        (s.dataBuffer.take (totalLength s.dataBuffer)).drop 28⟩]⟩)

theorem checked (uninit : UInt8) (s : Ping) : Checked uninit s (checkNotify uninit s) := by
  obtain ⟨b, published⟩ := s
  by_cases hwhole : IsWhole b
  · rw [checkNotify_of_isWhole hwhole]
    by_cases hreads : ReadsReply uninit b
    · rw [if_pos hreads]
      by_cases hheaders : totalLength b < 28
      · rw [if_pos hheaders]
        exact .throws hwhole hreads hheaders
      · rw [if_neg hheaders]
        exact .publishes hwhole hreads (Nat.not_lt.mp hheaders)
    · rw [if_neg hreads]
      exact .passes hwhole hreads
  · rw [checkNotify_of_not_isWhole hwhole]
    exact .waits hwhole

/-- A round that consumed a packet took bytes off the buffer, or did nothing. -/
theorem eq_or_shorter_of_checkNotify (h : checkNotify uninit s = .returned true s') :
    s' = s ∨ s'.dataBuffer.length < s.dataBuffer.length := by
  have hchecked := checked uninit s
  rw [h] at hchecked
  cases hchecked with
  | passes hwhole hreads =>
    have hheader := hwhole.1
    by_cases hzero : totalLength s.dataBuffer = 0
    · left
      rw [hzero, List.drop_zero]
    · right
      show (s.dataBuffer.drop (totalLength s.dataBuffer)).length < s.dataBuffer.length
      rw [List.length_drop]
      omega
  | publishes hwhole hreads hheaders =>
    have hheader := hwhole.1
    right
    show (s.dataBuffer.drop (totalLength s.dataBuffer)).length < s.dataBuffer.length
    rw [List.length_drop]
    omega

/-- A round that does nothing is made for ever. -/
theorem diverges_of_checkNotify (h : checkNotify uninit s = .returned true s)
    (hsize : s.dataBuffer.length ≠ 0) (fuel : ℕ) :
    internalCheckNotifyLoop uninit fuel s = .halted .diverged s := by
  induction fuel with
  | zero => rfl
  | succ fuel ih =>
    rw [internalCheckNotifyLoop, h, Outcome.bind_returned]
    simp only [hsize, ne_eq, not_false_eq_true, decide_true, Bool.and_self, if_true]
    exact ih

/-- More rounds make no difference. -/
theorem internalCheckNotifyLoop_eq {fuel : ℕ} (hfuel : s.dataBuffer.length < fuel) :
    internalCheckNotifyLoop uninit fuel s = internalCheckNotify uninit s := by
  suffices hmore : ∀ more, s.dataBuffer.length < more →
      internalCheckNotifyLoop uninit fuel s = internalCheckNotifyLoop uninit more s from
    hmore _ (Nat.lt_succ_self _)
  induction fuel generalizing s with
  | zero => omega
  | succ fuel ih =>
    intro more hmore
    obtain ⟨more, rfl⟩ : ∃ n, more = n + 1 := ⟨more - 1, by omega⟩
    rw [internalCheckNotifyLoop, internalCheckNotifyLoop]
    cases hcheck : checkNotify uninit s with
    | halted e s' => rfl
    | returned consumed s' =>
      rw [Outcome.bind_returned, Outcome.bind_returned]
      by_cases hagain : (consumed && decide (s'.dataBuffer.length ≠ 0)) = true
      · rw [if_pos hagain, if_pos hagain]
        obtain ⟨rfl, hsize⟩ : consumed = true ∧ s'.dataBuffer.length ≠ 0 := by simpa using hagain
        rcases eq_or_shorter_of_checkNotify hcheck with rfl | hshorter
        · rw [diverges_of_checkNotify hcheck hsize, diverges_of_checkNotify hcheck hsize]
        · exact ih (by omega) more (by omega)
      · rw [if_neg hagain, if_neg hagain]

/-! ### Whole packets -/

variable {frames : List Bytes} {u : Bytes}

theorem length_le_length_flatten (hframes : ∀ f ∈ frames, IsFrame f) :
    frames.length ≤ frames.flatten.length := by
  induction frames with
  | nil => exact Nat.le_refl 0
  | cons f frames ih =>
    have hheader := (hframes f List.mem_cons_self).header
    have hrest := ih fun g hg => hframes g (List.mem_cons_of_mem _ hg)
    rw [List.length_cons, List.flatten_cons, List.length_append]
    omega

/-- The loop takes all whole packets off the buffer. -/
theorem internalCheckNotifyLoop_frames (uninit : UInt8) (hframes : ∀ f ∈ frames, IsFrame f)
    (hu : Framing.Unfinished IsFrame u) (published : List EchoResponse) {fuel : ℕ}
    (hfuel : frames.length < fuel) :
    internalCheckNotifyLoop uninit fuel ⟨frames.flatten ++ u, published⟩ =
      .returned () ⟨u, published ++ frames.filterMap response⟩ := by
  induction frames generalizing fuel published with
  | nil =>
    obtain ⟨fuel, rfl⟩ : ∃ n, fuel = n + 1 := ⟨fuel - 1, by omega⟩
    rw [internalCheckNotifyLoop, List.flatten_nil, List.nil_append, checkNotify_unfinished hu,
      Outcome.bind_returned, List.filterMap_nil, List.append_nil]
    rfl
  | cons f frames ih =>
    obtain ⟨fuel, rfl⟩ : ∃ n, fuel = n + 1 := ⟨fuel - 1, by omega⟩
    have hframes' : ∀ g ∈ frames, IsFrame g := fun g hg => hframes g (List.mem_cons_of_mem _ hg)
    have hpublished : published ++ (response f).toList ++ frames.filterMap response =
        published ++ (f :: frames).filterMap response := by
      cases hresponse : response f <;> simp [hresponse]
    have hrest := ih hframes' (published ++ (response f).toList) (Nat.lt_of_succ_lt_succ hfuel)
    rw [hpublished] at hrest
    rw [internalCheckNotifyLoop, List.flatten_cons, List.append_assoc,
      checkNotify_frame (hframes f List.mem_cons_self), Outcome.bind_returned]
    by_cases hempty : (frames.flatten ++ u).length = 0
    · -- the buffer is used up
      have hlength := length_le_length_flatten hframes'
      rw [List.length_append] at hempty
      obtain rfl : frames = [] := List.eq_nil_of_length_eq_zero (by omega)
      rw [← hpublished, List.filterMap_nil, List.append_nil, List.flatten_nil, List.nil_append]
      simp [List.eq_nil_of_length_eq_zero (show u.length = 0 by omega)]
    · simp only [hempty, ne_eq, not_false_eq_true, decide_true, Bool.and_self, if_true]
      exact hrest

/-- One chunk. -/
theorem receive_frames (uninit : UInt8) {v chunk : Bytes} (hframes : ∀ f ∈ frames, IsFrame f)
    (hu : Framing.Unfinished IsFrame u) (published : List EchoResponse)
    (h : v ++ chunk = frames.flatten ++ u) :
    receive uninit ⟨v, published⟩ chunk =
      .returned () ⟨u, published ++ frames.filterMap response⟩ := by
  have hlength := length_le_length_flatten hframes
  rw [receive, internalCheckNotify]
  simp only [h]
  exact internalCheckNotifyLoop_frames uninit hframes hu published
    (by rw [List.length_append]; omega)

/-- The outcome of having received whole packets and the beginning of another. -/
def received (frames : List Bytes) (u : Bytes) : Outcome Halt Ping Unit :=
  .returned () ⟨u, frames.filterMap response⟩

/-- **Chunks do not matter**, for whole packets of any kind. -/
theorem receiveAll_frames (uninit : UInt8) (hframes : ∀ f ∈ frames, IsFrame f)
    (hu : Framing.Unfinished IsFrame u) {chunks : List Bytes}
    (h : chunks.flatten = frames.flatten ++ u) :
    receiveAll uninit chunks = received frames u := by
  have hnil : Framing.Unfinished IsFrame [] := hu.of_prefix List.nil_prefix
  have hreceive : ∀ done v chunk now w, (∀ f ∈ now, IsFrame f) → Framing.Unfinished IsFrame w →
      v ++ chunk = now.flatten ++ w →
      receiveNext uninit (received done v) chunk = received (done ++ now) w := by
    intro done v chunk now w hnow hw hchunk
    rw [received, receiveNext, Outcome.bind_returned, receive_frames uninit hnow hw _ hchunk,
      received, List.filterMap_append]
  have hrun : chunks.foldl (receiveNext uninit) (received [] []) = received ([] ++ frames) u :=
    Framing.foldl_receive prefixFree_isFrame hreceive hframes hu hnil h
  exact hrun

/-! ## Echoes -/

/-- The echo of a request, behind an IP header: the remote host sets the type to zero and the
checksum anew. -/
def echoPacket (header checksum : Bytes) (request : EchoRequest) : Bytes :=
  header ++ [EchoResponse.TYPE, EchoResponse.CODE] ++ checksum ++ request.serialize.drop 4

/-- A header as it stands before the echo of a request. -/
structure IsEchoHeader (header : Bytes) (request : EchoRequest) : Prop where
  length : header.length = 20
  icmp : IsIcmp header
  total : totalLength header = 28 + request.body.length

theorem drop_serialize (request : EchoRequest) : request.serialize.drop 4 =
    putShort request.identifier ++ putShort request.sequenceNumber ++ request.body := rfl

theorem echoPacket_isPacket {header checksum : Bytes} {request : EchoRequest}
    (hheader : IsEchoHeader header request) (hchecksum : checksum.length = 2) :
    IsPacket (echoPacket header checksum request) ∧
      response (echoPacket header checksum request) = some request.echo := by
  obtain ⟨hlength, hicmp, htotal⟩ := hheader
  obtain ⟨c, c', rfl⟩ := List.length_eq_two.mp hchecksum
  have hpacket : echoPacket header [c, c'] request = header ++ ([0, 0, c, c'] ++
      putShort request.identifier ++ putShort request.sequenceNumber ++ request.body) := by
    rw [echoPacket, drop_serialize]
    simp [EchoResponse.TYPE, EchoResponse.CODE]
  rw [hpacket]
  set rest := [0, 0, c, c'] ++ putShort request.identifier ++ putShort request.sequenceNumber ++
    request.body with hrest
  have hshort : ∀ i, shortAt (header ++ rest) (20 + i) = shortAt rest i := by
    intro i
    rw [shortAt, ← hlength, Nat.add_assoc, byteAt_append_length, byteAt_append_length, shortAt]
  have hbyte : ∀ i, byteAt (header ++ rest) (20 + i) = byteAt rest i := by
    intro i
    rw [← hlength, byteAt_append_length]
  have hrestLength : rest.length = 8 + request.body.length := by
    rw [hrest]
    simp [putShort]
    omega
  have hicmp' : IsIcmp (header ++ rest) := by rwa [IsIcmp, byteAt_append (by omega)]
  have hreply : IsReply (header ++ rest) := ⟨hicmp', hbyte 0, hbyte 1⟩
  constructor
  · refine ⟨?_, ?_, fun _ => ?_⟩
    · rw [List.length_append]
      omega
    · rw [totalLength, shortAt_append (by omega), ← totalLength, htotal, List.length_append]
      omega
    · rw [List.length_append]
      omega
  · rw [response, if_pos hreply, hshort 4, hshort 6]
    have hidentifier : shortAt rest 4 = request.identifier := ofBytes_putShort _
    have hsequence : shortAt rest 6 = request.sequenceNumber := ofBytes_putShort _
    have hbody : (header ++ rest).drop 28 = request.body := by
      rw [List.drop_append, hlength]
      simp [hrest, putShort, List.drop_eq_nil_of_le, hlength]
    rw [hidentifier, hsequence, hbody]
    rfl

/-- **Chunks do not matter.** However whole packets and the beginning of another are cut, the
echo replies among them are published, and the beginning stays in the buffer. The echo of a
request is such a packet, and what is published for it is the request's own. -/
theorem framing_independent (uninit : UInt8) {packets : List Bytes}
    (hpackets : ∀ p ∈ packets, IsPacket p) {unfinished : Bytes}
    (hunfinished : Framing.Unfinished IsPacket unfinished) {chunks : List Bytes}
    (hcut : chunks.flatten = packets.flatten ++ unfinished) :
    receiveAll uninit chunks = .returned () ⟨unfinished, packets.filterMap response⟩ ∧
      ∀ header checksum request, IsEchoHeader header request → checksum.length = 2 →
        IsPacket (echoPacket header checksum request) ∧
          response (echoPacket header checksum request) = some request.echo := by
  constructor
  · have hu : Framing.Unfinished IsFrame unfinished := by
      obtain ⟨f, hf, hprefix, hne⟩ := hunfinished
      exact ⟨f, hf.isFrame, hprefix, hne⟩
    exact receiveAll_frames uninit (fun p hp => (hpackets p hp).isFrame) hu hcut
  · intro header checksum request hheader hchecksum
    exact echoPacket_isPacket hheader hchecksum

/-- A header without anything behind it, of the protocol UDP. -/
def udpHeader : Bytes := [0x45, 0, 0, 20, 0, 0, 0, 0, 64, 17, 0, 0, 127, 0, 0, 1, 127, 0, 0, 1]

/-- An echo reply to the request `⟨35, 88, [1, 2, 3]⟩`. -/
def replyPacket : Bytes :=
  echoPacket [0x45, 0, 0, 31, 0, 0, 0, 0, 64, 1, 0, 0, 127, 0, 0, 1, 127, 0, 0, 1] [0xff, 0xff]
    ⟨35, 88, [1, 2, 3]⟩

theorem framing_independent_cuts :
    receiveAll 0 [udpHeader ++ replyPacket.take 3, [], replyPacket.drop 3 ++ udpHeader.take 5] =
      .returned () ⟨udpHeader.take 5, [⟨35, 88, [1, 2, 3]⟩]⟩ := by
  have hpackets : ∀ p ∈ [udpHeader, replyPacket], IsPacket p := by
    intro p hp
    rcases List.mem_pair.mp hp with rfl | rfl
    · exact ⟨by decide, by decide, by decide⟩
    · exact ⟨by decide, by decide, by decide⟩
  have hunfinished : Framing.Unfinished IsPacket (udpHeader.take 5) :=
    ⟨udpHeader, hpackets _ List.mem_cons_self, List.take_prefix _ _, by decide⟩
  exact (framing_independent 0 hpackets hunfinished rfl).1

/-! ## Datagrams -/

/-- The size of `reply_buffer_`. -/
def replyBufferSize : ℕ := 60000

/-- Datagrams received one after another. Each is cut to the size of the buffer. -/
def deliverAll (uninit : UInt8) (datagrams : List Bytes) : Outcome Halt Ping Unit :=
  receiveAll uninit (datagrams.map (List.take replyBufferSize))

/-- What is received of the datagram is made up of whole packets. -/
def Framed (datagram : Bytes) : Prop :=
  ∃ frames : List Bytes, (∀ f ∈ frames, IsFrame f) ∧ datagram.take replyBufferSize = frames.flatten

/-- A well-formed echo reply that fits the buffer. -/
structure IsEchoReply (datagram : Bytes) : Prop where
  length_le : datagram.length ≤ replyBufferSize
  le_length : 28 ≤ datagram.length
  total : totalLength datagram = datagram.length
  reply : IsReply datagram

theorem IsEchoReply.isFrame {datagram : Bytes} (h : IsEchoReply datagram) : IsFrame datagram :=
  ⟨Nat.le_trans (by decide) h.le_length, h.total, fun _ => Or.inl h.le_length⟩

theorem exists_frames {datagrams : List Bytes} (hframed : ∀ d ∈ datagrams, Framed d) :
    ∃ frames : List Bytes, (∀ f ∈ frames, IsFrame f) ∧
      (datagrams.map (List.take replyBufferSize)).flatten = frames.flatten := by
  induction datagrams with
  | nil => exact ⟨[], by simp, rfl⟩
  | cons d datagrams ih =>
    obtain ⟨frames, hframes, hd⟩ := hframed d List.mem_cons_self
    obtain ⟨rest, hrest, hflatten⟩ := ih fun e he => hframed e (List.mem_cons_of_mem _ he)
    refine ⟨frames ++ rest, ?_, ?_⟩
    · intro f hf
      rcases List.mem_append.mp hf with hf | hf
      · exact hframes f hf
      · exact hrest f hf
    · rw [List.map_cons, List.flatten_cons, hd, hflatten, List.flatten_append]

/-- **An echo reply is published** once, if all datagrams before and after it are made up of
whole packets: with its own identifier, sequence number and data, between what is published for
the others. -/
theorem reply_published (uninit : UInt8) {before after : List Bytes} {reply : Bytes}
    (hreply : IsEchoReply reply) (hbefore : ∀ d ∈ before, Framed d)
    (hafter : ∀ d ∈ after, Framed d) :
    ∃ first last : List EchoResponse,
      deliverAll uninit before = .returned () ⟨[], first⟩ ∧
      deliverAll uninit after = .returned () ⟨[], last⟩ ∧
      deliverAll uninit (before ++ reply :: after) = .returned () ⟨[], first ++
        [⟨shortAt reply 24, shortAt reply 26, reply.drop 28⟩] ++ last⟩ := by
  have hframe := hreply.isFrame
  have hnil : Framing.Unfinished IsFrame [] := by
    refine Framing.unfinished_nil hframe (List.ne_nil_of_length_pos ?_)
    exact Nat.lt_of_lt_of_le (by decide) hreply.le_length
  obtain ⟨firstFrames, hfirst, hflattenFirst⟩ := exists_frames hbefore
  obtain ⟨lastFrames, hlast, hflattenLast⟩ := exists_frames hafter
  refine ⟨firstFrames.filterMap response, lastFrames.filterMap response, ?_, ?_, ?_⟩
  · exact receiveAll_frames uninit hfirst hnil (by rw [hflattenFirst, List.append_nil])
  · exact receiveAll_frames uninit hlast hnil (by rw [hflattenLast, List.append_nil])
  · have hframes : ∀ f ∈ firstFrames ++ reply :: lastFrames, IsFrame f := by
      intro f hf
      rcases List.mem_append.mp hf with hf | hf
      · exact hfirst f hf
      · rcases List.mem_cons.mp hf with rfl | hf
        · exact hframe
        · exact hlast f hf
    have hflatten : ((before ++ reply :: after).map (List.take replyBufferSize)).flatten =
        (firstFrames ++ reply :: lastFrames).flatten ++ [] := by
      rw [List.map_append, List.map_cons, List.flatten_append, List.flatten_cons, hflattenFirst,
        hflattenLast, List.take_of_length_le hreply.length_le, List.append_nil, List.flatten_append,
        List.flatten_cons]
    have hresponse : response reply = some ⟨shortAt reply 24, shortAt reply 26, reply.drop 28⟩ :=
      if_pos hreply.reply
    rw [deliverAll, receiveAll_frames uninit hframes hnil hflatten, received, List.filterMap_append,
      List.filterMap_cons_some hresponse, List.append_assoc, List.singleton_append]

theorem isEchoReply_replyPacket : IsEchoReply replyPacket :=
  ⟨by decide, by decide, by decide, by decide⟩

theorem reply_published_alone : ∃ first last : List EchoResponse,
    deliverAll 0 [udpHeader] = .returned () ⟨[], first⟩ ∧
    deliverAll 0 [] = .returned () ⟨[], last⟩ ∧
    deliverAll 0 ([udpHeader] ++ replyPacket :: []) = .returned () ⟨[], first ++
      [⟨shortAt replyPacket 24, shortAt replyPacket 26, replyPacket.drop 28⟩] ++ last⟩ := by
  have hframed : ∀ d ∈ [udpHeader], Framed d := by
    intro d hd
    obtain rfl := List.mem_singleton.mp hd
    refine ⟨[udpHeader], fun f hf => ?_, by decide⟩
    obtain rfl := List.mem_singleton.mp hf
    exact ⟨by decide, by decide, by decide⟩
  exact reply_published 0 isEchoReply_replyPacket hframed (fun d hd => absurd hd List.not_mem_nil)

/-- **An echo reply is swallowed** by a datagram that says it is one byte longer than it is. -/
theorem reply_swallowed :
    IsEchoReply replyPacket ∧
      (deliverAll 0 [udpHeader.set 3 21, replyPacket]).state.published = [] := by
  exact ⟨isEchoReply_replyPacket, by decide⟩

end Ping

end Pingfs
