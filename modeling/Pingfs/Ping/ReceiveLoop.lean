import Pingfs.Ping.PacketFraming

/-!
# What is in the buffer

Anything can be in the buffer: any host may send a packet whose total-length field is not its
length, or one that is shorter than the two headers.

The rounds of the loop end unless one of them comes to a total length of zero: nothing is taken off
the buffer then, so that the next round finds it as it was. A round that takes an ICMP packet off
the buffer reads both headers, also of a packet that is too short for them; the bytes then come
from the next packet. To speak of that, `check_notify` is written down once more as a program over
the calls that it makes, and the bytes that the stream is asked for are counted.

Sources: `ping.cc`, `ip_v4_stream.hpp`, `ip_v4.cc`, `icmp_header.cc`.

## Main results

* `Ping.ends_iff` — when `internal_check_notify` ends
* `Ping.staysInside_iff` — when `check_notify` reads no further than the packet goes
* `Reading.mapState_run_checkNotify` — the program is `check_notify`
-/

namespace Pingfs

open Packet

namespace Ping

variable {uninit : UInt8} {s s' : Ping} {b c : Bytes}

/-! ## Rounds -/

/-- From `s` on, the loop of `internal_check_notify` calls `check_notify` in the last state. -/
inductive Round (uninit : UInt8) : Ping → Ping → Prop
  | now {s : Ping} : Round uninit s s
  | later {s s' last : Ping} (hconsumed : checkNotify uninit s = .returned true s')
      (hsize : s'.dataBuffer.length ≠ 0) (h : Round uninit s' last) : Round uninit s last

/-- `internal_check_notify` ends, be it by an exception. -/
def Ends (uninit : UInt8) (s : Ping) : Prop :=
  ∃ fuel, (internalCheckNotifyLoop uninit fuel s).result ≠ .error .diverged

/-- Every round that says that it took something off the buffer did so. -/
def Progresses (uninit : UInt8) (s : Ping) : Prop :=
  ∀ s' s'', Round uninit s s' → checkNotify uninit s' = .returned true s'' →
    s''.dataBuffer.length < s'.dataBuffer.length

/-- `c` is the rest of the buffer `b` when packets that have come in whole are taken off its front.
A packet that is read as an echo reply has both headers, or an exception ends the rounds. -/
inductive Rest (uninit : UInt8) : Bytes → Bytes → Prop
  | all {b : Bytes} : Rest uninit b b
  | drop {b c : Bytes} (hwhole : IsWhole b) (hheaders : ReadsReply uninit b → 28 ≤ totalLength b)
      (h : Rest uninit (b.drop (totalLength b)) c) : Rest uninit b c

/-- The packet at the front of the buffer has the total length zero and is not read as an echo
reply. -/
structure Stalls (uninit : UInt8) (b : Bytes) : Prop where
  header : 20 ≤ b.length
  total : totalLength b = 0
  passed : ¬ ReadsReply uninit b

theorem Stalls.isWhole (h : Stalls uninit b) : IsWhole b := ⟨h.header, by rw [h.total]; omega⟩

/-- A stalled round changes nothing. -/
theorem Stalls.checkNotify_eq (h : Stalls uninit s.dataBuffer) :
    checkNotify uninit s = .returned true s := by
  rw [show s = ⟨s.dataBuffer, s.published⟩ from rfl, checkNotify_of_isWhole h.isWhole,
    if_neg h.passed, h.total, List.drop_zero]

/-- The buffer before and after a round that says that it took something off it. -/
theorem dataBuffer_of_checkNotify (h : checkNotify uninit s = .returned true s') :
    IsWhole s.dataBuffer ∧ (ReadsReply uninit s.dataBuffer → 28 ≤ totalLength s.dataBuffer) ∧
      s'.dataBuffer = s.dataBuffer.drop (totalLength s.dataBuffer) := by
  have hchecked := checked uninit s
  rw [h] at hchecked
  cases hchecked with
  | passes hwhole hreads => exact ⟨hwhole, fun hread => absurd hread hreads, rfl⟩
  | publishes hwhole _ hheaders => exact ⟨hwhole, fun _ => hheaders, rfl⟩

/-- Only the `vector` throws. -/
theorem error_of_checkNotify {e : Halt} (h : checkNotify uninit s = .halted e s') :
    e = .threw "std::length_error" := by
  have hchecked := checked uninit s
  rw [h] at hchecked
  cases hchecked
  rfl

/-- Such a round is made where a packet has come in whole. -/
theorem exists_of_isWhole (hwhole : IsWhole s.dataBuffer)
    (hheaders : ReadsReply uninit s.dataBuffer → 28 ≤ totalLength s.dataBuffer) :
    ∃ s', checkNotify uninit s = .returned true s' ∧
      s'.dataBuffer = s.dataBuffer.drop (totalLength s.dataBuffer) := by
  obtain ⟨b, published⟩ := s
  rw [checkNotify_of_isWhole hwhole]
  by_cases hreads : ReadsReply uninit b
  · rw [if_pos hreads, if_neg (Nat.not_lt.mpr (hheaders hreads))]
    exact ⟨_, rfl, rfl⟩
  · rw [if_neg hreads]
    exact ⟨_, rfl, rfl⟩

theorem Round.rest (h : Round uninit s s') : Rest uninit s.dataBuffer s'.dataBuffer := by
  induction h with
  | now => exact .all
  | later hconsumed _ _ ih =>
    obtain ⟨hwhole, hheaders, hdrop⟩ := dataBuffer_of_checkNotify hconsumed
    rw [hdrop] at ih
    exact .drop hwhole hheaders ih

theorem Rest.length_le (h : Rest uninit b c) : c.length ≤ b.length := by
  induction h with
  | all => exact le_rfl
  | drop _ _ _ ih =>
    rw [List.length_drop] at ih
    omega

/-- The rounds come to each rest of the buffer that is not empty. -/
theorem Rest.exists_round (h : Rest uninit s.dataBuffer c) (hc : c.length ≠ 0) :
    ∃ s', Round uninit s s' ∧ s'.dataBuffer = c := by
  generalize hb : s.dataBuffer = b at h
  induction h generalizing s with
  | all => exact ⟨s, .now, hb⟩
  | drop hwhole hheaders hrest ih =>
    subst hb
    obtain ⟨s', hconsumed, hdrop⟩ := exists_of_isWhole hwhole hheaders
    have hsize : s'.dataBuffer.length ≠ 0 := by
      have hlength := hrest.length_le
      rw [hdrop]
      omega
    obtain ⟨last, hround, hlast⟩ := ih hc hdrop
    exact ⟨last, .later hconsumed hsize hround, hlast⟩

/-- A stalled round is made for ever. -/
theorem Round.diverges (h : Round uninit s s') (hstalls : Stalls uninit s'.dataBuffer) (fuel : ℕ) :
    (internalCheckNotifyLoop uninit fuel s).result = .error .diverged := by
  induction h generalizing fuel with
  | @now s =>
    have hsize : s.dataBuffer.length ≠ 0 := by
      have hheader := hstalls.header
      omega
    rw [diverges_of_checkNotify hstalls.checkNotify_eq hsize]
    rfl
  | later hconsumed hsize _ ih =>
    cases fuel with
    | zero => rfl
    | succ fuel =>
      rw [internalCheckNotifyLoop, hconsumed, Outcome.bind_returned]
      simp only [hsize, ne_eq, not_false_eq_true, decide_true, Bool.and_self, if_true]
      exact ih hstalls fuel

/-- Rounds that all take something off the buffer end. -/
theorem Progresses.ends (h : Progresses uninit s) : Ends uninit s := by
  suffices hfuel : ∀ fuel, s.dataBuffer.length < fuel →
      (internalCheckNotifyLoop uninit fuel s).result ≠ .error .diverged from
    ⟨_, hfuel _ (Nat.lt_succ_self _)⟩
  intro fuel hfuel
  induction fuel generalizing s with
  | zero => omega
  | succ fuel ih =>
    rw [internalCheckNotifyLoop]
    cases hcheck : checkNotify uninit s with
    | halted e s' =>
      obtain rfl := error_of_checkNotify hcheck
      rw [Outcome.bind_halted, Outcome.result_halted]
      intro hdiverged
      cases hdiverged
    | returned consumed s' =>
      rw [Outcome.bind_returned]
      by_cases hagain : (consumed && decide (s'.dataBuffer.length ≠ 0)) = true
      · obtain ⟨rfl, hsize⟩ : consumed = true ∧ s'.dataBuffer.length ≠ 0 := by simpa using hagain
        have hshorter := h s s' .now hcheck
        rw [if_pos hagain]
        exact ih (fun t t' hround => h t t' (.later hcheck hsize hround)) (by omega)
      · rw [if_neg hagain, Outcome.result_returned]
        intro hdiverged
        cases hdiverged

/-- **The loop ends**, and each of its rounds takes something off the buffer, if and only if the
packets at the front of the buffer, taken off one by one, lead to none with the total length zero
that is passed over. -/
theorem ends_iff (uninit : UInt8) (s : Ping) : Ends uninit s ∧ Progresses uninit s ↔
    ∀ c, Rest uninit s.dataBuffer c → ¬ Stalls uninit c := by
  constructor
  · rintro ⟨⟨fuel, hends⟩, -⟩ c hrest hstalls
    have hc : c.length ≠ 0 := by
      have hheader := hstalls.header
      omega
    obtain ⟨s', hround, rfl⟩ := hrest.exists_round hc
    exact hends (hround.diverges hstalls fuel)
  · intro h
    have hprogresses : Progresses uninit s := by
      intro s' s'' hround hconsumed
      obtain ⟨hwhole, hheaders, hdrop⟩ := dataBuffer_of_checkNotify hconsumed
      have hheader := hwhole.1
      have htotal : totalLength s'.dataBuffer ≠ 0 := by
        intro hzero
        refine h _ hround.rest ⟨hheader, hzero, fun hreads => ?_⟩
        have htwo := hheaders hreads
        omega
      rw [hdrop, List.length_drop]
      omega
    exact ⟨hprogresses.ends, hprogresses⟩

/-- The header of a packet that says that it has no bytes. -/
def emptyHeader : Bytes := udpHeader.set 3 0

/-- **The loop does not end**, and takes nothing off the buffer. -/
theorem spins : ¬ Ends 0 ⟨emptyHeader, []⟩ ∧ ¬ Progresses 0 ⟨emptyHeader, []⟩ := by
  have hstalls : Stalls 0 emptyHeader := ⟨by decide, by decide, by decide⟩
  constructor
  · rintro ⟨fuel, hends⟩
    exact hends (Round.now.diverges hstalls fuel)
  · intro hprogresses
    exact absurd (hprogresses _ _ .now hstalls.checkNotify_eq) (lt_irrefl _)

end Ping

/-! ## What a round reads -/

/-- The calls of `check_notify`: of `data_buffer_`, of the stream over the copy of it, of the
allocator and of the I/O service. -/
inductive PingCall where
  | peek
  | read (bytes : ℕ)
  | discard (bytes : ℕ)
  | newVector (size : UInt64)
  | post (response : EchoResponse)

/-- What a call returns. -/
@[reducible] def PingCall.Reply : PingCall → Type
  | peek => Bytes
  | read _ => Bytes
  | discard _ => Unit
  | newVector _ => Unit
  | post _ => Unit

/-- A piece of `check_notify`. -/
abbrev PingM (α : Type) := Program PingCall PingCall.Reply Halt α

namespace PingM

def peek : PingM Bytes := Program.request PingCall.peek

/-- `istream::read`: fewer bytes if the stream ends. -/
def read (bytes : ℕ) : PingM Bytes := Program.request (PingCall.read bytes)

def discard (bytes : ℕ) : PingM Unit := Program.request (PingCall.discard bytes)

def newVector (size : UInt64) : PingM Unit := Program.request (PingCall.newVector size)

def post (response : EchoResponse) : PingM Unit := Program.request (PingCall.post response)

/-- `IpV4Stream::read_byte`. -/
def readByte (uninit : UInt8) : PingM UInt8 := do
  let bytes ← read 1
  return bytes.getD 0 uninit

/-- `IpV4Stream::read_unsigned_short`. -/
def readUnsignedShort (uninit : UInt8) : PingM UInt16 := do
  let bytes ← read 2
  return ntohs ((bytes.getD 0 uninit).toUInt16 ||| (bytes.getD 1 uninit).toUInt16 <<< 8)

/-- `IpV4::IpV4`. -/
def readIpV4 (uninit : UInt8) (length : ℕ) : PingM IpV4 := do
  let _ ← readUnsignedShort uninit
  let totalLength ← readUnsignedShort uninit
  let _ ← readUnsignedShort uninit
  let _ ← readUnsignedShort uninit
  let _ ← readByte uninit
  let proto ← readByte uninit
  if length < IpV4.MIN_SIZE then .halt (.threw "Cannot deserialize header; too short")
  else do
    let _ ← readUnsignedShort uninit
    let _ ← readUnsignedShort uninit
    let _ ← readUnsignedShort uninit
    let _ ← readUnsignedShort uninit
    let _ ← readUnsignedShort uninit
    return ⟨totalLength, proto⟩

/-- `IcmpHeader::IcmpHeader`. -/
def readIcmpHeader (uninit : UInt8) : PingM IcmpHeader := do
  let type ← readByte uninit
  let code ← readByte uninit
  let checksum ← readUnsignedShort uninit
  let identifier ← readUnsignedShort uninit
  let sequenceNumber ← readUnsignedShort uninit
  return ⟨type, code, checksum, identifier, sequenceNumber⟩

/-- `Ping::check_notify`. -/
def checkNotify (uninit : UInt8) : PingM Bool := do
  let copy ← peek
  if copy.length < IpV4.MIN_SIZE then return false
  else
    let ipV4 ← readIpV4 uninit copy.length
    if ipV4.length.toNat > copy.length then return false
    else
      discard ipV4.length.toNat
      if !ipV4.isIcmp then return true
      else
        let icmpHeader ← readIcmpHeader uninit
        if icmpHeader.code ≠ EchoResponse.CODE then return true
        else if icmpHeader.type ≠ EchoResponse.TYPE then return true
        else
          let size := ipV4.length.toUInt64 - IpV4.MIN_SIZE.toUInt64 - 8
          newVector size
          let data ← read size.toNat
          post ⟨icmpHeader.identifier, icmpHeader.sequenceNumber, data.takeD size.toNat 0⟩
          return true

end PingM

/-- A round that is under way: what is left of its stream, how many bytes it has asked the stream
for, and the sizes of the vectors it has made. -/
structure Reading where
  ping : Ping
  stream : Bytes
  asked : ℕ
  sizes : List UInt64

namespace Reading

/-- A round begins. -/
def start (s : Ping) : Reading := ⟨s, [], 0, []⟩

/-- How the calls act. -/
def handler : Program.Handler PingCall PingCall.Reply Halt Reading
  | .peek, r => .returned r.ping.dataBuffer { r with stream := r.ping.dataBuffer }
  | .read bytes, r =>
    .returned (r.stream.take bytes)
      { r with stream := r.stream.drop bytes, asked := r.asked + bytes }
  | .discard bytes, r =>
    .returned () { r with ping.dataBuffer := r.ping.dataBuffer.drop bytes }
  | .newVector size, r =>
    if size.toNat > Ping.maxSize then
      .halted (.threw "std::length_error") { r with sizes := r.sizes ++ [size] }
    else .returned () { r with sizes := r.sizes ++ [size] }
  | .post response, r => .returned () { r with ping.published := r.ping.published ++ [response] }

variable {uninit : UInt8} {ping : Ping} {stream : Bytes} {asked : ℕ} {sizes : List UInt64}

/-! ### The stream -/

theorem run_readByte : (PingM.readByte uninit).run handler ⟨ping, stream, asked, sizes⟩ =
    .returned (IpV4Stream.readByte uninit stream).1
      ⟨ping, (IpV4Stream.readByte uninit stream).2, asked + 1, sizes⟩ := by
  rw [PingM.readByte, Program.run_bind, PingM.read, Program.run_request, handler]
  cases stream <;> rfl

theorem run_readUnsignedShort :
    (PingM.readUnsignedShort uninit).run handler ⟨ping, stream, asked, sizes⟩ =
      .returned (IpV4Stream.readUnsignedShort uninit stream).1
        ⟨ping, (IpV4Stream.readUnsignedShort uninit stream).2, asked + 2, sizes⟩ := by
  rw [PingM.readUnsignedShort, Program.run_bind, PingM.read, Program.run_request, handler]
  rcases stream with - | ⟨b, - | ⟨c, stream⟩⟩ <;> rfl

/-- The IP header is 20 bytes. -/
theorem run_readIpV4 {length : ℕ} {ipV4 : IpV4} {rest : Bytes}
    (h : IpV4.read uninit stream length = .ok (ipV4, rest)) :
    (PingM.readIpV4 uninit length).run handler ⟨ping, stream, asked, sizes⟩ =
      .returned ipV4 ⟨ping, rest, asked + 20, sizes⟩ := by
  rw [IpV4.read] at h
  by_cases hmin : length < IpV4.MIN_SIZE
  · simp only [hmin, if_true] at h
    cases h
  · simp only [hmin, if_false] at h
    cases h
    simp only [PingM.readIpV4, Program.run_bind, run_readUnsignedShort, run_readByte,
      Outcome.bind_returned, hmin, if_false, Program.run_pure]

/-- The ICMP header is 8 bytes. -/
theorem run_readIcmpHeader :
    (PingM.readIcmpHeader uninit).run handler ⟨ping, stream, asked, sizes⟩ =
      .returned (IcmpHeader.read uninit stream).1
        ⟨ping, (IcmpHeader.read uninit stream).2, asked + 8, sizes⟩ := by
  simp only [PingM.readIcmpHeader, IcmpHeader.read, Program.run_bind, run_readUnsignedShort,
    run_readByte, Outcome.bind_returned, Program.run_pure]

/-! ### The round -/

variable {b : Bytes} {published : List EchoResponse}

/-- The payload length that is computed of a packet. -/
def payloadSize (b : Bytes) : UInt64 := (shortAt b 2).toUInt64 - IpV4.MIN_SIZE.toUInt64 - 8

/-- A packet that has not come in whole is looked at up to its header. -/
theorem run_of_not_isWhole (h : ¬ IsWhole b) (uninit : UInt8) (published : List EchoResponse) :
    ∃ stream asked, asked ≤ 20 ∧
      (PingM.checkNotify uninit).run handler (start ⟨b, published⟩) =
        .returned false ⟨⟨b, published⟩, stream, asked, []⟩ := by
  by_cases hmin : b.length < IpV4.MIN_SIZE
  · refine ⟨b, 0, by omega, ?_⟩
    simp only [PingM.checkNotify, PingM.peek, Program.run_bind, Program.run_request, handler, start,
      Outcome.bind_returned, hmin, if_true, Program.run_pure]
  · have hheader : 20 ≤ b.length := Nat.not_lt.mp hmin
    have hmore : (shortAt b 2).toNat > b.length := Nat.not_le.mp fun htotal => h ⟨hheader, htotal⟩
    refine ⟨b.drop 20, 20, le_rfl, ?_⟩
    simp only [PingM.checkNotify, PingM.peek, Program.run_bind, Program.run_request, handler, start,
      Outcome.bind_returned, hmin, if_false, run_readIpV4 (read_ipV4 uninit hheader), hmore,
      if_true, Program.run_pure, Nat.zero_add]

/-- **One that has** is taken off the buffer. If it is an ICMP packet, an ICMP header is read. -/
theorem run_of_isWhole (h : IsWhole b) (uninit : UInt8) (published : List EchoResponse) :
    (PingM.checkNotify uninit).run handler (start ⟨b, published⟩) =
      if IsIcmp b then
        if ReadsReply uninit b then
          if totalLength b < 28 then
            .halted (.threw "std::length_error")
              ⟨⟨b.drop (totalLength b), published⟩, (IcmpHeader.read uninit (b.drop 20)).2, 28,
                [payloadSize b]⟩
          else
            .returned true ⟨⟨b.drop (totalLength b),
              published ++ [⟨shortAt b 24, shortAt b 26, (b.take (totalLength b)).drop 28⟩]⟩,
              b.drop (totalLength b), totalLength b, [payloadSize b]⟩
        else
          .returned true ⟨⟨b.drop (totalLength b), published⟩,
            (IcmpHeader.read uninit (b.drop 20)).2, 28, []⟩
      else .returned true ⟨⟨b.drop (totalLength b), published⟩, b.drop 20, 20, []⟩ := by
  obtain ⟨hheader, htotal⟩ := h
  rw [totalLength] at htotal ⊢
  have hmin : ¬ b.length < IpV4.MIN_SIZE := Nat.not_lt.mpr hheader
  have hwhole : ¬ (shortAt b 2).toNat > b.length := Nat.not_lt.mpr htotal
  obtain ⟨htype, hcode⟩ := type_code_read uninit b
  simp only [PingM.checkNotify, PingM.peek, PingM.discard, Program.run_bind, Program.run_request,
    handler, start, Outcome.bind_returned, hmin, if_false, run_readIpV4 (read_ipV4 uninit hheader),
    hwhole, IpV4.isIcmp, Nat.zero_add]
  by_cases hicmp : IsIcmp b
  · have hicmp' : (byteAt b 9 == 1) = true := beq_iff_eq.mpr hicmp
    simp only [hicmp', Bool.not_true, Bool.false_eq_true, if_false, Program.run_bind,
      run_readIcmpHeader, Outcome.bind_returned, htype, hcode, if_pos hicmp, Nat.reduceAdd]
    by_cases hreads : ReadsReply uninit b
    · have hzero : ¬ b.getD 20 uninit ≠ EchoResponse.TYPE := not_not_intro hreads.2.1
      have hzero' : ¬ b.getD 21 uninit ≠ EchoResponse.CODE := not_not_intro hreads.2.2
      simp only [hzero', hzero, if_false, if_pos hreads, PingM.newVector, PingM.read, PingM.post,
        Program.run_bind, Program.run_request, handler, ← payloadSize.eq_1]
      by_cases hheaders : (shortAt b 2).toNat < 28
      · have hthrows : (payloadSize b).toNat > Ping.maxSize := maxSize_lt_toNat_size _ hheaders
        simp only [hthrows, if_true, hheaders, Outcome.bind_halted, List.nil_append]
      · have hsize : (payloadSize b).toNat = (shortAt b 2).toNat - 28 :=
          toNat_size _ (Nat.not_lt.mp hheaders)
        have hsmall := (shortAt b 2).toNat_lt
        have hfits : ¬ (shortAt b 2).toNat - 28 > Ping.maxSize := by
          rw [Ping.maxSize]
          omega
        have hdata : (((b.drop 28).take ((shortAt b 2).toNat - 28)).takeD
            ((shortAt b 2).toNat - 28) 0) = (b.take (shortAt b 2).toNat).drop 28 := by
          rw [List.takeD_eq_take _ (by rw [List.length_take, List.length_drop]; omega),
            List.take_take, Nat.min_self, List.drop_take]
        have hrest : 28 + ((shortAt b 2).toNat - 28) = (shortAt b 2).toNat := by omega
        simp only [hsize, hfits, hheaders, if_false, Outcome.bind_returned, Program.run_pure,
          read_icmpHeader uninit (show 28 ≤ b.length by omega), hdata, List.drop_drop, hrest,
          List.nil_append]
    · rw [if_neg hreads]
      by_cases hzero' : b.getD 21 uninit = EchoResponse.CODE
      · have hzero : b.getD 20 uninit ≠ EchoResponse.TYPE := fun hzero =>
          hreads ⟨hicmp, hzero, hzero'⟩
        rw [if_neg (not_not_intro hzero'), if_pos hzero]
        rfl
      · rw [if_pos hzero']
        rfl
  · have hicmp' : (byteAt b 9 == 1) = false := beq_eq_false_iff_ne.mpr hicmp
    simp only [hicmp', Bool.not_false, if_true, if_neg hicmp]
    rfl

/-- **The program is `check_notify`.** -/
theorem mapState_run_checkNotify (uninit : UInt8) (s : Ping) :
    ((PingM.checkNotify uninit).run handler (start s)).mapState Reading.ping =
      Ping.checkNotify uninit s := by
  obtain ⟨b, published⟩ := s
  by_cases hwhole : IsWhole b
  · rw [run_of_isWhole hwhole, checkNotify_of_isWhole hwhole]
    by_cases hicmp : IsIcmp b
    · rw [if_pos hicmp]
      split
      · split <;> rfl
      · rfl
    · rw [if_neg hicmp, if_neg fun hreads : ReadsReply uninit b => hicmp hreads.1]
      rfl
  · obtain ⟨stream, asked, -, hrun⟩ := run_of_not_isWhole hwhole uninit published
    rw [hrun, checkNotify_of_not_isWhole hwhole]
    rfl

/-- Both headers are read of every ICMP packet. -/
theorem le_asked (h : IsWhole b) (hicmp : IsIcmp b) (uninit : UInt8)
    (published : List EchoResponse) :
    28 ≤ ((PingM.checkNotify uninit).run handler (start ⟨b, published⟩)).state.asked := by
  rw [run_of_isWhole h, if_pos hicmp]
  split
  · split
    · exact le_rfl
    case isFalse hheaders => exact Nat.not_lt.mp hheaders
  · exact le_rfl

/-- No more is read than the IP header, but of an ICMP packet. -/
theorem asked_le (b : Bytes) (uninit : UInt8) (published : List EchoResponse) :
    ((PingM.checkNotify uninit).run handler (start ⟨b, published⟩)).state.asked ≤ 20 ∨
      IsWhole b ∧ IsIcmp b ∧
        ((PingM.checkNotify uninit).run handler (start ⟨b, published⟩)).state.asked ≤
          max 28 (totalLength b) := by
  by_cases hwhole : IsWhole b
  · rw [run_of_isWhole hwhole]
    by_cases hicmp : IsIcmp b
    · right
      refine ⟨hwhole, hicmp, ?_⟩
      rw [if_pos hicmp]
      split
      · split
        · exact le_max_left ..
        · exact le_max_right ..
      · exact le_max_left ..
    · left
      rw [if_neg hicmp]
      exact le_rfl
  · obtain ⟨stream, asked, hasked, hrun⟩ := run_of_not_isWhole hwhole uninit published
    left
    rw [hrun]
    exact hasked

/-- The payload length is computed of an ICMP packet only. -/
theorem mem_sizes {size : UInt64}
    (h : size ∈ ((PingM.checkNotify uninit).run handler (start ⟨b, published⟩)).state.sizes) :
    IsWhole b ∧ IsIcmp b ∧ size = payloadSize b := by
  by_cases hwhole : IsWhole b
  · rw [run_of_isWhole hwhole] at h
    by_cases hicmp : IsIcmp b
    · refine ⟨hwhole, hicmp, ?_⟩
      rw [if_pos hicmp] at h
      split at h
      · split at h <;> exact List.mem_singleton.mp h
      · cases h
    · rw [if_neg hicmp] at h
      cases h
  · obtain ⟨stream, asked, -, hrun⟩ := run_of_not_isWhole hwhole uninit published
    rw [hrun] at h
    cases h

end Reading

namespace Ping

/-- The round on the buffer stays inside of the packet that it takes off it. The positions that the
stream is asked for are those below `asked`, of which the first 20 are the IP header. -/
structure StaysInside (uninit : UInt8) (s : Ping) : Prop where
  size_eq : ∀ size ∈ ((PingM.checkNotify uninit).run Reading.handler (.start s)).state.sizes,
    size.toNat + 20 + 8 = totalLength s.dataBuffer
  reads : ∀ i < ((PingM.checkNotify uninit).run Reading.handler (.start s)).state.asked,
    20 ≤ i → i < totalLength s.dataBuffer
  returns : ∃ consumed s', checkNotify uninit s = .returned consumed s'
  publishes : (checkNotify uninit s).state.published = s.published ∨
    IsWhole s.dataBuffer ∧ 28 ≤ totalLength s.dataBuffer ∧
      ∃ identifier sequenceNumber, (checkNotify uninit s).state.published = s.published ++
        [⟨identifier, sequenceNumber, (s.dataBuffer.take (totalLength s.dataBuffer)).drop 28⟩]

/-- **A round stays inside of the packet** if and only if the packet that it takes off the buffer,
if it is an ICMP packet, has both headers. -/
theorem staysInside_iff (uninit : UInt8) (s : Ping) : StaysInside uninit s ↔
    (IsWhole s.dataBuffer → IsIcmp s.dataBuffer → 28 ≤ totalLength s.dataBuffer) := by
  constructor
  · intro h hwhole hicmp
    have hlast := h.reads 27 (Reading.le_asked hwhole hicmp uninit s.published) (by decide)
    omega
  · intro h
    constructor
    · intro size hsize
      obtain ⟨hwhole, hicmp, rfl⟩ := Reading.mem_sizes hsize
      have hheaders := h hwhole hicmp
      have hpayload := toNat_size _ hheaders
      rw [Reading.payloadSize, hpayload]
      rw [totalLength] at hheaders ⊢
      omega
    · intro i hi hip
      rcases Reading.asked_le s.dataBuffer uninit s.published with hasked | ⟨hwhole, hicmp, hasked⟩
      · exact absurd (lt_of_lt_of_le hi hasked) (Nat.not_lt.mpr hip)
      · rw [max_eq_right (h hwhole hicmp)] at hasked
        exact lt_of_lt_of_le hi hasked
    · have hchecked := checked uninit s
      generalize checkNotify uninit s = o at hchecked ⊢
      cases hchecked with
      | waits => exact ⟨_, _, rfl⟩
      | passes => exact ⟨_, _, rfl⟩
      | throws hwhole hreads hlt => exact absurd (h hwhole hreads.1) (Nat.not_le.mpr hlt)
      | publishes => exact ⟨_, _, rfl⟩
    · have hchecked := checked uninit s
      generalize checkNotify uninit s = o at hchecked ⊢
      cases hchecked with
      | waits => exact Or.inl rfl
      | passes => exact Or.inl rfl
      | throws => exact Or.inl rfl
      | publishes hwhole _ hheaders => exact Or.inr ⟨hwhole, hheaders, _, _, rfl⟩

/-- An ICMP packet that ends with its IP header, and some bytes after it. -/
def runt : Bytes := [0x45, 0, 0, 20, 0, 0, 0, 0, 64, 1, 0, 0, 127, 0, 0, 1, 127, 0, 0, 1, 0, 0]

/-- **An exception leaves `check_notify`**: the payload length of the packet wraps around. -/
theorem throws_on_runt : ¬ StaysInside 0 ⟨runt, []⟩ ∧
    (checkNotify 0 ⟨runt, []⟩).result = .error (.threw "std::length_error") := by
  constructor
  · intro h
    have hlast := h.reads 27 (by decide) (by decide)
    exact absurd hlast (by decide)
  · decide

end Ping

end Pingfs
