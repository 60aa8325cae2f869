import Pingfs.Ping.ForeignReplies
import Pingfs.Ping.PacketFraming
import Pingfs.Ping.PingNetwork
import Mathlib.Algebra.Order.Group.Multiset
import Mathlib.Data.Fintype.Defs

/-!
# The network in bytes

Services that share a `Ping`, its socket, and the remote hosts. A request is written to the socket
as bytes; a remote host sends bytes back; these are received in chunks of any sizes, the packets
are taken off the buffer, and what is published for them is handed to every service, by any of the
threads that run the `io_service`. Other packets come in between.

Two things are taken of what comes in. A packet fits into `reply_buffer_`: of a larger one the
receive drops the end, as in `Ping.deliverAll`, and a block of that size does not come back. And
receives do not overlap: `handle_receive` calls `set_handler` before it appends to the data buffer,
and with several threads in the `io_service` the next chunk could be appended first.

For each of the services this is `PingNetwork`: whatever it has in flight is written out, on its way
back, in the buffer or waiting to be handed out, and an echo arrives when it is handed out.

Sources: `ping.cc`, `data_buffer.cc`, `echo_request.cc`, `publisher.hpp`, `ping_block_service.cc`.

## Main results

* `Spread.receive` — receiving moves requests from the stream to what is published
* `SocketNetwork.refines` — each service and its packets are a `PingNetwork`
* `SocketNetwork.blocks_on_the_way` — in the bytes on the way each of its blocks is there once
-/

namespace Pingfs

open Ping Packet

instance (s : TrackFreedService) (resp : EchoResponse) : Decidable (s.IsFor resp) :=
  inferInstanceAs (Decidable (_ ∧ _))

instance (p : Bytes) : Decidable (IsFrame p) :=
  decidable_of_iff (20 ≤ p.length ∧ totalLength p = p.length ∧ (IsIcmp p → 28 ≤ p.length ∨
      (21 ≤ p.length ∧ byteAt p 20 ≠ 0) ∨ (22 ≤ p.length ∧ byteAt p 21 ≠ 0)))
    ⟨fun h => ⟨h.1, h.2.1, h.2.2⟩, fun h => ⟨h.header, h.total, h.icmp⟩⟩

/-- The services of one `Ping`, and a record of what each was told to send and to free. `sent` are
the requests on their way to a remote host, `stream` is what has come back and is not received yet;
what is `published` by `ping` has still to be handed out. -/
structure SocketNetwork (ι : Type) where
  services : ι → TrackFreedService
  registered : ι → List Block
  freed : ι → Finset BlockId
  ping : Ping
  sent : Multiset Bytes
  stream : Bytes

namespace SocketNetwork

variable {ι : Type} [DecidableEq ι]

/-- A step of some thread, of a remote host or of the network. -/
inductive Event (ι : Type) where
  | registerBlock (who : ι) (block : Block)
  | freeBlock (who : ι) (id : BlockId)
  /-- A remote host echoes a request. -/
  | echo (request header checksum : Bytes)
  /-- Another packet comes in. -/
  | other (packet : Bytes)
  /-- `handle_receive` of so many bytes, and the `internal_check_notify` that it posts. -/
  | receive (length : ℕ)
  /-- `notify`, with one of the responses that were posted. -/
  | notify (i : ℕ)

/-- Services that have sent nothing. -/
def init (services : ι → TrackFreedService) : SocketNetwork ι :=
  ⟨services, fun _ => [], fun _ => ∅, .new, 0, []⟩

variable (lib : Protobuf) (uninit : UInt8) (subscribers : List ι)

/-- A service has processed a response. -/
def processed (c : SocketNetwork ι) (who : ι) (out : Processed) : SocketNetwork ι :=
  { c with
    services := Function.update c.services who out.service
    sent := c.sent + (out.sent.map EchoRequest.serialize : List Bytes) }

/-- The loop of `notify` over the services. It ends when one of them throws. -/
def notifyLoop (resp : EchoResponse) : List ι → SocketNetwork ι → SocketNetwork ι
  | [], c => c
  | who :: rest, c =>
    match (c.services who).process lib resp with
    | .ok out => notifyLoop resp rest (c.processed who out)
    | .error _ => c

/-- A response that was posted is taken. -/
def taken (c : SocketNetwork ι) (i : ℕ) : SocketNetwork ι :=
  { c with ping := { c.ping with published := c.ping.published.eraseIdx i } }

/-- One step. -/
def step (c : SocketNetwork ι) : Event ι → SocketNetwork ι
  | .registerBlock who block =>
    { c with
      registered := Function.update c.registered who (block :: c.registered who)
      sent := c.sent + {((c.services who).registerBlock lib block).serialize} }
  | .freeBlock who id =>
    { c with
      services := Function.update c.services who ((c.services who).freeBlock id)
      freed := Function.update c.freed who (insert id (c.freed who)) }
  | .echo request header checksum =>
    { c with
      sent := c.sent.erase request
      stream := c.stream ++ (header ++ [EchoResponse.TYPE, EchoResponse.CODE] ++ checksum ++
        request.drop 4) }
  | .other packet => { c with stream := c.stream ++ packet }
  | .receive length =>
    { c with
      ping := (c.ping.receive uninit (c.stream.take length)).state
      stream := c.stream.drop length }
  | .notify i =>
    match c.ping.published[i]? with
    | none => c
    | some resp => notifyLoop lib resp subscribers (c.taken i)

/-- Each block is created once and freed at most once; a remote host echoes what was sent, behind a
header that says so; of the other packets none is a reply for a service; and what comes in fits the
reply buffer. -/
def Allowed (c : SocketNetwork ι) : Event ι → Prop
  | .registerBlock who block => block.id ∉ (c.registered who).map (·.id)
  | .freeBlock who id => id ∈ (c.registered who).map (·.id) ∧ id ∉ c.freed who
  | .echo request header checksum =>
    request ∈ c.sent ∧ header.length = 20 ∧ IsIcmp header ∧
      totalLength header = 20 + request.length ∧ 20 + request.length ≤ replyBufferSize ∧
      checksum.length = 2
  | .other packet => IsFrame packet ∧ packet.length ≤ replyBufferSize ∧
      ∀ resp ∈ response packet, ∀ who, ¬ (c.services who).IsFor resp
  | .receive _ => True
  | .notify _ => True

instance [Fintype ι] (c : SocketNetwork ι) : (e : Event ι) → Decidable (c.Allowed e)
  | .registerBlock .. => inferInstanceAs (Decidable (_ ∉ _))
  | .freeBlock .. => inferInstanceAs (Decidable (_ ∧ _))
  | .echo .. => inferInstanceAs (Decidable (_ ∧ _ ∧ _ ∧ _ ∧ _ ∧ _))
  | .other packet =>
    haveI (resp : EchoResponse) : Decidable (∀ who, ¬ (c.services who).IsFor resp) :=
      Fintype.decidableForallFintype
    inferInstanceAs (Decidable (IsFrame packet ∧ _ ∧ ∀ resp ∈ response packet, _))
  | .receive _ => .isTrue trivial
  | .notify _ => .isTrue trivial

/-- What a step is for one of the services. -/
def eventsOf (who : ι) (c : SocketNetwork ι) : Event ι → List PingNetwork.Event
  | .registerBlock i block => if i = who then [.register block] else []
  | .freeBlock i id => if i = who then [.free id] else []
  | .notify i =>
    match c.ping.published[i]? with
    | none => []
    | some resp => if (c.services who).IsFor resp then [.arrive (.ofResponse resp)] else []
  | .echo .. => []
  | .other _ => []
  | .receive _ => []

/-! ## Where the requests are -/

/-- The requests that responses are the echoes of. -/
def requestsOf (responses : List EchoResponse) : Multiset EchoRequest :=
  responses.map EchoRequest.ofResponse

@[simp] theorem requestsOf_append (rs rs' : List EchoResponse) :
    requestsOf (rs ++ rs') = requestsOf rs + requestsOf rs' := by
  rw [requestsOf, List.map_append, ← Multiset.coe_add]
  rfl

/-- The requests are spread over what was sent, what has come back or is in the buffer, and what is
published. -/
def Spread (sent : Multiset Bytes) (ping : Ping) (stream : Bytes) (flying : Multiset EchoRequest) :
    Prop :=
  ∃ (requests : Multiset EchoRequest) (frames : List Bytes),
    sent = requests.map EchoRequest.serialize ∧ (∀ f ∈ frames, IsFrame f) ∧
    Framing.Unfinished IsFrame ping.dataBuffer ∧ ping.dataBuffer ++ stream = frames.flatten ∧
    flying = requests + requestsOf (frames.filterMap response) + requestsOf ping.published

theorem unfinished_nil : Framing.Unfinished IsFrame [] := by
  have hframe : IsFrame udpHeader := ⟨by decide, by decide, by decide⟩
  exact Framing.unfinished_nil hframe (by decide)

theorem spread_new : Spread 0 .new [] 0 := ⟨0, [], rfl, by simp, unfinished_nil, rfl, rfl⟩

section

variable {sent : Multiset Bytes} {ping : Ping} {stream : Bytes} {flying : Multiset EchoRequest}

/-- Requests are written to the socket. -/
theorem Spread.send (h : Spread sent ping stream flying) (more : List EchoRequest) :
    Spread (sent + (more.map EchoRequest.serialize : List Bytes)) ping stream (flying + more) := by
  obtain ⟨requests, frames, rfl, hframes, hbuffer, hstream, rfl⟩ := h
  refine ⟨requests + more, frames, ?_, hframes, hbuffer, hstream, ?_⟩
  · rw [Multiset.map_add, Multiset.map_coe]
  · ac_rfl

/-- Another whole packet comes in. -/
theorem Spread.arrive (h : Spread sent ping stream flying) {packet : Bytes}
    (hpacket : IsFrame packet) :
    Spread sent ping (stream ++ packet) (flying + requestsOf (response packet).toList) := by
  obtain ⟨requests, frames, hsent, hframes, hbuffer, hstream, rfl⟩ := h
  refine ⟨requests, frames ++ [packet], hsent, ?_, hbuffer, ?_, ?_⟩
  · intro f hf
    rcases List.mem_append.mp hf with hf | hf
    · exact hframes f hf
    · obtain rfl := List.mem_singleton.mp hf
      exact hpacket
  · rw [List.flatten_append, ← hstream, List.flatten_singleton, List.append_assoc]
  · have hone : [packet].filterMap response = (response packet).toList := by
      cases hresponse : response packet <;> simp [hresponse]
    rw [List.filterMap_append, requestsOf_append, hone]
    ac_rfl

/-- **A remote host echoes a request.** -/
theorem Spread.echo (h : Spread sent ping stream flying) {request header checksum : Bytes}
    (hin : request ∈ sent) (hlength : header.length = 20) (hicmp : IsIcmp header)
    (htotal : totalLength header = 20 + request.length) (hchecksum : checksum.length = 2) :
    Spread (sent.erase request) ping (stream ++ (header ++
      [EchoResponse.TYPE, EchoResponse.CODE] ++ checksum ++ request.drop 4)) flying := by
  obtain ⟨requests, frames, rfl, hframes, hbuffer, hstream, rfl⟩ := h
  obtain ⟨q, hq, rfl⟩ := Multiset.mem_map.mp hin
  have hheader : IsEchoHeader header q := by
    refine ⟨hlength, hicmp, ?_⟩
    rw [htotal]
    simp [EchoRequest.serialize, putShort]
    omega
  obtain ⟨hpacket, hresponse⟩ := echoPacket_isPacket hheader hchecksum
  have hrest : Spread ((requests.map EchoRequest.serialize).erase q.serialize) ping stream
      (requests.erase q + requestsOf (frames.filterMap response) + requestsOf ping.published) :=
    ⟨requests.erase q, frames, (Multiset.map_erase_of_mem _ _ hq).symm, hframes, hbuffer, hstream,
      rfl⟩
  have hback := hrest.arrive hpacket.isFrame
  have hsame : requests.erase q + requestsOf (frames.filterMap response) +
      requestsOf ping.published + requestsOf [q.echo] =
        requests + requestsOf (frames.filterMap response) + requestsOf ping.published := by
    have hrequests : requests = requests.erase q + requestsOf [q.echo] := by
      rw [Multiset.add_comm]
      exact (Multiset.cons_erase hq).symm
    conv_rhs => rw [hrequests]
    ac_rfl
  rw [hresponse, Option.toList_some, hsame] at hback
  exact hback

/-- **A chunk is received.** What it completes is published. -/
theorem Spread.receive {chunk : Bytes} (h : Spread sent ping (chunk ++ stream) flying)
    (uninit : UInt8) : Spread sent (ping.receive uninit chunk).state stream flying := by
  obtain ⟨requests, frames, hsent, hframes, hbuffer, hstream, rfl⟩ := h
  have hcut : ping.dataBuffer ++ chunk ++ stream = frames.flatten ++ [] := by
    rw [List.append_assoc, hstream, List.append_nil]
  obtain ⟨done, rest, v, rfl, harrived, hlater, hv⟩ :=
    Framing.exists_split hframes unfinished_nil hcut
  have hreceive := receive_frames uninit (fun f hf => hframes f (List.mem_append_left _ hf)) hv
    ping.published harrived
  rw [hreceive, Outcome.state_returned]
  refine ⟨requests, rest, hsent, fun f hf => hframes f (List.mem_append_right _ hf), hv, ?_, ?_⟩
  · rw [hlater, List.append_nil]
  · rw [List.filterMap_append, requestsOf_append, requestsOf_append]
    ac_rfl

/-- A response that was posted is taken. -/
theorem Spread.take (h : Spread sent ping stream flying) {i : ℕ} {resp : EchoResponse}
    (hi : ping.published[i]? = some resp) :
    ∃ rest, flying = rest + {.ofResponse resp} ∧
      Spread sent { ping with published := ping.published.eraseIdx i } stream rest := by
  obtain ⟨requests, frames, hsent, hframes, hbuffer, hstream, rfl⟩ := h
  refine ⟨_, ?_, requests, frames, hsent, hframes, hbuffer, hstream, rfl⟩
  have htaken : requestsOf ping.published =
      requestsOf (ping.published.eraseIdx i) + {.ofResponse resp} := by
    obtain ⟨hlt, rfl⟩ := List.getElem?_eq_some_iff.mp hi
    have hperm := (List.getElem_cons_eraseIdx_perm hlt).map EchoRequest.ofResponse
    rw [Multiset.add_comm, Multiset.singleton_add, requestsOf, ← Multiset.coe_eq_coe.mpr hperm]
    rfl
  rw [htaken]
  ac_rfl

end

/-! ## One response and all services -/

variable {lib} {uninit} {subscribers} {c : SocketNetwork ι} {resp : EchoResponse} {who : ι}

/-- No reply is for two services. -/
def Separate (services : ι → TrackFreedService) : Prop :=
  ∀ i j resp, (services i).IsFor resp → (services j).IsFor resp → i = j

/-- The services have the same ids. -/
def SameIds (services services' : ι → TrackFreedService) : Prop :=
  ∀ i resp, (services' i).IsFor resp ↔ (services i).IsFor resp

omit [DecidableEq ι] in
theorem separate_of_injective {services : ι → TrackFreedService}
    (hids : Function.Injective fun who => ((services who).fsId, (services who).id)) :
    Separate services :=
  fun _ _ _ hi hj => hids (Prod.ext (hi.1.symm.trans hj.1) (hi.2.symm.trans hj.2))

omit [DecidableEq ι] in
theorem Separate.of_sameIds {services services' : ι → TrackFreedService} (h : Separate services)
    (hsame : SameIds services services') : Separate services' :=
  fun i j resp hi hj => h i j resp ((hsame i resp).mp hi) ((hsame j resp).mp hj)

theorem sameIds_update {services : ι → TrackFreedService} {s' : TrackFreedService}
    (h : ∀ resp, s'.IsFor resp ↔ (services who).IsFor resp) :
    SameIds services (Function.update services who s') := by
  intro i resp
  by_cases hi : i = who
  · subst hi
    rw [Function.update_self]
    exact h resp
  · rw [Function.update_of_ne hi]

@[simp] theorem echo_ofResponse (resp : EchoResponse) : (EchoRequest.ofResponse resp).echo = resp :=
  rfl

/-- A service keeps its ids, and what it sends has these. -/
theorem process_keeps {s : TrackFreedService} {out : Processed}
    (h : s.process lib resp = .ok out) :
    (∀ resp', out.service.IsFor resp' ↔ s.IsFor resp') ∧ ∀ q ∈ out.sent, s.IsFor q.echo := by
  by_cases hfor : s.IsFor resp
  · rw [TrackFreedService.process_eq, TrackFreedService.received_of_isFor hfor] at h
    cases hblock : Block.ofProto (lib.parseFromString resp.data).2 with
    | error what =>
      rw [hblock] at h
      cases h
    | ok block =>
      rw [hblock] at h
      obtain rfl := Except.ok.inj h
      by_cases hfreed : block.id ∈ s.freedIds
      · simp [TrackFreedService.shouldRecycle, hfreed, TrackFreedService.IsFor]
      · simpa [TrackFreedService.shouldRecycle, hfreed] using hfor
  · rw [TrackFreedService.process_of_not_isFor hfor] at h
    obtain rfl := Except.ok.inj h
    exact ⟨fun _ => Iff.rfl, fun q hq => absurd hq List.not_mem_nil⟩

/-- Nothing comes of the reply to another. -/
theorem processed_of_not_isFor (c : SocketNetwork ι) (who : ι) :
    c.processed who ⟨c.services who, none, []⟩ = c := by
  rw [processed, Function.update_eq_self]
  simp

theorem notifyLoop_of_not_isFor (h : ∀ who ∈ subscribers, ¬ (c.services who).IsFor resp) :
    notifyLoop lib resp subscribers c = c := by
  induction subscribers with
  | nil => rfl
  | cons who rest ih =>
    obtain ⟨hwho, hrest⟩ := List.forall_mem_cons.mp h
    rw [notifyLoop, TrackFreedService.process_of_not_isFor hwho]
    show notifyLoop lib resp rest (c.processed who ⟨c.services who, none, []⟩) = c
    rw [processed_of_not_isFor]
    exact ih hrest

/-- **The one service that a response is for** processes it. -/
theorem notifyLoop_of_isFor (hnodup : subscribers.Nodup) (hmem : who ∈ subscribers)
    (hseparate : Separate c.services) (hfor : (c.services who).IsFor resp) :
    notifyLoop lib resp subscribers c =
      match (c.services who).process lib resp with
      | .ok out => c.processed who out
      | .error _ => c := by
  have hother : ∀ i, i ≠ who → ¬ (c.services i).IsFor resp :=
    fun i hne hi => hne (hseparate i who resp hi hfor)
  induction subscribers with
  | nil => exact absurd hmem List.not_mem_nil
  | cons i rest ih =>
    obtain ⟨hi, hrest⟩ := List.nodup_cons.mp hnodup
    rw [notifyLoop]
    by_cases hwho : i = who
    · subst hwho
      cases hprocess : (c.services i).process lib resp with
      | error what => rfl
      | ok out =>
        refine notifyLoop_of_not_isFor fun j hj => ?_
        have hne : j ≠ i := fun heq => hi (heq ▸ hj)
        have hsame : (c.processed i out).services j = c.services j := Function.update_of_ne hne ..
        rw [hsame]
        exact hother j hne
    · rw [TrackFreedService.process_of_not_isFor (hother i hwho)]
      show notifyLoop lib resp rest (c.processed i ⟨c.services i, none, []⟩) = _
      rw [processed_of_not_isFor]
      exact ih hrest ((List.mem_cons.mp hmem).resolve_left (Ne.symm hwho))

/-! ## One service -/

/-- What a service has in flight, and its record, are those of `n`. -/
structure Part (who : ι) (c : SocketNetwork ι) (flying : Multiset EchoRequest) (n : PingNetwork) :
    Prop where
  service_eq : n.service = c.services who
  registered_eq : n.registered = c.registered who
  freed_eq : n.freed = c.freed who
  inFlight_eq : n.inFlight = flying.filter fun q => (c.services who).IsFor q.echo

/-- The network of one service. -/
def Refines (who : ι) (c : SocketNetwork ι) (n : PingNetwork) : Prop :=
  Separate c.services ∧ ∃ flying, Spread c.sent c.ping c.stream flying ∧ Part who c flying n

omit [DecidableEq ι] in
theorem refines_init {services : ι → TrackFreedService} (hseparate : Separate services)
    (hfreed : (services who).freedIds = ∅) :
    Refines who (init services) (.init (services who).fsId (services who).id) := by
  refine ⟨hseparate, 0, spread_new, ?_, rfl, rfl, rfl⟩
  show (⟨_, _, ∅⟩ : TrackFreedService) = services who
  rw [← hfreed]

section

variable {flying : Multiset EchoRequest} {n : PingNetwork}

omit [DecidableEq ι] in
/-- The service's own part stays as it is, whatever else is in flight. -/
theorem Part.of_same (h : Part who c flying n) {c' : SocketNetwork ι}
    {flying' : Multiset EchoRequest} (hservice : c'.services who = c.services who)
    (hregistered : c'.registered who = c.registered who) (hfreed : c'.freed who = c.freed who)
    (hflying : flying'.filter (fun q => (c.services who).IsFor q.echo) =
      flying.filter fun q => (c.services who).IsFor q.echo) : Part who c' flying' n where
  service_eq := h.service_eq.trans hservice.symm
  registered_eq := h.registered_eq.trans hregistered.symm
  freed_eq := h.freed_eq.trans hfreed.symm
  inFlight_eq := by rw [h.inFlight_eq, hservice, hflying]

omit [DecidableEq ι] in
/-- What is sent for one service is in flight for no other one. -/
theorem filter_add_of_other (hseparate : Separate c.services) {i : ι} (hne : i ≠ who)
    {more : Multiset EchoRequest} (hmore : ∀ q ∈ more, (c.services i).IsFor q.echo) :
    (flying + more).filter (fun q => (c.services who).IsFor q.echo) =
      flying.filter fun q => (c.services who).IsFor q.echo := by
  have hnone : more.filter (fun q => (c.services who).IsFor q.echo) = 0 := by
    refine Multiset.filter_eq_nil.mpr fun q hq hfor => ?_
    exact hne (hseparate i who q.echo (hmore q hq) hfor)
  rw [Multiset.filter_add, hnone, add_zero]

theorem Refines.registerBlock (h : Refines who c n) (i : ι) (block : Block) :
    Refines who (c.step lib uninit subscribers (.registerBlock i block))
      ((c.eventsOf who (.registerBlock i block)).foldl (PingNetwork.step lib) n) := by
  obtain ⟨hseparate, flying, hspread, hpart⟩ := h
  have hfor : ∀ q ∈ ({(c.services i).registerBlock lib block} : Multiset EchoRequest),
      (c.services i).IsFor q.echo := by
    intro q hq
    obtain rfl := Multiset.mem_singleton.mp hq
    exact ⟨rfl, rfl⟩
  refine ⟨hseparate, _, hspread.send [(c.services i).registerBlock lib block], ?_⟩
  by_cases hwho : i = who
  · subst hwho
    rw [eventsOf, if_pos rfl]
    refine ⟨hpart.service_eq, ?_, hpart.freed_eq, ?_⟩
    · simp [step, PingNetwork.step, hpart.registered_eq]
    · have hfilter := Multiset.filter_eq_self.mpr hfor
      rw [Multiset.filter_add]
      show n.inFlight + ({n.service.registerBlock lib block} : Multiset EchoRequest) =
        flying.filter (fun q => (c.services i).IsFor q.echo) +
          Multiset.filter (fun q => (c.services i).IsFor q.echo) {_}
      rw [hfilter, hpart.inFlight_eq, hpart.service_eq]
  · rw [eventsOf, if_neg hwho]
    refine hpart.of_same rfl ?_ rfl (filter_add_of_other hseparate hwho hfor)
    exact Function.update_of_ne (Ne.symm hwho) ..

theorem Refines.freeBlock (h : Refines who c n) (i : ι) (id : BlockId) :
    Refines who (c.step lib uninit subscribers (.freeBlock i id))
      ((c.eventsOf who (.freeBlock i id)).foldl (PingNetwork.step lib) n) := by
  obtain ⟨hseparate, flying, hspread, hpart⟩ := h
  have hsame : SameIds c.services (c.step lib uninit subscribers (.freeBlock i id)).services :=
    sameIds_update fun _ => Iff.rfl
  refine ⟨hseparate.of_sameIds hsame, flying, hspread, ?_⟩
  by_cases hwho : i = who
  · subst hwho
    rw [eventsOf, if_pos rfl]
    refine ⟨?_, hpart.registered_eq, ?_, ?_⟩
    · simp [step, PingNetwork.step, hpart.service_eq]
    · simp [step, PingNetwork.step, hpart.freed_eq]
    · simp only [hsame i]
      exact hpart.inFlight_eq
  · rw [eventsOf, if_neg hwho]
    exact hpart.of_same (Function.update_of_ne (Ne.symm hwho) ..) rfl
      (Function.update_of_ne (Ne.symm hwho) ..) rfl

/-- A remote host has echoed a request. -/
theorem Refines.echo (h : Refines who c n) {request header checksum : Bytes}
    (hallowed : c.Allowed (.echo request header checksum)) :
    Refines who (c.step lib uninit subscribers (.echo request header checksum)) n := by
  obtain ⟨hseparate, flying, hspread, hpart⟩ := h
  obtain ⟨hin, hlength, hicmp, htotal, -, hchecksum⟩ := hallowed
  exact ⟨hseparate, flying, hspread.echo hin hlength hicmp htotal hchecksum,
    hpart.of_same rfl rfl rfl rfl⟩

/-- Another packet is none of the service's. -/
theorem Refines.other (h : Refines who c n) {packet : Bytes}
    (hallowed : c.Allowed (.other packet)) :
    Refines who (c.step lib uninit subscribers (.other packet)) n := by
  obtain ⟨hseparate, flying, hspread, hpart⟩ := h
  obtain ⟨hframe, -, hforeign⟩ := hallowed
  refine ⟨hseparate, _, hspread.arrive hframe, hpart.of_same rfl rfl rfl ?_⟩
  have hnone : (requestsOf (response packet).toList).filter
      (fun q => (c.services who).IsFor q.echo) = 0 := by
    refine Multiset.filter_eq_nil.mpr fun q hq => ?_
    obtain ⟨resp, hresp, rfl⟩ := List.mem_map.mp hq
    exact hforeign resp (Option.mem_toList.mp hresp) who
  rw [Multiset.filter_add, hnone, add_zero]

theorem Refines.receive (h : Refines who c n) (length : ℕ) :
    Refines who (c.step lib uninit subscribers (.receive length)) n := by
  obtain ⟨hseparate, flying, hspread, hpart⟩ := h
  rw [← List.take_append_drop length c.stream] at hspread
  exact ⟨hseparate, flying, hspread.receive uninit, hpart.of_same rfl rfl rfl rfl⟩

/-- The service's own response has been handed out. -/
theorem Refines.process (hseparate : Separate c.services) {resp : EchoResponse}
    (hspread : Spread c.sent c.ping c.stream flying)
    (hpart : Part who c (flying + {.ofResponse resp}) n) (hfor : (c.services who).IsFor resp) :
    Refines who (match (c.services who).process lib resp with
      | .ok out => c.processed who out
      | .error _ => c) (n.step lib (.arrive (.ofResponse resp))) := by
  have hrest : n.inFlight.erase (.ofResponse resp) =
      flying.filter fun q => (c.services who).IsFor q.echo := by
    rw [hpart.inFlight_eq, Multiset.filter_add, Multiset.filter_singleton, echo_ofResponse,
      if_pos hfor, Multiset.add_comm, Multiset.singleton_add, Multiset.erase_cons_head]
  cases hout : (c.services who).process lib resp with
  | error what =>
    refine ⟨hseparate, flying, hspread, ?_, hpart.registered_eq, hpart.freed_eq, ?_⟩
    · simp [PingNetwork.step, hpart.service_eq, hout]
    · simp [PingNetwork.step, PingNetwork.sent, hpart.service_eq, hout, hrest]
  | ok out =>
    obtain ⟨hkeeps, hsent⟩ := process_keeps hout
    have hsame : SameIds c.services (c.processed who out).services := sameIds_update hkeeps
    refine ⟨hseparate.of_sameIds hsame, _, hspread.send out.sent, ?_, hpart.registered_eq,
      hpart.freed_eq, ?_⟩
    · simp [PingNetwork.step, hpart.service_eq, hout, processed]
    · have hown : (out.sent : Multiset EchoRequest).filter
          (fun q => (c.services who).IsFor q.echo) = out.sent := Multiset.filter_eq_self.mpr hsent
      simp only [hsame who]
      rw [Multiset.filter_add, hown, ← hrest]
      simp [PingNetwork.step, PingNetwork.sent, hpart.service_eq, hout]

/-- Another's response has been handed out. -/
theorem Refines.process_of_ne (hseparate : Separate c.services) {resp : EchoResponse} {i : ι}
    (hne : i ≠ who) (hspread : Spread c.sent c.ping c.stream flying) (hpart : Part who c flying n) :
    Refines who (match (c.services i).process lib resp with
      | .ok out => c.processed i out
      | .error _ => c) n := by
  cases hout : (c.services i).process lib resp with
  | error what => exact ⟨hseparate, flying, hspread, hpart⟩
  | ok out =>
    obtain ⟨hkeeps, hsent⟩ := process_keeps hout
    have hsame : SameIds c.services (c.processed i out).services := sameIds_update hkeeps
    refine ⟨hseparate.of_sameIds hsame, _, hspread.send out.sent, ?_⟩
    exact hpart.of_same (Function.update_of_ne (Ne.symm hne) ..) rfl rfl
      (filter_add_of_other hseparate hne hsent)

/-- **A response is handed out**, to the service it is for, if there is one. -/
theorem Refines.notify (h : Refines who c n) (hnodup : subscribers.Nodup)
    (hmem : who ∈ subscribers) (i : ℕ) :
    Run.EveryStep (PingNetwork.step lib) PingNetwork.Orderly n (c.eventsOf who (.notify i)) ∧
    Refines who (c.step lib uninit subscribers (.notify i))
      ((c.eventsOf who (.notify i)).foldl (PingNetwork.step lib) n) := by
  obtain ⟨hseparate, flying, hspread, hpart⟩ := h
  cases hresp : c.ping.published[i]? with
  | none =>
    simp only [eventsOf, step, hresp]
    exact ⟨trivial, hseparate, flying, hspread, hpart⟩
  | some resp =>
    obtain ⟨rest, rfl, htaken⟩ := hspread.take hresp
    have hseparate' : Separate (c.taken i).services := hseparate
    simp only [eventsOf, step, hresp]
    by_cases hfor : (c.services who).IsFor resp
    · rw [if_pos hfor, notifyLoop_of_isFor hnodup hmem hseparate' hfor]
      refine ⟨⟨?_, trivial⟩, Refines.process hseparate' htaken (hpart.of_same rfl rfl rfl rfl) hfor⟩
      show EchoRequest.ofResponse resp ∈ n.inFlight
      rw [hpart.inFlight_eq]
      exact Multiset.mem_filter.mpr ⟨by simp, hfor⟩
    · rw [if_neg hfor]
      refine ⟨trivial, ?_⟩
      have hsame : (rest + {.ofResponse resp}).filter (fun q => (c.services who).IsFor q.echo) =
          rest.filter fun q => (c.services who).IsFor q.echo := by
        rw [Multiset.filter_add, Multiset.filter_singleton, echo_ofResponse, if_neg hfor]
        exact add_zero _
      have hpart' : Part who (c.taken i) rest n := hpart.of_same rfl rfl rfl hsame.symm
      by_cases hsome : ∃ j ∈ subscribers, (c.services j).IsFor resp
      · obtain ⟨j, hj, hforj⟩ := hsome
        have hne : j ≠ who := fun heq => hfor (heq ▸ hforj)
        rw [notifyLoop_of_isFor hnodup hj hseparate' hforj]
        exact Refines.process_of_ne hseparate' hne htaken hpart'
      · have hnobody : ∀ j ∈ subscribers, ¬ ((c.taken i).services j).IsFor resp :=
          fun j hj hforj => hsome ⟨j, hj, hforj⟩
        rw [notifyLoop_of_not_isFor hnobody]
        exact ⟨hseparate', rest, htaken, hpart'⟩

/-- **One step** is one of the service's network, or none. -/
theorem Refines.step (h : Refines who c n) (hnodup : subscribers.Nodup) (hmem : who ∈ subscribers)
    {e : Event ι} (he : c.Allowed e) :
    Run.EveryStep (PingNetwork.step lib) PingNetwork.Orderly n (c.eventsOf who e) ∧
    Refines who (c.step lib uninit subscribers e)
      ((c.eventsOf who e).foldl (PingNetwork.step lib) n) := by
  have hpart := h.2
  cases e with
  | registerBlock i block =>
    refine ⟨?_, h.registerBlock i block⟩
    obtain ⟨flying, -, hpart⟩ := hpart
    by_cases hwho : i = who
    · subst hwho
      rw [eventsOf, if_pos rfl]
      refine ⟨?_, trivial⟩
      show block.id ∉ n.registered.map (·.id)
      rw [hpart.registered_eq]
      exact he
    · rw [eventsOf, if_neg hwho]
      trivial
  | freeBlock i id =>
    refine ⟨?_, h.freeBlock i id⟩
    obtain ⟨flying, -, hpart⟩ := hpart
    by_cases hwho : i = who
    · subst hwho
      rw [eventsOf, if_pos rfl]
      refine ⟨?_, trivial⟩
      show id ∈ n.registered.map (·.id) ∧ id ∉ n.freed
      rw [hpart.registered_eq, hpart.freed_eq]
      exact he
    · rw [eventsOf, if_neg hwho]
      trivial
  | echo request header checksum => exact ⟨trivial, h.echo he⟩
  | other packet => exact ⟨trivial, h.other he⟩
  | receive length => exact ⟨trivial, h.receive length⟩
  | notify i => exact h.notify hnodup hmem i

end

variable (lib uninit)

/-- **Each service is a `PingNetwork`.** In any run of services with different ids, whatever the
chunks in which replies are received, whatever comes in between and whichever thread hands a
response out, a service that subscribed takes an orderly run of its own network; its packets in
flight are those written out, coming back, in the buffer or waiting to be handed out. -/
theorem refines (hnodup : subscribers.Nodup) (hmem : who ∈ subscribers)
    (services : ι → TrackFreedService)
    (hids : Function.Injective fun who => ((services who).fsId, (services who).id))
    (hfreed : (services who).freedIds = ∅) (events : List (Event ι))
    (h : Run.EveryStep (step lib uninit subscribers) Allowed (init services) events) :
    let start := PingNetwork.init (services who).fsId (services who).id
    let calls := Run.refined (step lib uninit subscribers) (eventsOf who) (init services) events
    Run.EveryStep (PingNetwork.step lib) PingNetwork.Orderly start calls ∧
      Refines who (events.foldl (step lib uninit subscribers) (init services))
        (start.run lib calls) :=
  h.simulates (refines_init (separate_of_injective hids) hfreed)
    fun _ _ _ hn he => hn.step hnodup hmem he

/-- Two services, one of which creates and frees a block that comes back in two chunks, behind a
packet of another protocol. -/
def twoServices (who : Bool) : TrackFreedService := ⟨3, if who then 1 else 0, ∅⟩

@[inherit_doc twoServices]
def twoServicesRun : List (Event Bool) :=
  let request :=
    ((twoServices true).registerBlock Protobuf.wire ⟨1, .fileContents ⟨[7]⟩⟩).serialize
  let header : Bytes :=
    [0x45, 0, 0, 37, 0, 0, 0, 0, 64, 1, 0, 0, 10, 0, 0, 2, 10, 0, 0, 1]
  [.registerBlock true ⟨1, .fileContents ⟨[7]⟩⟩, .registerBlock false ⟨1, .link ⟨[2]⟩⟩,
    .other udpHeader, .echo request header [0, 0], .receive 30, .freeBlock true 1, .receive 30,
    .notify 0]

theorem injective_twoServices :
    Function.Injective fun who => ((twoServices who).fsId, (twoServices who).id) := by
  decide

theorem refines_twoServices :
    let start := PingNetwork.init 3 1
    let calls := Run.refined (step Protobuf.wire 0 [false, true]) (eventsOf true)
      (init twoServices) twoServicesRun
    Run.EveryStep (PingNetwork.step Protobuf.wire) PingNetwork.Orderly start calls ∧
      Refines true (twoServicesRun.foldl (step Protobuf.wire 0 [false, true]) (init twoServices))
        (start.run Protobuf.wire calls) := by
  have hnodup : [false, true].Nodup := by decide
  have hmem : true ∈ [false, true] := by decide
  exact refines Protobuf.wire 0 hnodup hmem twoServices injective_twoServices rfl twoServicesRun
    (by decide)

variable {lib}

/-- **No block is lost on the way**, and none is there twice. After any such run, of the requests
that are on their way and the replies that are, or are in the buffer or published, there is one for
each block of the service that was not freed and for each freed one that has yet to come by, and
no other one for the service. -/
theorem blocks_on_the_way (hlib : lib.Sound) (hnodup : subscribers.Nodup) (hmem : who ∈ subscribers)
    (services : ι → TrackFreedService)
    (hids : Function.Injective fun who => ((services who).fsId, (services who).id))
    (hfreed : (services who).freedIds = ∅) (events : List (Event ι))
    (h : Run.EveryStep (step lib uninit subscribers) Allowed (init services) events) :
    let c := events.foldl (step lib uninit subscribers) (init services)
    ∃ (requests : Multiset EchoRequest) (frames : List Bytes),
      c.sent = requests.map EchoRequest.serialize ∧ c.ping.dataBuffer ++ c.stream = frames.flatten ∧
      (∀ f ∈ frames, IsFrame f) ∧
      (requests + requestsOf (frames.filterMap response) + requestsOf c.ping.published).filter
          (fun q => (c.services who).IsFor q.echo) =
        ((c.registered who).filter fun block =>
          block.id ∉ c.freed who ∨ block.id ∈ (c.services who).freedIds).map
            ((c.services who).translate lib) := by
  intro c
  let start := PingNetwork.init (services who).fsId (services who).id
  have hstart : Refines who (init services) start :=
    refines_init (separate_of_injective hids) hfreed
  obtain ⟨horderly, -, flying, hspread, hpart⟩ := h.simulates hstart
    fun c n _ hn he => Refines.step hn hnodup hmem he
  obtain ⟨requests, frames, hsent, hframes, -, hstream, rfl⟩ := hspread
  refine ⟨requests, frames, hsent, hstream, hframes, ?_⟩
  have hinit : PingNetwork.Conserved lib start := .init _ _
  have hconserved := hinit.run hlib horderly
  have hflying := hconserved.inFlight_eq
  rw [PingNetwork.run, hpart.inFlight_eq, hpart.service_eq, hpart.registered_eq] at hflying
  refine hflying.trans ?_
  congr 2
  refine List.filter_congr fun block _ => ?_
  rw [PingNetwork.alive, hpart.freed_eq, hpart.service_eq]

/-- The block that was freed has come by, and no request is on its way for it. -/
theorem blocks_on_the_way_twoServices :
    let c := twoServicesRun.foldl (step Protobuf.wire 0 [false, true]) (init twoServices)
    ∃ (requests : Multiset EchoRequest) (frames : List Bytes),
      c.sent = requests.map EchoRequest.serialize ∧ c.ping.dataBuffer ++ c.stream = frames.flatten ∧
      (∀ f ∈ frames, IsFrame f) ∧
      (requests + requestsOf (frames.filterMap response) + requestsOf c.ping.published).filter
          (fun q => (c.services true).IsFor q.echo) =
        ((c.registered true).filter fun block =>
          block.id ∉ c.freed true ∨ block.id ∈ (c.services true).freedIds).map
            ((c.services true).translate Protobuf.wire) :=
  blocks_on_the_way 0 Protobuf.wire_sound (by decide) (by decide) twoServices injective_twoServices
    rfl twoServicesRun (by decide)

end SocketNetwork

end Pingfs
