import Ristux.Net.Route
import Mathlib.Data.List.Infix

-- The peer's stream is a list of bytes; a segment carries a piece of it under the sequence number
-- of its first byte.

namespace Ristux.Net
open List TcpStack Nat Bool

open Lib.Serial

/-- What all handlers of data do first: the payload, then the end of the stream. -/
def takeIn (socket : TcpSocket) (packet : TcpPacket) : TcpSocket × Bool :=
  consumeRemoteFin (acceptInOrderPayload socket packet).1 packet

section
theorem handleEstablishedLike_fst : (handleEstablishedLike socket packet finState).1 =
    if (takeIn socket packet).2 then { (takeIn socket packet).1 with state := finState }
    else (takeIn socket packet).1 := by
  have haccept : (handleEstablishedLike socket packet finState).1 =
      if packet.has tcpFlagFin then
        if packet.seq + .ofNat 32 packet.payload.length = (acceptInOrderPayload socket packet).1.ack
        then { (acceptInOrderPayload socket packet).1 with
          ack := packet.seq + .ofNat 32 packet.payload.length + 1, state := finState }
        else (acceptInOrderPayload socket packet).1
      else (acceptInOrderPayload socket packet).1 := by
    rw [handleEstablishedLike, acceptInOrderPayload]
    by_cases hpay : packet.payload = []
    · rw [if_neg (not_not.2 hpay), if_pos hpay]
      by_cases hfin : packet.has tcpFlagFin <;> simp only [hfin] <;> rfl
    · rw [if_pos hpay, if_neg hpay]
      by_cases hfin : packet.has tcpFlagFin <;> simp only [hfin] <;> rfl
  rw [haccept, takeIn]
  generalize (acceptInOrderPayload socket packet).1 = taken
  by_cases hfin : packet.has tcpFlagFin
  · by_cases hseq : packet.seq + .ofNat 32 packet.payload.length = taken.ack
    · simp only [consumeRemoteFin, if_pos hfin, if_pos hseq]
      rfl
    · simp only [consumeRemoteFin, if_pos hfin, if_neg hseq]
      rfl
  · simp only [consumeRemoteFin, if_neg hfin]
    rfl

theorem handleFinWait1_fst : (handleFinWait1 now socket packet).1 =
    if (takeIn socket packet).2 then
      if finAcknowledged socket packet then enterTimeWait now (takeIn socket packet).1
      else { (takeIn socket packet).1 with state := .closing }
    else if finAcknowledged socket packet then
      { (takeIn socket packet).1 with state := .finWait2 }
    else (takeIn socket packet).1 := rfl

theorem handleFinWait2_fst : (handleFinWait2 now socket packet).1 =
    if (takeIn socket packet).2 then enterTimeWait now (takeIn socket packet).1
    else (takeIn socket packet).1 := rfl

/-- The fields that a segment cannot change. -/
structure SameConnection (s s' : TcpSocket) : Prop where
  localPort : s'.localPort = s.localPort
  remotePort : s'.remotePort = s.remotePort
  remoteIp : s'.remoteIp = s.remoteIp
  window : s'.window = s.window

theorem SameConnection.refl (s : TcpSocket) : SameConnection s s := ⟨rfl, rfl, rfl, rfl⟩

theorem SameConnection.trans (h : SameConnection s t) (h' : SameConnection t u) :
    SameConnection s u :=
  ⟨h'.localPort.trans h.localPort, h'.remotePort.trans h.remotePort,
    h'.remoteIp.trans h.remoteIp, h'.window.trans h.window⟩

theorem acceptInOrderPayload_cases (socket : TcpSocket) (packet : TcpPacket) :
    (packet.payload = [] ∨ packet.seq ≠ socket.ack ∨ socket.recvWindowAvailable = 0) ∧
        (acceptInOrderPayload socket packet).1 = socket ∨
      packet.seq = socket.ack ∧ (acceptInOrderPayload socket packet).1 = { socket with
            ack := packet.seq + .ofNat 32 (min packet.payload.length socket.recvWindowAvailable)
            rxBuffer := socket.rxBuffer ++
              packet.payload.take (min packet.payload.length socket.recvWindowAvailable) } := by
  by_cases hpay : packet.payload = []
  · exact .inl ⟨.inl hpay, by rw [acceptInOrderPayload, if_pos hpay]⟩
  have hlen := length_pos_iff.2 hpay
  rw [acceptInOrderPayload, if_neg hpay]
  by_cases hin : packet.seq = socket.ack ∧ 0 < socket.recvWindowAvailable
  · exact .inr ⟨hin.1, if_pos ⟨hin.1, Nat.lt_min.2 ⟨hlen, hin.2⟩⟩⟩
  refine .inl ⟨?_, if_neg fun h => hin ⟨h.1, (Nat.lt_min.1 h.2).2⟩⟩
  rcases not_and_or.1 hin with h | h
  · exact .inr (.inl h)
  · exact .inr (.inr (Nat.eq_zero_of_not_pos h))

theorem consumeRemoteFin_cases (socket : TcpSocket) (packet : TcpPacket) :
    consumeRemoteFin socket packet = (socket, false) ∨
      packet.has tcpFlagFin ∧ packet.seq + .ofNat 32 packet.payload.length = socket.ack ∧
        consumeRemoteFin socket packet =
          ({ socket with ack := packet.seq + .ofNat 32 packet.payload.length + 1 }, true) := by
  by_cases hfin : packet.has tcpFlagFin
  · rw [consumeRemoteFin, if_pos hfin]
    by_cases hseq : packet.seq + .ofNat 32 packet.payload.length = socket.ack
    · exact .inr ⟨hfin, hseq, if_pos hseq⟩
    · exact .inl (if_neg hseq)
  · exact .inl (if_neg hfin)

theorem acceptInOrderPayload_frame (socket : TcpSocket) (packet : TcpPacket) :
    SameConnection socket (acceptInOrderPayload socket packet).1 ∧
      (acceptInOrderPayload socket packet).1.state = socket.state := by
  rcases acceptInOrderPayload_cases socket packet with ⟨-, h⟩ | ⟨-, h⟩ <;> rw [h] <;>
    exact ⟨⟨rfl, rfl, rfl, rfl⟩, rfl⟩

theorem consumeRemoteFin_frame (socket : TcpSocket) (packet : TcpPacket) :
    SameConnection socket (consumeRemoteFin socket packet).1 ∧
      (consumeRemoteFin socket packet).1.state = socket.state := by
  rcases consumeRemoteFin_cases socket packet with h | ⟨-, -, h⟩ <;> rw [h] <;>
    exact ⟨⟨rfl, rfl, rfl, rfl⟩, rfl⟩

theorem takeIn_frame (socket : TcpSocket) (packet : TcpPacket) :
    SameConnection socket (takeIn socket packet).1 ∧
      (takeIn socket packet).1.state = socket.state := by
  obtain ⟨h, hstate⟩ := acceptInOrderPayload_frame socket packet
  obtain ⟨h', hstate'⟩ := consumeRemoteFin_frame (acceptInOrderPayload socket packet).1 packet
  exact ⟨h.trans h', hstate'.trans hstate⟩

end

/-- The segment is for the connection of `socket`, is no reset, and carries a piece of `stream`
numbered from `a`, with the end of the stream only where it is. -/
structure Carries (socket : TcpSocket) (a : BitVec 32) (stream : Bytes) (packet : TcpPacket) :
    Prop where
  mine : socket.matchesPacket packet
  noReset : packet.has tcpFlagRst = false
  piece : ∃ pos, pos + packet.payload.length ≤ stream.length ∧ packet.seq = advance a pos ∧
    packet.payload <+: stream.drop pos ∧
    (packet.has tcpFlagFin → pos + packet.payload.length = stream.length)

/-- Of the stream numbered from `a` the reader was given `got`, and the rest of what the socket
acknowledged waits in its buffer; `fin` tells whether the end was taken in. -/
structure Received (a : BitVec 32) (stream got : Bytes) (fin : Bool) (socket : TcpSocket) :
    Prop where
  isPrefix : got ++ socket.rxBuffer <+: stream
  ack : socket.ack = advance a ((got ++ socket.rxBuffer).length + fin.toNat)
  all : fin = true → got ++ socket.rxBuffer = stream
  fits : socket.rxBuffer.length ≤ socket.window.toNat

section
variable (h : Received a stream got fin socket) (hc : Carries conn a stream packet)
  (hlen : stream.length < 2 ^ 31)
include h

/-- The end of the stream has not been taken in if a byte of the stream, or its end, follows. -/
theorem Received.fin_eq (hpos : pos ≤ stream.length)
    (hcount : pos = (got ++ socket.rxBuffer).length + fin.toNat) : fin = false := by
  by_contra hfin
  have hall := congrArg List.length (h.all (by simpa using hfin))
  rw [not_eq_false] at hfin
  rw [hfin, toNat_true] at hcount
  omega

include hc hlen

theorem Received.accept : Received a stream got fin (acceptInOrderPayload socket packet).1 := by
  obtain ⟨pos, hpos, hseq, hpiece, -⟩ := hc.piece
  rcases acceptInOrderPayload_cases socket packet with ⟨-, heq⟩ | ⟨hack, heq⟩ <;> rw [heq]
  · exact h
  have htaken := h.isPrefix.length_le
  have hone : fin.toNat ≤ 1 := fin.toNat_le
  rw [hseq, h.ack] at hack
  have hcount := advance_injective (by omega) (by omega) hack
  obtain rfl := h.fin_eq (by omega) hcount
  rw [toNat_false, add_zero] at hcount
  have hstream : got ++ socket.rxBuffer = stream.take pos := by
    rw [hcount]
    exact prefix_iff_eq_take.1 h.isPrefix
  set accepted := min packet.payload.length socket.recvWindowAvailable with haccepted
  refine ⟨?_, ?_, by simp, ?_⟩
  · rw [← append_assoc, hstream]
    have hp := ( take_prefix accepted packet.payload).trans hpiece
    simpa using (prefix_append_right_inj (stream.take pos)).2 hp
  · change packet.seq + BitVec.ofNat 32 accepted = advance a
      ((got ++ (socket.rxBuffer ++ packet.payload.take accepted)).length + 0)
    rw [← append_assoc, length_append, ← hcount, length_take,
      min_eq_left (min_le_left _ _), add_zero, ← advance_advance, ← hseq, advance]
  · change (socket.rxBuffer ++ packet.payload.take accepted).length ≤ socket.window.toNat
    have hfits := h.fits
    rw [length_append, length_take, haccepted, TcpSocket.recvWindowAvailable]
    omega

theorem Received.consume : Received a stream got (fin || (consumeRemoteFin socket packet).2)
    (consumeRemoteFin socket packet).1 := by
  obtain ⟨pos, hpos, hseq, -, hend⟩ := hc.piece
  rcases consumeRemoteFin_cases socket packet with heq | ⟨hflag, hin, heq⟩ <;> rw [heq]
  · simpa using h
  have htaken := h.isPrefix.length_le
  have hone : fin.toNat ≤ 1 := fin.toNat_le
  have hstop := hend hflag
  have hnum : packet.seq + BitVec.ofNat 32 packet.payload.length = advance a stream.length := by
    rw [hseq, ← hstop, ← advance_advance]
    rfl
  have hcount := hin
  rw [hnum, h.ack] at hcount
  have hcount := advance_injective (by omega) (by omega) hcount
  obtain rfl := h.fin_eq le_rfl hcount
  have hall : got ++ socket.rxBuffer = stream := h.isPrefix.eq_of_length hcount.symm
  refine ⟨h.isPrefix, ?_, fun _ => hall, h.fits⟩
  rw [hnum, hall, ← advance_advance]
  rfl

theorem Received.takeIn :
    Received a stream got (fin || (takeIn socket packet).2) (Net.takeIn socket packet).1 :=
  (h.accept hc hlen).consume hc hlen

end

/-- Whether a connection in this state has taken in the end of the stream. -/
def TcpState.finTaken : TcpState → Option Bool
  | .established | .finWait1 | .finWait2 => some false
  | .closeWait | .closing | .lastAck | .timeWait => some true
  | .closed | .listen | .synSent => none

/-- The socket as long as its connection lasts, and closed afterwards. -/
structure Delivered (a : BitVec 32) (stream got : Bytes) (fin : Bool) (socket : TcpSocket) :
    Prop extends Received a stream got fin socket where
  taken : ∀ b, socket.state.finTaken = some b → fin = b
  connected : socket.state ≠ .listen ∧ socket.state ≠ .synSent

section
variable {socket socket' conn : TcpSocket}

section
variable (h : Received a stream got fin socket)
include h

section
variable (hack : socket'.ack = socket.ack)
include hack

/-- Nothing that was received depends on the other fields. -/
theorem Received.of_eq
    (hrx : socket'.rxBuffer = socket.rxBuffer) (hw : socket'.window = socket.window) :
    Received a stream got fin socket' := by
  obtain ⟨hp, ha, hall, hf⟩ := h
  exact ⟨hrx ▸ hp, by rw [hack, ha, hrx], hrx ▸ hall, by rw [hrx, hw]; exact hf⟩

omit hack in
theorem Received.delivered
    (hs : socket.state.finTaken = some fin) : Delivered a stream got fin socket := by
  refine ⟨h, fun b hb => Option.some.inj (hs.symm.trans hb), fun hl => ?_, fun hl => ?_⟩ <;>
    rw [hl] at hs <;> cases hs

theorem Received.enter
    (hrx : socket'.rxBuffer = socket.rxBuffer) (hw : socket'.window = socket.window)
    (hs : socket'.state.finTaken = some fin) : Delivered a stream got fin socket' :=
  (h.of_eq hack hrx hw).delivered hs

theorem Received.leave
    (hrx : socket'.rxBuffer = socket.rxBuffer) (hw : socket'.window = socket.window)
    (hs : socket'.state = .closed) : Delivered a stream got fin socket' := by
  refine ⟨h.of_eq hack hrx hw, fun b hb => ?_, by rw [hs]; decide⟩
  rw [hs] at hb
  cases hb

end

end

variable (h : Delivered a stream got fin socket) (hc : Carries conn a stream packet)
  (hlen : stream.length < 2 ^ 31)
include h hc hlen

theorem Delivered.established (hs : socket.state = .established ∨ socket.state = .closeWait) :
    ∃ fin', Delivered a stream got fin' (handleEstablishedLike socket packet .closeWait).1 := by
  have hr := h.toReceived.takeIn hc hlen
  rw [handleEstablishedLike_fst]
  cases hfin : (takeIn socket packet).2 with
  | true =>
    rw [hfin, Bool.or_true] at hr
    exact ⟨true, hr.enter rfl rfl rfl rfl⟩
  | false =>
    rw [hfin, Bool.or_false] at hr
    refine ⟨fin, hr.delivered ?_⟩
    rw [(takeIn_frame socket packet).2]
    rcases hs with hs | hs <;> rw [hs, h.taken _ (by rw [hs]; rfl)] <;> rfl

theorem Delivered.finWait1 (hs : socket.state = .finWait1) :
    ∃ fin', Delivered a stream got fin' (handleFinWait1 now socket packet).1 := by
  have hr := h.toReceived.takeIn hc hlen
  have hstart : fin = false := h.taken _ (by rw [hs]; rfl)
  rw [handleFinWait1_fst]
  cases hfin : (takeIn socket packet).2 with
  | true =>
    rw [if_pos rfl]
    rw [hfin, Bool.or_true] at hr
    split_ifs
    all_goals exact ⟨true, hr.enter rfl rfl rfl rfl⟩
  | false =>
    rw [if_neg (by simp)]
    rw [hfin, Bool.or_false, hstart] at hr
    split_ifs
    · exact ⟨false, hr.enter rfl rfl rfl rfl⟩
    · exact ⟨false, hr.delivered (by rw [(takeIn_frame socket packet).2, hs]; rfl)⟩

theorem Delivered.finWait2 (hs : socket.state = .finWait2) :
    ∃ fin', Delivered a stream got fin' (handleFinWait2 now socket packet).1 := by
  have hr := h.toReceived.takeIn hc hlen
  have hstart : fin = false := h.taken _ (by rw [hs]; rfl)
  rw [handleFinWait2_fst]
  cases hfin : (takeIn socket packet).2 with
  | true =>
    rw [hfin, Bool.or_true] at hr
    exact ⟨true, hr.enter rfl rfl rfl rfl⟩
  | false =>
    rw [hfin, Bool.or_false, hstart] at hr
    exact ⟨false, hr.delivered (by rw [(takeIn_frame socket packet).2, hs]; rfl)⟩

/-- One segment, in every state. -/
theorem Delivered.react (now : ℕ) :
    ∃ fin', Delivered a stream got fin' (socket.react now packet).1 := by
  have hsame : ∀ b, socket.state.finTaken = some b → fin = b := h.taken
  rw [TcpSocket.react]
  cases hs : socket.state
  case listen => exact absurd hs h.connected.1
  case synSent => exact absurd hs h.connected.2
  case established => exact h.established hc hlen (.inl hs)
  case closeWait => exact h.established hc hlen (.inr hs)
  case finWait1 => exact h.finWait1 hc hlen hs
  case finWait2 => exact h.finWait2 hc hlen hs
  case closed => exact ⟨fin, h⟩
  case closing =>
    obtain rfl : fin = true := hsame _ (by rw [hs]; rfl)
    refine ⟨true, ?_⟩
    change Delivered a stream got true
      (if finAcknowledged socket packet then enterTimeWait now socket else socket)
    split_ifs
    · exact h.toReceived.enter rfl rfl rfl rfl
    · exact h
  case lastAck =>
    refine ⟨fin, ?_⟩
    change Delivered a stream got fin (if finAcknowledged socket packet then
      { socket with state := .closed, timeWaitDeadlineTick := none } else socket)
    split_ifs
    · exact h.toReceived.leave rfl rfl rfl rfl
    · exact h
  case timeWait =>
    obtain rfl : fin = true := hsame _ (by rw [hs]; rfl)
    refine ⟨true, ?_⟩
    simp only
    split_ifs
    · exact h.toReceived.enter rfl rfl rfl rfl
    · exact h

end

section
theorem react_frame : SameConnection socket (socket.react now packet).1 := by
  have htake := (takeIn_frame socket packet).1
  have hlike : ∀ finState,
      SameConnection socket (handleEstablishedLike socket packet finState).1 := by
    intro finState
    rw [handleEstablishedLike_fst]
    split_ifs
    · exact htake.trans ⟨rfl, rfl, rfl, rfl⟩
    · exact htake
  rw [TcpSocket.react]
  cases socket.state
  case established => exact hlike _
  case closeWait => exact hlike _
  case finWait1 =>
    rw [handleFinWait1_fst]
    split_ifs <;> first | exact htake | exact htake.trans ⟨rfl, rfl, rfl, rfl⟩
  case finWait2 =>
    rw [handleFinWait2_fst]
    split_ifs <;> first | exact htake | exact htake.trans ⟨rfl, rfl, rfl, rfl⟩
  case closing =>
    change SameConnection socket
      (if finAcknowledged socket packet then enterTimeWait now socket else socket)
    split_ifs <;> exact ⟨rfl, rfl, rfl, rfl⟩
  case lastAck =>
    split_ifs <;> exact ⟨rfl, rfl, rfl, rfl⟩
  case closed => exact .refl socket
  all_goals
    simp only
    split_ifs <;> exact ⟨rfl, rfl, rfl, rfl⟩

end

/-- The connection is as it was, or was closed. -/
structure Quiet (s s' : TcpSocket) : Prop extends SameConnection s s' where
  ack : s'.ack = s.ack
  rxBuffer : s'.rxBuffer = s.rxBuffer
  state : s'.state = s.state ∨ s'.state = .closed

theorem Quiet.refl (s : TcpSocket) : Quiet s s := ⟨.refl s, rfl, rfl, .inl rfl⟩

theorem Quiet.trans (h : Quiet s t) (h' : Quiet t u) : Quiet s u := by
  refine ⟨h.toSameConnection.trans h'.toSameConnection, h'.ack.trans h.ack,
    h'.rxBuffer.trans h.rxBuffer, ?_⟩
  rcases h'.state with hu | hu
  · rw [hu]
    exact h.state
  · exact .inr hu

theorem Delivered.quiet
    (h : Delivered a stream got fin s) (hq : Quiet s s') : Delivered a stream got fin s' := by
  rcases hq.state with hs | hs
  · refine ⟨h.toReceived.of_eq hq.ack hq.rxBuffer hq.window, ?_, ?_⟩
    · rw [hs]
      exact h.taken
    · rw [hs]
      exact h.connected
  · exact h.toReceived.leave hq.ack hq.rxBuffer hq.window hs

namespace TcpStack

/-- Every socket is as it was, or was closed. -/
def QuietStep (st st' : TcpStack) : Prop :=
  ∀ (i : ℕ) (s : TcpSocket), st.sockets[i]? = some s →
    ∃ s', st'.sockets[i]? = some s' ∧ Quiet s s'

theorem QuietStep.trans (h : QuietStep st st') (h' : QuietStep st' st'') : QuietStep st st'' := by
  intro i s hs
  obtain ⟨s', hs', hq⟩ := h i s hs
  obtain ⟨s'', hs'', hq'⟩ := h' i s' hs'
  exact ⟨s'', hs'', hq.trans hq'⟩

variable {st : TcpStack}

theorem quietStep_expireTimeWait (now : ℕ) : QuietStep st (st.expireTimeWait now) := by
  intro i s hs
  refine ⟨_, by rw [expireTimeWait, getElem?_map, hs]; rfl, ?_⟩
  dsimp only
  split_ifs
  · exact ⟨⟨rfl, rfl, rfl, rfl⟩, rfl, rfl, .inr rfl⟩
  · exact .refl s

theorem getElem?_withSocket (hs : st.sockets[i]? = some s) :
    (st.withSocket j x).sockets[i]? = some (if j = i then x else s) := by
  rw [withSocket, getElem?_set]
  split_ifs with hij hlen
  · rfl
  · exact absurd (hij ▸ lt_of_getElem?_eq_some hs) hlen
  · exact hs

theorem quietStep_failSocket (ip : Ipv4Addr) (remotePort localPort : UInt16) (error : TcpError) :
    QuietStep st (st.failSocket ip remotePort localPort error) := by
  intro i s hs
  rw [failSocket]
  split
  · exact ⟨s, hs, .refl s⟩
  next socket j hpos =>
  refine ⟨_, getElem?_withSocket hs, ?_⟩
  obtain ⟨hj, -⟩ := position_eq_some hpos
  split_ifs with hji
  · subst hji
    rw [hs] at hj
    cases hj
    exact ⟨⟨rfl, rfl, rfl, rfl⟩, rfl, rfl, .inr rfl⟩
  · exact .refl s

theorem quietStep_pollRetransmit (now : ℕ) : QuietStep st (st.pollRetransmit now).2 := by
  refine (quietStep_expireTimeWait now).trans ?_
  generalize hexp : st.expireTimeWait now = st₁
  rw [pollRetransmit, hexp]
  split_ifs
  · exact fun i s hs => ⟨s, hs, .refl s⟩
  -- The sockets of all connections that gave up, one after the other.
  generalize List.map _ (List.filter (givesUp now) _) = failed
  refine List.foldlRecOn (motive := fun st' => QuietStep st₁ st') failed _
    (fun i s hs => ⟨s, hs, .refl s⟩) ?_
  intro st' h entry _
  exact h.trans (quietStep_failSocket _ _ _ _)

end TcpStack

/-- What can happen to the connection of a socket. -/
inductive StreamCall
  | segment (packet : TcpPacket)
  | recv (len : ℕ)
  | send (data : Bytes)
  | close
  | poll

/-- A call at tick `now` with the bytes it gives to the reader of socket `i`. -/
def StreamCall.step (i now : ℕ) (st : TcpStack) : StreamCall → TcpStack × Bytes
  | .segment packet => ((st.handlePacket now packet).2, [])
  | .recv len => ((st.recv i len).2, (st.recv i len).1.toOption.getD [])
  | .send data => ((st.send now i data).2, [])
  | .close => ((st.close now i).2, [])
  | .poll => ((st.pollRetransmit now).2, [])

def deliver (i : ℕ) : List (ℕ × StreamCall) → TcpStack → TcpStack × Bytes
  | [], st => (st, [])
  | (now, call) :: rest, st =>
    ((deliver i rest (call.step i now st).1).1,
      (call.step i now st).2 ++ (deliver i rest (call.step i now st).1).2)

/-- Segments carry pieces of the stream; nothing is asked of the other calls. -/
def StreamCall.Of (conn : TcpSocket) (a : BitVec 32) (stream : Bytes) : StreamCall → Prop
  | .segment packet => Carries conn a stream packet
  | _ => True

/-- Socket `i` of the stack is the connection `conn` and received a prefix of the stream. -/
def TcpStack.Delivers (st : TcpStack) (i : ℕ) (conn : TcpSocket) (a : BitVec 32)
    (stream got : Bytes) : Prop :=
  ∃ s fin, st.sockets[i]? = some s ∧ SameConnection conn s ∧ Delivered a stream got fin s

section
variable {st : TcpStack} {i now : ℕ} {conn s s' : TcpSocket} {a : BitVec 32} {stream got : Bytes}

theorem SameConnection.matchesPacket (h : SameConnection s s') (packet : TcpPacket) :
    s'.matchesPacket packet = s.matchesPacket packet := by
  rw [TcpSocket.matchesPacket, h.localPort, h.remotePort, h.remoteIp, TcpSocket.matchesPacket]

theorem delivers_segment (h : st.Delivers i conn a stream got)
    (hc : Carries conn a stream packet) (hlen : stream.length < 2 ^ 31) :
    (st.handlePacket now packet).2.Delivers i conn a stream got := by
  obtain ⟨s, fin, hs, hsame, hd⟩ := h
  rw [handlePacket]
  cases hpos : position (·.matchesPacket packet) st.sockets with
  | none =>
    have hmine := position_eq_none hpos s (mem_of_getElem? hs)
    rw [hsame.matchesPacket, hc.mine] at hmine
    cases hmine
  | some found =>
    obtain ⟨x, j⟩ := found
    obtain ⟨hj, -⟩ := position_eq_some hpos
    have hsock : (st.handleSocketPacket now j x packet).2.sockets =
        st.sockets.set j (x.react now packet).1 := by
      rw [handleSocketPacket, if_neg (by simp [hc.noReset])]
      split_ifs <;> rfl
    by_cases hij : j = i
    · subst hij
      rw [hs] at hj
      cases hj
      obtain ⟨fin', hd'⟩ := hd.react hc hlen now
      refine ⟨_, fin', ?_, hsame.trans react_frame, hd'⟩
      rw [hsock, getElem?_set_self (lt_of_getElem?_eq_some hs)]
    · refine ⟨s, fin, ?_, hsame, hd⟩
      rw [hsock, getElem?_set_ne hij, hs]

theorem delivers_recv (h : st.Delivers i conn a stream got) (len : ℕ) :
    (st.recv i len).2.Delivers i conn a stream (got ++ (st.recv i len).1.toOption.getD []) := by
  obtain ⟨s, fin, hs, hsame, hd⟩ := h
  have hstay : st.Delivers i conn a stream (got ++ []) :=
    ⟨s, fin, hs, hsame, by rwa [append_nil]⟩
  rw [recv]
  simp only [hs]
  cases s.error with
  | some e => exact hstay
  | none =>
    split_ifs with hrx
    · cases s.state <;> exact hstay
    refine ⟨_, fin, getElem?_withSocket hs, ?_, ?_⟩ <;> rw [if_pos rfl]
    · exact hsame.trans ⟨rfl, rfl, rfl, rfl⟩
    have hjoin : got ++ s.rxBuffer.take len ++ s.rxBuffer.drop len = got ++ s.rxBuffer := by
      rw [append_assoc, take_append_drop]
    refine ⟨⟨?_, ?_, ?_, ?_⟩, hd.taken, hd.connected⟩
    · change got ++ s.rxBuffer.take len ++ s.rxBuffer.drop len <+: stream
      rw [hjoin]
      exact hd.isPrefix
    · change s.ack = advance a
        ((got ++ s.rxBuffer.take len ++ s.rxBuffer.drop len).length + fin.toNat)
      rw [hjoin]
      exact hd.ack
    · intro hfin
      change got ++ s.rxBuffer.take len ++ s.rxBuffer.drop len = stream
      rw [hjoin]
      exact hd.all hfin
    · rw [length_drop]
      exact (sub_le _ _).trans hd.fits

/-- Sending changes what is sent, and the state as the caller says. -/
theorem delivers_transmit (hs : st.sockets[i]? = some s) (hsame : SameConnection conn s')
    (hd : ∃ fin, Delivered a stream got fin s') (flags : UInt8) (payload : Bytes) :
    (st.transmit now i s' flags payload).Delivers i conn a stream got := by
  obtain ⟨fin, hd⟩ := hd
  refine ⟨_, fin, (getElem?_withSocket hs).trans (congrArg some (if_pos rfl)), ?_, ?_⟩
  · exact hsame.trans ⟨rfl, rfl, rfl, rfl⟩
  · exact hd.quiet ⟨⟨rfl, rfl, rfl, rfl⟩, rfl, rfl, .inl rfl⟩

section
variable (h : st.Delivers i conn a stream got)
include h

theorem delivers_send (data : Bytes) : (st.send now i data).2.Delivers i conn a stream got := by
  obtain ⟨s, fin, hs, hsame, hd⟩ := id h
  rw [send]
  simp only [hs]
  cases s.error with
  | some e => exact h
  | none =>
    split_ifs
    · exact h
    · exact delivers_transmit hs hsame ⟨fin, hd⟩ _ _

theorem delivers_close : (st.close now i).2.Delivers i conn a stream got := by
  obtain ⟨s, fin, hs, hsame, hd⟩ := id h
  rw [close]
  simp only [hs]
  have hput : (st.withSocket i { s with state := .closed }).Delivers i conn a stream got :=
    ⟨_, fin, (getElem?_withSocket hs).trans (congrArg some (if_pos rfl)),
      hsame.trans ⟨rfl, rfl, rfl, rfl⟩, hd.toReceived.leave rfl rfl rfl rfl⟩
  cases hstate : s.state
  case established =>
    obtain rfl : fin = false := hd.taken _ (by rw [hstate]; rfl)
    refine delivers_transmit hs ?_ ?_ _ _
    · exact hsame.trans ⟨rfl, rfl, rfl, rfl⟩
    · exact ⟨_, hd.toReceived.enter rfl rfl rfl rfl⟩
  case closeWait =>
    obtain rfl : fin = true := hd.taken _ (by rw [hstate]; rfl)
    refine delivers_transmit hs ?_ ?_ _ _
    · exact hsame.trans ⟨rfl, rfl, rfl, rfl⟩
    · exact ⟨_, hd.toReceived.enter rfl rfl rfl rfl⟩
  case finWait1 => exact h
  case finWait2 => exact h
  case lastAck => exact h
  case timeWait => exact h
  all_goals exact hput

theorem delivers_poll : (st.pollRetransmit now).2.Delivers i conn a stream got := by
  obtain ⟨s, fin, hs, hsame, hd⟩ := h
  obtain ⟨s', hs', hq⟩ := quietStep_pollRetransmit now i s hs
  exact ⟨s', fin, hs', hsame.trans hq.toSameConnection, hd.quiet hq⟩

/-- One call. -/
theorem delivers_step {call : StreamCall}
    (hc : call.Of conn a stream) (hlen : stream.length < 2 ^ 31) (now : ℕ) :
    (call.step i now st).1.Delivers i conn a stream (got ++ (call.step i now st).2) := by
  cases call with
  | segment packet =>
    rw [StreamCall.step, append_nil]
    exact delivers_segment h hc hlen
  | recv len => exact delivers_recv h len
  | send data =>
    rw [StreamCall.step, append_nil]
    exact delivers_send h data
  | close =>
    rw [StreamCall.step, append_nil]
    exact delivers_close h
  | poll =>
    rw [StreamCall.step, append_nil]
    exact delivers_poll h

/-- A whole run. -/
theorem delivers_run (hc : ∀ c ∈ calls, c.2.Of conn a stream) (hlen : stream.length < 2 ^ 31) :
    (deliver i calls st).1.Delivers i conn a stream (got ++ (deliver i calls st).2) := by
  induction calls generalizing st got with
  | nil =>
    rw [deliver, append_nil]
    exact h
  | cons c rest ih =>
    obtain ⟨now, call⟩ := c
    have hfirst := delivers_step h (hc (now, call) mem_cons_self) hlen now
    have hrest := ih hfirst (forall_mem_cons.1 hc).2
    rw [deliver, ← append_assoc]
    exact hrest

end

/-- What the receiver shows of the stream numbered from `a`: the bytes given to the reader and
those in the buffer are a prefix of it as long as what was acknowledged, less one once the end
was taken in; the buffer is within the window; and the end comes after all of the stream. -/
def ShowsPrefix (a : BitVec 32) (stream got : Bytes) (socket : TcpSocket) : Prop :=
  ∃ fin : Bool, got ++ socket.rxBuffer <+: stream ∧
    (got ++ socket.rxBuffer).length + fin.toNat = (socket.ack - a).toNat ∧
    socket.rxBuffer.length ≤ socket.window.toNat ∧
    (fin = true → got ++ socket.rxBuffer = stream) ∧
    ∀ b, socket.state.finTaken = some b → fin = b

theorem Delivered.showsPrefix (h : Delivered a stream got fin s) (hlen : stream.length < 2 ^ 31) :
    ShowsPrefix a stream got s := by
  refine ⟨fin, h.isPrefix, ?_, h.fits, h.all, h.taken⟩
  have hle := h.isPrefix.length_le
  have hone : fin.toNat ≤ 1 := fin.toNat_le
  rw [h.ack, toNat_advance_sub (by omega)]

/-- A connection that was established shows a prefix of the peer's stream in every run, exactly
if its receive buffer was empty when it was established. -/
theorem shows_prefix_iff (hs : st.sockets[i]? = some s) (hest : s.state = .established) :
    (∀ stream : Bytes, stream.length < 2 ^ 31 → ∀ calls : List (ℕ × StreamCall),
        (∀ c ∈ calls, c.2.Of s s.ack stream) → ∃ s', (deliver i calls st).1.sockets[i]? = some s' ∧
          ShowsPrefix s.ack stream (deliver i calls st).2 s') ↔ s.rxBuffer = [] := by
  constructor
  · intro h
    obtain ⟨s', hs', fin, hp, -⟩ := h [] (by simp) [] (by simp)
    rw [deliver, hs] at hs'
    cases hs'
    exact prefix_nil.1 hp
  intro hrx stream hlen calls hc
  have hstart : st.Delivers i s s.ack stream [] := by
    refine ⟨s, false, hs, .refl s, ?_⟩
    refine Received.delivered ⟨?_, ?_, by simp, ?_⟩ (by rw [hest]; rfl) <;> simp [hrx]
  obtain ⟨s', fin, hs', -, hd⟩ := delivers_run hstart hc hlen
  exact ⟨s', hs', hd.showsPrefix hlen⟩

end

/-- A segment from port 80 of 10.0.2.2 to the first socket. -/
def fromPeer (seq ack : BitVec 32) (flags : UInt8) (payload : Bytes) : TcpPacket :=
  ⟨⟨10, 0, 2, 2⟩, ⟨10, 0, 2, 15⟩, 80, 49152, seq, ack, flags, payload⟩

/-- The first socket, connected. -/
def connectedOnce : TcpStack :=
  let st := (TcpStack.new.open.2.connect 0 0 ⟨10, 0, 2, 2⟩ 80).2
  (st.handlePacket 0 (fromPeer 1000 2 (tcpFlagSyn ||| tcpFlagAck) [])).2

def connectedSocket : TcpSocket :=
  { TcpSocket.new 49152 with
    remoteIp := ⟨10, 0, 2, 2⟩, remotePort := 80, state := .established, seq := 2, ack := 1001 }

theorem connectedOnce_socket : connectedOnce.sockets[0]? = some connectedSocket := by decide

/-- Two bytes arrive, the peer resets the connection, and the socket is connected again. -/
def connectedAgain : TcpStack :=
  let st := (connectedOnce.handlePacket 0 (fromPeer 1001 2 tcpFlagAck [120, 121])).2
  let st := (st.handlePacket 0 (fromPeer 1003 2 tcpFlagRst [])).2
  let st := (st.connect 0 0 ⟨10, 0, 2, 2⟩ 80).2
  (st.handlePacket 0 (fromPeer 5000 3 (tcpFlagSyn ||| tcpFlagAck) [])).2

theorem shows_prefix_of_connectedOnce : ∃ s, connectedOnce.sockets[0]? = some s ∧
    s.state = .established ∧ ∀ stream : Bytes, stream.length < 2 ^ 31 →
      ∀ calls : List (ℕ × StreamCall), (∀ c ∈ calls, c.2.Of s s.ack stream) →
      ∃ s', (deliver 0 calls connectedOnce).1.sockets[0]? = some s' ∧
        ShowsPrefix s.ack stream (deliver 0 calls connectedOnce).2 s' := by
  have hs := connectedOnce_socket
  exact ⟨_, hs, rfl, (shows_prefix_iff hs rfl).2 rfl⟩

/-- The reader of the second connection is given the bytes of the first. -/
theorem connectedAgain_stale : ∃ s, connectedAgain.sockets[0]? = some s ∧
    s.state = .established ∧ ∃ calls : List (ℕ × StreamCall),
      (∀ c ∈ calls, c.2.Of s s.ack [7]) ∧ (deliver 0 calls connectedAgain).2 = [120, 121] ∧
      ∀ s', (deliver 0 calls connectedAgain).1.sockets[0]? = some s' →
        ¬ ShowsPrefix s.ack [7] (deliver 0 calls connectedAgain).2 s' := by
  have hs : connectedAgain.sockets[0]? =
      some { connectedSocket with seq := 3, ack := 5001, rxBuffer := [120, 121] } := by decide
  have hgot : (deliver 0 [(0, .recv 2)] connectedAgain).2 = [120, 121] := by decide
  refine ⟨_, hs, rfl, [(0, .recv 2)], by simp [StreamCall.Of], hgot, ?_⟩
  rintro s' - ⟨fin, hp, -⟩
  rw [hgot] at hp
  have := hp.length_le
  simp only [length_append, length_cons, length_nil] at this
  omega

end Ristux.Net
