import Ristux.Net.Stream

-- What a single segment may do to the connection it is for: how much of a payload is taken in
-- when it overlaps what was acknowledged before, which waiting segments an acknowledgement
-- settles, and which resets and handshakes are obeyed.

namespace Ristux.Net
open List TcpStack Option TcpSocket

open Lib.Serial

variable {st : TcpStack} {packet : TcpPacket} {slot : Slot} {socket : TcpSocket} {now : ℕ}

/-- The states in which the handlers for data are reached and data is still expected. -/
def TcpState.takesData : TcpState → Bool
  | .established | .finWait1 | .finWait2 => true
  | _ => false

/-- What a handler changes after the data was taken in is the state. -/
theorem next_takeIn (now : ℕ) (packet : TcpPacket) (slot : Slot) (hs : socket.state.takesData) :
    (socket.next now packet slot).rxBuffer = (takeIn socket packet).1.rxBuffer ∧
      (socket.next now packet slot).ack = (takeIn socket packet).1.ack := by
  have hall : ∀ r : TcpSocket, (r = (handleEstablishedLike socket packet .closeWait).1 ∨
      r = (handleFinWait1 now socket packet).1 ∨ r = (handleFinWait2 now socket packet).1) →
      r.rxBuffer = (takeIn socket packet).1.rxBuffer ∧ r.ack = (takeIn socket packet).1.ack := by
    rintro r (rfl | rfl | rfl)
    · rw [handleEstablishedLike_fst]
      split_ifs <;> exact ⟨rfl, rfl⟩
    · rw [handleFinWait1_fst]
      split_ifs <;> exact ⟨rfl, rfl⟩
    · rw [handleFinWait2_fst]
      split_ifs <;> exact ⟨rfl, rfl⟩
  apply hall
  cases slot
  all_goals
    rw [TcpSocket.next]
    first | rw [react] | rw [reactQueued]
    cases hstate : socket.state <;> rw [hstate] at hs
    case established => exact .inl rfl
    case finWait1 => exact .inr (.inl rfl)
    case finWait2 => exact .inr (.inr rfl)
    all_goals cases hs

/-- The bytes of the payload from `socket.ack` on that fit. -/
def fresh (socket : TcpSocket) (packet : TcpPacket) : Bytes :=
  (packet.payload.drop (socket.ack - packet.seq).toNat).take socket.recvWindowAvailable

/-- The connection at the slot, and it alone, has taken in the new bytes of the segment, and the
end of the stream besides where the segment has it. -/
def TakesFresh (st st' : TcpStack) (slot : Slot) (socket : TcpSocket) (packet : TcpPacket) : Prop :=
  ∃ socket' fin, st'.sockets = (st.put socket' slot).sockets ∧
    st'.acceptQueue = (st.put socket' slot).acceptQueue ∧
    socket'.rxBuffer = socket.rxBuffer ++ fresh socket packet ∧
    socket'.ack = advance socket.ack ((fresh socket packet).length + Bool.toNat fin) ∧
    (fin = true → packet.has tcpFlagFin)

theorem takeIn_of_seq_eq (hseq : packet.seq = socket.ack) (hpay : packet.payload ≠ [])
    (hfree : 0 < socket.recvWindowAvailable) :
    (takeIn socket packet).1.rxBuffer = socket.rxBuffer ++ fresh socket packet ∧
      ∃ fin, (takeIn socket packet).1.ack =
        advance socket.ack ((fresh socket packet).length + Bool.toNat fin) ∧
        (fin = true → packet.has tcpFlagFin) := by
  have hfresh : fresh socket packet = packet.payload.take socket.recvWindowAvailable := by
    rw [fresh, hseq, BitVec.sub_self, BitVec.toNat_zero, drop_zero]
  rcases acceptInOrderPayload_cases socket packet with ⟨hno, -⟩ | ⟨-, haccept⟩
  · rcases hno with h | h | h
    · exact absurd h hpay
    · exact absurd hseq h
    · omega
  have hack : (acceptInOrderPayload socket packet).1.ack =
      advance socket.ack (fresh socket packet).length := by
    rw [haccept, hfresh, length_take, Nat.min_comm, hseq]
    rfl
  have hrx : (acceptInOrderPayload socket packet).1.rxBuffer =
      socket.rxBuffer ++ fresh socket packet := by
    rw [haccept, hfresh]
    simp [Nat.min_comm]
  rw [takeIn]
  rcases consumeRemoteFin_cases (acceptInOrderPayload socket packet).1 packet with
    h | ⟨hfin, hnum, h⟩ <;> rw [h]
  · exact ⟨hrx, false, hack, by simp⟩
  refine ⟨hrx, true, ?_, fun _ => hfin⟩
  rw [hnum, hack, ← advance_advance]
  rfl

/-- A segment with new bytes for which there is room: they are taken in exactly if the segment
is no reset and starts where the last one stopped. -/
theorem takes_fresh_iff (hr : st.route packet = some slot) (hs : st.get slot = some socket)
    (hstate : socket.state.takesData) (hfree : 0 < socket.recvWindowAvailable)
    (hbeyond : (socket.ack - packet.seq).toNat < packet.payload.length) :
    TakesFresh st (st.handlePacket now packet).2 slot socket packet ↔
      packet.seq = socket.ack ∧ packet.has tcpFlagRst = false := by
  have hl : socket.state ≠ .listen := by
    intro h
    rw [h] at hstate
    cases hstate
  have hpay : packet.payload ≠ [] := ne_nil_of_length_pos (by omega)
  have hnew : fresh socket packet ≠ [] := by
    apply ne_nil_of_length_pos
    rw [fresh, length_take, length_drop]
    omega
  -- A connection whose buffer did not grow has not taken the new bytes in.
  have hgrows : ∀ socket' : TcpSocket, socket'.rxBuffer = socket.rxBuffer →
      socket'.rxBuffer ≠ socket.rxBuffer ++ fresh socket packet := by
    intro socket' hsame h
    rw [hsame] at h
    exact hnew (self_eq_append_right.1 h)
  rw [handlePacket_eq hr hs]
  cases hrst : packet.has tcpFlagRst with
  | true =>
    refine ⟨?_, fun h => by simp at h⟩
    rintro ⟨socket', fin, hsockets, hqueue, hrx, -⟩
    exfalso
    have hreset := connections_reset now st slot hrst hl
    cases slot with
    | socket i =>
      have hi := lt_of_getElem?_eq_some hs
      have heq := congrArg (·[i]?) (hsockets.symm.trans hreset)
      simp only [put, withSocket, getElem?_set_self hi] at heq
      exact hgrows socket' (by rw [some.inj heq]) hrx
    | queued i =>
      have hi := lt_of_getElem?_eq_some hs
      have heq := congrArg length (hqueue.symm.trans hreset)
      simp only [put, length_set, length_eraseIdx_of_lt hi] at heq
      omega
  | false =>
    obtain ⟨hsockets, hqueue⟩ := connections_handleAt now st slot hrst hl
    obtain ⟨hrx, hack⟩ := next_takeIn now packet slot hstate
    constructor
    · rintro ⟨socket', fin, hsockets', hqueue', hrx', -⟩
      refine ⟨?_, rfl⟩
      by_contra hseq
      have hsame : (acceptInOrderPayload socket packet).1 = socket := by
        rcases acceptInOrderPayload_cases socket packet with ⟨-, h⟩ | ⟨h, -⟩
        · exact h
        · exact absurd h hseq
      have hold : (takeIn socket packet).1.rxBuffer = socket.rxBuffer := by
        rw [takeIn, hsame]
        rcases consumeRemoteFin_cases socket packet with h | ⟨-, -, h⟩ <;> rw [h]
      have heq : socket' = socket.next now packet slot := by
        cases slot with
        | socket i =>
          have hi := lt_of_getElem?_eq_some hs
          have heq := congrArg (·[i]?) (hsockets'.symm.trans hsockets)
          simpa [put, withSocket, getElem?_set_self hi] using heq
        | queued i =>
          have hi := lt_of_getElem?_eq_some hs
          have heq := congrArg (·[i]?) (hqueue'.symm.trans hqueue)
          simpa [put, getElem?_set_self hi] using heq
      exact hgrows socket' (by rw [heq, hrx, hold]) hrx'
    · rintro ⟨hseq, -⟩
      obtain ⟨hrx', fin, hack', hfin⟩ := takeIn_of_seq_eq hseq hpay hfree
      exact ⟨_, fin, hsockets, hqueue, hrx.trans hrx', hack.trans hack', hfin⟩

/-- In order: both bytes are taken in. -/
theorem takes_fresh_inOrder : ∃ s, connectedOnce.sockets[0]? = some s ∧ s.ack = 1001 ∧
    TakesFresh connectedOnce
      (connectedOnce.handlePacket 0 (fromPeer 1001 2 tcpFlagAck [120, 121])).2 (.socket 0) s
      (fromPeer 1001 2 tcpFlagAck [120, 121]) := by
  have hs : connectedOnce.get (.socket 0) = some connectedSocket := connectedOnce_socket
  exact ⟨_, hs, rfl, (takes_fresh_iff (by decide) hs rfl (by decide) (by decide)).2
    ⟨rfl, by decide⟩⟩

/-- The first byte was acknowledged before: the second is not taken in. -/
theorem overlap_dropped : ∃ s, connectedOnce.sockets[0]? = some s ∧ s.state = .established ∧
    s.rxBuffer = [] ∧ s.recvWindowAvailable = 4096 ∧
    seqAtOrAfter s.ack (fromPeer 1000 2 tcpFlagAck [120, 121]).seq ∧
    fresh s (fromPeer 1000 2 tcpFlagAck [120, 121]) = [121] ∧ ¬ TakesFresh connectedOnce
      (connectedOnce.handlePacket 0 (fromPeer 1000 2 tcpFlagAck [120, 121])).2 (.socket 0) s
      (fromPeer 1000 2 tcpFlagAck [120, 121]) := by
  have hs := connectedOnce_socket
  refine ⟨_, hs, rfl, rfl, by decide, by decide, by decide, ?_⟩
  rintro ⟨socket', fin, hsockets, -, hrx, -⟩
  have hafter : (connectedOnce.handlePacket 0
      (fromPeer 1000 2 tcpFlagAck [120, 121])).2.sockets = connectedOnce.sockets := by decide
  rw [hafter] at hsockets
  have hsame := congrArg (·[0]?) hsockets
  simp only [hs, put, withSocket] at hsame
  rw [← some.inj hsame] at hrx
  exact absurd hrx (by decide)

/-- The entries of other connections and those that end after the acknowledged number. -/
def TcpStack.stillDue (st : TcpStack) (packet : TcpPacket) : List TcpRetransmit :=
  st.retransmits.filter fun entry =>
    !(entry.isOf packet.srcIp packet.srcPort packet.dstPort && seqAtOrAfter packet.ack entry.endSeq)

/-- The acknowledgement settled the entries that end at or before it, and later polls send again
and time out none but the others. -/
structure SettlesExactly (st st' : TcpStack) (packet : TcpPacket) : Prop where
  kept : st'.retransmits = st.stillDue packet
  resent : ∀ tick, (st'.pollRetransmit tick).2.pendingOutbound = st'.pendingOutbound ++
    ((st.stillDue packet).filter (retries tick)).map fun e => ⟨e.dstIp, e.segment⟩
  timedOut : ∀ (tick i : ℕ) (s s' : TcpSocket), st'.sockets[i]? = some s →
    (st'.pollRetransmit tick).2.sockets[i]? = some s' → s'.error = some .timedOut →
    s.error = some .timedOut ∨ ∃ e ∈ st.stillDue packet, givesUp tick e ∧
      e.isOf s.remoteIp s.remotePort s.localPort

namespace TcpStack

theorem pendingOutbound_pollRetransmit (tick : ℕ) :
    (st.pollRetransmit tick).2.pendingOutbound = st.pendingOutbound ++
      (st.retransmits.filter (retries tick)).map fun e => ⟨e.dstIp, e.segment⟩ := by
  rw [pollRetransmit]
  simp only
  split_ifs
  · rfl
  generalize map _ (filter (givesUp tick) _) = failed
  refine foldlRecOn (motive := fun st' : TcpStack => st'.pendingOutbound = _) failed _ rfl ?_
  intro st' h entry _
  rw [failSocket]
  split
  · exact h
  · exact h

/-- A socket is as it was before the poll but for the clock, or its connection gave up. -/
def GaveUp (entries : List TcpRetransmit) (tick : ℕ) (s s' : TcpSocket) : Prop :=
  SameConnection s s' ∧ (s'.error = s.error ∨
    ∃ e ∈ entries, givesUp tick e ∧ e.isOf s.remoteIp s.remotePort s.localPort)

variable {tick i : ℕ}

theorem gaveUp_failSocket
    (h : ∀ s₁, st.sockets[i]? = some s₁ → GaveUp entries tick s s₁) (he : e ∈ entries)
    (hgive : givesUp tick e) (s₁ : TcpSocket)
    (hs₁ : (st.failSocket e.dstIp e.remotePort e.localPort .timedOut).sockets[i]? = some s₁) :
    GaveUp entries tick s s₁ := by
  rw [failSocket] at hs₁
  split at hs₁
  · exact h s₁ hs₁
  next x j hpos =>
  obtain ⟨hj, hmatch⟩ := position_eq_some hpos
  by_cases hji : j = i
  · subst hji
    rw [getElem?_withSocket hj, if_pos rfl] at hs₁
    cases hs₁
    obtain ⟨hsame, -⟩ := h x hj
    refine ⟨hsame.trans ⟨rfl, rfl, rfl, rfl⟩, .inr ⟨e, he, hgive, ?_⟩⟩
    simp only [Bool.and_eq_true, decide_eq_true_eq] at hmatch
    obtain ⟨⟨hip, hremote⟩, hlocal⟩ := hmatch
    rw [TcpRetransmit.isOf, ← hsame.remoteIp, ← hsame.remotePort, ← hsame.localPort, hip,
      hremote, hlocal]
    simp
  · rw [withSocket, getElem?_set_ne hji] at hs₁
    exact h s₁ hs₁

theorem gaveUp_failSockets (failed : List TcpRetransmit)
    (hfailed : ∀ e ∈ failed, e ∈ entries ∧ givesUp tick e)
    (h : ∀ s₁, st.sockets[i]? = some s₁ → GaveUp entries tick s s₁) (s₁ : TcpSocket)
    (hs₁ : ((failed.map fun e => (e.dstIp, e.remotePort, e.localPort)).foldl
      (fun st' c => st'.failSocket c.1 c.2.1 c.2.2 .timedOut) st).sockets[i]? = some s₁) :
    GaveUp entries tick s s₁ := by
  induction failed generalizing st with
  | nil => exact h s₁ hs₁
  | cons e rest ih =>
    obtain ⟨he, hgive⟩ := hfailed e mem_cons_self
    exact ih (forall_mem_cons.1 hfailed).2
      (gaveUp_failSocket h he hgive) hs₁

theorem gaveUp_pollRetransmit (hs : st.sockets[i]? = some s)
    (hs' : (st.pollRetransmit tick).2.sockets[i]? = some s') : GaveUp st.retransmits tick s s' := by
  have hexpired : ∀ s₁, (st.expireTimeWait tick).sockets[i]? = some s₁ →
      GaveUp st.retransmits tick s s₁ := by
    intro s₁ hs₁
    rw [expireTimeWait, getElem?_map, hs] at hs₁
    cases hs₁
    dsimp only
    split_ifs
    · exact ⟨⟨rfl, rfl, rfl, rfl⟩, .inl rfl⟩
    · exact ⟨.refl s, .inl rfl⟩
  rw [pollRetransmit] at hs'
  split_ifs at hs'
  · exact hexpired s' hs'
  refine gaveUp_failSockets (st.retransmits.filter (givesUp tick)) ?_ ?_ s' hs'
  · exact fun e he => mem_filter.1 he
  · exact hexpired

end TcpStack

theorem filter_eq_filter_iff {l : List α} :
    l.filter p = l.filter q ↔ ∀ x ∈ l, p x = q x := by
  refine ⟨fun h x hx => ?_, filter_congr⟩
  have hmem : x ∈ l.filter p ↔ x ∈ l.filter q := by rw [h]
  rw [mem_filter, mem_filter] at hmem
  rw [Bool.eq_iff_iff]
  exact ⟨fun hp => (hmem.1 ⟨hx, hp⟩).2, fun hq => (hmem.2 ⟨hx, hq⟩).2⟩

/-- Bookkeeping of an acknowledgement, with `n` numbers outstanding from `una` on: right exactly
if the numbers pass zero either before the acknowledged number and the end of every entry of the
connection, or before none of them. -/
theorem settles_exactly_iff (una : BitVec 32) (n : ℕ) (hr : st.route packet = some slot)
    (hack : packet.has tcpFlagAck) (hrst : packet.has tcpFlagRst = false) (hn : n ≤ 2 ^ 31)
    (hout : ∀ e ∈ st.retransmits, e.isOf packet.srcIp packet.srcPort packet.dstPort →
      ∃ j, 0 < j ∧ j ≤ n ∧ e.endSeq = advance una j)
    (hacceptable : ∃ k ≤ n, packet.ack = advance una k) :
    SettlesExactly st (st.handlePacket now packet).2 packet ↔
      ∀ e ∈ st.retransmits, e.isOf packet.srcIp packet.srcPort packet.dstPort →
        (una ≤ e.endSeq ↔ una ≤ packet.ack) := by
  obtain ⟨socket, hs, -, hhandle⟩ := handlePacket_of_route hr now
  have hleft : (st.handlePacket now packet).2.retransmits = st.retransmits.filter fun entry =>
      !(entry.isOf packet.srcIp packet.srcPort packet.dstPort &&
        decide (entry.endSeq ≤ packet.ack)) := by
    rw [hhandle, retransmits_handleAt now st socket slot hrst, unacknowledged, if_pos hack]
    rfl
  -- One entry of the connection: the plain comparison against the serial one.
  have hentry : ∀ e ∈ st.retransmits, e.isOf packet.srcIp packet.srcPort packet.dstPort →
      ((decide (e.endSeq ≤ packet.ack) = seqAtOrAfter packet.ack e.endSeq) ↔
        (una ≤ e.endSeq ↔ una ≤ packet.ack)) := by
    intro e he hof
    obtain ⟨j, hj, hjn, hend⟩ := hout e he hof
    obtain ⟨k, hkn, hk⟩ := hacceptable
    have hserial := atOrAfter_advance (a := una) hj hjn hkn (by omega)
    rw [hend, hk, ← advance_le_iff (by omega) (by omega), ← hserial, seqAtOrAfter, decide_eq_decide]
  have hkept : (st.handlePacket now packet).2.retransmits = st.stillDue packet ↔
      ∀ e ∈ st.retransmits, e.isOf packet.srcIp packet.srcPort packet.dstPort →
        (una ≤ e.endSeq ↔ una ≤ packet.ack) := by
    rw [hleft, stillDue, filter_eq_filter_iff]
    refine forall₂_congr fun e he => ?_
    cases hof : e.isOf packet.srcIp packet.srcPort packet.dstPort with
    | true =>
      rw [← hentry e he hof]
      simp
    | false => simp
  rw [← hkept]
  refine ⟨fun h => h.kept, fun h => ⟨h, fun tick => ?_, fun tick i s s' hs hs' herr => ?_⟩⟩
  · rw [pendingOutbound_pollRetransmit, h]
  rw [← h]
  obtain ⟨-, hold | hgave⟩ := gaveUp_pollRetransmit hs hs'
  · exact .inl (hold.symm.trans herr)
  · exact .inr hgave

/-- Two bytes sent and acknowledged. -/
theorem settles_exactly_small : let st := (connectedOnce.send 0 0 [1, 2]).2
    st.retransmits.map (·.endSeq) = [4] ∧
      SettlesExactly st (st.handlePacket 0 (fromPeer 1001 4 tcpFlagAck [])).2
        (fromPeer 1001 4 tcpFlagAck []) := by
  have hentries : ∀ e ∈ (connectedOnce.send 0 0 [1, 2]).2.retransmits, e.endSeq = 4 := by decide
  have hroute : (connectedOnce.send 0 0 [1, 2]).2.route (fromPeer 1001 4 tcpFlagAck []) =
      some (.socket 0) := by decide
  refine ⟨by decide, (settles_exactly_iff 2 2 hroute (by decide) (by decide) (by decide) ?_
    ⟨2, le_rfl, rfl⟩).2 ?_⟩
  · intro e he _
    exact ⟨2, by decide, le_rfl, hentries e he⟩
  intro e he _
  rw [hentries e he]
  decide

/-- A connection that has sent all but two of the sequence numbers, and now two segments, of one
byte and of three. -/
def acrossZero : TcpStack :=
  let st := connectedOnce.withSocket 0
    { new 49152 with
      remoteIp := ⟨10, 0, 2, 2⟩, remotePort := 80, state := .established, seq := 0xfffffffe,
      ack := 1001 }
  ((st.send 0 0 [1]).2.send 0 0 [2, 3, 4]).2

/-- The acknowledgement of the first byte drops the second segment too. -/
theorem acrossZero_forgets :
    acrossZero.retransmits.map (·.endSeq) = [advance 0xfffffffe 1, advance 0xfffffffe 4] ∧
      (fromPeer 1001 0xffffffff tcpFlagAck []).ack = advance 0xfffffffe 1 ∧
      (acrossZero.stillDue (fromPeer 1001 0xffffffff tcpFlagAck [])).map (·.endSeq) = [2] ∧
      (acrossZero.handlePacket 0 (fromPeer 1001 0xffffffff tcpFlagAck [])).2.retransmits = [] ∧
      ¬ SettlesExactly acrossZero
        (acrossZero.handlePacket 0 (fromPeer 1001 0xffffffff tcpFlagAck [])).2
        (fromPeer 1001 0xffffffff tcpFlagAck []) := by
  refine ⟨by decide, by decide, by decide, by decide, fun h => ?_⟩
  exact absurd h.kept (by decide)

def TcpState.synchronized : TcpState → Bool
  | .established | .closeWait | .finWait1 | .finWait2 | .closing | .lastAck | .timeWait => true
  | .closed | .listen | .synSent => false

/-- The segment acknowledges the number after the socket's SYN. -/
def acknowledgesSyn (socket : TcpSocket) (packet : TcpPacket) : Bool :=
  packet.has tcpFlagAck && packet.ack = socket.seq

def inReceiveWindow (socket : TcpSocket) (packet : TcpPacket) : Bool :=
  (packet.seq - socket.ack).toNat < socket.recvWindowAvailable

/-- A segment that must not move the connection: one that does not acknowledge the SYN while an
answer to it is awaited, or a reset from outside the receive window afterwards. -/
def Forged (socket : TcpSocket) (packet : TcpPacket) : Prop :=
  socket.state = .synSent ∧ acknowledgesSyn socket packet = false ∨
    socket.state.synchronized ∧ packet.has tcpFlagRst ∧ inReceiveWindow socket packet = false

/-- Of each connection its state and its sequence numbers. -/
def TcpSocket.core (socket : TcpSocket) : TcpState × BitVec 32 × BitVec 32 :=
  (socket.state, socket.seq, socket.ack)

def TcpStack.cores (st : TcpStack) :
    List (TcpState × BitVec 32 × BitVec 32) × List (TcpState × BitVec 32 × BitVec 32) :=
  (st.sockets.map core, st.acceptQueue.map core)

/-- The connection was established only by an acknowledgement of its SYN, was reset only by an
acceptable reset, and a forged segment changed nothing. -/
structure Unmoved (st st' : TcpStack) (slot : Slot) (socket : TcpSocket) (packet : TcpPacket) :
    Prop where
  opens : socket.state = .synSent → st'.acceptQueue.length = st.acceptQueue.length →
    ∀ socket', st'.get slot = some socket' → socket'.state = .established →
      acknowledgesSyn socket packet ∧ socket'.seq = socket.seq
  resets : packet.has tcpFlagRst → st'.cores ≠ st.cores →
    (socket.state = .synSent → acknowledgesSyn socket packet) ∧
      (socket.state.synchronized → inReceiveWindow socket packet)
  rest : Forged socket packet → st'.cores = st.cores ∧ st'.retransmits = st.retransmits

section
variable (h : Forged socket packet)
include h

theorem Forged.ne_listen : socket.state ≠ .listen := by
  rintro hl
  rcases h with ⟨h, -⟩ | ⟨h, -⟩ <;> rw [hl] at h <;> cases h

theorem Forged.ne_closed : socket.state ≠ .closed := by
  rintro hl
  rcases h with ⟨h, -⟩ | ⟨h, -⟩ <;> rw [hl] at h <;> cases h

theorem Forged.synSent (hrst : packet.has tcpFlagRst = false) : socket.state = .synSent := by
  rcases h with ⟨h, -⟩ | ⟨-, h, -⟩
  · exact h
  · rw [hrst] at h
    cases h

end

/-- A reset always changes the connection it is given to. -/
theorem cores_reset (hs : st.get slot = some socket) (hrst : packet.has tcpFlagRst)
    (hl : socket.state ≠ .listen) (hc : socket.state ≠ .closed) :
    (st.handleAt now socket packet slot).2.cores ≠ st.cores := by
  intro h
  have hreset := connections_reset now st slot hrst hl
  cases slot with
  | socket i =>
    have hi := lt_of_getElem?_eq_some hs
    have hcore := congrArg (fun c => c.1[i]?) h
    simp only [cores, hreset, getElem?_map, getElem?_set_self hi] at hcore
    rw [show st.sockets[i]? = some socket from hs] at hcore
    exact hc (congrArg Prod.fst (some.inj hcore)).symm
  | queued i =>
    have hi := lt_of_getElem?_eq_some hs
    have hlen := congrArg (fun c => c.2.length) h
    simp only [cores, hreset, length_map, length_eraseIdx_of_lt hi] at hlen
    omega

theorem put_get (hs : st.get slot = some socket) : st.put socket slot = st := by
  cases slot with
  | socket i =>
    have hi := lt_of_getElem?_eq_some hs
    have heq : socket = st.sockets[i] := by
      rw [TcpStack.get, getElem?_eq_getElem hi] at hs
      exact (some.inj hs).symm
    rw [put, withSocket, heq, set_getElem_self]
  | queued i =>
    have hi := lt_of_getElem?_eq_some hs
    have heq : socket = st.acceptQueue[i] := by
      rw [TcpStack.get, getElem?_eq_getElem hi] at hs
      exact (some.inj hs).symm
    rw [put, heq, set_getElem_self]

/-- Neither a reset, nor a handshake for a socket of the table, nor an acknowledgement that
settles an entry. -/
structure Harmless (st : TcpStack) (slot : Slot) (packet : TcpPacket) : Prop where
  noReset : packet.has tcpFlagRst = false
  noHandshake : ∀ i, slot = .socket i → ¬ (packet.has tcpFlagSyn ∧ packet.has tcpFlagAck)
  settlesNone : packet.has tcpFlagAck → ∀ e ∈ st.retransmits,
    e.isOf packet.srcIp packet.srcPort packet.dstPort → ¬ e.endSeq ≤ packet.ack

theorem next_synSent (hs : socket.state = .synSent) (i : ℕ) :
    socket.next now packet (.socket i) = if packet.has tcpFlagSyn ∧ packet.has tcpFlagAck then
        { socket with
          ack := packet.seq + 1
          seq := packet.ack
          state := .established
          error := none
          timeWaitDeadlineTick := none }
      else socket := by
  rw [TcpSocket.next, react]
  simp only [hs, synAck_iff]
  by_cases h : packet.has tcpFlagSyn ∧ packet.has tcpFlagAck
  · rw [if_pos h]
    exact congrArg Prod.fst (if_pos h)
  · rw [if_neg h]
    exact congrArg Prod.fst (if_neg h)

theorem unacknowledged_eq_iff : st.unacknowledged packet = st.retransmits ↔
    (packet.has tcpFlagAck → ∀ e ∈ st.retransmits,
      e.isOf packet.srcIp packet.srcPort packet.dstPort → ¬ e.endSeq ≤ packet.ack) := by
  rw [unacknowledged]
  split_ifs with hack
  · rw [acknowledge, filter_eq_self]
    refine ⟨fun h _ e he hof hle => ?_, fun h e he => ?_⟩
    · have hkeep := h e he
      simp [hof, hle] at hkeep
    cases hof : e.isOf packet.srcIp packet.srcPort packet.dstPort with
    | true => simp [h hack e he hof]
    | false => rfl
  · simp [hack]

theorem cores_handleAt_iff (hs : st.get slot = some socket)
    (hrst : packet.has tcpFlagRst = false) (hstate : socket.state = .synSent) :
    (st.handleAt now socket packet slot).2.cores = st.cores ↔
      ∀ i, slot = .socket i → ¬ (packet.has tcpFlagSyn ∧ packet.has tcpFlagAck) := by
  obtain ⟨hsockets, hqueue⟩ := connections_handleAt now st slot hrst
    (by rw [hstate]; decide : socket.state ≠ .listen)
  rw [cores, hsockets, hqueue]
  have hput := put_get hs
  cases slot with
  | queued i =>
    have hnext : socket.next now packet (.queued i) = socket := by
      rw [TcpSocket.next, reactQueued]
      simp [hstate]
    rw [hnext, hput]
    simp [cores]
  | socket i =>
    rw [next_synSent hstate]
    have hi := lt_of_getElem?_eq_some hs
    split_ifs with hboth
    · refine iff_of_false (fun h => ?_) fun h => h i rfl hboth
      have hcore := congrArg (fun c => c.1[i]?) h
      simp only [put, withSocket, cores, getElem?_map, getElem?_set_self hi] at hcore
      rw [show st.sockets[i]? = some socket from hs] at hcore
      have hfirst := congrArg Prod.fst (some.inj hcore)
      simp [core, hstate] at hfirst
    · rw [hput]
      exact iff_of_true rfl fun _ _ => hboth

/-- A connection that awaits the answer to its SYN is established by a SYN and ACK only. -/
theorem opens_of_handshake (hs : st.get slot = some socket) (hsyn : socket.state = .synSent)
    (hlen : (st.handleAt now socket packet slot).2.acceptQueue.length = st.acceptQueue.length)
    (hs' : (st.handleAt now socket packet slot).2.get slot = some socket')
    (hest : socket'.state = .established) :
    packet.has tcpFlagRst = false ∧ (∃ i, slot = .socket i) ∧ packet.has tcpFlagSyn ∧
      packet.has tcpFlagAck ∧ socket'.seq = packet.ack := by
  have hl : socket.state ≠ .listen := by
    rw [hsyn]
    decide
  have hopen : socket'.state ≠ socket.state := by
    rw [hest, hsyn]
    decide
  cases hrst : packet.has tcpFlagRst with
  | true =>
    exfalso
    have hreset := connections_reset now st slot hrst hl
    cases slot with
    | socket i =>
      rw [TcpStack.get, hreset, getElem?_set_self (lt_of_getElem?_eq_some hs)] at hs'
      rw [← some.inj hs'] at hest
      cases hest
    | queued i =>
      have hi := lt_of_getElem?_eq_some hs
      rw [hreset, length_eraseIdx_of_lt hi] at hlen
      omega
  | false =>
    obtain ⟨hsockets, hqueue⟩ := connections_handleAt now st slot hrst hl
    cases slot with
    | socket i =>
      have hi := lt_of_getElem?_eq_some hs
      rw [TcpStack.get, hsockets, TcpStack.put, TcpStack.withSocket, getElem?_set_self hi,
        next_synSent hsyn] at hs'
      cases hs'
      split_ifs at hopen ⊢ with hboth
      · exact ⟨rfl, ⟨i, rfl⟩, hboth.1, hboth.2, rfl⟩
      · exact absurd rfl hopen
    | queued i =>
      have hi := lt_of_getElem?_eq_some hs
      rw [TcpStack.get, hqueue, TcpStack.put, getElem?_set_self hi, TcpSocket.next,
        reactQueued] at hs'
      simp only [hsyn] at hs'
      rw [← some.inj hs'] at hopen
      exact absurd rfl hopen

/-- A segment with a connection's 4-tuple moves it only as it should exactly if it is not forged
or does no harm. -/
theorem unmoved_iff (hr : st.route packet = some slot) (hs : st.get slot = some socket) :
    Unmoved st (st.handlePacket now packet).2 slot socket packet ↔
      (Forged socket packet → Harmless st slot packet) := by
  rw [handlePacket_eq hr hs]
  have hrest : (Forged socket packet → (st.handleAt now socket packet slot).2.cores = st.cores ∧
      (st.handleAt now socket packet slot).2.retransmits = st.retransmits) ↔
      (Forged socket packet → Harmless st slot packet) := by
    refine forall_congr' fun hf => ?_
    cases hrst : packet.has tcpFlagRst with
    | true =>
      refine iff_of_false (fun h => ?_) fun h => by simp [h.noReset] at hrst
      exact cores_reset hs hrst hf.ne_listen hf.ne_closed h.1
    | false =>
      rw [cores_handleAt_iff hs hrst (hf.synSent hrst),
        retransmits_handleAt now st socket slot hrst, unacknowledged_eq_iff]
      exact ⟨fun h => ⟨hrst, h.1, h.2⟩, fun h => ⟨h.noHandshake, h.settlesNone⟩⟩
  rw [← hrest]
  refine ⟨fun h => h.rest, fun h => ⟨fun hsyn hlen socket' hs' hest => ?_,
    fun hrst hmoved => ?_, h⟩⟩
  · obtain ⟨hrst, ⟨i, rfl⟩, hsynFlag, hack, hseq⟩ := opens_of_handshake hs hsyn hlen hs' hest
    have hacks : acknowledgesSyn socket packet = true := by
      by_contra hno
      have hf : Forged socket packet := .inl ⟨hsyn, by simpa using hno⟩
      exact (cores_handleAt_iff hs hrst hsyn).1 (h hf).1 i rfl ⟨hsynFlag, hack⟩
    refine ⟨hacks, hseq.trans ?_⟩
    rw [acknowledgesSyn, Bool.and_eq_true] at hacks
    exact of_decide_eq_true hacks.2
  have hnot : ¬ Forged socket packet := fun hf => hmoved (h hf).1
  refine ⟨fun hsyn => ?_, fun hsync => ?_⟩
  · by_contra hno
    exact hnot (.inl ⟨hsyn, by simpa using hno⟩)
  · by_contra hno
    exact hnot (.inr ⟨hsync, hrst, by simpa using hno⟩)

/-- The first socket, waiting for the answer to its SYN. -/
def dialing : TcpStack := (new.open.2.connect 0 0 ⟨10, 0, 2, 2⟩ 80).2

def dialingSocket : TcpSocket :=
  { new 49152 with
    remoteIp := ⟨10, 0, 2, 2⟩, remotePort := 80, state := .synSent, seq := 2 }

/-- A SYN without an acknowledgement is forged but does no harm. -/
theorem unmoved_dialing : Unmoved dialing
    (dialing.handlePacket 0 (fromPeer 1000 99 tcpFlagSyn [])).2 (.socket 0) dialingSocket
    (fromPeer 1000 99 tcpFlagSyn []) := by
  have hroute : dialing.route (fromPeer 1000 99 tcpFlagSyn []) = some (.socket 0) := by decide
  have hget : dialing.get (.socket 0) = some dialingSocket := by decide
  refine (unmoved_iff hroute hget).2 fun _ => ⟨by decide, fun _ _ => by decide, ?_⟩
  exact fun hack => absurd hack (by decide)

/-- A handshake that acknowledges a number that was never sent establishes the connection, and
a reset from far outside the window closes one. -/
theorem forged_obeyed : ¬ Unmoved dialing
        (dialing.handlePacket 0 (fromPeer 1000 99 (tcpFlagSyn ||| tcpFlagAck) [])).2 (.socket 0)
        dialingSocket (fromPeer 1000 99 (tcpFlagSyn ||| tcpFlagAck) []) ∧ (dialing.handlePacket 0
        (fromPeer 1000 99 (tcpFlagSyn ||| tcpFlagAck) [])).2.sockets.map core =
        [(.established, 99, 1001)] ∧ (connectedOnce.sockets.all fun s =>
        !inReceiveWindow s (fromPeer 700000 0 tcpFlagRst [])) ∧
      (connectedOnce.handlePacket 0 (fromPeer 700000 0 tcpFlagRst [])).2.sockets.map
        (·.state) = [.closed] := by
  refine ⟨fun h => ?_, by decide, by decide, by decide⟩
  have hsame := (h.rest (.inl ⟨rfl, by decide⟩)).1
  exact absurd hsame (by decide)

end Ristux.Net
