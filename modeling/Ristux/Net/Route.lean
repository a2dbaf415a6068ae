import Ristux.Net.Tcp
import Mathlib.Data.List.Basic

-- `handle_packet` gives a segment to the first socket of the table with its 4-tuple, else to the
-- first waiting connection with it, else to a listener on its port. The two kinds of place at
-- which a connection is kept are `Slot`s.

namespace Ristux.Net
open List Option

section
variable {x : α}

theorem position_eq_some (h : position p l = some (x, i)) : l[i]? = some x ∧ p x = true := by
  refine ⟨?_, find?_some (p := fun y : α × ℕ => p y.1) h⟩
  exact mem_zipIdx_iff_getElem?.1 (mem_of_find?_eq_some h)

theorem position_eq_none (h : position p l = none) : ∀ y ∈ l, p y = false := by
  rw [position, find?_eq_none] at h
  intro y hy
  obtain ⟨j, hj, rfl⟩ := getElem_of_mem hy
  simpa using h (l[j], j) (mem_zipIdx_iff_getElem?.2 (getElem?_eq_getElem hj))

end

theorem lt_of_getElem?_eq_some {l : List α} (h : l[i]? = some x) :
    i < l.length :=
  (List.getElem?_eq_some_iff.1 h).1

theorem synAck_iff (flags : UInt8) :
    flags &&& (tcpFlagSyn ||| tcpFlagAck) = (tcpFlagSyn ||| tcpFlagAck) ↔
      (flags &&& tcpFlagSyn != 0) = true ∧ (flags &&& tcpFlagAck != 0) = true := by
  have hall : ∀ b : BitVec 8, (b &&& (2#8 ||| 16#8) = (2#8 ||| 16#8)) ↔
      (b &&& 2#8 ≠ 0 ∧ b &&& 16#8 ≠ 0) := by decide
  have h := hall flags.toBitVec
  simp only [bne_iff_ne, ne_eq, ← UInt8.toBitVec_inj, tcpFlagSyn, tcpFlagAck]
  exact h

inductive Slot
  | socket (index : ℕ)
  | queued (index : ℕ)
  deriving DecidableEq

/-- What the connection at a slot makes of a segment that is not a reset. -/
def TcpSocket.next (now : ℕ) (socket : TcpSocket) (packet : TcpPacket) : Slot → TcpSocket
  | .socket _ => (socket.react now packet).1
  | .queued _ => (socket.reactQueued now packet).1

namespace TcpStack

def get (st : TcpStack) : Slot → Option TcpSocket
  | .socket i => st.sockets[i]?
  | .queued i => st.acceptQueue[i]?

def put (st : TcpStack) (socket : TcpSocket) : Slot → TcpStack
  | .socket i => st.withSocket i socket
  | .queued i => { st with acceptQueue := st.acceptQueue.set i socket }

/-- The connection with the segment's 4-tuple that the segment is given to. -/
def route (st : TcpStack) (packet : TcpPacket) : Option Slot :=
  match position (·.matchesPacket packet) st.sockets with
  | some (_, i) => some (.socket i)
  | none => (position (·.matchesPacket packet) st.acceptQueue).map fun (_, i) => .queued i

/-- The entries that an acknowledgement in the segment leaves. -/
def unacknowledged (st : TcpStack) (packet : TcpPacket) : List TcpRetransmit :=
  if packet.has tcpFlagAck then
    (st.acknowledge packet.srcIp packet.srcPort packet.dstPort packet.ack).retransmits
  else st.retransmits

/-- The handler of the slot's connection. -/
def handleAt (now : ℕ) (st : TcpStack) (socket : TcpSocket) (packet : TcpPacket) :
    Slot → Bool × TcpStack
  | .socket i => st.handleSocketPacket now i socket packet
  | .queued i => st.handleQueuedAcceptPacket now i socket packet

variable {st : TcpStack} {socket : TcpSocket}

/-- A segment with a connection's 4-tuple is handled by that connection's function. -/
theorem handlePacket_of_route (hr : st.route packet = some slot) (now : ℕ) :
    ∃ socket, st.get slot = some socket ∧ socket.matchesPacket packet ∧
      st.handlePacket now packet = st.handleAt now socket packet slot := by
  rw [route] at hr
  rw [handlePacket]
  cases hsock : position (·.matchesPacket packet) st.sockets with
  | some found =>
    rw [hsock] at hr
    cases hr
    obtain ⟨hget, hmatch⟩ := position_eq_some hsock
    exact ⟨found.1, hget, hmatch, rfl⟩
  | none =>
    rw [hsock] at hr
    obtain ⟨found, hqueue, rfl⟩ := map_eq_some_iff.1 hr
    obtain ⟨hget, hmatch⟩ := position_eq_some hqueue
    refine ⟨found.1, hget, hmatch, ?_⟩
    simp only [hqueue, handleAt]

theorem handlePacket_eq (hr : st.route packet = some slot) (hs : st.get slot = some socket) :
    st.handlePacket now packet = st.handleAt now socket packet slot := by
  obtain ⟨found, hget, -, heq⟩ := handlePacket_of_route hr now
  rw [hs] at hget
  rw [heq, some.inj hget]

/-- Only a listener makes new connections. -/
theorem react_peer (hl : socket.state ≠ .listen) : (socket.react now packet).2.1 = none := by
  rw [TcpSocket.react]
  cases hstate : socket.state
  case listen => exact absurd hstate hl
  all_goals simp only
  case synSent => split_ifs <;> rfl
  case timeWait => split_ifs <;> rfl

theorem retransmits_handleAt (now : ℕ) (st : TcpStack) (socket : TcpSocket) (slot : Slot)
    (hrst : packet.has tcpFlagRst = false) :
    (st.handleAt now socket packet slot).2.retransmits = st.unacknowledged packet := by
  cases slot with
  | socket i =>
    rw [handleAt, handleSocketPacket, if_neg (by simp [hrst]), unacknowledged]
    split_ifs <;> rfl
  | queued i =>
    rw [handleAt, handleQueuedAcceptPacket, if_neg (by simp [hrst]), unacknowledged]
    split_ifs <;> rfl

/-- A segment that is no reset changes its own connection and no other. -/
theorem connections_handleAt (now : ℕ) (st : TcpStack) (slot : Slot)
    (hrst : packet.has tcpFlagRst = false) (hl : socket.state ≠ .listen) :
    (st.handleAt now socket packet slot).2.sockets =
        (st.put (socket.next now packet slot) slot).sockets ∧
      (st.handleAt now socket packet slot).2.acceptQueue =
        (st.put (socket.next now packet slot) slot).acceptQueue := by
  cases slot with
  | socket i =>
    rw [handleAt, handleSocketPacket, if_neg (by simp [hrst])]
    simp only [react_peer hl, toList_none, append_nil]
    split_ifs <;> exact ⟨rfl, rfl⟩
  | queued i =>
    rw [handleAt, handleQueuedAcceptPacket, if_neg (by simp [hrst])]
    split_ifs <;> exact ⟨rfl, rfl⟩

/-- The connection of a reset is closed, or taken from the queue. -/
theorem connections_reset (now : ℕ) (st : TcpStack) (slot : Slot)
    (hrst : packet.has tcpFlagRst = true) (hl : socket.state ≠ .listen) :
    match slot with
    | .socket i => (st.handleAt now socket packet slot).2.sockets = st.sockets.set i { socket with
          state := .closed
          error := some .connectionReset
          timeWaitDeadlineTick := none }
    | .queued i =>
      (st.handleAt now socket packet slot).2.acceptQueue = st.acceptQueue.eraseIdx i := by
  cases slot with
  | socket i =>
    simp only [handleAt, handleSocketPacket]
    rw [if_pos (by simp [hrst, hl])]
    rfl
  | queued i =>
    simp only [handleAt, handleQueuedAcceptPacket]
    rw [if_pos hrst]
    rfl

end TcpStack

end Ristux.Net
