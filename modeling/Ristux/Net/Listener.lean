import Ristux.Net.Accepts

-- Sockets stay in the table when they are closed, and `handle_packet` looks for the 4-tuple of a
-- segment before it looks for a listener. A SYN from a peer that was connected once goes to the
-- closed socket, which ignores it.

namespace Ristux.Net
open List TcpStack TcpSocket

/-- The connection that a listener makes of a SYN, as it sends the SYN+ACK. -/
def answering (packet : TcpPacket) : TcpSocket :=
  { new packet.dstPort with
    remoteIp := packet.srcIp
    remotePort := packet.srcPort
    state := .established
    ack := packet.seq + 1 }

/-- The SYN is answered and its connection waits to be accepted. -/
structure Answered (packet : TcpPacket) (st st' : TcpStack) : Prop where
  queued : st'.acceptQueue = st.acceptQueue ++ [{ answering packet with seq := 2 }]
  sent : st'.pendingOutbound =
    st.pendingOutbound ++ [buildOutbound (answering packet) (tcpFlagSyn ||| tcpFlagAck) []]

/-- No closed socket and no waiting connection stands before the listener. -/
def TcpStack.ReachesListener (st : TcpStack) (packet : TcpPacket) : Prop :=
  st.route packet = none ∨ ∃ i listener, st.route packet = some (.socket i) ∧
    st.sockets[i]? = some listener ∧ listener.state = .listen

variable {now : ℕ} {st : TcpStack} {packet : TcpPacket} {i : ℕ}

theorem Answered.length_lt (h : Answered packet st st') :
    st.acceptQueue.length < st'.acceptQueue.length := by
  simp [h.queued]

theorem answered_of_listen (hsyn : packet.has tcpFlagSyn) (hl : socket.state = .listen)
    (hport : socket.localPort = packet.dstPort) :
    Answered packet st (st.handleSocketPacket now i socket packet).2 := by
  rw [handleSocketPacket, if_neg (by simp [hl]), react]
  simp only [hl, hsyn, if_true, hport]
  split_ifs <;> exact ⟨rfl, rfl⟩

/-- A closed socket takes no connection. -/
theorem not_answered_of_closed (hc : socket.state = .closed) :
    ¬ Answered packet st (st.handleSocketPacket now i socket packet).2 := by
  intro h
  have hlen := h.length_lt
  rw [handleSocketPacket, react] at hlen
  simp only [hc] at hlen
  split_ifs at hlen <;> simp [withSocket, removeRetransmits, acknowledge] at hlen

theorem not_answered_of_queued (hr : st.route packet = some (.queued i)) :
    ¬ Answered packet st (st.handlePacket now packet).2 := by
  intro h
  have hlen := h.length_lt
  rcases acceptQueue_handlePacket now st packet with ⟨j, -, -, hq⟩ | ⟨j, s, s', -, -, -, -, hq⟩ |
    ⟨hne, -⟩
  · rw [hq] at hlen
    have hle := length_eraseIdx_le st.acceptQueue j
    omega
  · simp [hq] at hlen
  · exact hne i hr

theorem handlePacket_of_listener (hr : st.route packet = none) (hmem : socket ∈ st.sockets)
    (hl : socket.state = .listen) (hport : socket.localPort = packet.dstPort) (now : ℕ) :
    ∃ i s, (s.state = .listen ∧ s.localPort = packet.dstPort) ∧
      st.handlePacket now packet = st.handleSocketPacket now i s packet := by
  rw [route] at hr
  cases hsock : position (·.matchesPacket packet) st.sockets with
  | some found => simp [hsock] at hr
  | none =>
    simp only [hsock, Option.map_eq_none_iff] at hr
    rw [handlePacket, hsock]
    simp only [hr]
    split
    · rename_i s i hpos
      exact ⟨i, s, by simpa using (position_eq_some hpos).2, rfl⟩
    rename_i hpos
    have hno := position_eq_none hpos socket hmem
    simp [hl, hport] at hno

/-- A SYN to a port with a listener, from a peer whose connections are all closed, is answered
exactly when none of these stands before the listener. -/
theorem syn_answered_iff (hsyn : packet.has tcpFlagSyn) (hlisten : ∃ listener ∈ st.sockets,
      listener.state = .listen ∧ listener.localPort = packet.dstPort)
    (hgone : ∀ c ∈ st.sockets ++ st.acceptQueue, c.matchesPacket packet →
      c.state = .closed ∨ c.state = .listen) :
    Answered packet st (st.handlePacket now packet).2 ↔ st.ReachesListener packet := by
  match hr : st.route packet with
  | none =>
    refine iff_of_true ?_ (.inl hr)
    obtain ⟨l, hl, hstate, hport⟩ := hlisten
    obtain ⟨i, s, hs, heq⟩ := handlePacket_of_listener hr hl hstate hport now
    rw [heq]
    exact answered_of_listen hsyn hs.1 hs.2
  | some (.queued i) =>
    refine iff_of_false (not_answered_of_queued hr) ?_
    simp [ReachesListener, hr]
  | some (.socket i) =>
    obtain ⟨s, hget, hmatch, heq⟩ := handlePacket_of_route hr now
    have hs : st.sockets[i]? = some s := hget
    rw [heq]
    rcases hgone s (mem_append_left _ (mem_of_getElem? hs)) hmatch with hc | hl
    · refine iff_of_false (not_answered_of_closed hc) ?_
      simp [ReachesListener, hr, hs, hc]
    refine iff_of_true (answered_of_listen hsyn hl ?_) (.inr ⟨i, s, hr, hs, hl⟩)
    simp only [matchesPacket, Bool.and_eq_true, decide_eq_true_eq] at hmatch
    exact hmatch.1.1

/-- The stack after the calls, all in one tick. -/
def afterCalls (calls : List StackCall) : TcpStack :=
  calls.foldl (fun st call => call.apply 0 st) .new

/-- A client connects to port 80, is accepted and resets the connection. -/
def resetOnce : List StackCall :=
  [.open, .bindExisting 0 80, .listen 0, .handlePacket (synTo 2 80), .accept 0,
    .handlePacket { synTo 2 80 with flags := tcpFlagRst }]

/-- Another client is answered. -/
theorem syn_answered_iff_new : Answered (synTo 3 80) (afterCalls resetOnce)
      ((afterCalls resetOnce).handlePacket 0 (synTo 3 80)).2 :=
  (syn_answered_iff (by decide) (by decide) (by decide)).2 (.inl (by decide))

/-- The first client cannot connect again. -/
theorem syn_to_closed_ignored :
    let st := afterCalls resetOnce
    (∃ l ∈ st.sockets, l.state = .listen ∧ l.localPort = 80) ∧
      (∀ c ∈ st.sockets ++ st.acceptQueue, c.matchesPacket (synTo 2 80) → c.state = .closed) ∧
      (st.handlePacket 0 (synTo 2 80)).2 = st ∧
      ¬ Answered (synTo 2 80) st (st.handlePacket 0 (synTo 2 80)).2 := by
  have hsame : let st := afterCalls resetOnce
    (st.handlePacket 0 (synTo 2 80)).2 = st := by decide
  refine ⟨by decide, by decide, hsame, fun h => ?_⟩
  have hlen := h.length_lt
  exact absurd hlen (lt_irrefl _)

end Ristux.Net
