import Ristux.Net.Socket
import Ristux.Net.Stream

-- `shutdown(1)` sends the end of our stream, and the peer goes on sending. The bytes still arrive
-- and can be received, but in the states after the shutdown an empty buffer is reported as not
-- connected, and `poll` does not report what can be read.

namespace Ristux.Net
open List TcpStack TcpState

/-- What the peer has sent, whether that was all, and the sequence number that comes next. -/
structure Peer where
  sent : Bytes
  fin : Bool
  next : BitVec 32
  deriving Repr, DecidableEq

/-- The peer of a connection whose reader has not read what waits in the buffer. -/
def TcpSocket.peer (s : TcpSocket) : Peer := ⟨s.rxBuffer, false, s.ack⟩

namespace Peer

/-- The peer's next segment: all of it fits, and nothing follows the end of the stream. -/
@[mk_iff]
structure Sends (peer : Peer) (s : TcpSocket) (packet : TcpPacket) : Prop where
  noReset : packet.has tcpFlagRst = false
  seq : packet.seq = peer.next
  fits : packet.payload.length ≤ s.recvWindowAvailable
  last : peer.fin = true → packet.payload = [] ∧ packet.has tcpFlagFin = false

instance (peer : Peer) (s : TcpSocket) (packet : TcpPacket) : Decidable (peer.Sends s packet) :=
  decidable_of_iff' _ (sends_iff peer s packet)

def after (peer : Peer) (packet : TcpPacket) : Peer where
  sent := peer.sent ++ packet.payload
  fin := peer.fin || packet.has tcpFlagFin
  next := peer.next + .ofNat 32 packet.payload.length + if packet.has tcpFlagFin then 1 else 0

/-- The peer after a step of `drive_tcp`: the segments to socket `i` are its own. -/
def step (i : ℕ) (st : TcpStack) (peer : Peer) : DriveStep → Peer
  | .handlePacket _ packet =>
    if st.route packet = some (.socket i) then peer.after packet else peer
  | _ => peer

/-- A segment to socket `i` is the next one of the peer. Nothing is asked of other segments. -/
def InOrder (i : ℕ) (st : TcpStack) (peer : Peer) : DriveStep → Prop
  | .handlePacket _ packet =>
    st.route packet = some (.socket i) → ∀ s ∈ st.sockets[i]?, peer.Sends s packet
  | _ => True

instance (i : ℕ) (st : TcpStack) (peer : Peer) (step : DriveStep) :
    Decidable (peer.InOrder i st step) := by
  cases step <;> unfold InOrder <;> infer_instance

def heard (i : ℕ) : List DriveStep → TcpStack → Peer → Peer
  | [], _, peer => peer
  | step :: rest, st, peer => heard i rest (step.exec st) (peer.step i st step)

def InOrderSteps (i : ℕ) : List DriveStep → TcpStack → Peer → Prop
  | [], _, _ => True
  | step :: rest, st, peer =>
    peer.InOrder i st step ∧ InOrderSteps i rest (step.exec st) (peer.step i st step)

instance decidableInOrderSteps (i : ℕ) : ∀ (steps : List DriveStep) (st : TcpStack) (peer : Peer),
    Decidable (InOrderSteps i steps st peer)
  | [], _, _ => .isTrue trivial
  | step :: rest, st, peer =>
    haveI := decidableInOrderSteps i rest (step.exec st) (peer.step i st step)
    inferInstanceAs (Decidable (_ ∧ _))

/-- The peer after `drive_tcp`. -/
def drive (i : ℕ) (net : Network) (st : TcpStack) (peer : Peer) : Peer :=
  heard i (net.driveSteps st) st peer

def InOrderDrive (i : ℕ) (net : Network) (st : TcpStack) (peer : Peer) : Prop :=
  InOrderSteps i (net.driveSteps st) st peer

instance (i : ℕ) (net : Network) (st : TcpStack) (peer : Peer) :
    Decidable (InOrderDrive i net st peer) :=
  inferInstanceAs (Decidable (InOrderSteps _ _ _ _))

end Peer

/-- Runs that begin with `shutdown(1)` on socket `i`, connected as `s`: the table, the peer, and
what was received since. The stack is also driven by the timer and by calls on other sockets. -/
inductive HalfRun (handle i now : ℕ) (table₀ : SocketTable) (s : TcpSocket) :
    SocketTable → Peer → Bytes → Prop
  | shutdown (net : Network)
    (hin : s.peer.InOrderDrive i net (table₀.tcp.close now i).2) :
    HalfRun handle i now table₀ s (table₀.shutdown net now handle 1).2
      (s.peer.drive i net (table₀.tcp.close now i).2) []
  | recv {table : SocketTable} {peer : Peer} {got : Bytes} (net : Network) (len : ℕ)
    (h : HalfRun handle i now table₀ s table peer got) (hin : peer.InOrderDrive i net table.tcp) :
    HalfRun handle i now table₀ s (table.recv net handle len).2 (peer.drive i net table.tcp)
      (got ++ (table.recv net handle len).1.toOption.getD [])
  | poll {table : SocketTable} {peer : Peer} {got : Bytes} (net : Network)
    (h : HalfRun handle i now table₀ s table peer got) (hin : peer.InOrderDrive i net table.tcp) :
    HalfRun handle i now table₀ s (table.poll net handle).2 (peer.drive i net table.tcp) got
  | drive {table : SocketTable} {peer : Peer} {got : Bytes} (net : Network)
    (h : HalfRun handle i now table₀ s table peer got) (hin : peer.InOrderDrive i net table.tcp) :
    HalfRun handle i now table₀ s { table with tcp := net.driveTcp table.tcp }
      (peer.drive i net table.tcp) got

/-- The answer that `recv` owes to its caller. -/
def owed (fin : Bool) (s : TcpSocket) (len : ℕ) : Except SocketError Bytes :=
  if s.rxBuffer ≠ [] then .ok (s.rxBuffer.take len)
  else if fin then .ok [] else .error .wouldBlock

/-- Our side is closed; whether the end of the peer's stream has arrived. -/
def TcpState.halfClosed : TcpState → Option Bool
  | .finWait1 | .finWait2 => some false
  | .closing | .timeWait | .closed => some true
  | _ => none

/-- The socket has all that the peer sent. -/
structure Receiving (peer : Peer) (got : Bytes) (s : TcpSocket) : Prop where
  state : s.state.halfClosed = some peer.fin
  ack : s.ack = peer.next
  error : s.error = none
  bytes : got ++ s.rxBuffer = peer.sent

/-- Our FIN was not acknowledged in time. -/
structure GaveUp (peer : Peer) (got : Bytes) (s : TcpSocket) : Prop where
  state : s.state = .closed
  error : s.error = some .timedOut
  bytes : got ++ s.rxBuffer <+: peer.sent

/-- The socket after our side was closed. -/
def HalfClosed (peer : Peer) (got : Bytes) (s : TcpSocket) : Prop :=
  Receiving peer got s ∨ GaveUp peer got s

section
variable {i now : ℕ} {st : TcpStack} {s : TcpSocket} {peer : Peer} {got : Bytes}
  {packet : TcpPacket}

theorem takeIn_sends (h : peer.Sends s packet) (hack : s.ack = peer.next) :
    (takeIn s packet).1.rxBuffer = s.rxBuffer ++ packet.payload ∧
      (takeIn s packet).1.ack = (peer.after packet).next ∧
      (takeIn s packet).1.error = s.error ∧ (takeIn s packet).2 = packet.has tcpFlagFin := by
  have haccept : (acceptInOrderPayload s packet).1 =
      { s with
        ack := packet.seq + .ofNat 32 packet.payload.length
        rxBuffer := s.rxBuffer ++ packet.payload } := by
    have hfits := h.fits
    have hseq : packet.seq = s.ack := h.seq.trans hack.symm
    rcases acceptInOrderPayload_cases s packet with ⟨hno, heq⟩ | ⟨-, heq⟩
    · have hpay : packet.payload = [] := by
        rcases hno with hno | hno | hno
        · exact hno
        · exact absurd hseq hno
        · exact length_eq_zero_iff.1 (by omega)
      rw [heq, hpay, hseq]
      simp
    · rw [heq, min_eq_left hfits, take_length]
  rw [takeIn, haccept, consumeRemoteFin, Peer.after, h.seq]
  cases packet.has tcpFlagFin <;> simp

theorem Receiving.react (h : Receiving peer got s) (hp : peer.Sends s packet) :
    Receiving (peer.after packet) got (s.react now packet).1 := by
  obtain ⟨hstate, hack, herr, hbytes⟩ := h
  obtain ⟨hrx, hack', herr', hfin⟩ := takeIn_sends hp hack
  have htaken : (takeIn s packet).1.state = s.state := (takeIn_frame s packet).2
  have hall : got ++ (takeIn s packet).1.rxBuffer = (peer.after packet).sent := by
    rw [hrx, ← append_assoc, hbytes]
    rfl
  rw [herr] at herr'
  -- after the end of its stream the peer only acknowledges
  have hdone : peer.fin = true → peer.after packet = peer := by
    intro hf
    obtain ⟨hpay, hno⟩ := hp.last hf
    simp [Peer.after, hpay, hno]
  rw [TcpSocket.react]
  cases hs : s.state <;> rw [hs] at hstate htaken <;>
    simp only [halfClosed, Option.some.injEq, reduceCtorEq] at hstate
  case finWait1 =>
    simp only [handleFinWait1_fst, hfin]
    cases hf : packet.has tcpFlagFin <;> cases finAcknowledged s packet <;>
      exact ⟨by simp [htaken, halfClosed, enterTimeWait, Peer.after, ← hstate, hf], hack', herr',
        hall⟩
  case finWait2 =>
    simp only [handleFinWait2_fst, hfin]
    cases hf : packet.has tcpFlagFin <;>
      exact ⟨by simp [htaken, halfClosed, enterTimeWait, Peer.after, ← hstate, hf], hack', herr',
        hall⟩
  case closing =>
    rw [hdone hstate.symm]
    simp only [handleClosing]
    cases finAcknowledged s packet <;>
      exact ⟨by simp [hs, halfClosed, enterTimeWait, ← hstate], hack, herr, hbytes⟩
  case timeWait =>
    rw [hdone hstate.symm]
    simp only [(hp.last hstate.symm).2]
    exact ⟨by simp [hs, halfClosed, ← hstate], hack, herr, hbytes⟩
  case closed =>
    rw [hdone hstate.symm]
    exact ⟨by simp [hs, halfClosed, ← hstate], hack, herr, hbytes⟩

theorem GaveUp.react (h : GaveUp peer got s) (packet : TcpPacket) :
    GaveUp (peer.after packet) got (s.react now packet).1 := by
  rw [TcpSocket.react, h.state]
  exact ⟨h.state, h.error, h.bytes.trans (prefix_append _ _)⟩

theorem HalfClosed.state_ne_listen (h : HalfClosed peer got s) : s.state ≠ .listen := by
  intro hl
  rcases h with h | h
  · have hstate := h.state
    rw [hl] at hstate
    cases hstate
  · exact absurd (hl.symm.trans h.state) (by decide)

/-- A connection that is given no segment keeps its socket. -/
theorem getElem?_handlePacket (hs : st.sockets[i]? = some s) (hl : s.state ≠ .listen)
    (hr : st.route packet ≠ some (.socket i)) :
    (st.handlePacket now packet).2.sockets[i]? = some s := by
  have hother : ∀ j x, j ≠ i → (st.handleSocketPacket now j x packet).2.sockets[i]? = some s := by
    intro j x hj
    rw [handleSocketPacket]
    split_ifs <;> exact (getElem?_set_ne hj).trans hs
  rw [route] at hr
  rw [handlePacket]
  cases hsock : position (·.matchesPacket packet) st.sockets with
  | some found =>
    rw [hsock] at hr
    refine hother _ _ fun h => hr ?_
    rw [← h]
  | none =>
    cases hqueue : position (·.matchesPacket packet) st.acceptQueue with
    | some found =>
      dsimp only
      rw [handleQueuedAcceptPacket]
      split_ifs <;> exact hs
    | none =>
      cases hlisten : position (fun socket : TcpSocket =>
          socket.state = .listen && socket.localPort = packet.dstPort) st.sockets with
      | none =>
        dsimp only
        split_ifs <;> exact hs
      | some found =>
        refine hother _ _ fun h => hl ?_
        obtain ⟨hget, hfound⟩ := position_eq_some hlisten
        rw [h, hs] at hget
        obtain rfl := Option.some.inj hget
        simp only [Bool.and_eq_true, decide_eq_true_eq] at hfound
        exact hfound.1

/-- What time does to a socket: TIME-WAIT ends, or the connection gives up. -/
def Aged (s s' : TcpSocket) : Prop :=
  s' = s ∨ s.state = .timeWait ∧ s' = { s with state := .closed, timeWaitDeadlineTick := none } ∨
    s' = { s with state := .closed, error := some .timedOut, timeWaitDeadlineTick := none }

theorem getElem?_failSocket (ip : Ipv4Addr) (remotePort localPort : UInt16)
    (hs : st.sockets[i]? = some s) :
    ∃ s', (st.failSocket ip remotePort localPort .timedOut).sockets[i]? = some s' ∧ (s' = s ∨
      s' = { s with state := .closed, error := some .timedOut, timeWaitDeadlineTick := none }) := by
  rw [failSocket]
  split
  · exact ⟨s, hs, .inl rfl⟩
  next socket j hpos =>
  refine ⟨_, getElem?_withSocket hs, ?_⟩
  obtain ⟨hj, -⟩ := position_eq_some hpos
  split_ifs with hji
  · subst hji
    obtain rfl := Option.some.inj (hs.symm.trans hj)
    exact .inr rfl
  · exact .inl rfl

theorem aged_pollRetransmit (now : ℕ) (hs : st.sockets[i]? = some s) :
    ∃ s', (st.pollRetransmit now).2.sockets[i]? = some s' ∧ Aged s s' := by
  have hexpire : ∃ s', (st.expireTimeWait now).sockets[i]? = some s' ∧ Aged s s' := by
    refine ⟨_, by rw [expireTimeWait, getElem?_map, hs]; rfl, ?_⟩
    dsimp only
    split_ifs with h
    · exact .inr (.inl ⟨h.1, rfl⟩)
    · exact .inl rfl
  rw [pollRetransmit]
  generalize st.expireTimeWait now = st₁ at hexpire ⊢
  split_ifs
  · exact hexpire
  -- the connections that gave up, one after the other
  generalize List.map _ (List.filter (givesUp now) _) = failed
  refine List.foldlRecOn (motive := fun st' : TcpStack => ∃ s', st'.sockets[i]? = some s' ∧ Aged s s')
    failed _ hexpire ?_
  rintro st' ⟨s', hs', haged⟩ entry -
  obtain ⟨s'', hs'', rfl | rfl⟩ := getElem?_failSocket entry.1 entry.2.1 entry.2.2 hs'
  · exact ⟨_, hs'', haged⟩
  · refine ⟨_, hs'', .inr (.inr ?_)⟩
    rcases haged with rfl | ⟨-, rfl⟩ | rfl <;> rfl

theorem HalfClosed.aged {s' : TcpSocket} (h : HalfClosed peer got s) (ha : Aged s s') :
    HalfClosed peer got s' := by
  rcases ha with rfl | ⟨hwait, rfl⟩ | rfl
  · exact h
  · rcases h with ⟨hstate, hack, herr, hbytes⟩ | h
    · rw [hwait] at hstate
      exact .inl ⟨hstate, hack, herr, hbytes⟩
    · exact absurd (hwait.symm.trans h.state) (by decide)
  · refine .inr ⟨rfl, rfl, ?_⟩
    rcases h with h | h
    · exact h.bytes ▸ prefix_rfl
    · exact h.bytes

/-- One step of `drive_tcp`. -/
theorem HalfClosed.step {step : DriveStep} (h : HalfClosed peer got s)
    (hs : st.sockets[i]? = some s) (hin : peer.InOrder i st step) :
    ∃ s', (step.exec st).sockets[i]? = some s' ∧ HalfClosed (peer.step i st step) got s' := by
  cases step with
  | pollRetransmit now =>
    obtain ⟨s', hs', ha⟩ := aged_pollRetransmit now hs
    exact ⟨s', hs', h.aged ha⟩
  | popOutbound => exact ⟨s, hs, h⟩
  | handlePacket now packet =>
    rw [Peer.step, DriveStep.exec]
    split_ifs with hr
    · have hp := hin hr s hs
      have hsock := (connections_handleAt now st (.socket i) hp.noReset h.state_ne_listen).1
      rw [handlePacket_eq hr hs, hsock]
      refine ⟨_, getElem?_set_self (lt_of_getElem?_eq_some hs), ?_⟩
      rcases h with h | h
      · exact .inl (h.react hp)
      · exact .inr (h.react packet)
    · exact ⟨s, getElem?_handlePacket hs h.state_ne_listen hr, h⟩

theorem HalfClosed.run {steps : List DriveStep} (h : HalfClosed peer got s)
    (hs : st.sockets[i]? = some s) (hin : Peer.InOrderSteps i steps st peer) :
    ∃ s', (DriveStep.run steps st).sockets[i]? = some s' ∧
      HalfClosed (Peer.heard i steps st peer) got s' := by
  induction steps generalizing st s peer with
  | nil => exact ⟨s, hs, h⟩
  | cons step rest ih =>
    obtain ⟨s', hs', h'⟩ := h.step hs hin.1
    exact ih h' hs' hin.2

theorem HalfClosed.recv (h : HalfClosed peer got s) (hs : st.sockets[i]? = some s) (len : ℕ) :
    ∃ s', (st.recv i len).2.sockets[i]? = some s' ∧
      HalfClosed peer (got ++ (st.recv i len).1.toOption.getD []) s' := by
  rw [TcpStack.recv]
  rcases h with h | h
  · simp only [hs, h.error]
    split_ifs
    · have hstay : HalfClosed peer (got ++ []) s := .inl (by rwa [append_nil])
      cases s.state <;> exact ⟨s, hs, hstay⟩
    refine ⟨_, (getElem?_withSocket hs).trans (congrArg some (if_pos rfl)), .inl ?_⟩
    refine ⟨h.state, h.ack, rfl, ?_⟩
    change got ++ s.rxBuffer.take len ++ s.rxBuffer.drop len = peer.sent
    rw [append_assoc, take_append_drop, h.bytes]
  · simp only [hs, h.error]
    refine ⟨s, rfl, .inr ?_⟩
    change GaveUp peer (got ++ []) s
    rwa [append_nil]

end

namespace SocketTable
variable {table : SocketTable} {net : Network} {handle i : ℕ} {s : TcpSocket} {peer : Peer}
  {got : Bytes}

/-- The descriptor is that of socket `i` and its reading side is open. -/
def Reads (table : SocketTable) (handle i : ℕ) : Prop :=
  ∃ e, table.sockets[handle]? = some e ∧ e.backend = .tcp i ∧ e.recvShutdown = false

theorem Reads.entry (h : table.Reads handle i) :
    ∃ e, table.entry handle = .ok e ∧ e.backend = .tcp i ∧ e.recvShutdown = false := by
  obtain ⟨e, he, hb, hopen⟩ := h
  refine ⟨e, ?_, hb, hopen⟩
  simp [SocketTable.entry, he, hb]

theorem Reads.recordError (h : table.Reads handle i) (err : SocketError) :
    (table.recordError handle err).Reads handle i := by
  obtain ⟨e, he, hb, hopen⟩ := h
  rw [SocketTable.recordError]
  split_ifs
  · exact ⟨e, he, hb, hopen⟩
  · exact ⟨_, (getElem?_modify_eq ..).trans (congrArg _ he), hb, hopen⟩

/-- `recv` is that of the stack after `drive_tcp`. -/
theorem Reads.recv (h : table.Reads handle i) (net : Network) (len : ℕ) :
    (table.recv net handle len).1 = ((net.driveTcp table.tcp).recv i len).1.mapError mapTcpError ∧
      (table.recv net handle len).2.tcp = ((net.driveTcp table.tcp).recv i len).2 ∧
      (table.recv net handle len).2.Reads handle i := by
  obtain ⟨e, he, hb, hopen⟩ := h.entry
  simp only [SocketTable.recv, recvFrom, he, hb, hopen, Bool.false_eq_true, if_false]
  cases ((net.driveTcp table.tcp).recv i len).1 with
  | ok data => exact ⟨rfl, rfl, h⟩
  | error err =>
    have hreads : SocketTable.Reads ⟨((net.driveTcp table.tcp).recv i len).2, table.sockets⟩
      handle i := h
    refine ⟨rfl, ?_, hreads.recordError _⟩
    dsimp only
    rw [SocketTable.recordError]
    split_ifs <;> rfl

theorem Reads.poll_snd (h : table.Reads handle i) (net : Network) :
    (table.poll net handle).2 = { table with tcp := net.driveTcp table.tcp } := by
  obtain ⟨e, he, hb, -⟩ := h.entry
  simp only [SocketTable.poll, he, hb]
  cases (net.driveTcp table.tcp).sockets[i]? <;> rfl

theorem Reads.shutdown (h : table.Reads handle i) (net : Network) (now : ℕ)
    (hs : table.tcp.sockets[i]? = some s) (hest : s.state = .established) :
    (table.shutdown net now handle 1).2.tcp = net.driveTcp (table.tcp.close now i).2 ∧
      (table.shutdown net now handle 1).2.Reads handle i := by
  obtain ⟨e, he, hb, hopen⟩ := h.entry
  obtain ⟨e', he', -⟩ := h
  have hlt := lt_of_getElem?_eq_some he'
  simp only [SocketTable.shutdown, he, hb, TcpStack.close, hs, hest]
  exact ⟨rfl, _, getElem?_set_self hlt, rfl, by simp [hopen]⟩

/-- The table's socket `i` follows the peer. -/
def Follows (table : SocketTable) (handle i : ℕ) (peer : Peer) (got : Bytes) : Prop :=
  table.Reads handle i ∧ ∃ s, table.tcp.sockets[i]? = some s ∧ HalfClosed peer got s

theorem Follows.drive (h : table.Follows handle i peer got)
    (hin : peer.InOrderDrive i net table.tcp) :
    ∃ s, (net.driveTcp table.tcp).sockets[i]? = some s ∧
      HalfClosed (peer.drive i net table.tcp) got s := by
  obtain ⟨-, s, hs, hc⟩ := h
  exact hc.run hs hin

end SocketTable

section
variable {handle i now : ℕ} {table₀ table : SocketTable} {s : TcpSocket} {peer : Peer} {got : Bytes}
open SocketTable

theorem halfClosed_close (now : ℕ) (hs : table₀.tcp.sockets[i]? = some s) (hest : s.state = .established)
    (herr : s.error = none) : ∃ s', (table₀.tcp.close now i).2.sockets[i]? = some s' ∧
      HalfClosed s.peer [] s' := by
  simp only [TcpStack.close, hs, hest]
  exact ⟨_, (getElem?_withSocket hs).trans (congrArg some (if_pos rfl)), .inl ⟨rfl, rfl, herr, rfl⟩⟩

/-- Every table of a run. -/
theorem HalfRun.follows (h : HalfRun handle i now table₀ s table peer got)
    (he : table₀.Reads handle i) (hs : table₀.tcp.sockets[i]? = some s)
    (hest : s.state = .established) (herr : s.error = none) : table.Follows handle i peer got := by
  induction h with
  | shutdown net hin =>
    obtain ⟨htcp, hreads⟩ := he.shutdown net now hs hest
    obtain ⟨s', hs', hc⟩ := halfClosed_close now hs hest herr
    refine ⟨hreads, ?_⟩
    rw [htcp]
    exact hc.run hs' hin
  | recv net len _ hin ih =>
    obtain ⟨hfst, hsnd, hreads⟩ := ih.1.recv net len
    obtain ⟨s', hs', hc⟩ := ih.drive hin
    refine ⟨hreads, ?_⟩
    rw [hfst, hsnd]
    have hgot := hc.recv hs' len
    cases hr : ((net.driveTcp _).recv i len).1 with
    | ok data =>
      rw [hr] at hgot
      exact hgot
    | error err =>
      rw [hr] at hgot
      exact hgot
  | poll net _ hin ih =>
    rw [ih.1.poll_snd net]
    exact ⟨ih.1, ih.drive hin⟩
  | drive net _ hin ih => exact ⟨ih.1, ih.drive hin⟩

/-- After a shutdown, whatever arrives in order, is received or passes in time: what was received
and what waits is what the peer sent, or a prefix of it once our FIN has timed out. `recv` gives
the answer it owes exactly if the FIN has not timed out and the buffer has bytes or both sides are
done, and `poll` reports `read` exactly when `recv` would not block only if both sides are done
and the buffer has bytes. -/
theorem half_close_answers (he : table₀.Reads handle i) (hs : table₀.tcp.sockets[i]? = some s)
    (hest : s.state = .established) (herr : s.error = none)
    (h : HalfRun handle i now table₀ s table peer got) (net : Network)
    (hin : peer.InOrderDrive i net table.tcp) :
    ∃ s', (net.driveTcp table.tcp).sockets[i]? = some s' ∧
      got ++ s'.rxBuffer <+: (peer.drive i net table.tcp).sent ∧
      (s'.error = none → got ++ s'.rxBuffer = (peer.drive i net table.tcp).sent) ∧
      ∀ len, ((table.recv net handle len).1 = owed (peer.drive i net table.tcp).fin s' len ↔
          s'.error = none ∧ (s'.rxBuffer ≠ [] ∨ s'.state = .timeWait ∨ s'.state = .closed)) ∧
        ∃ ready, (table.poll net handle).1 = .ok ready ∧
          ((ready.read ↔ (table.recv net handle len).1 ≠ .error .wouldBlock) ↔
            s'.rxBuffer ≠ [] ∧ (s'.state = .timeWait ∨ s'.state = .closed)) := by
  have hf := h.follows he hs hest herr
  obtain ⟨s', hs', hc⟩ := hf.drive hin
  obtain ⟨e, hentry, hb, hopen⟩ := hf.1.entry
  refine ⟨s', hs', ?_, ?_, fun len => ?_⟩
  · rcases hc with hc | hc
    · exact hc.bytes ▸ prefix_rfl
    · exact hc.bytes
  · intro hnone
    rcases hc with hc | hc
    · exact hc.bytes
    · exact absurd (hnone.symm.trans hc.error) (by simp)
  rw [(hf.1.recv net len).1]
  simp only [SocketTable.poll, hentry, hb, hs', hopen, TcpStack.recv, owed]
  generalize (peer.drive i net table.tcp) = peer' at hc ⊢
  rcases hc with hc | hc
  · have hstate := hc.state
    simp only [hc.error]
    by_cases hrx : s'.rxBuffer = [] <;> cases hst : s'.state <;> rw [hst] at hstate <;>
      simp only [halfClosed, Option.some.injEq, reduceCtorEq] at hstate <;>
      simp [hrx, ← hstate, Except.mapError, mapTcpError]
  · simp only [hc.error, hc.state]
    by_cases hrx : s'.rxBuffer = [] <;> cases peer'.fin <;> simp [hrx, Except.mapError, mapTcpError]

end

/-- The first socket, connected, behind descriptor 0. -/
def connectedTable : SocketTable :=
  ⟨connectedOnce, [{ domain := .inet, kind := .stream, backend := .tcp 0 }]⟩

theorem connectedTable_reads : connectedTable.Reads 0 0 := ⟨_, rfl, rfl, rfl⟩

/-- At tick `now` the segments arrive, and everything is sent. -/
def networkAt (now : ℕ) (inbound : List TcpPacket) : Network where
  up := true
  rounds k := ⟨now, if k = 0 then inbound.map fun packet => (now, packet) else [], fun _ _ => true, []⟩
  udpSocketRecv _ := none
  icmpSocketRecv _ := none

/-- The table after `shutdown(1)`. -/
def afterShutdown : SocketTable := (connectedTable.shutdown (networkAt 0 []) 0 0 1).2

/-- The peer of `connectedTable`. -/
def quietPeer : Peer := ⟨[], false, 1001⟩

theorem halfRun_afterShutdown :
    HalfRun 0 0 0 connectedTable connectedSocket afterShutdown quietPeer [] :=
  .shutdown (networkAt 0 []) (by decide +kernel)

/-- Two bytes and the acknowledgement of our FIN, then a byte with the peer's FIN. -/
def twoBytes : Network := networkAt 1 [fromPeer 1001 3 tcpFlagAck [7, 8]]
def lastByte : Network := networkAt 2 [fromPeer 1003 3 (tcpFlagAck ||| tcpFlagFin) [9]]

/-- `poll` with the first segment and `recv` with the second. -/
def afterLastByte : SocketTable := ((afterShutdown.poll twoBytes 0).2.recv lastByte 0 8).2

/-- All three bytes are received. When TIME-WAIT has ended, `recv` reports the end as it should. -/
theorem half_close_answers_expired :
    ∃ s, ((networkAt 200 []).driveTcp afterLastByte.tcp).sockets[0]? = some s ∧
      s.state = .closed ∧ [7, 8, 9] ++ s.rxBuffer = [7, 8, 9] ∧
      (afterLastByte.recv (networkAt 200 []) 0 8).1 = owed true s 8 := by
  have hpoll : HalfRun 0 0 0 connectedTable connectedSocket (afterShutdown.poll twoBytes 0).2
      ⟨[7, 8], false, 1003⟩ [] := halfRun_afterShutdown.poll twoBytes (by decide +kernel)
  have hrecv : HalfRun 0 0 0 connectedTable connectedSocket afterLastByte
      ⟨[7, 8, 9], true, 1005⟩ [7, 8, 9] := hpoll.recv lastByte 8 (by decide +kernel)
  obtain ⟨s, hs, -, hbytes, hanswers⟩ := half_close_answers connectedTable_reads connectedOnce_socket
    rfl rfl hrecv (networkAt 200 []) (by decide +kernel)
  have hsock : ((networkAt 200 []).driveTcp afterLastByte.tcp).sockets[0]? =
      some { connectedSocket with state := .closed, seq := 3, ack := 1005 } := by decide +kernel
  obtain rfl := Option.some.inj (hsock.symm.trans hs)
  exact ⟨_, hs, rfl, hbytes rfl, ((hanswers 8).1.2 ⟨rfl, .inr (.inr rfl)⟩)⟩

/-- Two bytes arrive, but nothing acknowledges our FIN, which is sent three times more. -/
def unacknowledgedTable : SocketTable :=
  let table := (afterShutdown.poll (networkAt 1 [fromPeer 1001 2 tcpFlagAck [7, 8]]) 0).2
  [25, 100, 250].foldl
    (fun table now => { table with tcp := (networkAt now []).driveTcp table.tcp }) table

/-- Before the peer's FIN `recv` finds the socket not connected, and `poll` does not see the bytes
that arrived. When our FIN times out, `recv` fails although bytes wait. -/
theorem half_close_reported_wrong :
    HalfRun 0 0 0 connectedTable connectedSocket afterShutdown quietPeer [] ∧
      (afterShutdown.recv (networkAt 1 []) 0 8).1 = .error .invalid ∧
      quietPeer.InOrderDrive 0 twoBytes afterShutdown.tcp ∧
      (afterShutdown.recv twoBytes 0 8).1 = .ok [7, 8] ∧
      (afterShutdown.poll twoBytes 0).1 = .ok {} ∧
      HalfRun 0 0 0 connectedTable connectedSocket unacknowledgedTable ⟨[7, 8], false, 1003⟩ [] ∧
      (unacknowledgedTable.recv (networkAt 700 []) 0 8).1 = .error .timedOut := by
  refine ⟨halfRun_afterShutdown, by decide +kernel, by decide +kernel, by decide +kernel,
    by decide +kernel, ?_, by decide +kernel⟩
  have hpoll := halfRun_afterShutdown.poll (networkAt 1 [fromPeer 1001 2 tcpFlagAck [7, 8]])
    (by decide +kernel)
  have honce := hpoll.drive (networkAt 25 []) (by decide +kernel)
  have htwice := honce.drive (networkAt 100 []) (by decide +kernel)
  exact htwice.drive (networkAt 250 []) (by decide +kernel)

end Ristux.Net
