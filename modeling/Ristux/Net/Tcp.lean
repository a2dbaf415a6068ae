import Ristux.Lib.Serial

-- `kernel/src/net/tcp.rs`: sockets, the queue of connections that wait to be accepted, the
-- segments to send and the segments to send again. Every function that reads the clock takes the
-- tick as an argument.

namespace Ristux.Net

abbrev Bytes := List UInt8

structure Ipv4Addr where
  a : UInt8
  b : UInt8
  c : UInt8
  d : UInt8
  deriving Repr, DecidableEq

def tcpFlagFin : UInt8 := 0x01
def tcpFlagSyn : UInt8 := 0x02
def tcpFlagRst : UInt8 := 0x04
def tcpFlagPsh : UInt8 := 0x08
def tcpFlagAck : UInt8 := 0x10

def tcpRetransmitTicks : ℕ := 25
def tcpMaxRetransmits : ℕ := 3
def tcpRecvWindow : ℕ := 4096
def tcpTimeWaitTicks : ℕ := 100

inductive TcpState
  | closed | listen | synSent | established | closeWait | finWait1 | finWait2 | closing | lastAck
  | timeWait
  deriving Repr, DecidableEq

inductive TcpError
  | notConnected | wouldBlock | invalidState | alreadyConnected | inProgress | connectionReset
  | timedOut
  deriving Repr, DecidableEq

structure TcpPacket where
  srcIp : Ipv4Addr
  dstIp : Ipv4Addr
  srcPort : UInt16
  dstPort : UInt16
  seq : BitVec 32
  ack : BitVec 32
  flags : UInt8
  payload : Bytes
  deriving Repr, DecidableEq

/-- `packet.flags & flag != 0`. -/
def TcpPacket.has (packet : TcpPacket) (flag : UInt8) : Bool := packet.flags &&& flag != 0

structure TcpOutbound where
  dstIp : Ipv4Addr
  segment : Bytes
  deriving Repr, DecidableEq

structure TcpRetransmit where
  dstIp : Ipv4Addr
  localPort : UInt16
  remotePort : UInt16
  endSeq : BitVec 32
  segment : Bytes
  deadlineTick : ℕ
  attempts : ℕ
  deriving Repr, DecidableEq

structure TcpSocket where
  localPort : UInt16
  remoteIp : Ipv4Addr
  remotePort : UInt16
  state : TcpState
  seq : BitVec 32
  ack : BitVec 32
  window : UInt16
  rxBuffer : Bytes
  error : Option TcpError
  timeWaitDeadlineTick : Option ℕ
  deriving Repr, DecidableEq

variable (socket : TcpSocket)

namespace TcpSocket

def new (localPort : UInt16) : TcpSocket where
  localPort := localPort
  remoteIp := ⟨0, 0, 0, 0⟩
  remotePort := 0
  state := .closed
  seq := 1
  ack := 0
  window := .ofNat tcpRecvWindow
  rxBuffer := []
  error := none
  timeWaitDeadlineTick := none

def established (socket : TcpSocket) : Bool := socket.state = .established

def recvWindowAvailable : ℕ := socket.window.toNat - socket.rxBuffer.length

def advertisedWindow : UInt16 := .ofNat (min socket.recvWindowAvailable 65535)

def matchesPacket (packet : TcpPacket) : Bool :=
  socket.localPort = packet.dstPort && socket.remotePort = packet.srcPort &&
    socket.remoteIp = packet.srcIp

end TcpSocket

structure TcpStack where
  sockets : List TcpSocket
  acceptQueue : List TcpSocket
  pendingOutbound : List TcpOutbound
  retransmits : List TcpRetransmit
  deriving Repr, DecidableEq

def toBeBytes16 (x : UInt16) : Bytes := [.ofNat (x.toNat / 256), .ofNat x.toNat]

def toBeBytes32 (x : BitVec 32) : Bytes :=
  [.ofNat (x.toNat / 2 ^ 24), .ofNat (x.toNat / 2 ^ 16), .ofNat (x.toNat / 2 ^ 8), .ofNat x.toNat]

def buildTcpSegmentFields (srcPort dstPort : UInt16) (seq ack : BitVec 32) (window : UInt16)
    (flags : UInt8) (payload : Bytes) : Bytes :=
  toBeBytes16 srcPort ++ toBeBytes16 dstPort ++ toBeBytes32 seq ++ toBeBytes32 ack ++
    [0x50, flags] ++ toBeBytes16 window ++ [0, 0] ++ [0, 0] ++ payload

def buildTcpSegment (flags : UInt8) (payload : Bytes) : Bytes :=
  buildTcpSegmentFields socket.localPort socket.remotePort socket.seq socket.ack
    socket.advertisedWindow flags payload

def buildOutbound (flags : UInt8) (payload : Bytes) : TcpOutbound :=
  ⟨socket.remoteIp, buildTcpSegment socket flags payload⟩

def tcpSequenceSpan (flags : UInt8) (payloadLen : ℕ) : BitVec 32 :=
  .ofNat 32 payloadLen +
    ((if flags &&& tcpFlagSyn ≠ 0 then 1 else 0) + if flags &&& tcpFlagFin ≠ 0 then 1 else 0)

def saturatingAdd (x y : ℕ) : ℕ := min (x + y) (2 ^ 64 - 1)

variable (now : ℕ)

def buildRetransmit (socket : TcpSocket) (segment : Bytes) (seq span : BitVec 32) :
    Option TcpRetransmit :=
  if span = 0 then none
  else some
    { dstIp := socket.remoteIp
      localPort := socket.localPort
      remotePort := socket.remotePort
      endSeq := seq + span
      segment := segment
      deadlineTick := saturatingAdd now tcpRetransmitTicks
      attempts := 0 }

def buildResetForUnmatched (packet : TcpPacket) : TcpOutbound :=
  let (seq, ack, flags) :=
    if packet.has tcpFlagAck then (packet.ack, 0, tcpFlagRst)
    else (0, packet.seq + tcpSequenceSpan packet.flags packet.payload.length,
      tcpFlagRst ||| tcpFlagAck)
  ⟨packet.srcIp, buildTcpSegmentFields packet.dstPort packet.srcPort seq ack 0 flags []⟩

def seqAtOrAfter (seq checkpoint : BitVec 32) : Bool := Lib.Serial.atOrAfter seq checkpoint

def finAcknowledged (packet : TcpPacket) : Bool :=
  packet.has tcpFlagAck && seqAtOrAfter packet.ack socket.seq

def enterTimeWait (socket : TcpSocket) : TcpSocket :=
  { socket with
    state := .timeWait
    timeWaitDeadlineTick := some (saturatingAdd now tcpTimeWaitTicks) }

def handleEstablishedLike (packet : TcpPacket) (finState : TcpState) :
    TcpSocket × Option TcpOutbound :=
  let (socket, ackNeeded) :=
    if packet.payload ≠ [] then
      let accepted := min packet.payload.length socket.recvWindowAvailable
      (if packet.seq = socket.ack ∧ 0 < accepted then
        { socket with
          ack := packet.seq + .ofNat 32 accepted
          rxBuffer := socket.rxBuffer ++ packet.payload.take accepted }
      else socket, true)
    else (socket, false)
  let (socket, ackNeeded) :=
    if packet.has tcpFlagFin then
      let finSeq := packet.seq + .ofNat 32 packet.payload.length
      (if finSeq = socket.ack then { socket with ack := finSeq + 1, state := finState }
      else socket, true)
    else (socket, ackNeeded)
  (socket, if ackNeeded then some (buildOutbound socket tcpFlagAck []) else none)

def acceptInOrderPayload (packet : TcpPacket) : TcpSocket × Bool :=
  if packet.payload = [] then (socket, false)
  else
    let accepted := min packet.payload.length socket.recvWindowAvailable
    (if packet.seq = socket.ack ∧ 0 < accepted then
      { socket with
        ack := packet.seq + .ofNat 32 accepted
        rxBuffer := socket.rxBuffer ++ packet.payload.take accepted }
    else socket, true)

def consumeRemoteFin (packet : TcpPacket) : TcpSocket × Bool :=
  if packet.has tcpFlagFin then
    let finSeq := packet.seq + .ofNat 32 packet.payload.length
    if finSeq = socket.ack then ({ socket with ack := finSeq + 1 }, true) else (socket, false)
  else (socket, false)

def handleFinWait1 (socket : TcpSocket) (packet : TcpPacket) :
    TcpSocket × Option TcpOutbound :=
  let finAcked := finAcknowledged socket packet
  let (socket, ackNeeded) := acceptInOrderPayload socket packet
  let (socket, consumed) := consumeRemoteFin socket packet
  let socket :=
    if consumed then
      if finAcked then enterTimeWait now socket else { socket with state := .closing }
    else if finAcked then { socket with state := .finWait2 }
    else socket
  (socket, if ackNeeded || consumed then some (buildOutbound socket tcpFlagAck []) else none)

def handleFinWait2 (socket : TcpSocket) (packet : TcpPacket) :
    TcpSocket × Option TcpOutbound :=
  let (socket, ackNeeded) := acceptInOrderPayload socket packet
  let (socket, consumed) := consumeRemoteFin socket packet
  let socket := if consumed then enterTimeWait now socket else socket
  (socket, if ackNeeded || consumed then some (buildOutbound socket tcpFlagAck []) else none)

def handleClosing (socket : TcpSocket) (packet : TcpPacket) :
    TcpSocket × Option TcpOutbound :=
  let outbound :=
    if packet.has tcpFlagFin then some (buildOutbound socket tcpFlagAck []) else none
  (if finAcknowledged socket packet then enterTimeWait now socket else socket, outbound)

/-- The state machine of a socket of the table: the socket afterwards, a new connection for the
accept queue and a segment to send. -/
def TcpSocket.react (socket : TcpSocket) (packet : TcpPacket) :
    TcpSocket × Option TcpSocket × Option TcpOutbound :=
  let stay (r : TcpSocket × Option TcpOutbound) := (r.1, none, r.2)
  match socket.state with
  | .synSent =>
    if packet.flags &&& (tcpFlagSyn ||| tcpFlagAck) = (tcpFlagSyn ||| tcpFlagAck) then
      let socket :=
        { socket with
          ack := packet.seq + 1
          seq := packet.ack
          state := .established
          error := none
          timeWaitDeadlineTick := none }
      (socket, none, some (buildOutbound socket tcpFlagAck []))
    else (socket, none, none)
  | .established => stay (handleEstablishedLike socket packet .closeWait)
  | .listen =>
    if packet.has tcpFlagSyn then
      let peer :=
        { TcpSocket.new socket.localPort with
          remoteIp := packet.srcIp
          remotePort := packet.srcPort
          state := .established
          seq := 1
          ack := packet.seq + 1 }
      (socket, some { peer with seq := peer.seq + 1 },
        some (buildOutbound peer (tcpFlagSyn ||| tcpFlagAck) []))
    else (socket, none, none)
  | .closeWait => stay (handleEstablishedLike socket packet .closeWait)
  | .finWait1 => stay (handleFinWait1 now socket packet)
  | .finWait2 => stay (handleFinWait2 now socket packet)
  | .closing => stay (handleClosing now socket packet)
  | .lastAck =>
    let outbound :=
      if packet.has tcpFlagFin then some (buildOutbound socket tcpFlagAck []) else none
    (if finAcknowledged socket packet then
      { socket with state := .closed, timeWaitDeadlineTick := none }
    else socket, none, outbound)
  | .timeWait =>
    if packet.has tcpFlagFin then
      let socket := enterTimeWait now socket
      (socket, none, some (buildOutbound socket tcpFlagAck []))
    else (socket, none, none)
  | .closed => (socket, none, none)

/-- The state machine of a connection that waits to be accepted. -/
def TcpSocket.reactQueued (socket : TcpSocket) (packet : TcpPacket) :
    TcpSocket × Option TcpOutbound :=
  match socket.state with
  | .established => handleEstablishedLike socket packet .closeWait
  | .closeWait => handleEstablishedLike socket packet .closeWait
  | .finWait1 => handleFinWait1 now socket packet
  | .finWait2 => handleFinWait2 now socket packet
  | .closing => handleClosing now socket packet
  | .timeWait =>
    if packet.has tcpFlagFin then
      let socket := enterTimeWait now socket
      (socket, some (buildOutbound socket tcpFlagAck []))
    else (socket, none)
  | _ => (socket, none)

def TcpRetransmit.isOf (entry : TcpRetransmit) (remoteIp : Ipv4Addr)
    (remotePort localPort : UInt16) : Bool :=
  entry.dstIp = remoteIp && entry.remotePort = remotePort && entry.localPort = localPort

/-- The first element with the property, and its index. -/
def position {α : Type} (p : α → Bool) (l : List α) : Option (α × ℕ) := l.zipIdx.find? (p ·.1)

variable (st : TcpStack) (nowTick : ℕ) (remoteIp : Ipv4Addr) (remotePort localPort : UInt16)

namespace TcpStack

def new : TcpStack := ⟨[], [], [], []⟩

def withSocket (i : ℕ) (socket : TcpSocket) : TcpStack :=
  { st with sockets := st.sockets.set i socket }

def queueOutbound (outbound : TcpOutbound) (retransmit : Option TcpRetransmit) :
    TcpStack :=
  { st with
    retransmits := st.retransmits ++ retransmit.toList
    pendingOutbound := st.pendingOutbound ++ [outbound] }

def acknowledge
    (ack : BitVec 32) : TcpStack :=
  { st with
    retransmits := st.retransmits.filter fun entry =>
      !(entry.isOf remoteIp remotePort localPort && decide (entry.endSeq ≤ ack)) }

def removeRetransmits :
    TcpStack :=
  { st with
    retransmits := st.retransmits.filter fun entry => !entry.isOf remoteIp remotePort localPort }

def failSocket
    (error : TcpError) : TcpStack :=
  match position (fun socket : TcpSocket => socket.remoteIp = remoteIp &&
      socket.remotePort = remotePort && socket.localPort = localPort) st.sockets with
  | none => st
  | some (socket, i) =>
    st.withSocket i
      { socket with state := .closed, error := some error, timeWaitDeadlineTick := none }

def expireTimeWait : TcpStack :=
  { st with
    sockets := st.sockets.map fun socket =>
      if socket.state = .timeWait ∧
          (socket.timeWaitDeadlineTick.map (decide <| · ≤ nowTick)).getD false
      then { socket with state := .closed, timeWaitDeadlineTick := none }
      else socket }

def «open» : ℕ × TcpStack :=
  let localPort : UInt16 := 49152 + .ofNat st.sockets.length
  (st.sockets.length, { st with sockets := st.sockets ++ [.new localPort] })

def bindExisting (socket : ℕ) (localPort : UInt16) :
    Except TcpError Unit × TcpStack :=
  match st.sockets[socket]? with
  | none => (.error .invalidState, st)
  | some s => (.ok (), st.withSocket socket { s with localPort := localPort })

def listen (st : TcpStack) (socket : ℕ) : Except TcpError Unit × TcpStack :=
  match st.sockets[socket]? with
  | none => (.error .invalidState, st)
  | some s =>
    (.ok (), st.withSocket socket { s with state := .listen, timeWaitDeadlineTick := none })

/-- Sends a segment of the socket's and counts the sequence numbers it takes. -/
def transmit (st : TcpStack) (i : ℕ) (socket : TcpSocket) (flags : UInt8)
    (payload : Bytes) : TcpStack :=
  let outbound := buildOutbound socket flags payload
  let span := tcpSequenceSpan flags payload.length
  let retransmit := buildRetransmit now socket outbound.segment socket.seq span
  (st.withSocket i { socket with seq := socket.seq + span }).queueOutbound outbound retransmit

def connect (st : TcpStack) (socket : ℕ) (remoteIp : Ipv4Addr) (remotePort : UInt16) :
    Except TcpError Unit × TcpStack :=
  match st.sockets[socket]? with
  | none => (.error .invalidState, st)
  | some s =>
    match s.state with
    | .closed =>
      let s :=
        { s with
          remoteIp := remoteIp
          remotePort := remotePort
          state := .synSent
          error := none
          timeWaitDeadlineTick := none }
      (.ok (), st.transmit now socket s tcpFlagSyn [])
    | .synSent => (.error .inProgress, st)
    | .established => (.error .alreadyConnected, st)
    | _ => (.error .invalidState, st)

def accept (socket : ℕ) : Except TcpError ℕ × TcpStack :=
  match st.sockets[socket]? with
  | none => (.error .invalidState, st)
  | some listener =>
    if listener.state ≠ .listen then (.error .invalidState, st)
    else
      match st.acceptQueue.getLast? with
      | none => (.error .wouldBlock, st)
      | some peer =>
        (.ok st.sockets.length,
          { st with sockets := st.sockets ++ [peer], acceptQueue := st.acceptQueue.dropLast })

def send (st : TcpStack) (socket : ℕ) (data : Bytes) : Except TcpError ℕ × TcpStack :=
  match st.sockets[socket]? with
  | none => (.error .invalidState, st)
  | some s =>
    match s.error with
    | some error => (.error error, st)
    | none =>
      if !s.established then (.error .notConnected, st)
      else (.ok data.length, st.transmit now socket s (tcpFlagAck ||| tcpFlagPsh) data)

/-- The bytes put into a buffer of length `len`. -/
def recv (socket : ℕ) (len : ℕ) : Except TcpError Bytes × TcpStack :=
  match st.sockets[socket]? with
  | none => (.error .invalidState, st)
  | some s =>
    match s.error with
    | some error => (.error error, st)
    | none =>
      if s.rxBuffer = [] then
        match s.state with
        | .established => (.error .wouldBlock, st)
        | .closeWait | .timeWait | .closed => (.ok [], st)
        | _ => (.error .notConnected, st)
      else
        (.ok (s.rxBuffer.take len), st.withSocket socket { s with rxBuffer := s.rxBuffer.drop len })

def close (st : TcpStack) (socket : ℕ) : Except TcpError Unit × TcpStack :=
  match st.sockets[socket]? with
  | none => (.error .invalidState, st)
  | some s =>
    let leave (nextState : TcpState) :=
      (.ok (), st.transmit now socket { s with state := nextState, timeWaitDeadlineTick := none }
        (tcpFlagAck ||| tcpFlagFin) [])
    match s.state with
    | .established => leave .finWait1
    | .closeWait => leave .lastAck
    | .finWait1 | .finWait2 | .lastAck | .timeWait => (.ok (), st)
    | _ => (.ok (), st.withSocket socket { s with state := .closed })

def handleSocketPacket (st : TcpStack) (index : ℕ) (socket : TcpSocket)
    (packet : TcpPacket) : Bool × TcpStack :=
  if packet.has tcpFlagRst && decide (socket.state ≠ .listen) then
    let socket :=
      { socket with
        state := .closed
        error := some .connectionReset
        timeWaitDeadlineTick := none }
    (true,
      (st.withSocket index socket).removeRetransmits packet.srcIp packet.srcPort packet.dstPort)
  else
    let st :=
      if packet.has tcpFlagAck then
        st.acknowledge packet.srcIp packet.srcPort packet.dstPort packet.ack
      else st
    let (socket, peer, outbound) := socket.react now packet
    let st := st.withSocket index socket
    (true, { st with
      acceptQueue := st.acceptQueue ++ peer.toList
      pendingOutbound := st.pendingOutbound ++ outbound.toList })

def handleQueuedAcceptPacket (st : TcpStack) (index : ℕ) (socket : TcpSocket)
    (packet : TcpPacket) : Bool × TcpStack :=
  if packet.has tcpFlagRst then
    (true, { st with acceptQueue := st.acceptQueue.eraseIdx index }.removeRetransmits
      packet.srcIp packet.srcPort packet.dstPort)
  else
    let st :=
      if packet.has tcpFlagAck then
        st.acknowledge packet.srcIp packet.srcPort packet.dstPort packet.ack
      else st
    let (socket, outbound) := socket.reactQueued now packet
    (true, { st with
      acceptQueue := st.acceptQueue.set index socket
      pendingOutbound := st.pendingOutbound ++ outbound.toList })

def handlePacket (st : TcpStack) (packet : TcpPacket) : Bool × TcpStack :=
  match position (·.matchesPacket packet) st.sockets with
  | some (socket, index) => st.handleSocketPacket now index socket packet
  | none =>
    match position (·.matchesPacket packet) st.acceptQueue with
    | some (socket, index) => st.handleQueuedAcceptPacket now index socket packet
    | none =>
      match position (fun socket : TcpSocket =>
          socket.state = .listen && socket.localPort = packet.dstPort) st.sockets with
      | some (socket, index) => st.handleSocketPacket now index socket packet
      | none =>
        if packet.has tcpFlagRst then (false, st)
        else (true, { st with
          pendingOutbound := st.pendingOutbound ++ [buildResetForUnmatched packet] })

variable (entry : TcpRetransmit)

/-- The segment of the entry is sent again now. -/
def retries : Bool :=
  entry.deadlineTick ≤ nowTick && entry.attempts < tcpMaxRetransmits

/-- The entry has been sent again as often as allowed and is due once more. -/
def givesUp : Bool :=
  entry.deadlineTick ≤ nowTick && tcpMaxRetransmits ≤ entry.attempts

def pollRetransmit : Bool × TcpStack :=
  let st := st.expireTimeWait nowTick
  let again := st.retransmits.filter (retries nowTick)
  let failed := (st.retransmits.filter (givesUp nowTick)).map fun entry =>
    (entry.dstIp, entry.remotePort, entry.localPort)
  let st :=
    { st with
      retransmits := st.retransmits.map fun entry =>
        if retries nowTick entry then
          let attempts := min (entry.attempts + 1) 255
          { entry with
            attempts := attempts
            deadlineTick := saturatingAdd nowTick (tcpRetransmitTicks <<< min attempts 5) }
        else entry
      pendingOutbound := st.pendingOutbound ++ again.map fun entry => ⟨entry.dstIp, entry.segment⟩ }
  if failed = [] then (again ≠ [], st)
  else
    let st :=
      { st with
        retransmits := st.retransmits.filter fun entry =>
          !failed.any fun (ip, remotePort, localPort) => entry.isOf ip remotePort localPort }
    (true, failed.foldl (fun st (ip, remotePort, localPort) =>
      st.failSocket ip remotePort localPort .timedOut) st)

def popOutbound : Option TcpOutbound × TcpStack :=
  (st.pendingOutbound.head?, { st with pendingOutbound := st.pendingOutbound.tail })

def hasPendingAccept : Bool := st.acceptQueue ≠ []

def peerAddr (socket : ℕ) : Option (Ipv4Addr × UInt16) :=
  st.sockets[socket]?.bind fun s =>
    if s.remotePort = 0 then none else some (s.remoteIp, s.remotePort)

def takeError (socket : ℕ) : Option TcpError × TcpStack :=
  match st.sockets[socket]? with
  | none => (none, st)
  | some s => (s.error, st.withSocket socket { s with error := none })

end TcpStack

end Ristux.Net
