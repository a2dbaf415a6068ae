import Ristux.Net.Drive

-- `kernel/src/net/socket.rs`: the entries of the table, and the calls that drive the stack.

namespace Ristux.Net

inductive SocketDomain
  | inet
  deriving Repr, DecidableEq

inductive SocketType
  | stream | datagram | rawIcmp
  deriving Repr, DecidableEq

inductive SocketError
  | badFd | invalid | refcountOverflow | wouldBlock | addressInUse | alreadyConnected | inProgress
  | connectionReset | timedOut
  deriving Repr, DecidableEq

structure SocketReady where
  read : Bool := false
  write : Bool := false
  error : Bool := false
  hangup : Bool := false
  deriving Repr, DecidableEq

inductive SocketBackend
  | closed
  | tcp (socket : ℕ)
  | udp (socket : ℕ)
  | icmp (socket : ℕ)
  deriving Repr, DecidableEq

structure SocketAddress where
  ip : Ipv4Addr
  port : UInt16
  deriving Repr, DecidableEq

structure SocketOptions where
  reuseAddr : Bool := false
  recvTimeoutMs : Option ℕ := none
  sendTimeoutMs : Option ℕ := none
  tcpNodelay : Bool := false
  error : ℤ := 0
  deriving Repr, DecidableEq

structure SocketEntry where
  domain : SocketDomain
  kind : SocketType
  backend : SocketBackend
  peer : Option SocketAddress := none
  options : SocketOptions := {}
  recvShutdown : Bool := false
  sendShutdown : Bool := false
  fdFlags : ℕ := 0
  statusFlags : ℕ := 0
  refCount : ℕ := 1
  deriving Repr, DecidableEq

structure SocketTable where
  tcp : TcpStack
  sockets : List SocketEntry

/-- The bytes put into the reader's buffer, and where they came from. -/
structure SocketRecv where
  data : Bytes
  peer : Option SocketAddress
  deriving Repr, DecidableEq

def mapTcpError : TcpError → SocketError
  | .wouldBlock => .wouldBlock
  | .notConnected | .invalidState => .invalid
  | .alreadyConnected => .alreadyConnected
  | .inProgress => .inProgress
  | .connectionReset => .connectionReset
  | .timedOut => .timedOut

def socketErrorCode : SocketError → ℤ
  | .addressInUse => 98
  | .connectionReset => 104
  | .timedOut => 110
  | _ => 0

namespace SocketTable

def entry (table : SocketTable) (handle : ℕ) : Except SocketError SocketEntry :=
  match table.sockets[handle]? with
  | none => .error .badFd
  | some e => if e.backend = .closed then .error .badFd else .ok e

def insertEntry (table : SocketTable) (e : SocketEntry) : ℕ × SocketTable :=
  match position (fun e : SocketEntry => e.backend = .closed && e.refCount = 0) table.sockets with
  | some (_, i) => (i, { table with sockets := table.sockets.set i e })
  | none => (table.sockets.length, { table with sockets := table.sockets ++ [e] })

def accept (net : Network) (table : SocketTable) (handle : ℕ) :
    Except SocketError ℕ × SocketTable :=
  match table.entry handle with
  | .error e => (.error e, table)
  | .ok e =>
    match e.backend with
    | .closed => (.error .badFd, table)
    | .tcp socket =>
      let (result, tcp) := (net.driveTcp table.tcp).accept socket
      let table := { table with tcp := tcp }
      match result with
      | .error err => (.error (mapTcpError err), table)
      | .ok accepted =>
        let peer := (tcp.peerAddr accepted).map fun (ip, port) => ⟨ip, port⟩
        let (i, table) := table.insertEntry
          { domain := e.domain
            kind := e.kind
            backend := .tcp accepted
            peer := peer
            options := e.options }
        (.ok i, table)
    | .udp _ | .icmp _ => (.error .invalid, table)

def peerAddr (table : SocketTable) (handle : ℕ) : Except SocketError (Option SocketAddress) :=
  match table.entry handle with
  | .error e => .error e
  | .ok e =>
    match e.backend with
    | .closed => .error .badFd
    | .tcp socket => .ok ((table.tcp.peerAddr socket).map fun (ip, port) => ⟨ip, port⟩)
    | .udp _ | .icmp _ => .ok e.peer

def recordError (table : SocketTable) (handle : ℕ) (err : SocketError) : SocketTable :=
  if socketErrorCode err = 0 then table
  else
    { table with
      sockets := table.sockets.modify handle fun e =>
        { e with options := { e.options with error := socketErrorCode err } } }

/-- `recv_from` with a buffer of length `len`. -/
def recvFrom (net : Network) (table : SocketTable) (handle len : ℕ) :
    Except SocketError SocketRecv × SocketTable :=
  match table.entry handle with
  | .error e => (.error e, table)
  | .ok e =>
    if e.recvShutdown then (.ok ⟨[], (table.peerAddr handle).toOption.join⟩, table)
    else
      match e.backend with
      | .closed => (.error .badFd, table)
      | .tcp socket =>
        let (result, tcp) := (net.driveTcp table.tcp).recv socket len
        let table := { table with tcp := tcp }
        match result with
        | .error err => (.error (mapTcpError err), table.recordError handle (mapTcpError err))
        | .ok data =>
          (.ok ⟨data, (tcp.peerAddr socket).map fun (ip, port) => ⟨ip, port⟩⟩, table)
      | .udp socket =>
        match net.udpSocketRecv socket with
        | none => (.error .wouldBlock, table)
        | some (payload, src, srcPort) => (.ok ⟨payload.take len, some ⟨src, srcPort⟩⟩, table)
      | .icmp socket =>
        match net.icmpSocketRecv socket with
        | none => (.error .wouldBlock, table)
        | some (payload, src) => (.ok ⟨payload.take len, some ⟨src, 0⟩⟩, table)

def recv (net : Network) (table : SocketTable) (handle len : ℕ) :
    Except SocketError Bytes × SocketTable :=
  ((table.recvFrom net handle len).1.map (·.data), (table.recvFrom net handle len).2)

def poll (net : Network) (table : SocketTable) (handle : ℕ) :
    Except SocketError SocketReady × SocketTable :=
  match table.entry handle with
  | .error e => (.error e, table)
  | .ok e =>
    match e.backend with
    | .closed => (.error .badFd, table)
    | .tcp index =>
      let table := { table with tcp := net.driveTcp table.tcp }
      match table.tcp.sockets[index]? with
      | none => (.error .badFd, table)
      | some socket =>
        let ready : SocketReady :=
          match socket.state with
          | .listen => { read := table.tcp.hasPendingAccept }
          | .established =>
            { read := e.recvShutdown || !socket.rxBuffer.isEmpty, write := !e.sendShutdown }
          | .timeWait | .closed =>
            { read := e.recvShutdown || !socket.rxBuffer.isEmpty
              error := socket.error.isSome
              hangup := true }
          | .closeWait =>
            { read := true, write := !e.sendShutdown, hangup := socket.rxBuffer.isEmpty }
          | _ => {}
        (.ok ready, table)
    | .udp socket =>
      (.ok { read := e.recvShutdown || net.udpSocketReadable socket
             write := !e.sendShutdown
             hangup := e.recvShutdown }, table)
    | .icmp socket =>
      (.ok { read := e.recvShutdown || net.icmpSocketReadable socket
             write := !e.sendShutdown
             hangup := e.recvShutdown }, table)

def shutdown (net : Network) (now : ℕ) (table : SocketTable) (handle : ℕ) (how : ℤ) :
    Except SocketError Unit × SocketTable :=
  if how ≠ 0 ∧ how ≠ 1 ∧ how ≠ 2 then (.error .invalid, table)
  else
    match table.entry handle with
    | .error e => (.error e, table)
    | .ok e =>
      let e :=
        { e with
          recvShutdown := e.recvShutdown || how = 0 || how = 2
          sendShutdown := e.sendShutdown || how ≠ 0 }
      let table := { table with sockets := table.sockets.set handle e }
      if how = 0 then (.ok (), table)
      else
        match e.backend with
        | .closed => (.error .badFd, table)
        | .tcp socket =>
          match table.tcp.close now socket with
          | (.error err, tcp) => (.error (mapTcpError err), { table with tcp := tcp })
          | (.ok _, tcp) => (.ok (), { table with tcp := net.driveTcp tcp })
        | .udp _ | .icmp _ => (.ok (), table)

variable {table : SocketTable}

/-- A listener is readable exactly when `accept` would succeed. -/
theorem poll_listener (he : table.entry handle = .ok e) (hb : e.backend = .tcp index)
    (hs : (net.driveTcp table.tcp).sockets[index]? = some listener)
    (hl : listener.state = .listen) : ∃ ready, (table.poll net handle).1 = .ok ready ∧
      (ready.read = true ↔ ∃ i, (table.accept net handle).1 = .ok i) := by
  refine ⟨{ read := (net.driveTcp table.tcp).hasPendingAccept }, ?_, ?_⟩
  · simp only [poll, he, hb, hs, hl]
  simp only [accept, he, hb, TcpStack.accept, hs, hl, ne_eq, not_true_eq_false, if_false,
    TcpStack.hasPendingAccept]
  cases hq : (net.driveTcp table.tcp).acceptQueue.getLast? with
  | none =>
    rw [List.getLast?_eq_none_iff] at hq
    simp [hq]
  | some peer =>
    have hne : (net.driveTcp table.tcp).acceptQueue ≠ [] := by
      rintro hnil
      simp [hnil] at hq
    simp [hne]

end SocketTable

end Ristux.Net
