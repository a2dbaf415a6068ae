import Ristux.Net.Tcp

namespace Ristux.Net
open List

/-- What `drive_tcp` does to the stack, one call at a time. -/
inductive DriveStep
  | pollRetransmit (now : ℕ)
  | handlePacket (now : ℕ) (packet : TcpPacket)
  | popOutbound
  deriving Repr, DecidableEq

namespace DriveStep

def exec (st : TcpStack) : DriveStep → TcpStack
  | .pollRetransmit now => (st.pollRetransmit now).2
  | .handlePacket now packet => (st.handlePacket now packet).2
  | .popOutbound => st.popOutbound.2

def run (steps : List DriveStep) (st : TcpStack) : TcpStack := steps.foldl exec st

/-- The segments of the inbound queue, each with the tick at which it is handled. -/
def arrivals (inbound : List (ℕ × TcpPacket)) : List DriveStep :=
  inbound.map fun (now, packet) => .handlePacket now packet

end DriveStep

/-- What the world does during one round of `drive_tcp`: the clock, the segments that `poll` finds,
which of the outbound segments `send_tcp` takes, and the segments found after sending. -/
structure DriveRound where
  now : ℕ
  inbound : List (ℕ × TcpPacket)
  sendTcp : ℕ → TcpOutbound → Bool
  replies : List (ℕ × TcpPacket)

open DriveStep

/-- The steps of the rounds that are left. -/
def driveRounds : List DriveRound → TcpStack → List DriveStep
  | [], _ => []
  | round :: rest, st =>
    let arrived := .pollRetransmit round.now :: arrivals round.inbound
    let st := run arrived st
    let popped := replicate st.pendingOutbound.length .popOutbound
    let sentOutbound := st.pendingOutbound.zipIdx.any fun (outbound, k) => round.sendTcp k outbound
    arrived ++ popped ++
      if sentOutbound then
        let st := run (arrivals round.replies) (run popped st)
        arrivals round.replies ++ driveRounds rest st
      else []

/-- What is outside the table during a call: whether the network is up, the rounds of `drive_tcp`,
and what the sockets of the other protocols have to read. -/
structure Network where
  up : Bool
  rounds : ℕ → DriveRound
  udpSocketRecv : ℕ → Option (Bytes × Ipv4Addr × UInt16)
  icmpSocketRecv : ℕ → Option (Bytes × Ipv4Addr)

namespace Network

def udpSocketReadable (net : Network) (socket : ℕ) : Bool := (net.udpSocketRecv socket).isSome

def icmpSocketReadable (net : Network) (socket : ℕ) : Bool := (net.icmpSocketRecv socket).isSome

def driveSteps (net : Network) (st : TcpStack) : List DriveStep :=
  if net.up then driveRounds ((range 4).map net.rounds) st
  else [.pollRetransmit (net.rounds 0).now]

/-- The stack after `drive_tcp`. Its callers do not look at the progress it reports. -/
def driveTcp (net : Network) (st : TcpStack) : TcpStack := run (net.driveSteps st) st

end Network

end Ristux.Net
