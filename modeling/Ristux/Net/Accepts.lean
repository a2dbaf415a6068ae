import Ristux.Net.Socket
import Ristux.Net.Stream
import Mathlib.Data.List.InsertIdx

-- One queue holds the connections that wait for all listeners. Every connection is given the
-- number of its arrival, and a log records which one each `accept` returned.

namespace Ristux.Net
open List TcpStack

section
theorem reactQueued_frame : SameConnection socket (socket.reactQueued now packet).1 := by
  have hsame : (socket.reactQueued now packet).1 = (socket.react now packet).1 ∨
      (socket.reactQueued now packet).1 = socket := by
    rw [TcpSocket.reactQueued, TcpSocket.react]
    cases socket.state
    case timeWait =>
      left
      split_ifs <;> rfl
    all_goals first | exact .inr rfl | exact .inl rfl
  rcases hsame with h | h <;> rw [h]
  · exact react_frame
  · exact .refl socket

/-- A reset takes its connection out, another segment changes its own connection in place, and
only a listener adds one, at the end. -/
theorem acceptQueue_handlePacket (now : ℕ) (st : TcpStack) (packet : TcpPacket) :
    (∃ i, st.route packet = some (.queued i) ∧ packet.has tcpFlagRst ∧
        (st.handlePacket now packet).2.acceptQueue = st.acceptQueue.eraseIdx i) ∨
      (∃ i s s', st.route packet = some (.queued i) ∧ packet.has tcpFlagRst = false ∧
        st.acceptQueue[i]? = some s ∧ s'.localPort = s.localPort ∧
        (st.handlePacket now packet).2.acceptQueue = st.acceptQueue.set i s') ∨
      (∀ i, st.route packet ≠ some (.queued i)) ∧
        ((st.handlePacket now packet).2.acceptQueue = st.acceptQueue ∨
          ∃ peer, (st.handlePacket now packet).2.acceptQueue = st.acceptQueue ++ [peer]) := by
  have hsocket : ∀ i s, (st.handleSocketPacket now i s packet).2.acceptQueue = st.acceptQueue ∨
      ∃ peer, (st.handleSocketPacket now i s packet).2.acceptQueue = st.acceptQueue ++ [peer] := by
    intro i s
    rw [handleSocketPacket]
    split_ifs
    · exact .inl rfl
    all_goals
      cases hpeer : (s.react now packet).2.1 with
      | none => exact .inl (by simp [hpeer, withSocket, acknowledge])
      | some peer =>
        exact .inr ⟨peer, by simp [hpeer, withSocket, acknowledge]⟩
  cases hr : st.route packet with
  | some slot =>
    obtain ⟨s, hs, -, heq⟩ := handlePacket_of_route hr now
    rw [heq]
    cases slot with
    | socket i => exact .inr (.inr ⟨fun j h => (by cases h), hsocket i s⟩)
    | queued i =>
      rw [handleAt, handleQueuedAcceptPacket]
      cases hrst : packet.has tcpFlagRst with
      | true => exact .inl ⟨i, rfl, rfl, rfl⟩
      | false =>
        refine .inr (.inl ⟨i, s, (s.reactQueued now packet).1, rfl, rfl, hs,
          reactQueued_frame.localPort, ?_⟩)
        simp only [Bool.false_eq_true, if_false]
        split_ifs <;> rfl
  | none =>
    refine .inr (.inr ⟨fun i h => (by cases h), ?_⟩)
    rw [route] at hr
    rw [handlePacket]
    cases hsock : position (·.matchesPacket packet) st.sockets with
    | some found => simp [hsock] at hr
    | none =>
      simp only [hsock, Option.map_eq_none_iff] at hr
      simp only [hr]
      split
      · exact hsocket _ _
      · split_ifs <;> exact .inl rfl

end

inductive StackCall
  | handlePacket (packet : TcpPacket)
  | accept (socket : ℕ)
  | «open»
  | bindExisting (socket : ℕ) (localPort : UInt16)
  | listen (socket : ℕ)
  | connect (socket : ℕ) (remoteIp : Ipv4Addr) (remotePort : UInt16)
  | send (socket : ℕ) (data : Bytes)
  | recv (socket : ℕ) (len : ℕ)
  | close (socket : ℕ)
  | pollRetransmit
  | popOutbound
  | takeError (socket : ℕ)

def StackCall.apply (now : ℕ) (st : TcpStack) : StackCall → TcpStack
  | .handlePacket packet => (st.handlePacket now packet).2
  | .accept socket => (st.accept socket).2
  | .open => st.open.2
  | .bindExisting socket localPort => (st.bindExisting socket localPort).2
  | .listen socket => (st.listen socket).2
  | .connect socket remoteIp remotePort => (st.connect now socket remoteIp remotePort).2
  | .send socket data => (st.send now socket data).2
  | .recv socket len => (st.recv socket len).2
  | .close socket => (st.close now socket).2
  | .pollRetransmit => (st.pollRetransmit now).2
  | .popOutbound => st.popOutbound.2
  | .takeError socket => (st.takeError socket).2

structure Accepted where
  port : UInt16
  arrival : ℕ
  connection : TcpSocket

/-- A stack with the connections that wait, by number of arrival, and those that were returned. -/
structure Books where
  stack : TcpStack
  waiting : List (ℕ × TcpSocket)
  next : ℕ
  log : List Accepted

namespace Books

/-- The connections that wait already are numbered in the order of the queue. -/
def start (st : TcpStack) : Books where
  stack := st
  waiting := st.acceptQueue.zipIdx.map fun x => (x.2, x.1)
  next := st.acceptQueue.length
  log := []

/-- The same numbers for the connections of the changed queue. -/
def renew (waiting : List (ℕ × TcpSocket)) (queue : List TcpSocket) : List (ℕ × TcpSocket) :=
  zipWith (fun x s => (x.1, s)) waiting queue

def step (b : Books) (now : ℕ) (call : StackCall) : Books :=
  let stack := call.apply now b.stack
  match call with
  | .handlePacket packet =>
    match b.stack.route packet with
    | some (.queued i) =>
      if packet.has tcpFlagRst then { b with stack := stack, waiting := b.waiting.eraseIdx i }
      else { b with stack := stack, waiting := renew b.waiting stack.acceptQueue }
    | _ =>
      match stack.acceptQueue.drop b.stack.acceptQueue.length with
      | peer :: _ =>
        { b with
          stack := stack
          waiting := b.waiting ++ [(b.next, peer)]
          next := b.next + 1 }
      | [] => { b with stack := stack }
  | .accept socket =>
    match (b.stack.accept socket).1, b.stack.sockets[socket]?, b.waiting.getLast? with
    | .ok _, some listener, some (arrival, connection) =>
      { b with
        stack := stack
        waiting := b.waiting.dropLast
        log := b.log ++ [⟨listener.localPort, arrival, connection⟩] }
    | _, _, _ => { b with stack := stack }
  | _ => { b with stack := stack }

def run : List (ℕ × StackCall) → Books → Books
  | [], b => b
  | (now, call) :: rest, b => run rest (b.step now call)

/-- Each listener's connections were returned in the order of their arrival, before all of those
that still wait for it, and to no other listener. -/
structure InOrder (b : Books) : Prop where
  queue : b.waiting.map Prod.snd = b.stack.acceptQueue
  sorted : (b.waiting.map Prod.fst).Pairwise (· < ·)
  fresh : ∀ w ∈ b.waiting, w.1 < b.next
  logged : ∀ a ∈ b.log, a.arrival < b.next
  before : ∀ a ∈ b.log, ∀ w ∈ b.waiting, w.2.localPort = a.port → a.arrival < w.1
  ordered : b.log.Pairwise fun a a' => a.port = a'.port → a.arrival < a'.arrival
  own : ∀ a ∈ b.log, a.connection.localPort = a.port

end Books

/-- Nothing waits at all, or the last connection of the queue waits for this port and no other
does. -/
def TcpStack.OnlyLast (st : TcpStack) (port : UInt16) : Prop :=
  st.acceptQueue = [] ∨ ∃ front peer, st.acceptQueue = front ++ [peer] ∧ peer.localPort = port ∧
    ∀ x ∈ front, x.localPort ≠ port

/-- What an `accept` needs; the other calls need nothing. -/
def StackCall.Meets (st : TcpStack) : StackCall → Prop
  | .accept socket => ∀ listener, st.sockets[socket]? = some listener →
      listener.state = .listen → st.OnlyLast listener.localPort
  | _ => True

theorem acceptQueue_pollRetransmit (st : TcpStack) (now : ℕ) :
    (st.pollRetransmit now).2.acceptQueue = st.acceptQueue := by
  rw [pollRetransmit]
  simp only
  split_ifs
  · rfl
  generalize map _ (filter (givesUp now) _) = failed
  refine foldlRecOn (motive := fun st' : TcpStack => st'.acceptQueue = _) failed _ rfl ?_
  intro st' h entry _
  rw [failSocket]
  split
  · exact h
  · exact h

theorem accept_cases (st : TcpStack) (i : ℕ) : (∃ e, st.accept i = (.error e, st)) ∨
      ∃ listener peer, st.sockets[i]? = some listener ∧ listener.state = .listen ∧
        st.acceptQueue.getLast? = some peer ∧ st.accept i = (.ok st.sockets.length,
          { st with sockets := st.sockets ++ [peer], acceptQueue := st.acceptQueue.dropLast }) := by
  rw [accept]
  cases hs : st.sockets[i]? with
  | none => exact .inl ⟨_, rfl⟩
  | some listener =>
    by_cases hl : listener.state = .listen
    · simp only [hl, ne_eq, not_true_eq_false, if_false]
      cases hq : st.acceptQueue.getLast? with
      | none => exact .inl ⟨_, rfl⟩
      | some peer => exact .inr ⟨listener, peer, rfl, hl, rfl, rfl⟩
    · exact .inl ⟨_, if_pos hl⟩

variable {i : ℕ}

namespace Books
variable {b : Books}

variable {waiting : List (ℕ × TcpSocket)}

section
variable (h : b.InOrder)
include h

/-- A change of the stack that leaves the queue alone. -/
theorem InOrder.stack (hq : st.acceptQueue = b.stack.acceptQueue) : InOrder { b with stack := st } :=
  ⟨h.queue.trans hq.symm, h.sorted, h.fresh, h.logged, h.before, h.ordered, h.own⟩

theorem InOrder.reset (hq : st.acceptQueue = b.stack.acceptQueue.eraseIdx i) :
    InOrder { b with stack := st, waiting := b.waiting.eraseIdx i } := by
  have hsub := eraseIdx_sublist b.waiting i
  refine ⟨?_, h.sorted.sublist (hsub.map _), fun w hw => h.fresh w (hsub.subset hw), h.logged,
    fun a ha w hw => h.before a ha w (hsub.subset hw), h.ordered, h.own⟩
  rw [hq, ← h.queue, eraseIdx_map]

omit h in
theorem mem_renew (hw : w ∈ renew waiting queue) :
    ∃ (j : ℕ) (x : ℕ × TcpSocket), waiting[j]? = some x ∧ queue[j]? = some w.2 ∧ w.1 = x.1 := by
  obtain ⟨j, hj, rfl⟩ := getElem_of_mem hw
  have hlen := hj
  rw [renew, length_zipWith] at hlen
  refine ⟨j, waiting[j], getElem?_eq_getElem (by omega), ?_, ?_⟩
  · rw [getElem?_eq_getElem (by omega)]
    simp [renew]
  · simp [renew]

omit h in
theorem renew_map (hlen : waiting.length = queue.length) :
    (renew waiting queue).map Prod.snd = queue ∧
      (renew waiting queue).map Prod.fst = waiting.map Prod.fst := by
  induction waiting generalizing queue with
  | nil =>
    rw [eq_nil_of_length_eq_zero hlen.symm]
    exact ⟨rfl, rfl⟩
  | cons w rest ih =>
    cases queue with
    | nil => cases hlen
    | cons s queue =>
      obtain ⟨hsnd, hfst⟩ := ih (Nat.succ.inj hlen)
      exact ⟨congrArg (s :: ·) hsnd, congrArg (w.1 :: ·) hfst⟩

theorem InOrder.renew (hs : b.stack.acceptQueue[i]? = some s)
    (hport : s'.localPort = s.localPort) (hq : st.acceptQueue = b.stack.acceptQueue.set i s') :
    InOrder { b with stack := st, waiting := Books.renew b.waiting st.acceptQueue } := by
  have hlen : b.waiting.length = st.acceptQueue.length := by
    rw [hq, length_set, ← h.queue, length_map]
  -- A waiting connection has the number and the port it had.
  have hold : ∀ w ∈ Books.renew b.waiting st.acceptQueue,
      ∃ x ∈ b.waiting, w.1 = x.1 ∧ w.2.localPort = x.2.localPort := by
    intro w hw
    obtain ⟨j, x, hx, hwq, hnum⟩ := mem_renew hw
    refine ⟨x, mem_of_getElem? hx, hnum, ?_⟩
    have hxq : b.stack.acceptQueue[j]? = some x.2 := by
      rw [← h.queue, getElem?_map, hx]
      rfl
    rw [hq, getElem?_set] at hwq
    split_ifs at hwq with hij
    · subst hij
      rw [hs] at hxq
      rw [← Option.some.inj hwq, ← Option.some.inj hxq, hport]
    · rw [hxq] at hwq
      rw [Option.some.inj hwq]
  refine ⟨?_, ?_, fun w hw => ?_, h.logged, fun a ha w hw hp => ?_, h.ordered, h.own⟩
  · exact (renew_map hlen).1
  · change ((Books.renew b.waiting st.acceptQueue).map Prod.fst).Pairwise (· < ·)
    rw [(renew_map hlen).2]
    exact h.sorted
  · obtain ⟨x, hx, hnum, -⟩ := hold w hw
    rw [hnum]
    exact h.fresh x hx
  · obtain ⟨x, hx, hnum, hsame⟩ := hold w hw
    rw [hnum]
    exact h.before a ha x hx (hsame.symm.trans hp)

theorem InOrder.arrive (hq : st.acceptQueue = b.stack.acceptQueue ++ [peer]) : InOrder
      { b with stack := st, waiting := b.waiting ++ [(b.next, peer)], next := b.next + 1 } := by
  refine ⟨?_, ?_, ?_, fun a ha => (h.logged a ha).trans (Nat.lt_succ_self _), ?_, h.ordered, h.own⟩
  · simp [hq, h.queue]
  · simp only [map_append, map_cons, map_nil]
    refine pairwise_append.2 ⟨h.sorted, pairwise_singleton _ _, ?_⟩
    intro t ht u hu
    obtain ⟨w, hw, rfl⟩ := mem_map.1 ht
    rw [mem_singleton.1 hu]
    exact h.fresh w hw
  · intro w hw
    rcases mem_append.1 hw with hw | hw
    · exact (h.fresh w hw).trans (Nat.lt_succ_self _)
    · rw [mem_singleton.1 hw]
      exact Nat.lt_succ_self _
  · intro a ha w hw hp
    rcases mem_append.1 hw with hw | hw
    · exact h.before a ha w hw hp
    · rw [mem_singleton.1 hw]
      exact h.logged a ha

theorem InOrder.accept
    (hlast : b.waiting.getLast? = some (arrival, peer)) (hport : peer.localPort = port)
    (honly : ∀ w ∈ b.waiting.dropLast, w.2.localPort ≠ port)
    (hq : st.acceptQueue = b.stack.acceptQueue.dropLast) : InOrder { b with
        stack := st
        waiting := b.waiting.dropLast
        log := b.log ++ [⟨port, arrival, peer⟩] } := by
  have hsub := dropLast_sublist b.waiting
  have hmem := mem_of_getLast? hlast
  refine ⟨?_, h.sorted.sublist (hsub.map _), fun w hw => h.fresh w (hsub.subset hw), ?_, ?_, ?_, ?_⟩
  · rw [hq, ← h.queue, map_dropLast]
  · intro a ha
    rcases mem_append.1 ha with ha | ha
    · exact h.logged a ha
    · rw [mem_singleton.1 ha]
      exact h.fresh _ hmem
  · intro a ha w hw hp
    rcases mem_append.1 ha with ha | ha
    · exact h.before a ha w (hsub.subset hw) hp
    · rw [mem_singleton.1 ha] at hp
      exact absurd hp (honly w hw)
  · refine pairwise_append.2 ⟨h.ordered, pairwise_singleton _ _, ?_⟩
    intro a ha a' ha' hp
    rw [mem_singleton.1 ha'] at hp ⊢
    exact h.before a ha _ hmem (hport.trans hp.symm)
  · intro a ha
    rcases mem_append.1 ha with ha | ha
    · exact h.own a ha
    · rw [mem_singleton.1 ha]
      exact hport

/-- One call. -/
theorem InOrder.step (now : ℕ) (hm : call.Meets b.stack) : (b.step now call).InOrder := by
  cases call with
  | handlePacket packet =>
    rw [Books.step]
    simp only [StackCall.apply]
    rcases acceptQueue_handlePacket now b.stack packet with
      ⟨i, hr, hrst, hq⟩ | ⟨i, s, s', hr, hrst, hs, hport, hq⟩ | ⟨hr, hq⟩
    · rw [hr]
      simp only [hrst, if_true]
      exact h.reset hq
    · rw [hr]
      simp only [hrst, Bool.false_eq_true, if_false]
      exact h.renew hs hport hq
    split
    · next i hqueued => exact absurd hqueued (hr i)
    rcases hq with hq | ⟨peer, hq⟩
    · rw [hq, drop_length]
      exact h.stack hq
    · rw [hq, drop_left]
      exact h.arrive hq
  | accept i =>
    rw [Books.step]
    simp only [StackCall.apply]
    rcases accept_cases b.stack i with ⟨e, he⟩ | ⟨listener, peer, hs, hl, hlast, hok⟩
    · rw [he]
      exact h.stack rfl
    rw [hok, hs]
    rw [← h.queue, getLast?_map] at hlast
    obtain ⟨⟨arrival, c⟩, hw, rfl⟩ := Option.map_eq_some_iff.1 hlast
    rw [hw]
    have hsplit := dropLast_append_getLast? (arrival, c) hw
    have hqueue : b.stack.acceptQueue = b.waiting.dropLast.map Prod.snd ++ [c] := by
      rw [← h.queue, ← hsplit]
      simp
    rcases hm listener hs hl with hnone | ⟨front, peer, hfront, hport, honly⟩
    · rw [hnone] at hqueue
      simp at hqueue
    obtain ⟨hpre, hc⟩ := append_inj' (hqueue.symm.trans hfront) rfl
    obtain rfl := singleton_injective hc
    refine h.accept hw hport (fun w hw => honly w.2 ?_) rfl
    rw [← hpre]
    exact mem_map_of_mem hw
  | «open» => exact h.stack rfl
  | bindExisting i port =>
    refine h.stack ?_
    rw [StackCall.apply, bindExisting]
    split <;> rfl
  | listen i =>
    refine h.stack ?_
    rw [StackCall.apply, TcpStack.listen]
    split <;> rfl
  | connect i ip port =>
    refine h.stack ?_
    rw [StackCall.apply, connect]
    split
    · rfl
    · split <;> rfl
  | send i data =>
    refine h.stack ?_
    rw [StackCall.apply, send]
    split
    · rfl
    split
    · rfl
    · split_ifs <;> rfl
  | recv i len =>
    refine h.stack ?_
    rw [StackCall.apply, recv]
    split
    · rfl
    split
    · rfl
    split_ifs
    · split <;> rfl
    · rfl
  | close i =>
    refine h.stack ?_
    rw [StackCall.apply, close]
    split
    · rfl
    · simp only
      split <;> rfl
  | pollRetransmit => exact h.stack (acceptQueue_pollRetransmit b.stack now)
  | popOutbound => exact h.stack rfl
  | takeError i =>
    refine h.stack ?_
    rw [StackCall.apply, takeError]
    split <;> rfl

end

/-- Every call of the run finds what it needs in the state it is made in. -/
def AllMeet : List (ℕ × StackCall) → Books → Prop
  | [], _ => True
  | (now, call) :: rest, b => call.Meets b.stack ∧ AllMeet rest (b.step now call)

/-- A whole run. -/
theorem InOrder.run (h : b.InOrder) (hm : AllMeet calls b) : (Books.run calls b).InOrder := by
  induction calls generalizing b with
  | nil => exact h
  | cons c rest ih => exact ih (h.step c.1 hm.1) hm.2

theorem inOrder_start (st : TcpStack) : (start st).InOrder := by
  have hfst : (start st).waiting.map Prod.fst = range st.acceptQueue.length := by
    rw [start, map_map, range_eq_range', ← zipIdx_map_snd 0 st.acceptQueue]
    rfl
  refine ⟨?_, ?_, fun w hw => ?_, by simp [start], by simp [start], by simp [start],
    by simp [start]⟩
  · rw [start, map_map]
    exact zipIdx_map_fst 0 st.acceptQueue
  · rw [hfst]
    exact pairwise_lt_range
  · have := mem_map_of_mem (f := Prod.fst) hw
    rw [hfst] at this
    exact mem_range.1 this

theorem AllMeet.of_append (h : AllMeet (calls ++ rest) b) : AllMeet rest (Books.run calls b) := by
  induction calls generalizing b with
  | nil => exact h
  | cons c calls ih => exact ih h.2

end Books

/-- In every run of calls whose `accept`s all find nothing waiting or their listener's only
connection at the end of the queue: each `accept` blocks exactly when nothing waits for its
listener and returns one of its connections otherwise, the connections of one listener are
returned in the order of their arrival and before those that still wait, and in every state a
listener polls readable exactly when `accept` would succeed. -/
theorem accepts_in_order {st : TcpStack} {calls : List (ℕ × StackCall)}
    (hm : Books.AllMeet calls (Books.start st)) : (Books.run calls (Books.start st)).InOrder ∧
      (∀ pre post now i listener, calls = pre ++ (now, .accept i) :: post →
        (Books.run pre (Books.start st)).stack.sockets[i]? = some listener →
        listener.state = .listen →
        ((Books.run pre (Books.start st)).stack.accept i).1 = .error .wouldBlock ∧
            (∀ c ∈ (Books.run pre (Books.start st)).stack.acceptQueue,
              c.localPort ≠ listener.localPort) ∨
          ∃ k c, ((Books.run pre (Books.start st)).stack.accept i).1 = .ok k ∧
            ((Books.run pre (Books.start st)).stack.accept i).2.sockets[k]? = some c ∧
            c ∈ (Books.run pre (Books.start st)).stack.acceptQueue ∧
            c.localPort = listener.localPort) ∧ ∀ net table handle e index listener,
        net.driveTcp table.tcp = (Books.run calls (Books.start st)).stack →
        SocketTable.entry table handle = .ok e → e.backend = .tcp index →
        (Books.run calls (Books.start st)).stack.sockets[index]? = some listener →
        listener.state = .listen → ∃ ready, (table.poll net handle).1 = .ok ready ∧
          (ready.read = true ↔ ∃ k, (table.accept net handle).1 = .ok k) := by
  refine ⟨(Books.inOrder_start st).run hm, ?_, ?_⟩
  · rintro pre post now i listener rfl hs hl
    obtain ⟨hmeet, -⟩ := hm.of_append
    rcases hmeet listener hs hl with hnone | ⟨front, peer, hq, hport, -⟩
    · left
      refine ⟨?_, by simp [hnone]⟩
      rw [accept]
      simp [hs, hl, hnone]
    right
    refine ⟨(Books.run pre (Books.start st)).stack.sockets.length, peer, ?_, ?_, by simp [hq],
      hport⟩
    · rw [accept]
      simp only [hs, hl, hq, ne_eq, not_true_eq_false, if_false, getLast?_concat]
    rw [accept]
    simp only [hs, hl, hq, ne_eq, not_true_eq_false, if_false, getLast?_concat]
    rw [getElem?_concat_length]
  · intro net table handle e index listener hdrive he hb hs hl
    rw [← hdrive] at hs
    exact SocketTable.poll_listener he hb hs hl

/-- A SYN from `host` to a port. -/
def synTo (host : UInt8) (port : UInt16) : TcpPacket :=
  ⟨⟨10, 0, 2, host⟩, ⟨10, 0, 2, 15⟩, 5000, port, 1000, 0, tcpFlagSyn, []⟩

/-- Sockets 0 and 1 listen on ports 80 and 81. -/
def listening : TcpStack :=
  let st := TcpStack.new.open.2.open.2
  let st := ((st.bindExisting 0 80).2.bindExisting 1 81).2
  ((st.listen 0).2.listen 1).2

/-- The connection that `synTo host port` asks for. -/
def connectionTo (host : UInt8) (port : UInt16) : TcpSocket :=
  { TcpSocket.new port with
    remoteIp := ⟨10, 0, 2, host⟩, remotePort := 5000, state := .established, seq := 2, ack := 1001 }

theorem meets_accept (port : UInt16) (hport : (st.sockets[i]?).map (·.localPort) = some port)
    (hq : st.acceptQueue = [] ∨ ∃ c, st.acceptQueue = [c] ∧ c.localPort = port) :
    (StackCall.accept i).Meets st := by
  intro listener hs _
  rw [hs] at hport
  cases hport
  rcases hq with hq | ⟨c, hq, hc⟩
  · exact .inl hq
  · exact .inr ⟨[], c, hq, hc, by simp⟩

def oneByOne : List (ℕ × StackCall) :=
  [(0, .handlePacket (synTo 2 80)), (0, .accept 0), (0, .handlePacket (synTo 3 81)),
    (0, .accept 1), (0, .accept 0)]

/-- One connection at a time. -/
theorem accepts_in_order_oneByOne : (Books.run oneByOne (Books.start listening)).InOrder ∧
      (Books.run oneByOne (Books.start listening)).log.length = 2 := by
  have hmeet : Books.AllMeet oneByOne (Books.start listening) := by
    refine ⟨trivial, ?_, trivial, ?_, ?_, trivial⟩
    · exact meets_accept 80 (by decide) (.inr ⟨connectionTo 2 80, by decide, rfl⟩)
    · exact meets_accept 81 (by decide) (.inr ⟨connectionTo 3 81, by decide, rfl⟩)
    · exact meets_accept 80 (by decide) (.inl (by decide))
  exact ⟨(accepts_in_order hmeet).1, by decide⟩

/-- Two connections to port 80: the later one is accepted first. A connection to port 81: the
listener on port 80 gets it. -/
theorem accept_takes_last :
    (Books.run [(0, .handlePacket (synTo 2 80)), (0, .handlePacket (synTo 3 80)), (0, .accept 0),
        (0, .accept 0)] (Books.start listening)).log.map (fun a => (a.port, a.arrival)) =
      [(80, 1), (80, 0)] ∧
    ¬ (Books.run [(0, .handlePacket (synTo 2 80)), (0, .handlePacket (synTo 3 80)),
        (0, .accept 0), (0, .accept 0)] (Books.start listening)).InOrder ∧
    (Books.run [(0, .handlePacket (synTo 2 81)), (0, .accept 0)]
        (Books.start listening)).log.map (fun a => (a.port, a.connection.localPort)) =
      [(80, 81)] := by
  have hlog : (Books.run [(0, .handlePacket (synTo 2 80)), (0, .handlePacket (synTo 3 80)),
      (0, .accept 0), (0, .accept 0)] (Books.start listening)).log.map
        (fun a => (a.port, a.arrival)) = [(80, 1), (80, 0)] := by decide
  refine ⟨hlog, fun h => ?_, by decide⟩
  have hordered : (map (fun a : Accepted => (a.port, a.arrival)) _).Pairwise
      fun x y => x.1 = y.1 → x.2 < y.2 := h.ordered.map _ fun _ _ hab => hab
  rw [hlog] at hordered
  simp at hordered

end Ristux.Net
