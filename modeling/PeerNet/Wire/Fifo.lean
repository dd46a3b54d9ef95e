import PeerNet.Model.Queue
import PeerNet.Receiver.Specs

/-
  The packet queue is a FIFO.

  The calls of a run say what a FIFO would hold: `queued`
  appends what is pushed and drops the first entry at a pop.
  The pointers represent that list, every pop returns its
  first entry, and since the last `packet_init` what was
  pushed is what was popped and then what is queued.

  The list model of a process has the same queue: a call of
  `packet_new` appends there what it links here.

  Main declarations:
    * `Truthful`
    * `Represented`
    * `IsFifo`
    * `packetPush_spec`
    * `packetPop_spec`
    * `queue_of_run`
    * `packetNew_carries`
    * `packetOps_carries`
-/

------------------------------------------------------------
-- A FIFO by its Calls
------------------------------------------------------------

namespace PeerNet

open LinkedQueue

/- Each call returned what the list of entries gives. -/
def Truthful :
    List QueueCall → Prop
| [] => True
| .pop result :: calls =>
    result = (queued calls).head? ∧ Truthful calls
| .empty result :: calls =>
    result = (queued calls).isEmpty ∧ Truthful calls
| .init :: calls => Truthful calls
| .push _ _ :: calls => Truthful calls

/- What was pushed since the last `packet_init`. -/
def pushed :
    List QueueCall → List (NodeRef × QueuedPacket)
| [] => []
| .init :: _ => []
| .push p d :: calls => pushed calls ++ [(p, d)]
| .pop _ :: calls => pushed calls
| .empty _ :: calls => pushed calls

/- What was popped since then. -/
def popped :
    List QueueCall → List (NodeRef × QueuedPacket)
| [] => []
| .init :: _ => []
| .push _ _ :: calls => popped calls
| .pop result :: calls => popped calls ++ result.toList
| .empty _ :: calls => popped calls

/- Nothing is lost, comes twice or overtakes. -/
theorem pushed_eq
    {calls : List QueueCall}
    (h : Truthful calls) :
    pushed calls = popped calls ++ queued calls := by
  induction calls with
  | nil => rfl
  | cons call calls ih =>
      cases call with
      | init => rfl
      | push p d =>
          rw [pushed, popped, queued, ih h, List.append_assoc]
      | pop result =>
          rw [pushed, popped, queued, ih h.2, h.1]
          cases queued calls <;> simp
      | empty result => exact ih h.2

end PeerNet

------------------------------------------------------------
-- One Call
------------------------------------------------------------

namespace PeerNet

open LinkedQueue

namespace PacketQueue

section

variable {q : PacketQueue} {x : NodeRef × QueuedPacket}
variable {xs : List (NodeRef × QueuedPacket)}
variable {r : NodeRef} {d : QueuedPacket}

theorem packetEmpty_iff
    (h : q.ends.Holds xs) :
    q.packetEmpty = true ↔ xs = [] := by
  rw [packetEmpty, Bool.and_eq_true, Option.isNone_iff_eq_none,
    Option.isNone_iff_eq_none, h.head_eq_none_iff,
    h.tail_eq_none_iff, and_self]

/- `packet_push` appends a detached node. -/
theorem packetPush_spec
    (h : q.ends.Holds xs)
    (hCell : q.ends.mem r = some ⟨d, none⟩)
    (hOut : r ∉ refs xs) :
    ∃ q', q.packetPush (some r) = .ok q' ∧
      q'.ends.Holds (xs ++ [(r, d)]) ∧
      q'.calls = .push r d :: q.calls := by
  unfold packetPush
  simp only [hCell]
  rcases List.eq_nil_or_concat xs with rfl | ⟨ys, y, rfl⟩
  · rw [if_pos ((packetEmpty_iff h).mpr rfl)]
    exact ⟨_, rfl, Queue.holds_single hCell, rfl⟩
  · rw [List.concat_eq_append] at h hOut ⊢
    have hSome : q.packetEmpty ≠ true := fun hEmpty =>
      absurd ((packetEmpty_iff h).mp hEmpty) (by simp)
    have hTail : q.ends.tail = some y.1 := by
      rw [h.tail]
      simp [refs]
    have hLast := (linked_append.mp h.linked).2.1
    rw [if_neg hSome, hTail]
    simp only [hLast]
    exact ⟨_, rfl, h.pushed hCell hOut, rfl⟩

/- A node outside the heap is not in the queue. -/
theorem not_mem_of_fresh
    (h : q.ends.Holds xs)
    (hFresh : q.ends.mem r = none) :
    r ∉ refs xs := by
  intro hIn
  rcases List.mem_map.mp hIn with ⟨x, hx, rfl⟩
  rcases h.linked.allocated hx with ⟨next, hCell⟩
  rw [hFresh] at hCell
  cases hCell

/- What `packet_new` makes of a packet. -/
def copied
    (p : Packet)
    (a : Addr) : QueuedPacket where
  buf := encodePacket p.copy
  len := p.header.packetLen.toNat
  destAddr := a

/- `packet_new` appends the packet, if it is that long. -/
theorem packetNew_spec
    (h : q.ends.Holds xs)
    (hFresh : q.ends.mem r = none)
    (p : Packet)
    (a : Addr) :
    (p.Whole → ∃ q', q.packetNew r p a = .ok q' ∧
      q'.ends.Holds (xs ++ [(r, copied p a)]) ∧
      q'.calls = .push r (copied p a) :: q.calls) ∧
    (¬ p.Whole →
      q.packetNew r p a = .error .packetBounds) := by
  have hOut := not_mem_of_fresh h hFresh
  unfold packetNew Packet.Whole
  constructor
  · rintro ⟨hHead, hBuf⟩
    dsimp only
    rw [if_neg (by omega)]
    exact packetPush_spec
      (q := { q with
        ends := q.ends.put r ⟨copied p a, none⟩ })
      (h.put hOut _) (Queue.put_mem _ _ _) hOut
  · intro hShort
    dsimp only
    rw [if_pos (by omega)]

/- `packet_pop` of an empty queue. -/
theorem packetPop_nil
    (h : q.ends.Holds []) :
    q.packetPop = .ok (none, q.note (.pop none)) := by
  have hHead : q.ends.head = none := h.head
  unfold packetPop
  simp only [hHead]

/- `packet_pop` detaches the first node and returns it. -/
theorem packetPop_spec
    (h : q.ends.Holds (x :: xs)) :
    ∃ q', q.packetPop = .ok (some x.1, q') ∧
      q'.ends.Holds xs ∧
      q'.ends.mem x.1 = some ⟨x.2, none⟩ ∧
      q'.calls = .pop (some x) :: q.calls := by
  have hHead : q.ends.head = some x.1 := h.head
  have hCell := h.linked.1
  unfold packetPop
  simp only [hHead, hCell]
  refine ⟨_, rfl, ?_, Queue.put_mem _ _ _, rfl⟩
  have hRest := h.popped
  rw [hHead] at hRest
  exact hRest

end

end PacketQueue

end PeerNet

------------------------------------------------------------
-- Every Call
------------------------------------------------------------

namespace PeerNet

open LinkedQueue PacketQueue

/- The pointers are the list of the calls. -/
structure Represented
    (q : PacketQueue) : Prop where
  holds : q.ends.Holds (queued q.calls)
  returns : Truthful q.calls

/- A call keeps that, or stops at a copy. -/
def KeepsQueue :
    Except QueueFault PacketQueue → Prop
| .ok q => Represented q
| .error fault => fault = .packetBounds

section

variable {q : PacketQueue} {r : NodeRef}

theorem represented_zero :
    Represented .zero where
  holds := ⟨rfl, rfl, trivial, List.nodup_nil⟩
  returns := trivial

theorem Represented.init
    (h : Represented q) :
    Represented q.packetInit where
  holds := ⟨rfl, rfl, trivial, List.nodup_nil⟩
  returns := h.returns

theorem Represented.push
    (h : Represented q)
    {d : QueuedPacket}
    (hCell : q.ends.mem r = some ⟨d, none⟩)
    (hOut : r ∉ refs (queued q.calls)) :
    KeepsQueue (q.packetPush (some r)) := by
  rcases packetPush_spec h.holds hCell hOut with
    ⟨q', hOk, hHolds, hCalls⟩
  rw [hOk]
  refine ⟨?_, ?_⟩
  · rw [hCalls]
    exact hHolds
  · rw [hCalls]
    exact h.returns

theorem Represented.new
    (h : Represented q)
    (hFresh : q.ends.mem r = none)
    (p : Packet)
    (a : Addr) :
    KeepsQueue (q.packetNew r p a) := by
  have hNew := packetNew_spec h.holds hFresh p a
  by_cases hWhole : p.Whole
  · rcases hNew.1 hWhole with ⟨q', hOk, hHolds, hCalls⟩
    rw [hOk]
    refine ⟨?_, ?_⟩
    · rw [hCalls]
      exact hHolds
    · rw [hCalls]
      exact h.returns
  · rw [hNew.2 hWhole]
    exact rfl

/- A pop returns the first entry and leaves it detached. -/
theorem Represented.pop
    (h : Represented q) :
    ∃ p q', q.packetPop = .ok (p, q') ∧ Represented q' ∧
      ∀ r, p = some r →
        (∃ d, q'.ends.mem r = some ⟨d, none⟩) ∧
          r ∉ refs (queued q'.calls) := by
  have hHolds := h.holds
  cases hList : queued q.calls with
  | nil =>
      rw [hList] at hHolds
      refine
        ⟨none, _, packetPop_nil hHolds, ⟨?_, ?_, ?_⟩, nofun⟩
      · rw [note, queued, hList]
        exact hHolds
      · rw [hList]
        rfl
      · exact h.returns
  | cons x xs =>
      rw [hList] at hHolds
      rcases packetPop_spec hHolds with
        ⟨q', hOk, hRest, hCell, hCalls⟩
      have hQueued : queued q'.calls = xs := by
        rw [hCalls, queued, hList, List.tail_cons]
      refine ⟨some x.1, q', hOk, ⟨?_, ?_⟩, ?_⟩
      · rw [hQueued]
        exact hRest
      · rw [hCalls]
        refine ⟨?_, h.returns⟩
        rw [hList]
        rfl
      · rintro r ⟨⟩
        refine ⟨⟨x.2, hCell⟩, ?_⟩
        rw [hQueued]
        exact (List.nodup_cons.mp hHolds.nodup).1

theorem Represented.empty
    (h : Represented q) :
    Represented (q.note (.empty q.packetEmpty)) where
  holds := h.holds
  returns := by
    refine ⟨?_, h.returns⟩
    rw [Bool.eq_iff_iff, packetEmpty_iff h.holds,
      List.isEmpty_iff]

theorem Represented.free
    (h : Represented q)
    (hAllocated : q.ends.mem r ≠ none)
    (hOut : r ∉ refs (queued q.calls)) :
    KeepsQueue (q.packetFree (some r)) := by
  unfold packetFree
  cases hCell : q.ends.mem r with
  | none => exact absurd hCell hAllocated
  | some cell =>
      simp only [hCell]
      exact ⟨h.holds.free hOut, h.returns⟩

/- What `peer_packet_ops` pushes back it has just popped. -/
theorem Represented.packetOps
    (h : Represented q)
    (bytesSent : Int) :
    KeepsQueue (q.peerPacketOps bytesSent) := by
  rcases h.pop with ⟨p, q', hOk, hRest, hDetached⟩
  unfold peerPacketOps
  rw [hOk]
  cases p with
  | none => exact hRest
  | some r =>
      rcases hDetached r rfl with ⟨⟨d, hCell⟩, hOut⟩
      simp only [bind, Except.bind, hCell]
      split
      · exact hRest
      · split
        · exact rfl
        · split
          · -- The rest of the datagram goes to the end.
            have hPut : Represented
                { q' with
                  ends := q'.ends.put r
                    ⟨unsent bytesSent.toNat d, none⟩ } :=
              ⟨hRest.holds.put hOut _, hRest.returns⟩
            exact hPut.push (Queue.put_mem _ _ _) hOut
          · refine hRest.free ?_ hOut
            rw [hCell]
            nofun

end

end PeerNet

------------------------------------------------------------
-- Runs
------------------------------------------------------------

namespace PeerNet

open LinkedQueue PacketQueue QueueRun Runs

/-
  The queue is a FIFO: its ends are null together, `next`
  leads from `head` through the nodes of the entries to
  `tail`, each holds its datagram, every call returned what
  it should have, and nothing is lost, twice or out of order.
-/
structure IsFifo
    (q : PacketQueue) : Prop where
  ends : q.ends.head = none ↔ q.ends.tail = none
  follows :
    Follows q.ends.mem q.ends.head (refs (queued q.calls))
  last : q.ends.tail = (refs (queued q.calls)).getLast?
  nodup : (refs (queued q.calls)).Nodup
  datagrams : ∀ x ∈ queued q.calls,
    ∃ next, q.ends.mem x.1 = some ⟨x.2, next⟩
  returns : Truthful q.calls
  conserved :
    pushed q.calls = popped q.calls ++ queued q.calls
  empty : q.packetEmpty = true ↔ queued q.calls = []

theorem Represented.isFifo
    {q : PacketQueue}
    (h : Represented q) :
    IsFifo q where
  ends :=
    h.holds.head_eq_none_iff.trans
      h.holds.tail_eq_none_iff.symm
  follows := h.holds.follows
  last := h.holds.tail
  nodup := h.holds.nodup
  datagrams := fun _ hx => h.holds.linked.allocated hx
  returns := h.returns
  conserved := pushed_eq h.returns
  empty := packetEmpty_iff h.holds

/- Any allowed call. -/
theorem handle_keeps
    {s : QueueRun}
    {e : QueueEvent}
    (h : Represented s.queue)
    (hAllow : Allowed s e) :
    KeepsQueue (QueueRun.handle e s.queue) := by
  cases e with
  | init => exact h.init
  | new n p a => exact h.new hAllow p a
  | push p =>
      cases p with
      | none => exact h
      | some r =>
          rcases hAllow with ⟨⟨d, hCell⟩, hOut⟩
          exact h.push hCell hOut
  | pop =>
      rcases h.pop with ⟨p, q', hOk, hRest, -⟩
      change KeepsQueue (s.queue.packetPop.map Prod.snd)
      rw [hOk]
      exact hRest
  | empty => exact h.empty
  | free p =>
      cases p with
      | none => exact h
      | some r => exact h.free hAllow.1 hAllow.2
  | packetOps bytesSent => exact h.packetOps bytesSent

theorem queueStep_keeps
    {s : QueueRun}
    {e : QueueEvent}
    (h : Represented s.queue ∧ s.fault ≠ some .nullNode)
    (hAllow : Allowed s e) :
    Represented (s.step e).queue ∧
      (s.step e).fault ≠ some .nullNode := by
  have hKeeps := handle_keeps h.1 hAllow
  unfold QueueRun.step
  split
  · exact h
  · cases hEnd : QueueRun.handle e s.queue with
    | ok q =>
        rw [hEnd] at hKeeps
        exact ⟨hKeeps, h.2⟩
    | error fault =>
        rw [hEnd] at hKeeps
        cases hKeeps
        exact ⟨h.1, nofun⟩

/- In every run the queue is a FIFO and no call fails on it. -/
theorem queue_of_run
    {s : QueueRun}
    (hRun : Reaches QueueRun.step Allowed .start s) :
    IsFifo s.queue ∧ s.fault ≠ some .nullNode := by
  have hKept :=
    hRun.invariant
      (I := fun s =>
        Represented s.queue ∧ s.fault ≠ some .nullNode)
      ⟨represented_zero, nofun⟩
      fun _ _ h hAllow => queueStep_keeps h hAllow
  exact ⟨hKept.1.isFifo, hKept.2⟩

/- A packet that is a head without payload. -/
def barePacket
    (seqNum : UInt32) : Packet where
  header := ⟨15441, 1, 3, 16, 16, seqNum, 0⟩
  buf := []

/- Two packets, the first popped and pushed back, all popped. -/
def queueCalls : List QueueEvent :=
  [.init, .empty, .new 1 (barePacket 1) ⟨0, 0⟩,
    .new 2 (barePacket 2) ⟨0, 0⟩, .pop, .push (some 1),
    .pop, .free (some 2), .pop, .free (some 1), .empty]

theorem queue_of_run_two :
    popped (foldSteps QueueRun.step .start
        queueCalls).queue.calls =
      [(1, copied (barePacket 1) ⟨0, 0⟩),
        (2, copied (barePacket 2) ⟨0, 0⟩),
        (1, copied (barePacket 1) ⟨0, 0⟩)] ∧
    IsFifo (foldSteps QueueRun.step .start
      queueCalls).queue := by
  have hRun :
      Reaches QueueRun.step Allowed .start
        (foldSteps QueueRun.step .start queueCalls) :=
    reaches_foldSteps
      ⟨trivial, trivial, rfl, rfl, trivial,
        ⟨⟨_, rfl⟩, by decide⟩, trivial,
        ⟨by decide, by decide⟩, trivial,
        ⟨by decide, by decide⟩, trivial, trivial⟩
  exact ⟨by decide, (queue_of_run hRun).1⟩

end PeerNet

------------------------------------------------------------
-- The Queue of the List Model
------------------------------------------------------------

namespace PeerNet

open LinkedQueue PacketQueue Prog

/- The entries are the datagrams, as bytes, in their order. -/
def SameQueue
    (xs : List (NodeRef × QueuedPacket))
    (queue : List Datagram) : Prop :=
  xs.map (fun x => (x.2.buf, x.2.len, x.2.destAddr)) =
    queue.map fun d =>
      (encodePacket d.packet,
        d.packet.header.packetLen.toNat, d.destAddr)

section

variable {q : PacketQueue} {r : NodeRef} {n : Node}

/- `packet_new` does the same to both. -/
theorem packetNew_carries
    (h : Represented q)
    (hSame : SameQueue (queued q.calls) n.queue)
    (hFresh : q.ends.mem r = none)
    (p : Packet)
    (a : Addr) :
    wp (PeerNet.packetNew p a)
      (fun _ m => ∃ q', q.packetNew r p a = .ok q' ∧
        Represented q' ∧ SameQueue (queued q'.calls) m.queue)
      (fun _ _ => q.packetNew r p a = .error .packetBounds)
      n := by
  have hKeeps := h.new hFresh p a
  have hNew := packetNew_spec h.holds hFresh p a
  apply wp_packetNew_copy
  · intro hWhole
    rcases hNew.1 hWhole with ⟨q', hOk, -, hCalls⟩
    rw [hOk] at hKeeps
    refine ⟨q', hOk, hKeeps, ?_⟩
    unfold SameQueue at hSame ⊢
    rw [hCalls, queued, List.map_append, hSame,
      Node.push_queue, List.map_append]
    rfl
  · exact hNew.2
  · exact hNew.2

/- A datagram that is sent whole was the first one. -/
theorem packetOps_carries
    {d : Datagram}
    {queue : List Datagram}
    (h : Represented q)
    (hSame : SameQueue (queued q.calls) (d :: queue)) :
    ∃ q', q.peerPacketOps d.packet.header.packetLen.toNat =
        .ok q' ∧
      Represented q' ∧ SameQueue (queued q'.calls) queue := by
  have hHolds := h.holds
  have hReturns := h.returns
  cases hList : queued q.calls with
  | nil =>
      rw [hList] at hSame
      cases hSame
  | cons x xs =>
      rw [hList] at hHolds hSame
      unfold SameQueue at hSame
      rw [List.map_cons, List.map_cons, List.cons.injEq]
        at hSame
      have hLen :
          x.2.len = d.packet.header.packetLen.toNat :=
        congrArg (fun t => t.2.1) hSame.1
      rcases packetPop_spec hHolds with
        ⟨q', hOk, hRest, hCell, hCalls⟩
      have hQueued : queued q'.calls = xs := by
        rw [hCalls, queued, hList, List.tail_cons]
      have hOut := (List.nodup_cons.mp hHolds.nodup).1
      have hFreed : q'.packetFree (some x.1) =
          .ok { q' with ends := q'.ends.free x.1 } := by
        unfold packetFree
        simp only [hCell]
      refine ⟨{ q' with ends := q'.ends.free x.1 }, ?_,
        ⟨?_, ?_⟩, ?_⟩
      · unfold peerPacketOps
        rw [hOk]
        simp only [bind, Except.bind, hCell, hLen]
        rw [if_neg (by omega), if_neg (by omega),
          if_neg (by simp [unsent, hLen])]
        exact hFreed
      · rw [hQueued]
        exact hRest.free hOut
      · rw [hCalls]
        refine ⟨?_, hReturns⟩
        rw [hList]
        rfl
      · rw [hQueued]
        exact hSame.2

end

end PeerNet
