import PeerNet.Lib.Simulation
import PeerNet.Loop.Frames
import PeerNet.Loop.Queued
import PeerNet.Loop.Sendable
import PeerNet.Loop.UserGets
import PeerNet.Model.PeerRun

/-
  The loop refines the system of processes and messages.

  `System` runs one call at a time, sends at once whatever a
  call queues, and delivers packets. In `Cluster` the calls
  of a process come in the order of `peer_run`, datagrams
  wait in the queue and leave one at a time, and what goes
  over the wire is bytes behind a head of the router. Every
  run of a cluster is matched by a run of the system in which
  every process is the same, unless it was stopped by an
  announcement or a malformed datagram; it is then as it was
  when it stopped.

  Main declarations:
    * `Mirrors`
    * `Refines`
    * `cluster_refines`
-/

------------------------------------------------------------
-- A Process of Both
------------------------------------------------------------

namespace PeerNet

open Prog Runs PeerNet.System

/- The same process, unless it was stopped. -/
def Follows
    (n m : Node) : Prop :=
  n = m ∨ ∃ f, n = m.halt f

/-
  The process at `a` is that of the system, and what waits
  in its queue is on the system's network.
-/
structure Mirrors
    (σ : System)
    (a : Addr)
    (s : PeerProcess) : Prop where
  enabled : s.spiffy.enabled = true
  src : s.spiffy.src = a
  node : Follows s.node (σ.node a)
  exact : ∀ pq ∈ s.packets, pq.buf.length = pq.len
  packets : ∀ pq ∈ s.packets,
    Backed σ.net a pq.destAddr pq.buf

/- Steps of the system at one address. -/
abbrev StepsAt
    (env : Addr → Env)
    (a : Addr) : System → System → Prop :=
  Reaches (System.step env)
    fun σ e => place e = a ∧ NoForging σ e

section

variable {env : Addr → Env} {σ σ' : System} {a b : Addr}
variable {s : PeerProcess} {x : Prog Unit} {n : Node}

theorem StepsAt.trans
    {σ'' : System}
    (hFirst : StepsAt env a σ σ')
    (hSecond : StepsAt env a σ' σ'') :
    StepsAt env a σ σ'' :=
  Reaches.trans hFirst hSecond

theorem StepsAt.single
    {e : SystemEvent}
    (hPlace : place e = a)
    (hAllow : NoForging σ e) :
    StepsAt env a σ (System.step env σ e) :=
  .step e .refl ⟨hPlace, hAllow⟩

theorem StepsAt.recorded
    (hSteps : StepsAt env a σ σ')
    (h : Recorded env σ) :
    Recorded env σ' :=
  hSteps.invariant h fun _ _ h hAllow => h.step hAllow.2

theorem StepsAt.net
    (hSteps : StepsAt env a σ σ') :
    σ.net ⊆ σ'.net := by
  apply hSteps.invariant (I := fun u => σ.net ⊆ u.net)
  · exact List.Subset.refl _
  · exact fun u e h _ =>
      List.Subset.trans h (net_subset_step env u e)

theorem StepsAt.node_of_ne
    (hSteps : StepsAt env a σ σ')
    (hb : b ≠ a) :
    σ'.node b = σ.node b := by
  apply hSteps.invariant
    (I := fun u => u.node b = σ.node b)
  · rfl
  · intro u e h hAllow
    rw [step_node_of_ne (hAllow.1.symm ▸ hb)]
    exact h

/- A process elsewhere does not notice. -/
theorem Mirrors.elsewhere
    (h : Mirrors σ b s)
    (hSteps : StepsAt env a σ σ')
    (hb : b ≠ a) :
    Mirrors σ' b s where
  enabled := h.enabled
  src := h.src
  node := by
    rw [hSteps.node_of_ne hb]
    exact h.node
  exact := h.exact
  packets := fun pq hpq => (h.packets pq hpq).mono hSteps.net

theorem Follows.quiet
    {m : Node}
    (h : Follows n m)
    (hQuiet : m.queue = []) :
    n.queue = [] := by
  rcases h with rfl | ⟨f, rfl⟩
  · exact hQuiet
  · exact hQuiet

end

end PeerNet

------------------------------------------------------------
-- Calls
------------------------------------------------------------

namespace PeerNet

open Prog Runs PeerNet.System

/- A call that only answers, or stops. -/
def OnlyAnswered
    (n m : Node) : Prop :=
  ∃ new : List Datagram,
    m = { n with queue := n.queue ++ new } ∧
      ∀ d ∈ new, ¬ Transfers d.packet.header.type

def OnlyAnswers
    (x : Prog Unit) : Prop :=
  ∀ n, wp x (fun _ m => OnlyAnswered n m)
    (fun _ m => OnlyAnswered n m) n

section

variable {env : Addr → Env} {σ σ' : System} {a b : Addr}
variable {s : PeerProcess} {x : Prog Unit} {n m : Node}

theorem OnlyAnswered.refl
    (n : Node) :
    OnlyAnswered n n :=
  ⟨[], by rw [List.append_nil], fun _ hd => nomatch hd⟩

theorem OnlyAnswered.push
    (d : Datagram)
    (h : OnlyAnswered n m)
    (hType : ¬ Transfers d.packet.header.type) :
    OnlyAnswered n (m.push d) := by
  rcases h with ⟨new, rfl, hNew⟩
  refine ⟨new ++ [d], ?_, ?_⟩
  · unfold Node.push
    dsimp only
    rw [List.append_assoc]
  · intro d' hd'
    rcases List.mem_append.mp hd' with hOld | hLast
    · exact hNew d' hOld
    · rw [List.mem_singleton.mp hLast]
      exact hType

/- Every packet of the process counts its bytes. -/
theorem exact_call
    (hQuiet : s.node.queue = [])
    (hAppends : Appends s.node x)
    (hExact : ∀ pq ∈ s.packets, pq.buf.length = pq.len) :
    ∀ pq ∈ (s.call x).packets, pq.buf.length = pq.len := by
  rcases hAppends with ⟨new, hNew, hRun⟩
  have hQueue : (s.node.exec x).queue = new := by
    have hSelf := hRun s.node.queue
    have hSame :
        (s.node.exec x).queue = s.node.queue ++ new :=
      congrArg Node.queue hSelf
    rw [hSame, hQuiet, List.nil_append]
  intro pq hpq
  rcases List.mem_append.mp hpq with hOld | hLast
  · exact hExact pq hOld
  · rw [hQueue] at hLast
    rcases List.mem_map.mp hLast with ⟨d, hd, rfl⟩
    have hLength := hNew d hd
    unfold Datagram.Exact at hLength
    unfold queuedPacket encodePacket
    dsimp only
    rw [List.length_append, length_encodeHead, hLength]

/- A process at a fault only waits. -/
theorem call_of_fault
    (hFault : s.node.fault.isSome = true)
    (hQuiet : s.node.queue = []) :
    s.call x = s := by
  have hNode : s.node.exec x = s.node := by
    unfold Node.exec
    rw [if_pos hFault]
  unfold PeerProcess.call
  rw [hNode]
  dsimp only
  rw [hQuiet, List.map_nil, List.append_nil]
  have hSame : { s.node with queue := [] } = s.node := by
    rw [← hQuiet]
  rw [hSame]

/- A call that is an event of the system. -/
theorem Mirrors.event
    {e : SystemEvent}
    {ne : NodeEvent}
    (h : Mirrors σ a s)
    (hRecorded : Recorded env σ)
    (hPlace : place e = a)
    (hAllow : NoForging σ e)
    (hEvent : nodeEvent e = some ne) :
    ∃ σ', StepsAt env a σ σ' ∧
      Mirrors σ' a (s.call (handle (env a) ne)) := by
  subst hPlace
  have hQuiet := h.node.quiet (hRecorded.quiet (place e))
  rcases h.node with hSame | ⟨f, hHalted⟩
  · refine ⟨System.step env σ e, .single rfl hAllow, ?_⟩
    constructor
    · exact h.enabled
    · exact h.src
    · left
      rw [step_node env σ hEvent, ← hSame]
      rfl
    · exact exact_call hQuiet
        (appends_handle _ ne s.node) h.exact
    · intro pq hpq
      rcases List.mem_append.mp hpq with hOld | hLast
      · exact (h.packets pq hOld).mono
          (net_subset_step env σ e)
      · rcases List.mem_map.mp hLast with ⟨d, hd, rfl⟩
        rw [hSame] at hd
        exact hRecorded.backed hAllow hEvent hd
  · refine ⟨σ, .refl, ?_⟩
    have hFault : s.node.fault.isSome = true := by
      rw [hHalted]
      rfl
    rw [call_of_fault hFault hQuiet]
    exact h

/- A call that the system knows nothing of. -/
theorem Mirrors.answers
    (h : Mirrors σ a s)
    (hRecorded : Recorded env σ)
    (hAppends : Appends s.node x)
    (hx : OnlyAnswers x) :
    Mirrors σ a (s.call x) := by
  have hQuiet := h.node.quiet (hRecorded.quiet a)
  by_cases hFault : s.node.fault.isSome = true
  · rw [call_of_fault hFault hQuiet]
    exact h
  have hRuns : ∃ new : List Datagram,
      (∀ d ∈ new, ¬ Transfers d.packet.header.type) ∧
        (s.node.exec x).queue = new ∧
          Follows { s.node.exec x with queue := [] }
            s.node := by
    have hSpec := hx s.node
    unfold Node.exec
    rw [if_neg hFault]
    unfold wp at hSpec
    have hSelf : { s.node with queue := [] } = s.node := by
      rw [← hQuiet]
    cases hResult : x s.node with
    | ok u m =>
        rw [hResult] at hSpec
        rcases hSpec with ⟨new, rfl, hNew⟩
        refine ⟨new, hNew, ?_, .inl hSelf⟩
        change s.node.queue ++ new = new
        rw [hQuiet, List.nil_append]
    | error f m =>
        rw [hResult] at hSpec
        rcases hSpec with ⟨new, rfl, hNew⟩
        refine ⟨new, hNew, ?_, .inr ⟨f, ?_⟩⟩
        · change s.node.queue ++ new = new
          rw [hQuiet, List.nil_append]
        · exact congrArg (Node.halt f) hSelf
  rcases hRuns with ⟨new, hNew, hQueue, hFollows⟩
  constructor
  · exact h.enabled
  · exact h.src
  · have hSame : s.node = σ.node a := by
      rcases h.node with hSame | ⟨f, hHalted⟩
      · exact hSame
      · rw [hHalted] at hFault
        exact absurd rfl hFault
    rw [← hSame]
    exact hFollows
  · exact exact_call hQuiet hAppends h.exact
  · intro pq hpq
    rcases List.mem_append.mp hpq with hOld | hLast
    · exact h.packets pq hOld
    · rw [hQueue] at hLast
      rcases List.mem_map.mp hLast with ⟨d, hd, rfl⟩
      exact backed_of_type (hNew d hd)

end

end PeerNet

------------------------------------------------------------
-- Datagrams
------------------------------------------------------------

namespace PeerNet

open Prog Runs PeerNet.System

/- `send_ihave` queues IHAVEs only. -/
theorem onlyAnswered_sendIhaveLoop
    {n m : Node}
    (h : OnlyAnswered n m)
    (dest : Addr)
    (fuel : Nat)
    (next : List Hash) :
    wp (sendIhaveLoop dest fuel next)
      (fun _ k => OnlyAnswered n k) (fun _ k => OnlyAnswered n k)
      m := by
  induction fuel generalizing next m with
  | zero => exact h
  | succ fuel ih =>
      unfold sendIhaveLoop
      dsimp only
      rw [wp_ite]
      refine ⟨fun _ => h, fun _ => ?_⟩
      rw [wp_ite]
      refine ⟨fun _ => h, fun _ => ?_⟩
      rw [wp_bind]
      apply wp_packetNew_copy
      · intro _
        apply ih
        apply h.push
        rintro (hType | hType | hType)
        · exact absurd hType (by decide : typeIhave ≠ typeGet)
        · exact absurd hType
            (by decide : typeIhave ≠ typeData)
        · exact absurd hType (by decide : typeIhave ≠ typeAck)
      · exact fun _ => h
      · exact fun _ => h

theorem onlyAnswers_processWhohas
    (env : Env)
    (src : Addr)
    (packet : Packet) :
    OnlyAnswers (discard (processWhohas env src packet)) := by
  intro n
  rw [wp_discard]
  unfold processWhohas
  rw [wp_bind, wp_get]
  split
  · exact OnlyAnswered.refl n
  · exact onlyAnswered_sendIhaveLoop (.refl n) src _ _

theorem onlyAnswers_pure :
    OnlyAnswers (pure ()) :=
  fun n => OnlyAnswered.refl n

section

variable {env : Addr → Env} {σ : System} {a src : Addr}
variable {s : PeerProcess} {p : Packet} {datagram : Bytes}

theorem processInboundUdp_of_read
    (hRead : readPacket (received datagram) = .ok (some p)) :
    processInboundUdp (env a) src datagram =
      dispatch (env a) src p := by
  unfold processInboundUdp
  rw [hRead]
  rfl

/- A datagram whose packet, if it is one, is on the net. -/
theorem Mirrors.inbound
    (h : Mirrors σ a s)
    (hRecorded : Recorded env σ)
    (hBacked : Backed σ.net src a datagram) :
    ∃ σ', StepsAt env a σ σ' ∧
      Mirrors σ' a
        (s.call (processInboundUdp (env a) src datagram)) := by
  have hAppends :=
    appends_processInboundUdp (env a) src datagram s.node
  have hStill :
      OnlyAnswers (processInboundUdp (env a) src datagram) →
        ∃ σ', StepsAt env a σ σ' ∧
          Mirrors σ' a
            (s.call
              (processInboundUdp (env a) src datagram)) :=
    fun hx => ⟨σ, .refl, h.answers hRecorded hAppends hx⟩
  cases hRead : readPacket (received datagram) with
  | error f =>
      apply hStill
      intro n
      unfold processInboundUdp
      rw [hRead]
      exact OnlyAnswered.refl n
  | ok found =>
  cases found with
  | none =>
      apply hStill
      intro n
      unfold processInboundUdp
      rw [hRead]
      exact OnlyAnswered.refl n
  | some p =>
  rw [processInboundUdp_of_read hRead] at hStill ⊢
  unfold dispatch at hStill ⊢
  by_cases hWhohas : p.header.type = typeWhohas
  · rw [if_pos hWhohas] at hStill ⊢
    exact hStill (onlyAnswers_processWhohas (env a) src p)
  rw [if_neg hWhohas] at hStill ⊢
  by_cases hIhave : p.header.type = typeIhave
  · rw [if_pos hIhave]
    exact h.event (e := .ihave a src p) hRecorded rfl trivial
      rfl
  rw [if_neg hIhave] at hStill ⊢
  -- the packets of a transfer are messages
  by_cases hGet : p.header.type = typeGet
  · rw [if_pos hGet]
    rcases hBacked p hRead (.inl hGet) with ⟨tag, hNet⟩
    exact h.event (e := .deliver ⟨src, a, p, tag⟩) hRecorded
      rfl hNet (nodeEvent_get hGet)
  rw [if_neg hGet] at hStill ⊢
  by_cases hData : p.header.type = typeData
  · rw [if_pos hData]
    rcases hBacked p hRead (.inr (.inl hData)) with
      ⟨tag, hNet⟩
    exact h.event (e := .deliver ⟨src, a, p, tag⟩) hRecorded
      rfl hNet (nodeEvent_data hData)
  rw [if_neg hData] at hStill ⊢
  by_cases hAck : p.header.type = typeAck
  · rw [if_pos hAck]
    rcases hBacked p hRead (.inr (.inr hAck)) with
      ⟨tag, hNet⟩
    exact h.event (e := .deliver ⟨src, a, p, tag⟩) hRecorded
      rfl hNet (nodeEvent_ack hAck)
  rw [if_neg hAck] at hStill ⊢
  exact hStill onlyAnswers_pure

end

end PeerNet

------------------------------------------------------------
-- Turns
------------------------------------------------------------

namespace PeerNet

open Prog Runs PeerNet.System

/- A frame on the wire: its head names both peers. -/
def FrameBacked
    (net : List Message)
    (datagram : Bytes) : Prop :=
  Backed net (SpiffyHeader.decode datagram).src
    (SpiffyHeader.decode datagram).dest
    (datagram.drop spiffyHeaderSize)

/- The socket takes a datagram as a whole or not at all. -/
def WholeOrFails
    (sendto : Bytes → Int) : Prop :=
  ∀ frame, sendto frame < 0 ∨ sendto frame = frame.length

section

variable {env : Addr → Env} {σ : System} {a : Addr}
variable {s : PeerProcess}

/- The calls before `nfds` is looked at. -/
theorem Mirrors.timers
    (h : Mirrors σ a s)
    (hRecorded : Recorded env σ) :
    ∃ σ', StepsAt env a σ σ' ∧
      Mirrors σ' a (s.timers (env a)) := by
  rcases h.event (e := .timeoutCheck a) hRecorded rfl trivial
      rfl with ⟨σ₁, hFirst, h₁⟩
  rcases h₁.event (e := .getAllTheThingz a)
      (hFirst.recorded hRecorded) rfl trivial rfl with
    ⟨σ₂, hSecond, h₂⟩
  rcases h₂.event (e := .peerCc a)
      ((StepsAt.trans hFirst hSecond).recorded hRecorded) rfl trivial
      rfl with ⟨σ₃, hThird, h₃⟩
  exact ⟨σ₃, (hFirst.trans hSecond).trans hThird, h₃⟩

/- What goes out was waiting, and what waits stays. -/
theorem Mirrors.packetOps
    (h : Mirrors σ a s)
    {sendto : Bytes → Int}
    (hWhole : WholeOrFails sendto) :
    Mirrors σ a (s.packetOps sendto).1 ∧
      ∀ d ∈ (s.packetOps sendto).2, FrameBacked σ.net d := by
  have hNothing : ∀ d ∈ ([] : List Bytes),
      FrameBacked σ.net d :=
    fun d hd => nomatch hd
  unfold PeerProcess.packetOps
  by_cases hFault : s.node.fault.isSome = true
  · rw [if_pos hFault]
    exact ⟨h, hNothing⟩
  rw [if_neg hFault]
  cases hPackets : s.packets with
  | nil => exact ⟨h, hNothing⟩
  | cons pq packets =>
  dsimp only
  have hFirst : pq ∈ s.packets := by
    rw [hPackets]
    exact List.mem_cons_self
  have hLen := h.exact pq hFirst
  have hRest : Mirrors σ a { s with packets := packets } := by
    have hSub : packets ⊆ s.packets := by
      rw [hPackets]
      exact List.subset_cons_self pq packets
    exact
      { enabled := h.enabled
        src := h.src
        node := h.node
        exact := fun q hq => h.exact q (hSub hq)
        packets := fun q hq => h.packets q (hSub hq) }
  have hAll : pq.buf.take pq.len = pq.buf :=
    List.take_of_length_le hLen.le
  rw [hAll]
  rcases hWhole (s.spiffy.frame pq.buf pq.destAddr).1 with
    hFails | hTaken
  · have hSent :
        s.spiffy.sent
            (sendto (s.spiffy.frame pq.buf pq.destAddr).1) =
          sendto (s.spiffy.frame pq.buf pq.destAddr).1 := by
      unfold Spiffy.sent
      rw [if_neg (by omega)]
    rw [if_pos hFails, hSent, if_pos hFails]
    exact ⟨hRest, hNothing⟩
  · have hSent := sent_frame h.enabled pq.destAddr pq.buf
    have hGone :
        ¬ 0 < (PacketQueue.unsent (pq.len : Int).toNat
          pq).len := by
      simp [PacketQueue.unsent]
    have hNot : ¬ (pq.len : Int) < 0 := by omega
    rw [hTaken, hSent, hLen, if_neg hNot,
      if_neg (Int.lt_irrefl _), if_neg hGone]
    refine ⟨hRest, ?_⟩
    intro d hd
    dsimp only at hd
    rw [if_neg (by omega), List.mem_singleton,
      Int.toNat_natCast, List.take_length] at hd
    rw [hd]
    rcases decode_frame h.enabled pq.buf pq.destAddr with
      ⟨hSrc, hDest, hBytes⟩
    unfold FrameBacked
    rw [hSrc, hDest, hBytes, h.src]
    exact h.packets pq hFirst

/- The lines of a read, one call each. -/
theorem Mirrors.lines
    (h : Mirrors σ a s)
    (hRecorded : Recorded env σ)
    (lines : List Bytes) :
    ∃ σ', StepsAt env a σ σ' ∧
      Mirrors σ' a
        (lines.foldl
          (fun s line => s.call (handleUserInput (env a) line))
          s) := by
  induction lines generalizing σ s with
  | nil => exact ⟨σ, .refl, h⟩
  | cons line lines ih =>
      have hLine : ∃ σ', StepsAt env a σ σ' ∧
          Mirrors σ' a
            (s.call (handleUserInput (env a) line)) := by
        by_cases hAsks : ∃ chunkf outf, AsksFor line chunkf outf
        · rcases hAsks with ⟨chunkf, outf, hAsks⟩
          rw [handleUserInput_asked (env a) hAsks]
          exact h.event (e := .userGet a chunkf outf)
            hRecorded rfl trivial rfl
        · rw [handleUserInput_other (env a)
            fun chunkf outf hLine => hAsks ⟨_, _, hLine⟩]
          refine ⟨σ, .refl, h.answers hRecorded ?_
            onlyAnswers_pure⟩
          exact appends_of_commutes
            (fun _ => Commutes.pure _) _
      rcases hLine with ⟨σ₁, hFirst, h₁⟩
      rcases ih h₁ (hFirst.recorded hRecorded) with
        ⟨σ₂, hRest, h₂⟩
      exact ⟨σ₂, hFirst.trans hRest, h₂⟩

/- A whole turn, with a datagram of the network. -/
theorem Mirrors.turn
    (h : Mirrors σ a s)
    (hRecorded : Recorded env σ)
    {t : Turn}
    (hInbound : ∀ src datagram,
      t.inbound = some (src, datagram) →
        FrameBacked σ.net datagram ∧
          (SpiffyHeader.decode datagram).dest = a)
    (hWhole : WholeOrFails t.sendto) :
    ∃ σ', StepsAt env a σ σ' ∧
      Mirrors σ' a (s.turn (env a) t).1 ∧
        ∀ d ∈ (s.turn (env a) t).2, FrameBacked σ'.net d := by
  have hNothing : ∀ (u : System), ∀ d ∈ ([] : List Bytes),
      FrameBacked u.net d :=
    fun u d hd => nomatch hd
  unfold PeerProcess.turn
  by_cases hExited : s.exited = true
  · rw [if_pos hExited]
    exact ⟨σ, .refl, h, hNothing σ⟩
  rw [if_neg hExited]
  dsimp only
  rcases h.timers hRecorded with ⟨σ₁, hTimers, h₁⟩
  by_cases hSelected : t.selected = true
  case neg =>
    rw [if_neg hSelected]
    exact ⟨σ₁, hTimers, h₁, hNothing σ₁⟩
  rw [if_pos hSelected]
  -- one packet goes out
  have hOut :
      Mirrors σ₁ a
          (if t.writable then
            (s.timers (env a)).packetOps t.sendto
          else (s.timers (env a), [])).1 ∧
        ∀ d ∈
            (if t.writable then
              (s.timers (env a)).packetOps t.sendto
            else (s.timers (env a), [])).2,
          FrameBacked σ₁.net d := by
    split
    · exact h₁.packetOps hWhole
    · exact ⟨h₁, hNothing σ₁⟩
  generalize
    (if t.writable then
      (s.timers (env a)).packetOps t.sendto
    else (s.timers (env a), [])) = sent at hOut ⊢
  rcases sent with ⟨s₂, out⟩
  rcases hOut with ⟨h₂, hSent⟩
  dsimp only at h₂ hSent ⊢
  -- one datagram comes in
  have hIn : ∃ σ₂, StepsAt env a σ₁ σ₂ ∧
      Mirrors σ₂ a (s₂.inboundOps (env a) t.inbound) := by
    unfold PeerProcess.inboundOps
    cases hFrom : t.inbound with
    | none => exact ⟨σ₁, .refl, h₂⟩
    | some origin =>
        rcases origin with ⟨src, datagram⟩
        rcases hInbound src datagram hFrom with
          ⟨hBacked, hDest⟩
        dsimp only
        rw [inboundUdp_enabled h₂.enabled]
        apply h₂.inbound (hTimers.recorded hRecorded)
        rw [← hDest]
        exact hBacked.mono hTimers.net
  rcases hIn with ⟨σ₂, hReads, h₃⟩
  -- lines come in
  have hTyped : ∃ σ₃, StepsAt env a σ₂ σ₃ ∧
      Mirrors σ₃ a
        ((s₂.inboundOps (env a) t.inbound).userOps (env a)
          t.typed) := by
    unfold PeerProcess.userOps
    cases t.typed with
    | none => exact ⟨σ₂, .refl, h₃⟩
    | some data =>
        dsimp only
        split
        · exact ⟨σ₂, .refl, h₃⟩
        split
        · refine ⟨σ₂, .refl, ?_⟩
          exact ⟨h₃.enabled, h₃.src, h₃.node, h₃.exact,
            h₃.packets⟩
        · next lines userbuf _ =>
            have hBuffer : Mirrors σ₂ a
                { s₂.inboundOps (env a) t.inbound with
                  userbuf := userbuf } :=
              ⟨h₃.enabled, h₃.src, h₃.node, h₃.exact,
                h₃.packets⟩
            exact hBuffer.lines
              ((StepsAt.trans hTimers hReads).recorded
                hRecorded) lines
  rcases hTyped with ⟨σ₃, hLines, h₄⟩
  refine ⟨σ₃,
    StepsAt.trans (StepsAt.trans hTimers hReads) hLines,
    h₄, ?_⟩
  intro d hd
  exact (hSent d hd).mono (StepsAt.trans hReads hLines).net

end

end PeerNet

------------------------------------------------------------
-- Clusters
------------------------------------------------------------

namespace PeerNet

open Runs PeerNet.System

/- A cluster and the system that it is a run of. -/
structure Refines
    (env : Addr → Env)
    (κ : Cluster)
    (σ : System) : Prop where
  recorded : Recorded env σ
  mirrors : ∀ a, Mirrors σ a (κ.proc a)
  wire : ∀ d ∈ κ.wire, FrameBacked σ.net d

/- The system before anything was sent. -/
def System.start
    (node : Addr → Node) : System where
  node := node
  net := []
  requests := []
  fetchTag := fun _ _ => 0
  uploadTag := fun _ _ => 0
  countedTag := fun _ _ => 0
  accepted := []

section

variable {env : Addr → Env} {node : Addr → Node} {κ : Cluster}

theorem started_start
    (hConfigured : ∀ a, Configured (node a)) :
    Started (.start node) :=
  ⟨hConfigured, rfl, rfl, rfl⟩

theorem refines_start
    (hConfigured : ∀ a, Configured (node a))
    (router : Addr) :
    Refines env (.start node router) (.start node) where
  recorded := (started_start hConfigured).recorded
  mirrors := fun _ =>
    { enabled := rfl
      src := rfl
      node := .inl rfl
      exact := fun _ hpq => nomatch hpq
      packets := fun _ hpq => nomatch hpq }
  wire := fun _ hd => nomatch hd

/- A turn is matched by steps of its process. -/
theorem refines_step :
    Simulates (Cluster.step env) Cluster.Routed
      (System.step env) NoForging (Refines env) := by
  intro κ σ e h hRouted
  rcases (h.mirrors e.1).turn h.recorded (t := e.2)
      (fun src datagram hFrom =>
        ⟨h.wire datagram (hRouted.inbound src datagram hFrom).1,
          (hRouted.inbound src datagram hFrom).2⟩)
      hRouted.sendto with ⟨σ', hSteps, hMirrors, hOut⟩
  refine ⟨σ', hSteps.mono fun _ _ hAllow => hAllow.2, ?_⟩
  constructor
  · exact hSteps.recorded h.recorded
  · intro b
    unfold Cluster.step
    dsimp only
    by_cases hb : b = e.1
    · subst hb
      rw [Function.update_self]
      exact hMirrors
    · rw [Function.update_of_ne hb]
      exact (h.mirrors b).elsewhere hSteps hb
  · intro d hd
    rcases List.mem_append.mp hd with hOld | hNew
    · exact (h.wire d hOld).mono hSteps.net
    · exact hOut d hNew

theorem refines_of_run
    (hConfigured : ∀ a, Configured (node a))
    {router : Addr}
    (hRun :
      Reaches (Cluster.step env) Cluster.Routed
        (.start node router) κ) :
    ∃ σ, Reaches (System.step env) NoForging (.start node) σ ∧
      Refines env κ σ :=
  refines_step.run (refines_start hConfigured router) hRun

/-
  Peers that run the loop around the router do what the
  system does in some run without forged messages. What a
  peer can read from the wire as a GET, DATA or ACK is a
  message of that run, from and to the peers in its head.
-/
theorem cluster_refines
    (hConfigured : ∀ a, Configured (node a))
    {router : Addr}
    (hRun :
      Reaches (Cluster.step env) Cluster.Routed
        (.start node router) κ) :
    ∃ σ, Reaches (System.step env) NoForging (.start node) σ ∧
      (∀ a, Follows (κ.proc a).node (σ.node a)) ∧
        ∀ d ∈ κ.wire, FrameBacked σ.net d := by
  rcases refines_of_run hConfigured hRun with
    ⟨σ, hAbstract, hRefines⟩
  exact ⟨σ, hAbstract, fun a => (hRefines.mirrors a).node,
    hRefines.wire⟩

end

/- A turn in which a GET is typed and the socket fails. -/
def typedTurn : Turn where
  selected := true
  writable := true
  inbound := none
  typed := some [71, 69, 84, 32, 4, 32, 98, 10]
  sendto := fun _ => -1

theorem routed_typedTurn
    (κ : Cluster)
    (a : Addr) :
    Cluster.Routed κ (a, typedTurn) where
  inbound := by
    intro src datagram hFrom
    cases hFrom
  sendto := fun _ => .inl (Int.negSucc_lt_zero 0)

/-
  A turn that sends the packet that waits, and reads what is
  on the wire at a place.
-/
def talkingTurn
    (κ : Cluster)
    (place : Option Nat) : Turn where
  selected := true
  writable := true
  inbound :=
    (place.bind fun i => κ.wire[i]?).map fun d => (⟨0, 0⟩, d)
  typed := none
  sendto := fun frame => frame.length

/- Such turns, each of a process that a frame is sent to. -/
def talk
    (env : Addr → Env) :
    Cluster → List (Addr × Option Nat) → Option Cluster
| κ, [] => some κ
| κ, (a, place) :: rest =>
    if (talkingTurn κ place).inbound.all
        (fun d => (SpiffyHeader.decode d.2).dest == a) then
      talk env (κ.step env (a, talkingTurn κ place)) rest
    else
      none

theorem reaches_talk
    {env : Addr → Env}
    {κ κ' : Cluster}
    {turns : List (Addr × Option Nat)}
    (hTalk : talk env κ turns = some κ') :
    Reaches (Cluster.step env) Cluster.Routed κ κ' := by
  induction turns generalizing κ with
  | nil =>
      rw [Option.some.inj hTalk]
      exact .refl
  | cons turn turns ih =>
      rcases turn with ⟨a, place⟩
      unfold talk at hTalk
      split at hTalk
      case isFalse => cases hTalk
      case isTrue hDirected =>
      have hRouted :
          Cluster.Routed κ (a, talkingTurn κ place) := by
        refine ⟨?_, fun _ => .inr rfl⟩
        intro src datagram hFrom
        dsimp only at hFrom
        rw [hFrom] at hDirected
        refine ⟨?_, of_decide_eq_true hDirected⟩
        rcases Option.map_eq_some_iff.mp hFrom with
          ⟨d, hFrame, hIs⟩
        rcases Option.bind_eq_some_iff.mp hFrame with
          ⟨i, -, hAt⟩
        rw [← (Prod.mk.inj hIs).2]
        exact List.mem_of_getElem? hAt
      exact (Reaches.step _ .refl hRouted).trans (ih hTalk)

/- A GET is typed, and turns follow. -/
def typedCluster
    (env : Addr → Env)
    (turns : List (Addr × Option Nat)) : Option Cluster :=
  talk env
    (Cluster.step env (.start sharingSystem.node ⟨0, 0⟩)
      (⟨2, 2⟩, typedTurn))
    turns

theorem reaches_typedCluster
    {env : Addr → Env}
    {turns : List (Addr × Option Nat)}
    (hTalk : (typedCluster env turns).isSome = true) :
    Reaches (Cluster.step env) Cluster.Routed
      (.start sharingSystem.node ⟨0, 0⟩)
      ((typedCluster env turns).get hTalk) := by
  have hTyped :
      Reaches (Cluster.step env) Cluster.Routed
        (.start sharingSystem.node ⟨0, 0⟩) _ :=
    .step (⟨2, 2⟩, typedTurn) .refl (routed_typedTurn _ _)
  exact hTyped.trans (reaches_talk (Option.some_get hTalk).symm)

/- The WHOHAS, the IHAVE and the GET are sent. -/
def askingTurns : List (Addr × Option Nat) :=
  [(⟨2, 2⟩, none), (⟨1, 1⟩, some 0), (⟨1, 1⟩, none),
    (⟨2, 2⟩, some 1), (⟨2, 2⟩, none), (⟨2, 2⟩, none)]

/- Then a DATA packet and its ACK. -/
def servingTurns : List (Addr × Option Nat) :=
  [(⟨1, 1⟩, some 4), (⟨1, 1⟩, none), (⟨2, 2⟩, some 5),
    (⟨2, 2⟩, none), (⟨1, 1⟩, some 6)]

theorem talks_servingTurns :
    (typedCluster waitingEnv
      (askingTurns ++ servingTurns)).isSome = true := by
  decide +kernel

theorem cluster_refines_served :
    ∃ σ,
      Reaches (System.step waitingEnv) NoForging
          (.start sharingSystem.node) σ ∧
        (∀ a, Follows
          (((typedCluster waitingEnv
            (askingTurns ++ servingTurns)).get
              talks_servingTurns).proc a).node
          (σ.node a)) ∧
          ∀ d ∈
              ((typedCluster waitingEnv
                (askingTurns ++ servingTurns)).get
                  talks_servingTurns).wire,
            FrameBacked σ.net d :=
  cluster_refines sharingSystem_started.configured
    (reaches_typedCluster talks_servingTurns)

/- The types of the frames on the wire. -/
example :
    (typedCluster waitingEnv
        (askingTurns ++ servingTurns)).map
          (fun κ => κ.wire.map (·.getD 19 0)) =
      some [typeWhohas, typeIhave, typeWhohas, typeWhohas,
        typeGet, typeData, typeAck] := by
  decide +kernel

end PeerNet
