import PeerNet.Model.System

/-
  What a step of the system does to the network.

  A step runs one process and puts what it queued onto the
  network. Every other process stays as it is, and no
  message is ever taken off. A GET goes onto the record in
  the order in which it leaves its process, and the tag of a
  new message is the GET it was sent for.

  Main declarations:
    * `requestsOf`
    * `System.Sent`
    * `System.step_node`
    * `System.step_node_of_ne`
    * `System.sent_of_mem_step`
-/

------------------------------------------------------------
-- Requests of a Queue
------------------------------------------------------------

namespace PeerNet

/- The requests that a queue of `a` makes. -/
def requestsOf
    (a : Addr)
    (queue : List Datagram) : List Request :=
  (queue.filter
    fun d => d.packet.header.type = typeGet).map
      fun d => ⟨a, d.destAddr, hashOfBytes d.packet.buf⟩

section

variable {a : Addr} {queue queue' : List Datagram}
variable {q : Request} {requests later : List Request}
variable {f : Nat}

/- A request stays where it is on the record. -/
theorem getElem?_append_of_some
    (hSome : requests[f]? = some q) :
    (requests ++ later)[f]? = some q := by
  rw [List.getElem?_append_left
    (List.getElem?_eq_some_iff.mp hSome).1]
  exact hSome

@[simp] theorem requestsOf_nil :
    requestsOf a [] = [] :=
  rfl

theorem requestsOf_append :
    requestsOf a (queue ++ queue') =
      requestsOf a queue ++ requestsOf a queue' := by
  simp [requestsOf]

theorem requestsOf_get
    {d : Datagram}
    (hGet : d.packet.header.type = typeGet) :
    requestsOf a [d] =
      [⟨a, d.destAddr, hashOfBytes d.packet.buf⟩] := by
  simp [requestsOf, hGet]

theorem requestsOf_eq_nil
    (hNone : ∀ d ∈ queue, d.packet.header.type ≠ typeGet) :
    requestsOf a queue = [] := by
  unfold requestsOf
  rw [List.map_eq_nil_iff, List.filter_eq_nil_iff]
  simpa using hNone

theorem requestsOf_other
    {d : Datagram}
    (hNot : d.packet.header.type ≠ typeGet) :
    requestsOf a [d] = [] := by
  apply requestsOf_eq_nil
  simpa using hNot

theorem src_of_mem_requestsOf
    (hMem : q ∈ requestsOf a queue) :
    q.src = a := by
  rcases List.mem_map.mp hMem with ⟨d, _, rfl⟩
  rfl

end

end PeerNet

------------------------------------------------------------
-- Sending
------------------------------------------------------------

namespace PeerNet

namespace System

/-
  The message is a datagram that `a` sent before `σ`. A GET
  is the request of its tag; DATA belongs to the upload to
  its destination, and an answer to the fetch from there.
-/
structure Sent
    (a : Addr)
    (queue : List Datagram)
    (σ : System)
    (m : Message)
    (d : Datagram) : Prop where
  mem : d ∈ queue
  src : m.src = a
  dest : m.dest = d.destAddr
  packet : m.packet = d.packet
  get : m.packet.header.type = typeGet →
    σ.requests[m.tag]? =
      some ⟨m.src, m.dest, hashOfBytes m.packet.buf⟩
  data : m.packet.header.type = typeData →
    m.tag = σ.uploadTag m.src m.dest
  answer : m.packet.header.type ≠ typeData →
    (∀ d ∈ queue, d.packet.header.type ≠ typeGet) →
      m.tag = σ.fetchTag m.src m.dest

section

variable {a : Addr} {σ : System} {queue : List Datagram}
variable {d : Datagram} {m : Message}

theorem send_node :
    (send a σ d).node = σ.node := by
  unfold send
  split
  · rfl
  · split <;> rfl

theorem send_requests :
    (send a σ d).requests =
      σ.requests ++ requestsOf a [d] := by
  unfold send
  split
  · next hGet => rw [requestsOf_get hGet]
  · next hNot =>
      rw [requestsOf_other hNot]
      split <;> simp

theorem send_uploadTag :
    (send a σ d).uploadTag = σ.uploadTag := by
  unfold send
  split
  · rfl
  · split <;> rfl

theorem send_fetchTag
    (hNot : d.packet.header.type ≠ typeGet) :
    (send a σ d).fetchTag = σ.fetchTag := by
  unfold send
  rw [if_neg hNot]
  split <;> rfl

/- A new message is the datagram, and comes from `a`. -/
theorem mem_net_send
    (hNet : m ∈ (send a σ d).net) :
    m ∈ σ.net ∨ Sent a [d] (send a σ d) m d := by
  have hData : typeData ≠ typeGet := by decide
  by_cases hGet : d.packet.header.type = typeGet
  · unfold send at hNet ⊢
    rw [if_pos hGet] at hNet ⊢
    rcases List.mem_append.mp hNet with hOld | hNew
    · exact .inl hOld
    · right
      rw [List.mem_singleton.mp hNew]
      refine ⟨List.mem_cons_self, rfl, rfl, rfl, ?_, ?_, ?_⟩
      · intro _
        simp
      · intro hIs
        exact absurd (hIs.symm.trans hGet) hData
      · intro _ hNone
        exact absurd hGet (hNone d List.mem_cons_self)
  · by_cases hIs : d.packet.header.type = typeData
    · unfold send at hNet ⊢
      rw [if_neg hGet, if_pos hIs] at hNet ⊢
      rcases List.mem_append.mp hNet with hOld | hNew
      · exact .inl hOld
      · rw [List.mem_singleton.mp hNew]
        exact .inr ⟨List.mem_cons_self, rfl, rfl, rfl,
          fun h => absurd h hGet, fun _ => rfl,
          fun h => absurd hIs h⟩
    · unfold send at hNet ⊢
      rw [if_neg hGet, if_neg hIs] at hNet ⊢
      rcases List.mem_append.mp hNet with hOld | hNew
      · exact .inl hOld
      · rw [List.mem_singleton.mp hNew]
        exact .inr ⟨List.mem_cons_self, rfl, rfl, rfl,
          fun h => absurd h hGet, fun h => absurd h hIs,
          fun _ _ => rfl⟩

/- What was sent stays on the network. -/
theorem net_subset_send :
    σ.net ⊆ (send a σ d).net := by
  intro m hm
  unfold send
  split
  · exact List.mem_append_left _ hm
  · split
    · exact List.mem_append_left _ hm
    · exact List.mem_append_left _ hm

/- A datagram that is sent is a message, whatever its tag. -/
theorem send_carries :
    ∃ m ∈ (send a σ d).net,
      m.src = a ∧ m.dest = d.destAddr ∧
        m.packet = d.packet := by
  unfold send
  split
  · exact ⟨_, List.mem_append_right _ List.mem_cons_self,
      rfl, rfl, rfl⟩
  · split
    · exact ⟨_, List.mem_append_right _ List.mem_cons_self,
        rfl, rfl, rfl⟩
    · exact ⟨_, List.mem_append_right _ List.mem_cons_self,
        rfl, rfl, rfl⟩

theorem flush_node :
    (flush a queue σ).node = σ.node := by
  unfold flush
  induction queue generalizing σ with
  | nil => rfl
  | cons d queue ih => rw [List.foldl_cons, ih, send_node]

theorem flush_requests :
    (flush a queue σ).requests =
      σ.requests ++ requestsOf a queue := by
  unfold flush
  induction queue generalizing σ with
  | nil => simp
  | cons d queue ih =>
      have hCons :
          requestsOf a (d :: queue) =
            requestsOf a [d] ++ requestsOf a queue := by
        rw [← requestsOf_append, List.singleton_append]
      rw [List.foldl_cons, ih, send_requests, hCons,
        List.append_assoc]

theorem flush_uploadTag :
    (flush a queue σ).uploadTag = σ.uploadTag := by
  unfold flush
  induction queue generalizing σ with
  | nil => rfl
  | cons d queue ih =>
      rw [List.foldl_cons, ih, send_uploadTag]

theorem flush_fetchTag
    (hNone : ∀ d ∈ queue, d.packet.header.type ≠ typeGet) :
    (flush a queue σ).fetchTag = σ.fetchTag := by
  unfold flush
  induction queue generalizing σ with
  | nil => rfl
  | cons d queue ih =>
      rw [List.foldl_cons,
        ih fun e he => hNone e (List.mem_cons_of_mem d he),
        send_fetchTag (hNone d List.mem_cons_self)]

theorem net_subset_flush :
    σ.net ⊆ (flush a queue σ).net := by
  induction queue generalizing σ with
  | nil => exact List.Subset.refl _
  | cons d queue ih =>
      exact List.Subset.trans net_subset_send ih

theorem flush_carries
    (hMem : d ∈ queue) :
    ∃ m ∈ (flush a queue σ).net,
      m.src = a ∧ m.dest = d.destAddr ∧
        m.packet = d.packet := by
  induction queue generalizing σ with
  | nil => cases hMem
  | cons first queue ih =>
      change ∃ m ∈ (flush a queue (send a σ first)).net, _
      rcases List.mem_cons.mp hMem with rfl | hLater
      · rcases send_carries (a := a) (σ := σ) (d := d) with
          ⟨m, hSent, hIs⟩
        exact ⟨m, net_subset_flush hSent, hIs⟩
      · exact ih hLater

/- The first of a queue is sent, whatever follows. -/
theorem Sent.head
    (h : Sent a [d] (send a σ d) m d)
    (queue : List Datagram) :
    Sent a (d :: queue) (flush a (d :: queue) σ) m d where
  mem := List.mem_cons_self
  src := h.src
  dest := h.dest
  packet := h.packet
  get := by
    intro hGet
    have hFirst := h.get hGet
    change (flush a queue (send a σ d)).requests[_]? = _
    rw [flush_requests]
    exact getElem?_append_of_some hFirst
  data := by
    intro hIs
    rw [h.data hIs, send_uploadTag, flush_uploadTag]
  answer := by
    intro hOther hNone
    have hNot := hNone d List.mem_cons_self
    rw [h.answer hOther (by simpa using hNot),
      send_fetchTag hNot, flush_fetchTag hNone]

theorem mem_net_flush
    (hNet : m ∈ (flush a queue σ).net) :
    m ∈ σ.net ∨ ∃ d, Sent a queue (flush a queue σ) m d := by
  induction queue generalizing σ with
  | nil => exact .inl hNet
  | cons d queue ih =>
      have hRest : m ∈ (flush a queue (send a σ d)).net := hNet
      rcases ih hRest with hSent | ⟨e, hLater⟩
      · rcases mem_net_send hSent with hOld | hFirst
        · exact .inl hOld
        · exact .inr ⟨d, hFirst.head queue⟩
      · refine .inr ⟨e, List.mem_cons_of_mem d hLater.mem,
          hLater.src, hLater.dest, hLater.packet, hLater.get,
          hLater.data, fun hOther hNone => ?_⟩
        exact hLater.answer hOther fun e he =>
          hNone e (List.mem_cons_of_mem d he)

end

end System

end PeerNet

------------------------------------------------------------
-- One Step
------------------------------------------------------------

namespace PeerNet

namespace System

section

variable {env : Addr → Env} {σ : System} {e : SystemEvent}
variable {ne : NodeEvent} {m : Message}

theorem record_node
    (before after : Node) :
    (σ.record before after m).node = σ.node := by
  unfold record
  split
  · split <;> rfl
  · split
    · split <;> rfl
    · split <;> rfl

theorem record_net
    (before after : Node) :
    (σ.record before after m).net = σ.net := by
  unfold record
  split
  · split <;> rfl
  · split
    · split <;> rfl
    · split <;> rfl

/- GETs, DATA and ACKs go to their handlers. -/
theorem nodeEvent_get
    (hType : m.packet.header.type = typeGet) :
    nodeEvent (.deliver m) = some (.get m.src m.packet) := by
  simp only [nodeEvent]
  rw [if_pos hType]

theorem nodeEvent_data
    (hType : m.packet.header.type = typeData) :
    nodeEvent (.deliver m) = some (.data m.src m.packet) := by
  have hGet : typeData ≠ typeGet := by decide
  simp only [nodeEvent]
  rw [hType, if_neg hGet, if_pos rfl]

theorem nodeEvent_ack
    (hType : m.packet.header.type = typeAck) :
    nodeEvent (.deliver m) = some (.ack m.src m.packet) := by
  have hGet : typeAck ≠ typeGet := by decide
  have hData : typeAck ≠ typeData := by decide
  simp only [nodeEvent]
  rw [hType, if_neg hGet, if_neg hData, if_pos rfl]

/- An event that no process handles changes nothing. -/
theorem step_of_none
    (hEvent : nodeEvent e = none) :
    step env σ e = σ := by
  unfold step
  rw [hEvent]

/- The process of the event runs; its queue is taken. -/
theorem step_node
    (env : Addr → Env)
    (σ : System)
    (hEvent : nodeEvent e = some ne) :
    (step env σ e).node (place e) =
      { (σ.node (place e)).step (env (place e)) ne with
        queue := [] } := by
  unfold step
  rw [hEvent]
  dsimp only
  rw [flush_node]
  split
  · rw [record_node]
    exact Function.update_self _ _ _
  · exact Function.update_self _ _ _

/- Every other process stays as it is. -/
theorem step_node_of_ne
    {a : Addr}
    (ha : a ≠ place e) :
    (step env σ e).node a = σ.node a := by
  cases hEvent : nodeEvent e with
  | none => rw [step_of_none hEvent]
  | some ne =>
      unfold step
      rw [hEvent]
      dsimp only
      rw [flush_node]
      split
      · rw [record_node]
        exact Function.update_of_ne ha _ _
      · exact Function.update_of_ne ha _ _

theorem net_subset_step
    (env : Addr → Env)
    (σ : System)
    (e : SystemEvent) :
    σ.net ⊆ (step env σ e).net := by
  unfold step
  split
  · exact List.Subset.refl _
  · apply List.Subset.trans _ net_subset_flush
    split
    · rw [record_net]
      exact List.Subset.refl _
    · exact List.Subset.refl _

/- Whatever a process queues is sent. -/
theorem step_carries
    {d : Datagram}
    (hEvent : nodeEvent e = some ne)
    (hMem : d ∈
      ((σ.node (place e)).step (env (place e)) ne).queue) :
    ∃ m ∈ (step env σ e).net,
      m.src = place e ∧ m.dest = d.destAddr ∧
        m.packet = d.packet := by
  unfold step
  rw [hEvent]
  exact flush_carries hMem

/- A new message is one the process queued. -/
theorem sent_of_mem_step
    (hEvent : nodeEvent e = some ne)
    (hNet : m ∈ (step env σ e).net) :
    m ∈ σ.net ∨
      ∃ d,
        Sent (place e)
          ((σ.node (place e)).step (env (place e)) ne).queue
          (step env σ e) m d := by
  unfold step at hNet ⊢
  rw [hEvent] at hNet ⊢
  dsimp only at hNet ⊢
  rcases mem_net_flush hNet with hOld | hSent
  · left
    split at hOld
    · rw [record_net] at hOld
      exact hOld
    · exact hOld
  · exact .inr hSent

end

end System

end PeerNet
