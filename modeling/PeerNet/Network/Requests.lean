import PeerNet.Network.Messages

/-
  The records of a run: which GETs were sent, and which DATA
  was accepted.

  A GET goes onto the record in the order in which it leaves
  its process. The last one of a process to an address is
  the fetch that DATA from there belongs to.

  Main declarations:
    * `IsLast`
    * `System.step_requests`
    * `System.Tagged.step`
    * `System.accepts_step`
-/

------------------------------------------------------------
-- Requests in Order
------------------------------------------------------------

namespace PeerNet

/- Request `f` is the last one of `b` to `a`. -/
structure IsLast
    (requests : List Request)
    (b a : Addr)
    (f : Nat) : Prop where
  sent : ∃ hash, requests[f]? = some ⟨b, a, hash⟩
  last : ∀ g hash,
    requests[g]? = some ⟨b, a, hash⟩ → g ≤ f

section

variable {a b x y : Addr} {hash hash' : Hash} {f g : Nat}
variable {requests later : List Request}
variable {q : Request}

theorem IsLast.unique
    (h : IsLast requests b a f)
    (h' : IsLast requests b a g) :
    f = g := by
  rcases h.sent with ⟨hash, hSent⟩
  rcases h'.sent with ⟨hash', hSent'⟩
  exact Nat.le_antisymm (h'.last f hash hSent)
    (h.last g hash' hSent')

/- A new request is the last one to its address. -/
theorem isLast_concat
    (requests : List Request)
    (b a : Addr)
    (hash : Hash) :
    IsLast (requests ++ [⟨b, a, hash⟩]) b a
      requests.length where
  sent := ⟨hash, by simp⟩
  last := by
    intro g hash' hSome
    have hg := (List.getElem?_eq_some_iff.mp hSome).1
    rw [List.length_append, List.length_singleton] at hg
    omega

/- Requests to other addresses change nothing. -/
theorem isLast_append
    (hOther : ∀ q ∈ later, ¬ (q.src = b ∧ q.dest = a)) :
    IsLast (requests ++ later) b a f ↔
      IsLast requests b a f := by
  have hOld : ∀ {g : Nat} {hash : Hash},
      (requests ++ later)[g]? = some ⟨b, a, hash⟩ →
        requests[g]? = some ⟨b, a, hash⟩ := by
    intro g hash hSome
    rcases Nat.lt_or_ge g requests.length with hLt | hGe
    · rw [List.getElem?_append_left hLt] at hSome
      exact hSome
    · rw [List.getElem?_append_right hGe] at hSome
      have hMem := List.mem_of_getElem? hSome
      exact absurd ⟨rfl, rfl⟩ (hOther _ hMem)
  constructor
  · rintro ⟨⟨hash, hSent⟩, hLast⟩
    refine ⟨⟨hash, hOld hSent⟩, fun g hash' hSome => ?_⟩
    exact hLast g hash' (getElem?_append_of_some hSome)
  · rintro ⟨⟨hash, hSent⟩, hLast⟩
    refine ⟨⟨hash, getElem?_append_of_some hSent⟩,
      fun g hash' hSome => ?_⟩
    exact hLast g hash' (hOld hSome)

end

end PeerNet

------------------------------------------------------------
-- The Records of a Step
------------------------------------------------------------

namespace PeerNet

namespace System

/- Each fetch is known by its request. -/
def Tagged
    (σ : System) : Prop :=
  ∀ b a f, IsLast σ.requests b a f → σ.fetchTag b a = f

section

variable {env : Addr → Env} {σ : System} {e : SystemEvent}
variable {ne : NodeEvent} {m : Message} {a : Addr}
variable {queue : List Datagram} {d : Datagram}
variable {A : Accepted}

theorem Tagged.send
    (h : σ.Tagged) :
    (send a σ d).Tagged := by
  intro b c f hLast
  rw [send_requests] at hLast
  by_cases hGet : d.packet.header.type = typeGet
  · have hTag :
        (System.send a σ d).fetchTag =
          Function.update σ.fetchTag a
            (Function.update (σ.fetchTag a) d.destAddr
              σ.requests.length) := by
      unfold System.send
      rw [if_pos hGet]
    rw [hTag]
    rw [requestsOf_get hGet] at hLast
    by_cases hSame : a = b ∧ d.destAddr = c
    · rcases hSame with ⟨rfl, rfl⟩
      rw [Function.update_self, Function.update_self]
      exact (isLast_concat _ _ _ _).unique hLast
    · rw [isLast_append] at hLast
      · by_cases hb : b = a
        · subst hb
          have hc : c ≠ d.destAddr := by
            rintro rfl
            exact hSame ⟨rfl, rfl⟩
          rw [Function.update_self,
            Function.update_of_ne hc]
          exact h b c f hLast
        · rw [Function.update_of_ne hb]
          exact h b c f hLast
      · intro q hq
        rw [List.mem_singleton.mp hq]
        exact hSame
  · have hTag :
        (System.send a σ d).fetchTag = σ.fetchTag := by
      unfold System.send
      rw [if_neg hGet]
      split <;> rfl
    rw [requestsOf_other hGet, List.append_nil] at hLast
    rw [hTag]
    exact h b c f hLast

theorem Tagged.flush
    (h : σ.Tagged) :
    (flush a queue σ).Tagged := by
  unfold System.flush
  induction queue generalizing σ with
  | nil => exact h
  | cons d queue ih => exact ih h.send

theorem flush_accepted :
    (flush a queue σ).accepted = σ.accepted := by
  unfold flush
  induction queue generalizing σ with
  | nil => rfl
  | cons d queue ih =>
      rw [List.foldl_cons, ih]
      unfold send
      split
      · rfl
      · split <;> rfl

theorem flush_countedTag :
    (flush a queue σ).countedTag = σ.countedTag := by
  unfold flush
  induction queue generalizing σ with
  | nil => rfl
  | cons d queue ih =>
      rw [List.foldl_cons, ih]
      unfold send
      split
      · rfl
      · split <;> rfl

theorem record_requests
    (before after : Node) :
    (σ.record before after m).requests = σ.requests := by
  unfold record
  split
  · split <;> rfl
  · split
    · split <;> rfl
    · split <;> rfl

theorem record_fetchTag
    (before after : Node) :
    (σ.record before after m).fetchTag = σ.fetchTag := by
  unfold record
  split
  · split <;> rfl
  · split
    · split <;> rfl
    · split <;> rfl

theorem record_uploadTag
    (before after : Node) :
    (σ.record before after m).uploadTag =
      if m.packet.header.type = typeGet ∧
          before.config.upload.length <
            after.config.upload.length then
        Function.update σ.uploadTag m.dest
          (Function.update (σ.uploadTag m.dest) m.src m.tag)
      else
        σ.uploadTag := by
  unfold record
  by_cases hGet : m.packet.header.type = typeGet
  · by_cases hMore :
        before.config.upload.length <
          after.config.upload.length
    · rw [if_pos hGet, if_pos hMore, if_pos ⟨hGet, hMore⟩]
    · rw [if_pos hGet, if_neg hMore,
        if_neg fun h => hMore h.2]
  · have hNot :
        ¬ (m.packet.header.type = typeGet ∧
          before.config.upload.length <
            after.config.upload.length) :=
      fun h => hGet h.1
    rw [if_neg hGet, if_neg hNot]
    split
    · split <;> rfl
    · split <;> rfl

/- What counts is a GET that makes an upload, or an ACK. -/
theorem record_countedTag
    (before after : Node) :
    (σ.record before after m).countedTag =
      if m.packet.header.type = typeGet ∧
          before.config.upload.length <
            after.config.upload.length then
        Function.update σ.countedTag m.dest
          (Function.update (σ.countedTag m.dest) m.src
            m.tag)
      else if m.packet.header.type = typeAck then
        Function.update σ.countedTag m.dest fun b =>
          if ackedFor after b = ackedFor before b then
            σ.countedTag m.dest b
          else
            m.tag
      else
        σ.countedTag := by
  have hGetAck : typeGet ≠ typeAck := by decide
  have hDataAck : typeData ≠ typeAck := by decide
  unfold record
  by_cases hGet : m.packet.header.type = typeGet
  · by_cases hMore :
        before.config.upload.length <
          after.config.upload.length
    · rw [if_pos hGet, if_pos hMore, if_pos ⟨hGet, hMore⟩]
    · rw [if_pos hGet, if_neg hMore,
        if_neg fun h => hMore h.2, hGet, if_neg hGetAck]
  · have hNot :
        ¬ (m.packet.header.type = typeGet ∧
          before.config.upload.length <
            after.config.upload.length) :=
      fun h => hGet h.1
    rw [if_neg hGet, if_neg hNot]
    by_cases hData : m.packet.header.type = typeData
    · rw [if_pos hData, hData, if_neg hDataAck]
      split <;> rfl
    · rw [if_neg hData]
      split <;> rfl

/- Nothing accepted is forgotten. -/
theorem mem_record_accepted
    (before after : Node)
    (hMem : A ∈ σ.accepted) :
    A ∈ (σ.record before after m).accepted := by
  unfold record
  split
  · split <;> exact hMem
  · split
    · split
      · exact List.mem_append_left _ hMem
      · exact hMem
    · split <;> exact hMem

/- The GETs of a step go on record. -/
theorem step_requests
    (hEvent : nodeEvent e = some ne) :
    (step env σ e).requests =
      σ.requests ++
        requestsOf (place e)
          ((σ.node (place e)).step (env (place e))
            ne).queue := by
  unfold step
  rw [hEvent]
  dsimp only
  rw [flush_requests]
  split
  · rw [record_requests]
  · rfl

theorem Tagged.step
    (h : σ.Tagged)
    (env : Addr → Env)
    (e : SystemEvent) :
    (step env σ e).Tagged := by
  cases hEvent : nodeEvent e with
  | none =>
      rw [step_of_none hEvent]
      exact h
  | some ne =>
      unfold System.step
      rw [hEvent]
      apply Tagged.flush
      split
      · intro b a f hLast
        rw [record_requests] at hLast
        rw [record_fetchTag]
        exact h b a f hLast
      · exact h

theorem mem_accepted_step
    (env : Addr → Env)
    (e : SystemEvent)
    (hMem : A ∈ σ.accepted) :
    A ∈ (step env σ e).accepted := by
  cases hEvent : nodeEvent e with
  | none =>
      rw [step_of_none hEvent]
      exact hMem
  | some ne =>
      unfold step
      rw [hEvent]
      dsimp only
      rw [flush_accepted]
      split
      · exact mem_record_accepted _ _ hMem
      · exact hMem

/- Only a GET that makes an upload sets a tag. -/
theorem step_uploadTag
    (hEvent : nodeEvent e = some ne)
    (hFew : ∀ m, e = .deliver m →
      m.packet.header.type = typeGet →
        ((σ.node (place e)).step (env (place e))
            ne).config.upload.length ≤
          (σ.node (place e)).config.upload.length) :
    (step env σ e).uploadTag = σ.uploadTag := by
  unfold step
  rw [hEvent]
  dsimp only
  rw [flush_uploadTag]
  split
  · next m =>
      rw [record_uploadTag, if_neg]
      rintro ⟨hGet, hMore⟩
      exact absurd (hFew m rfl hGet) (Nat.not_le.mpr hMore)
  · rfl

theorem step_uploadTag_get
    (hType : m.packet.header.type = typeGet)
    (hMore :
      (σ.node m.dest).config.upload.length <
        ((σ.node m.dest).step (env m.dest)
          (.get m.src m.packet)).config.upload.length) :
    (step env σ (.deliver m)).uploadTag =
      Function.update σ.uploadTag m.dest
        (Function.update (σ.uploadTag m.dest) m.src
          m.tag) := by
  unfold step
  rw [nodeEvent_get hType]
  dsimp only
  rw [flush_uploadTag, record_uploadTag,
    if_pos ⟨hType, hMore⟩]

/- And only at its own process. -/
theorem step_uploadTag_of_ne
    (ha : a ≠ place e) :
    (step env σ e).uploadTag a = σ.uploadTag a := by
  cases hEvent : nodeEvent e with
  | none => rw [step_of_none hEvent]
  | some ne =>
      unfold step
      rw [hEvent]
      dsimp only
      rw [flush_uploadTag]
      split
      · rw [record_uploadTag]
        split
        · exact Function.update_of_ne ha _ _
        · rfl
      · rfl

/- The ACK that an upload counts is set like its tag. -/
theorem step_countedTag
    (hEvent : nodeEvent e = some ne)
    (hFew : ∀ m, e = .deliver m →
      m.packet.header.type = typeGet →
        ((σ.node (place e)).step (env (place e))
            ne).config.upload.length ≤
          (σ.node (place e)).config.upload.length)
    (hNot : ∀ m, e = .deliver m →
      m.packet.header.type ≠ typeAck) :
    (step env σ e).countedTag = σ.countedTag := by
  unfold step
  rw [hEvent]
  dsimp only
  rw [flush_countedTag]
  split
  · next m =>
      rw [record_countedTag, if_neg, if_neg (hNot m rfl)]
      rintro ⟨hGet, hMore⟩
      exact absurd (hFew m rfl hGet) (Nat.not_le.mpr hMore)
  · rfl

theorem step_countedTag_get
    (hType : m.packet.header.type = typeGet)
    (hMore :
      (σ.node m.dest).config.upload.length <
        ((σ.node m.dest).step (env m.dest)
          (.get m.src m.packet)).config.upload.length) :
    (step env σ (.deliver m)).countedTag =
      Function.update σ.countedTag m.dest
        (Function.update (σ.countedTag m.dest) m.src
          m.tag) := by
  unfold step
  rw [nodeEvent_get hType]
  dsimp only
  rw [flush_countedTag, record_countedTag,
    if_pos ⟨hType, hMore⟩]

theorem step_countedTag_ack
    (hType : m.packet.header.type = typeAck) :
    (step env σ (.deliver m)).countedTag =
      Function.update σ.countedTag m.dest fun b =>
        if ackedFor
              ((σ.node m.dest).step (env m.dest)
                (.ack m.src m.packet)) b =
            ackedFor (σ.node m.dest) b then
          σ.countedTag m.dest b
        else
          m.tag := by
  have hAckGet : typeAck ≠ typeGet := by decide
  unfold step
  rw [nodeEvent_ack hType]
  dsimp only
  rw [flush_countedTag, record_countedTag, if_neg,
    if_pos hType]
  · rfl
  · rintro ⟨hGet, _⟩
    exact hAckGet (hType.symm.trans hGet)

theorem step_countedTag_of_ne
    (ha : a ≠ place e) :
    (step env σ e).countedTag a = σ.countedTag a := by
  cases hEvent : nodeEvent e with
  | none => rw [step_of_none hEvent]
  | some ne =>
      unfold step
      rw [hEvent]
      dsimp only
      rw [flush_countedTag]
      split
      · rw [record_countedTag]
        split
        · exact Function.update_of_ne ha _ _
        · split
          · exact Function.update_of_ne ha _ _
          · rfl
      · rfl

theorem record_accepted
    {before : Node}
    (after : Node)
    (hType : m.packet.header.type = typeData)
    (hFetching : (fetching before m.src).isSome) :
    (σ.record before after m).accepted =
      σ.accepted ++
        [⟨σ.fetchTag m.dest m.src, m.tag,
          toInt32 m.packet.header.seqNum,
          m.packet.buf⟩] := by
  have hGet : m.packet.header.type ≠ typeGet := by
    rw [hType]
    decide
  unfold record
  rw [if_neg hGet, if_pos hType, if_pos hFetching]

/- DATA that finds a fetch is accepted by it. -/
theorem accepts_step
    (env : Addr → Env)
    (hType : m.packet.header.type = typeData)
    (hFetching :
      (fetching (σ.node m.dest) m.src).isSome) :
    ∃ A ∈ (step env σ (.deliver m)).accepted,
      A.fetch = σ.fetchTag m.dest m.src ∧
        A.seqNum = toInt32 m.packet.header.seqNum := by
  have hNew :
      (step env σ (.deliver m)).accepted =
        σ.accepted ++
          [⟨σ.fetchTag m.dest m.src, m.tag,
            toInt32 m.packet.header.seqNum,
            m.packet.buf⟩] := by
    unfold step
    rw [nodeEvent_data hType]
    dsimp only
    rw [flush_accepted]
    exact record_accepted _ hType hFetching
  rw [hNew]
  refine ⟨_, List.mem_append_right _ List.mem_cons_self,
    ?_, ?_⟩
  · dsimp only
  · dsimp only

end

end System

end PeerNet
