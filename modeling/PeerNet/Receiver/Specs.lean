import PeerNet.Model.Sender
import PeerNet.Receiver.Moves

/-
  The receiver's functions make the moves of `Move`, and
  `process_data` one `DataStep`.

  One lemma for each function says what its calls do; a
  caller's lemma uses the callee's and never its body.

  Main declarations:
    * `Leads`
    * `timeoutCheck_leads`
    * `getAllTheThingz_leads`
    * `processIhave_leads`
    * `processUserGet_leads`
    * `processData_spec`
-/

------------------------------------------------------------
-- Primitive Steps
------------------------------------------------------------

namespace PeerNet

open Prog

section

variable {α : Type} {n : Node}
variable {E : Fault → Node → Prop}

@[simp] theorem wp_timeMillis
    {Q : Int → Node → Prop}
    (env : Env) :
    wp (timeMillis env) Q E n ↔
      Q (env.clock n.reads) n.tick :=
  Iff.rfl

@[simp] theorem wp_derefChunk
    {Q : BtChunk → Node → Prop}
    (r : ChunkRef) :
    wp (derefChunk r) Q E n ↔
      (n.config.chunk r = none → E .freedChunk n) ∧
        ∀ chunk, n.config.chunk r = some chunk →
          Q chunk n := by
  unfold derefChunk
  rw [wp_bind, wp_get]
  cases n.config.chunk r with
  | none => simp
  | some chunk => simp

@[simp] theorem wp_lift
    {Q : α → Node → Prop}
    (x : Except Fault α) :
    wp (lift x) Q E n ↔
      (∀ a, x = .ok a → Q a n) ∧
        ∀ f, x = .error f → E f n := by
  unfold lift
  cases x with
  | error f => simp
  | ok a => simp

/- `packet_new` queues a copy of a whole packet. -/
theorem wp_packetNew_copy
    {Q : Unit → Node → Prop}
    {p : Packet}
    {a : Addr}
    (hQueued : p.Whole → Q () (n.push ⟨p.copy, a⟩))
    (hOverflow : ¬ p.Whole → E .bufferOverflow n)
    (hRead : ¬ p.Whole → E .packetRead n) :
    wp (packetNew p a) Q E n := by
  unfold packetNew
  dsimp only
  rw [wp_ite, wp_ite]
  constructor
  · intro hShort
    apply hOverflow
    intro hWhole
    have hLow := hWhole.1
    omega
  intro hLong
  constructor
  · intro hTorn
    apply hRead
    intro hWhole
    have hHigh := hWhole.2
    omega
  · intro hHad
    exact hQueued ⟨by omega, by omega⟩

/- `packet_new` queues the packet, cut to its length. -/
theorem wp_packetNew
    {Q : Unit → Node → Prop}
    {p : Packet}
    {a : Addr}
    (hQueued :
      ∀ payload, Q () (n.push ⟨⟨p.header, payload⟩, a⟩))
    (hOverflow : E .bufferOverflow n)
    (hRead : E .packetRead n) :
    wp (packetNew p a) Q E n :=
  wp_packetNew_copy (fun _ => hQueued p.payload)
    (fun _ => hOverflow) (fun _ => hRead)

/- `is_bad` at most reads the clock. -/
theorem wp_isBad
    {Q : Bool → Node → Prop}
    {env : Env}
    {peer : BtPeer}
    (hStay : ∀ bad, Q bad n)
    (hTick : ∀ bad, Q bad n.tick) :
    wp (isBad env peer) Q E n := by
  unfold isBad
  rw [wp_ite]
  constructor
  · intro _
    rw [wp_bind, wp_timeMillis, wp_pure]
    exact hTick _
  · intro _
    exact hStay _

end

end PeerNet

------------------------------------------------------------
-- Programs That Make Moves
------------------------------------------------------------

namespace PeerNet

open Prog

/-
  The call stops in `m`: after moves from `n`, or also with
  `max_conn` raised by a `send_get` that found no peer.
-/
def Stopped
    (env : Env)
    (call : Call)
    (n m : Node) : Prop :=
  ∃ k, Moves env call n k ∧
    (m = k ∨ m = k.onConfig BtConfig.raiseMaxConn)

/-
  A call stops at a fault after moves from `n`. At a pointer
  fault some of the moves lead to a state with a dangling
  pointer, at any other to the state of the fault.
-/
structure Faulted
    (env : Env)
    (call : Call)
    (n : Node)
    (f : Fault)
    (m : Node) : Prop where
  cause : ∃ m', Moves env call n m' ∧
    (f.isPointer = true → Dangling m'.config f) ∧
    (f.isPointer = false → m' = m)
  stopped : Stopped env call n m

/- From `n`, the call makes moves and ends in `P`. -/
def Leads
    {α : Type}
    (env : Env)
    (call : Call)
    (n : Node)
    (x : Prog α)
    (P : α → Node → Prop) : Prop :=
  wp x (fun a m => Moves env call n m ∧ P a m)
    (Faulted env call n) n

section

variable {α : Type} {env : Env} {call : Call}
variable {n m : Node}

theorem Faulted.here
    (hMoves : Moves env call n m)
    {f : Fault}
    (hOther : f.isPointer = false) :
    Faulted env call n f m :=
  ⟨⟨m, hMoves, by simp [hOther], fun _ => rfl⟩,
    m, hMoves, .inl rfl⟩

theorem Faulted.dangling
    (hMoves : Moves env call n m)
    {f : Fault}
    (hPointer : f.isPointer = true)
    (hDangling : Dangling m.config f)
    {m' : Node}
    (hStopped : Stopped env call n m') :
    Faulted env call n f m' :=
  ⟨⟨m, hMoves, fun _ => hDangling, by simp [hPointer]⟩,
    hStopped⟩

theorem Faulted.after
    {f : Fault}
    {m' : Node}
    (hMoves : Moves env call n m)
    (h : Faulted env call m f m') :
    Faulted env call n f m' := by
  rcases h with
    ⟨⟨k, hk, hPointer, hOther⟩, l, hl, hStop⟩
  exact ⟨⟨k, hMoves.trans hk, hPointer, hOther⟩,
    l, hMoves.trans hl, hStop⟩

/- A call in the middle of another. -/
theorem Leads.nested
    {x : Prog α}
    {P Q : α → Node → Prop}
    (hx : Leads env call m x P)
    (hMoves : Moves env call n m)
    (hNext :
      ∀ a m', Moves env call n m' → P a m' → Q a m') :
    wp x Q (Faulted env call n) m := by
  apply wp_mono hx
  · rintro a m' ⟨hm', hP⟩
    exact hNext a m' (hMoves.trans hm') hP
  · intro f m' h
    exact h.after hMoves

/- A loop whose rounds make moves and keep `I`. -/
theorem Leads.forM
    {β : Type}
    {I : Node → Prop}
    {f : β → Prog Unit}
    (xs : List β)
    (hStart : I n)
    (hStep :
      ∀ x ∈ xs, ∀ m, I m →
        Leads env call m (f x) (fun _ => I)) :
    Leads env call n (xs.forM f) (fun _ => I) := by
  apply wp_forM (I := fun m => Moves env call n m ∧ I m)
  · rintro x hx m ⟨hm, hI⟩
    exact (hStep x hx m hI).nested hm
      fun _ _ hMoves hI => ⟨hMoves, hI⟩
  · exact ⟨.refl, hStart⟩

end

end PeerNet

------------------------------------------------------------
-- Faults of the Pure Parts
------------------------------------------------------------

namespace PeerNet

/- The faults of file names, texts and packet nodes. -/
def Fault.isLocal :
    Fault → Bool
| .freedPackets => true
| .unsetNode => true
| .bufferOverflow => true
| .textOverflow => true
| .offsetOverflow => true
| .hang => true
| _ => false

/- The pure part of a call stops at nothing else. -/
def Local
    {α : Type}
    (x : Except Fault α) : Prop :=
  ∀ f, x = .error f → f.isLocal = true

/- The pure part of a call follows no pointer. -/
def Plain
    {α : Type}
    (x : Except Fault α) : Prop :=
  ∀ f, x = .error f → f.isPointer = false

theorem Fault.isLocal.plain
    {f : Fault}
    (h : f.isLocal = true) :
    f.isPointer = false := by
  cases f <;> first | rfl | cases h

theorem Local.plain
    {α : Type}
    {x : Except Fault α}
    (h : Local x) :
    Plain x :=
  fun f hFault => Fault.isLocal.plain (h f hFault)

section

variable {α : Type}

theorem Local.ok
    (a : α) :
    Local (.ok a) := by
  intro f h
  cases h

theorem Local.error
    {f : Fault}
    (hLocal : f.isLocal = true) :
    Local (.error f : Except Fault α) := by
  intro g h
  cases h
  exact hLocal

theorem Local.bind
    {β : Type}
    {x : Except Fault α}
    {f : α → Except Fault β}
    (hx : Local x)
    (hf : ∀ a, Local (f a)) :
    Local (x >>= f) := by
  cases x with
  | error e => exact .error (hx e rfl)
  | ok a => exact hf a

end

theorem local_storeWord
    (word : Scanf.Text)
    (buf : Bytes) :
    Local (storeWord word buf) := by
  unfold storeWord
  split
  · exact .ok _
  · exact .error rfl

theorem local_hasChunkLoop
    (hash : Hash)
    (fuel : Nat)
    (input : Scanf.Text)
    (id : Int)
    (buf : Bytes) :
    Local (hasChunkLoop hash fuel input id buf) := by
  induction fuel generalizing input id buf with
  | zero => exact .error rfl
  | succ fuel ih =>
      unfold hasChunkLoop
      split
      · exact .ok _
      · split
        · exact .ok _
        · exact ih _ _ _
      · split
        · exact .ok _
        · exact ih _ _ _
      · split
        · next hWord =>
            exact .error (local_storeWord _ _ _ hWord)
        · split
          · exact .ok _
          · exact ih _ _ _

theorem local_hasChunk
    (env : Env)
    (files : Files)
    (config : BtConfig)
    (hash : Hash) :
    Local (hasChunk env files config hash) := by
  unfold hasChunk
  split
  · exact .ok _
  · exact local_hasChunkLoop _ _ _ _ _

theorem local_skipLine
    (input : Scanf.Text) :
    Local (skipLine input) := by
  unfold skipLine
  split
  · exact .error rfl
  · exact .ok _

theorem local_masterChunkLoop
    (hash : Hash)
    (fuel : Nat)
    (input : Scanf.Text)
    (id : Int)
    (buf : Bytes) :
    Local (masterChunkLoop hash fuel input id buf) := by
  induction fuel generalizing input id buf with
  | zero => exact .error rfl
  | succ fuel ih =>
      unfold masterChunkLoop
      split
      · exact .ok _
      · split
        · next hLine =>
            exact .error (local_skipLine _ _ hLine)
        · exact ih _ _ _
      · split
        · exact .ok _
        · exact ih _ _ _
      · split
        · next hWord =>
            exact .error (local_storeWord _ _ _ hWord)
        · split
          · exact .ok _
          · exact ih _ _ _

theorem local_masterChunk
    (env : Env)
    (files : Files)
    (config : BtConfig)
    (hash : Hash) :
    Local (masterChunk env files config hash) := by
  unfold masterChunk
  split
  · exact .ok _
  · exact local_masterChunkLoop _ _ _ _ _

/- Of the configuration, only the file name is read. -/
theorem masterChunk_congr
    (env : Env)
    (files : Files)
    {c c' : BtConfig}
    (hFile : c.chunkFile = c'.chunkFile)
    (hash : Hash) :
    masterChunk env files c hash =
      masterChunk env files c' hash := by
  unfold masterChunk
  rw [hFile]

theorem local_masterDataFile
    (env : Env)
    (files : Files)
    (config : BtConfig) :
    Local (masterDataFile env files config) := by
  unfold masterDataFile
  split
  · exact .ok _
  · split
    · exact .ok _
    · exact .ok _
    · split
      · exact .ok _
      · exact .error rfl

theorem local_readChunk
    (data : Bytes)
    (id : Int) :
    Local (readChunk data id) := by
  unfold readChunk
  dsimp only
  split
  · exact .error rfl
  · split
    · exact .ok _
    · split <;> exact .ok _

theorem local_masterBytes
    (env : Env)
    (files : Files)
    (config : BtConfig)
    (hash : Hash)
    (id : Int) :
    Local (masterBytes env files config hash id) := by
  unfold masterBytes
  apply (local_masterDataFile env files config).bind
  intro name
  split
  · exact .ok _
  · split
    · exact .ok _
    · apply (local_readChunk _ id).bind
      intro bytes
      split
      · exact .ok _
      · dsimp only
        split <;> exact .ok _

theorem local_packetBytes
    (nodes : List BtPacket) :
    Local (packetBytes nodes) := by
  induction nodes with
  | nil => exact .ok _
  | cons cur rest ih =>
      unfold packetBytes
      split
      · exact .error rfl
      · split
        · next hRest => exact .error (ih _ hRest)
        · exact .ok _

theorem local_writeToBuffer
    (env : Env)
    (nodes : List BtPacket) :
    Local (writeToBuffer env nodes) := by
  unfold writeToBuffer
  split
  · next hBytes =>
      exact .error (local_packetBytes _ _ hBytes)
  · split
    · exact .ok _
    · exact .error rfl

theorem local_dataChunk
    (env : Env)
    (files : Files)
    (config : BtConfig)
    (hash : Hash) :
    Local (dataChunk env files config hash) := by
  unfold dataChunk
  apply (local_hasChunk env files config hash).bind
  intro id
  split
  · exact .ok _
  · apply (local_masterDataFile env files config).bind
    intro name
    split
    · exact .ok _
    · split
      · exact .ok _
      · apply (local_readChunk _ id).bind
        intro bytes
        split
        · exact .ok _
        · dsimp only
          split <;> exact .ok _

theorem local_delPacketList
    (packets : BtPackets) :
    Local (delPacketList packets) := by
  unfold delPacketList
  split
  · exact .ok _
  · exact .ok _
  · exact .error rfl

end PeerNet

------------------------------------------------------------
-- Timeouts
------------------------------------------------------------

namespace PeerNet

open Prog

/- One round of `timeout_check`. -/
theorem timeoutPeer_leads
    (env : Env)
    (curTime : Int)
    {cur : PeerRef}
    {n : Node}
    (hList : n.config.download ≠ [])
    (hCur : cur ∈ n.config.peers) :
    Leads env .timeoutCheck n (timeoutPeer env curTime cur)
      (fun _ m => m.config.peers = n.config.peers ∧
        m.config.download = n.config.download) := by
  unfold Leads timeoutPeer
  rw [wp_bind, wp_get, wp_ite]
  refine ⟨?_, fun _ => ⟨.refl, rfl, rfl⟩⟩
  rintro ⟨hResponse, _⟩
  have hCount :
      Moves env .timeoutCheck n
        (n.onConfig (BtConfig.countTimeout cur)) :=
    .single (.counted n cur hCur hResponse)
  rw [wp_bind, wp_modify, wp_ite]
  refine ⟨fun _ => ?_, fun _ => ⟨hCount, rfl, rfl⟩⟩
  rw [wp_bind, wp_timeMillis]
  have hTick := hCount.tail (.tick _)
  cases hChunk : (n.config.peer cur).chunk with
  | none =>
      have hDangling : Dangling n.config .timeoutChunk :=
        ⟨hList, cur, hCur, hResponse, hChunk⟩
      exact .dangling .refl rfl hDangling
        ⟨_, hTick, .inl rfl⟩
  | some r =>
      have hAssigned :
          ((n.config.countTimeout cur).peer cur).chunk =
            some r := by
        simpa [BtConfig.countTimeout, BtConfig.setPeer]
          using hChunk
      simp only [wp_bind, wp_derefChunk, wp_lift]
      refine ⟨fun hFreed => ?_, fun chunk hLive => ?_⟩
      · have hDangling : Dangling n.config .freedChunk :=
          ⟨r, hFreed, .inr ⟨cur, hCur, hChunk⟩⟩
        exact .dangling .refl rfl hDangling
          ⟨_, hTick, .inl rfl⟩
      · refine ⟨fun packets hPackets => ?_, ?_⟩
        · exact
            ⟨hTick.tail
              (.gaveUp _ cur r chunk packets _ hCur
                hAssigned hLive hPackets), rfl, rfl⟩
        · intro f hFreed
          exact .here hTick
            ((local_delPacketList _).plain _ hFreed)

theorem timeoutCheck_leads
    (env : Env)
    (n : Node) :
    Leads env .timeoutCheck n (timeoutCheck env)
      (fun _ _ => True) := by
  unfold Leads timeoutCheck
  rw [wp_bind, wp_get, wp_ite]
  refine ⟨fun hList => ?_, fun _ => ⟨.refl, trivial⟩⟩
  rw [wp_bind, wp_timeMillis]
  have hLoop :
      Leads env .timeoutCheck n.tick
        (n.config.peers.forM
          (timeoutPeer env (env.clock n.reads)))
        (fun _ m => m.config.peers = n.config.peers ∧
          m.config.download = n.config.download) := by
    apply Leads.forM (n := n.tick)
      (I := fun m => m.config.peers = n.config.peers ∧
        m.config.download = n.config.download) _ ⟨rfl, rfl⟩
    rintro cur hCur m ⟨hPeers, hDownload⟩
    have hMem : cur ∈ m.config.peers := by
      rw [hPeers]
      exact hCur
    have hStill : m.config.download ≠ [] := by
      rw [hDownload]
      exact hList
    apply wp_mono (timeoutPeer_leads env _ hStill hMem)
    · rintro _ k ⟨hMoves, hPeers', hDownload'⟩
      exact ⟨hMoves, hPeers'.trans hPeers,
        hDownload'.trans hDownload⟩
    · exact fun _ _ h => h
  exact hLoop.nested (.single (.tick n))
    fun _ _ hMoves _ => ⟨hMoves, trivial⟩

end PeerNet

------------------------------------------------------------
-- Requests
------------------------------------------------------------

namespace PeerNet

open Prog

/- The loop of `send_whohas`, on the configuration `c`. -/
theorem whohasLoop_leads
    (env : Env)
    (call : Call)
    (c : BtConfig)
    (peers : List PeerRef)
    (n : Node) :
    Leads env call n
      (peers.forM fun peer =>
        if (c.peer peer).id ≠ c.identity then
          packetNew (whohasPacket env c) (c.peer peer).addr
        else
          pure ())
      (fun _ m => m.config.download = n.config.download) := by
  apply Leads.forM
    (I := fun m => m.config.download = n.config.download)
    _ rfl
  intro peer _ m hSame
  unfold Leads
  rw [wp_ite]
  refine ⟨fun _ => ?_, fun _ => ⟨.refl, hSame⟩⟩
  apply wp_packetNew
  · intro payload
    exact ⟨.single (.push m _ rfl), hSame⟩
  · exact .here .refl rfl
  · exact .here .refl rfl

/- `send_whohas` queues announcements only. -/
theorem sendWhohas_leads
    (env : Env)
    (call : Call)
    (n : Node) :
    Leads env call n (sendWhohas env)
      (fun _ m => m.config.download = n.config.download) := by
  unfold Leads sendWhohas
  simp only [wp_bind, wp_get, wp_ite, wp_timeMillis,
    wp_modify, wp_pure, wp_throw]
  refine ⟨fun _ => ⟨.refl, trivial⟩, fun _ => ?_⟩
  have hTick : Moves env call n n.tick := .single (.tick n)
  refine ⟨fun _ => ⟨hTick, rfl⟩, fun _ => ?_⟩
  have hSent := (hTick.tail (.tick _)).tail
    (.whohas _ (env.clock n.tick.reads))
  refine ⟨fun _ => .here hSent rfl, fun _ => ?_⟩
  exact (whohasLoop_leads env call _ _ _).nested hSent
    fun _ _ hMoves hSame => ⟨hMoves, hSame⟩

/- `packet_new` never fails on a GET. -/
theorem packetNew_getPacket
    (hash : Hash)
    (dest : Addr)
    (n : Node)
    {Q : Unit → Node → Prop}
    {E : Fault → Node → Prop}
    (h : Q () (n.push ⟨getPacket hash, dest⟩)) :
    wp (packetNew (getPacket hash) dest) Q E n := by
  have hLength : (getPacket hash).header.packetLen.toNat = 36 :=
    rfl
  have hBuf : (getPacket hash).buf.length = 20 := by
    simp [getPacket]
  have hTake :
      (getPacket hash).buf.take 20 = (getPacket hash).buf := by
    rw [List.take_of_length_le (by omega)]
  unfold packetNew
  simp only [hLength, hBuf, packetHeadSize, wp_ite]
  refine ⟨by omega, fun _ => ⟨by omega, fun _ => ?_⟩⟩
  rw [wp_modify, hTake]
  exact h

/- `send_get` below the limit, to a peer that is known. -/
theorem sendGet_spec
    (env : Env)
    {n : Node}
    {p : PeerRef}
    {r : ChunkRef}
    {chunk : BtChunk}
    {dest : Addr}
    {Q : Int → Node → Prop}
    {E : Fault → Node → Prop}
    (hRoom : n.config.curDownload < n.config.maxConn)
    (hFound : peerWithAddr dest n.config = some p)
    (hLive : n.config.chunk r = some chunk)
    (h : Q 0 (n.fetch env p r chunk dest)) :
    wp (sendGet env dest r) Q E n := by
  have hFetched :
      (n.config.fetch p r (env.clock n.reads)).chunk r =
        some (chunk.fetched p) := by
    simp [BtConfig.fetch, BtConfig.assign,
      BtConfig.raiseMaxConn, BtConfig.setChunk,
      BtConfig.setPeer, BtChunk.fetched, hLive]
  unfold sendGet
  rw [wp_bind, wp_get, wp_ite]
  refine ⟨fun hLimit => absurd hLimit (by omega), fun _ => ?_⟩
  rw [wp_bind, wp_modify, hFound]
  simp only [wp_bind, wp_timeMillis, wp_modify,
    wp_derefChunk]
  constructor
  · intro hNone
    exact absurd (hFetched.symm.trans hNone) (by simp)
  · intro chunk' hChunk'
    have hEq : chunk.fetched p = chunk' :=
      Option.some.inj (hFetched.symm.trans hChunk')
    subst hEq
    apply packetNew_getPacket
    exact h

/- `send_get` for a chunk that a scan has chosen. -/
theorem sendGet_leads
    (env : Env)
    {n : Node}
    {q : PeerRef}
    {r : ChunkRef}
    {chunk : BtChunk}
    (hLive : n.config.chunk r = some chunk)
    (hNeeded : chunk.downloaded = false)
    (hUnassigned : chunk.peer = none)
    (hHas : q ∈ chunk.peers)
    (hIdle : (n.config.peer q).downloading = false) :
    Leads env .getAllTheThingz n
      (sendGet env (n.config.peer q).addr r)
      (fun _ m => m.config.download = n.config.download) := by
  unfold Leads
  by_cases hLimit : n.config.maxConn ≤ n.config.curDownload
  · unfold sendGet
    rw [wp_bind, wp_get, wp_ite]
    exact ⟨fun _ => ⟨.refl, rfl⟩, fun hNot =>
      absurd hLimit hNot⟩
  cases hFind :
      peerWithAddr (n.config.peer q).addr n.config with
  | none =>
      have hDangling : Dangling n.config .getPeer :=
        ⟨r, chunk, hLive, q, hHas, hFind⟩
      unfold sendGet
      rw [wp_bind, wp_get, wp_ite]
      refine ⟨fun hFull => absurd hFull hLimit, fun _ => ?_⟩
      rw [wp_bind, wp_modify, hFind]
      exact .dangling .refl rfl hDangling
        ⟨n, .refl, .inr rfl⟩
  | some p =>
      have hMove :
          Move env .getAllTheThingz n
            (n.fetch env p r chunk (n.config.peer q).addr) :=
        .fetched n p q r chunk (by omega) hLive hNeeded
          hUnassigned hHas hIdle hFind
      apply sendGet_spec env (by omega) hFind hLive
      exact ⟨.single hMove, rfl⟩

end PeerNet

------------------------------------------------------------
-- Scans
------------------------------------------------------------

namespace PeerNet

open Prog

/- `get_all_the_thingz`'s loop over a chunk's peers. -/
theorem scanPeers_leads
    (env : Env)
    {r : ChunkRef}
    {chunk : BtChunk}
    (hNeeded : chunk.downloaded = false)
    (hUnassigned : chunk.peer = none)
    (ps : List PeerRef)
    (hHas : ∀ q ∈ ps, q ∈ chunk.peers)
    (allBad : Bool)
    {n : Node}
    (hLive : n.config.chunk r = some chunk) :
    Leads env .getAllTheThingz n (scanPeers env r ps allBad)
      (fun _ m => m.config.download = n.config.download) := by
  induction ps generalizing n allBad with
  | nil => exact ⟨.refl, rfl⟩
  | cons q ps ih =>
      have hRest : ∀ q ∈ ps, q ∈ chunk.peers :=
        fun q hq => hHas q (List.mem_cons_of_mem _ hq)
      have hBody :
          ∀ (m : Node) (b : Bool),
            Moves env .getAllTheThingz n m →
              m.config = n.config →
            wp
              (if (m.config.peer q).downloading then
                scanPeers env r ps b
              else do
                let bad ← isBad env (m.config.peer q)
                if bad then
                  scanPeers env r ps b
                else
                  let _ ← sendGet env
                    (m.config.peer q).addr r
                  return b)
              (fun _ m => Moves env .getAllTheThingz n m ∧
                m.config.download = n.config.download)
              (Faulted env .getAllTheThingz n) m := by
        intro m b hMoves hSame
        have hRound :
            ∀ k, Moves env .getAllTheThingz n k →
              k.config = n.config →
              wp (scanPeers env r ps b)
                (fun _ m => Moves env .getAllTheThingz n m ∧
                  m.config.download = n.config.download)
                (Faulted env .getAllTheThingz n) k := by
          intro k hk hConfig
          rw [← hConfig] at hLive ⊢
          exact (ih hRest b hLive).nested hk
            fun _ _ hMoves hP => ⟨hMoves, hP⟩
        have hSend :
            ∀ k, Moves env .getAllTheThingz n k →
              k.config = n.config →
              (m.config.peer q).downloading = false →
              wp
                (do
                  let _ ← sendGet env
                    (m.config.peer q).addr r
                  return b)
                (fun _ m => Moves env .getAllTheThingz n m ∧
                  m.config.download = n.config.download)
                (Faulted env .getAllTheThingz n) k := by
          intro k hk hConfig hIdle
          rw [wp_bind, hSame, ← hConfig]
          rw [hSame, ← hConfig] at hIdle
          rw [← hConfig] at hLive
          exact (sendGet_leads env hLive hNeeded
            hUnassigned (hHas q (by simp)) hIdle).nested hk
            fun _ _ hMoves hP => ⟨hMoves, hP⟩
        rw [wp_ite]
        refine ⟨fun _ => hRound m hMoves hSame, ?_⟩
        intro hIdle
        rw [Bool.not_eq_true] at hIdle
        rw [wp_bind]
        have hTick := hMoves.tail (.tick m)
        apply wp_isBad
        · intro bad
          rw [wp_ite]
          exact ⟨fun _ => hRound m hMoves hSame,
            fun _ => hSend m hMoves hSame hIdle⟩
        · intro bad
          rw [wp_ite]
          exact ⟨fun _ => hRound m.tick hTick hSame,
            fun _ => hSend m.tick hTick hSame hIdle⟩
      unfold Leads scanPeers
      rw [wp_bind, wp_get, wp_bind]
      apply wp_isBad
      · intro bad
        rw [wp_bind, wp_get]
        exact hBody n _ .refl rfl
      · intro bad
        rw [wp_bind, wp_get]
        exact hBody n.tick _ (.single (.tick n)) rfl

/- `get_all_the_thingz`'s loop over the download list. -/
theorem scanChunks_leads
    (env : Env)
    (rs : List ChunkRef)
    {n : Node}
    (hListed : ∀ r ∈ rs, r ∈ n.config.download) :
    Leads env .getAllTheThingz n (scanChunks env rs)
      (fun _ _ => True) := by
  induction rs generalizing n with
  | nil => exact ⟨.refl, trivial⟩
  | cons r rs ih =>
      have hRest :
          ∀ m, Moves env .getAllTheThingz n m →
            m.config.download = n.config.download →
            wp (scanChunks env rs)
              (fun _ m => Moves env .getAllTheThingz n m ∧ True)
              (Faulted env .getAllTheThingz n) m := by
        intro m hMoves hSame
        have hTail : ∀ r ∈ rs, r ∈ m.config.download := by
          intro r hr
          rw [hSame]
          exact hListed r (List.mem_cons_of_mem _ hr)
        exact (ih hTail).nested hMoves
          fun _ _ hMoves _ => ⟨hMoves, trivial⟩
      unfold Leads scanChunks
      rw [wp_bind, wp_get, wp_ite]
      refine ⟨fun _ => ?_, fun _ => ⟨.refl, trivial⟩⟩
      rw [wp_bind, wp_derefChunk]
      constructor
      · intro hNone
        have hDangling : Dangling n.config .freedChunk :=
          ⟨r, hNone, .inl (hListed r (by simp))⟩
        exact .dangling .refl rfl hDangling
          ⟨n, .refl, .inl rfl⟩
      · intro chunk hLive
        by_cases hNeeded :
            chunk.downloaded = false ∧ chunk.peer = none
        · rw [if_pos hNeeded]
          simp only [wp_bind]
          have hScan := scanPeers_leads env hNeeded.1
            hNeeded.2 chunk.peers (fun _ h => h) true hLive
          refine hScan.nested .refl ?_
          intro allBad m hMoves hSame
          rw [wp_ite]
          refine ⟨fun _ => ?_, fun _ => ?_⟩
          · rw [wp_bind]
            refine (sendWhohas_leads env _ m).nested hMoves ?_
            intro _ k hMoves hSame'
            exact hRest k hMoves (hSame'.trans hSame)
          · exact hRest m hMoves hSame
        · rw [if_neg hNeeded]
          exact hRest n .refl rfl

theorem getAllTheThingz_leads
    (env : Env)
    (n : Node) :
    Leads env .getAllTheThingz n (getAllTheThingz env)
      (fun _ _ => True) := by
  unfold Leads getAllTheThingz
  rw [wp_bind, wp_get]
  exact scanChunks_leads env _ fun _ h => h

end PeerNet

------------------------------------------------------------
-- Announcements
------------------------------------------------------------

namespace PeerNet

open Prog

/- The loop of `process_ihave`. -/
theorem ihaveLoop_leads
    (env : Env)
    (p : PeerRef)
    (buf : Bytes)
    (count offset : Nat)
    (datalen : Int)
    {n : Node}
    (hPeer : p ∈ n.config.peers) :
    Leads env .ihave n (ihaveLoop p buf count offset datalen)
      (fun _ _ => True) := by
  induction count generalizing n offset datalen with
  | zero => exact ⟨.refl, trivial⟩
  | succ count ih =>
      unfold Leads ihaveLoop
      rw [wp_ite, wp_ite]
      refine ⟨fun _ => ⟨.refl, trivial⟩, fun _ => ?_⟩
      refine ⟨fun _ => .here .refl rfl, fun _ => ?_⟩
      rw [wp_bind, wp_get]
      dsimp only
      cases hFound :
          n.config.download.find? fun r =>
            (n.config.chunk r).any fun chunk =>
              hashEqual (hashOfBytes (buf.drop offset))
                chunk.hash with
      | none => exact ih _ _ hPeer
      | some r =>
          rw [wp_bind, wp_modify]
          have hMove :
              Move env .ihave n
                (n.onConfig (BtConfig.addPeerList r p)) :=
            .announced n r p
              (List.mem_of_find?_eq_some hFound) hPeer
          have hTail := ih
            (n := n.onConfig (BtConfig.addPeerList r p))
            (offset + 20) (toShort (datalen - 20)) hPeer
          exact hTail.nested (.single hMove)
            fun _ _ hMoves h => ⟨hMoves, h⟩

theorem processIhave_leads
    (env : Env)
    (src : Addr)
    (packet : Packet)
    (n : Node) :
    Leads env .ihave n (processIhave src packet)
      (fun _ _ => True) := by
  unfold Leads processIhave
  rw [wp_bind, wp_get, wp_ite]
  refine ⟨fun _ => ⟨.refl, trivial⟩, fun _ => ?_⟩
  cases hFound : peerWithAddr src n.config with
  | none => exact .here .refl rfl
  | some p =>
      have hPeer := mem_peers_of_peerWithAddr hFound
      have hMove :
          Move env .ihave n (n.onConfig (BtConfig.clearBad p)) :=
        .cleared n p hPeer
      rw [wp_bind, wp_modify]
      cases packet.buf with
      | nil => exact .here (.single hMove) rfl
      | cons numchunks rest =>
          have hLoop := ihaveLoop_leads env p
            (numchunks :: rest)
            (toChar numchunks.toNat).toNat 4
            (toShort
              (toShort (packet.header.packetLen.toNat -
                packetHeadSize) - 4))
            (n := n.onConfig (BtConfig.clearBad p)) hPeer
          exact hLoop.nested (.single hMove)
            fun _ _ hMoves h => ⟨hMoves, h⟩

end PeerNet

------------------------------------------------------------
-- Finishing a GET
------------------------------------------------------------

namespace PeerNet

open Prog

/- Nothing but files differs. -/
def OnlyFiles
    (n m : Node) : Prop :=
  ∃ g, m = n.onFiles g

theorem OnlyFiles.refl
    (n : Node) :
    OnlyFiles n n :=
  ⟨id, rfl⟩

theorem OnlyFiles.trans
    {n m k : Node}
    (h : OnlyFiles n m)
    (h' : OnlyFiles m k) :
    OnlyFiles n k := by
  rcases h with ⟨g, rfl⟩
  rcases h' with ⟨g', rfl⟩
  exact ⟨g' ∘ g, rfl⟩

/- The call changes files only, and stops at no pointer. -/
def KeepsRest
    {α : Type}
    (n : Node)
    (x : Prog α) : Prop :=
  wp x (fun _ m => OnlyFiles n m)
    (fun f m => OnlyFiles n m ∧ f.isPointer = false) n

theorem writeToFile_keepsRest
    (packets : BtPackets)
    (n : Node) :
    KeepsRest n (writeToFile packets) := by
  unfold KeepsRest writeToFile
  cases packets with
  | freed => exact ⟨.refl n, rfl⟩
  | live nodes =>
      rw [wp_bind, wp_lift]
      constructor
      · intro bytes _
        rw [wp_bind, wp_get, wp_modify]
        exact ⟨_, rfl⟩
      · intro f hFault
        exact ⟨.refl n, (local_packetBytes _).plain _ hFault⟩

theorem finishGetChunk_keepsRest
    (env : Env)
    (nextChunk : Int)
    (n : Node) :
    KeepsRest n (finishGetChunk env nextChunk) := by
  unfold KeepsRest finishGetChunk
  rw [wp_bind, wp_get]
  cases chunkWithId nextChunk n.config with
  | none => exact ⟨.refl n, rfl⟩
  | some next =>
      rw [wp_bind, wp_lift]
      constructor
      · intro realId _
        rw [wp_ite]
        constructor
        · intro _
          rw [wp_bind, wp_lift]
          constructor
          · intro bytes _
            cases bytes with
            | none => exact .refl n
            | some filechunk => exact ⟨_, rfl⟩
          · intro f hFault
            exact ⟨.refl n,
              (local_masterBytes _ _ _ _ _).plain _ hFault⟩
        · intro _
          rw [wp_bind]
          exact writeToFile_keepsRest next.packets n
      · intro f hFault
        exact ⟨.refl n, (local_hasChunk _ _ _ _).plain _ hFault⟩

theorem finishGetLoop_keepsRest
    (env : Env)
    (count : Nat)
    (nextChunk : Int)
    (n : Node) :
    KeepsRest n (finishGetLoop env count nextChunk) := by
  induction count generalizing nextChunk n with
  | zero => exact .refl n
  | succ count ih =>
      unfold KeepsRest finishGetLoop
      rw [wp_bind]
      apply wp_mono (finishGetChunk_keepsRest env nextChunk n)
      · intro go m hFirst
        rw [wp_ite]
        refine ⟨fun _ => ?_, fun _ => hFirst⟩
        apply wp_mono (ih (nextChunk + 1) m)
        · exact fun _ _ hRest => hFirst.trans hRest
        · exact fun _ _ h => ⟨hFirst.trans h.1, h.2⟩
      · exact fun _ _ h => h

/- `finish_get`, entered with all chunks counted. -/
theorem finishGet_moves
    (env : Env)
    {n : Node}
    (hAll :
      n.config.numDownloaded = n.config.numChunks) :
    wp (finishGet env) (fun _ m => GetMoves n m)
      (fun f m => GetMoves n m ∧ f.isPointer = false) n := by
  unfold finishGet
  rw [wp_bind, wp_get, wp_bind, wp_modify, wp_ite]
  have hEntered :
      GetMoves n
        (n.emit (.finishGet n.config n.files)) :=
    .single (.entered n hAll)
  refine ⟨fun _ => ?_, fun _ => hEntered⟩
  rw [wp_bind, wp_modify, wp_bind]
  have hOpened := hEntered.tail
    (.files _ (Files.write n.config.outputFile []))
  apply wp_mono (finishGetLoop_keepsRest env _ 0 _)
  · rintro go m ⟨g, rfl⟩
    have hWritten := hOpened.tail (.files _ g)
    rw [wp_ite]
    refine ⟨fun _ => ?_, fun _ => hWritten⟩
    have hGot := hWritten.tail (.got _)
    unfold delReceiverList
    rw [wp_bind, wp_modify, wp_bind, wp_get, wp_ite]
    refine ⟨fun _ => ?_, fun _ => ⟨hGot, rfl⟩⟩
    exact hGot.tail (.dropped _ hAll)
  · rintro f m ⟨⟨g, rfl⟩, hOther⟩
    exact ⟨hOpened.tail (.files _ g), hOther⟩

/- A run of `finish_get` is a run of moves. -/
theorem Moves.ofGet
    (env : Env)
    (call : Call)
    {n m : Node}
    (h : GetMoves n m) :
    Moves env call n m :=
  Relation.ReflTransGen.mono
    (fun _ _ => Move.get) _ _ h

theorem finishGet_leads
    (env : Env)
    (call : Call)
    {n : Node}
    (hAll :
      n.config.numDownloaded = n.config.numChunks) :
    Leads env call n (finishGet env) (fun _ _ => True) := by
  apply wp_mono (finishGet_moves env hAll)
  · exact fun _ _ h => ⟨.ofGet env call h, trivial⟩
  · exact fun f m h => .here (.ofGet env call h.1) h.2

end PeerNet

------------------------------------------------------------
-- User Requests
------------------------------------------------------------

namespace PeerNet

open Prog

/- `process_user_get` has read the items so far. -/
def Node.Loaded
    (env : Env)
    (chunkfile outputfile : Path)
    (n m : Node) : Prop :=
  ∃ items : List Item,
    (∀ item ∈ items, item.Looked env n) ∧
      m = n.onConfig
        (BtConfig.load chunkfile outputfile items)

/- Loading does not rename the has-chunk file. -/
theorem load_hasChunkFile
    (chunkfile outputfile : Path)
    (items : List Item)
    (c : BtConfig) :
    (c.load chunkfile outputfile items).hasChunkFile =
      c.hasChunkFile := by
  have hAdd :
      ∀ (items : List Item) (c : BtConfig),
        (items.foldl BtConfig.addItem c).hasChunkFile =
          c.hasChunkFile := by
    intro items
    induction items with
    | nil => exact fun _ => rfl
    | cons item items ih => exact fun c => ih _
  exact hAdd items _

/- One item more. -/
theorem Node.Loaded.add
    {env : Env}
    {chunkfile outputfile : Path}
    {n m : Node}
    (hLoaded : Node.Loaded env chunkfile outputfile n m)
    {hash : Hash}
    (id : Int)
    {owned : Int}
    (hLook :
      hasChunk env m.files m.config hash = .ok owned) :
    Node.Loaded env chunkfile outputfile n
      (m.onConfig
        (BtConfig.addReceiver hash id
          (decide (owned ≠ -1)))) := by
  rcases hLoaded with ⟨items, hItems, rfl⟩
  refine
    ⟨items ++ [⟨hash, id, decide (owned ≠ -1)⟩], ?_, ?_⟩
  · intro item hItem
    rcases List.mem_append.mp hItem with hOld | hNew
    · exact hItems item hOld
    · rw [List.mem_singleton.mp hNew]
      refine ⟨owned, ?_, rfl⟩
      unfold hasChunk at hLook ⊢
      simpa [load_hasChunkFile] using hLook
  · unfold Node.onConfig BtConfig.load
    rw [List.foldl_append]
    rfl

/- The loop of `process_user_get`. -/
theorem addChunks_loaded
    (env : Env)
    {chunkfile outputfile : Path}
    {n : Node}
    (fuel : Nat)
    (input buf : Bytes)
    {m : Node}
    (hLoaded : Node.Loaded env chunkfile outputfile n m) :
    wp (addChunks env fuel input buf)
      (fun _ k =>
        Node.Loaded env chunkfile outputfile n k)
      (fun f k =>
        Node.Loaded env chunkfile outputfile n k ∧
          f.isLocal = true) m := by
  induction fuel generalizing input buf m with
  | zero => exact ⟨hLoaded, rfl⟩
  | succ fuel ih =>
      unfold addChunks
      split
      · rename_i id word rest _
        rw [wp_bind, wp_lift]
        constructor
        · intro buf _
          unfold addReceiverList
          rw [wp_bind, wp_bind, wp_get, wp_bind, wp_lift]
          constructor
          · intro owned hLook
            exact ih rest buf (hLoaded.add id hLook)
          · intro f hFault
            exact ⟨hLoaded, local_hasChunk _ _ _ _ f hFault⟩
        · intro f hFault
          exact ⟨hLoaded, local_storeWord _ _ f hFault⟩
      · exact hLoaded

/- With its chunk file there, a user GET loads it first. -/
theorem processUserGet_loads
    (env : Env)
    {chunkfile : Path}
    (outputfile : Path)
    {n : Node}
    {text : Bytes}
    (hFile : n.files.content chunkfile = some text) :
    wp (processUserGet env chunkfile outputfile)
      (fun _ m => ∃ k,
        Node.Loaded env chunkfile outputfile n k ∧
          Moves env .userGet k m)
      (fun f m => ∃ k,
        Node.Loaded env chunkfile outputfile n k ∧
          Faulted env .userGet k f m) n := by
  unfold processUserGet
  rw [wp_bind, wp_get, hFile]
  dsimp only
  rw [wp_bind, wp_modify, wp_bind]
  apply wp_mono
    (addChunks_loaded env _ text _ ⟨[], by simp, rfl⟩)
  · intro _ m hLoaded
    rw [wp_bind]
    apply wp_mono (sendWhohas_leads env _ m)
    · rintro _ k ⟨hMoves, _⟩
      rw [wp_bind, wp_get, wp_ite]
      refine ⟨fun hAll => ?_, fun _ => ⟨m, hLoaded, hMoves⟩⟩
      apply wp_mono (finishGet_leads env _ hAll)
      · rintro _ l ⟨hMore, _⟩
        exact ⟨m, hLoaded, hMoves.trans hMore⟩
      · exact fun _ _ h => ⟨m, hLoaded, h.after hMoves⟩
    · exact fun _ _ h => ⟨m, hLoaded, h⟩
  · rintro f m ⟨hLoaded, hLocal⟩
    exact
      ⟨m, hLoaded, .here .refl (Fault.isLocal.plain hLocal)⟩

theorem processUserGet_leads
    (env : Env)
    (chunkfile outputfile : Path)
    {n : Node}
    (hNone : n.config.download = []) :
    Leads env .userGet n (processUserGet env chunkfile outputfile)
      (fun _ _ => True) := by
  have hLoad :
      ∀ m, Node.Loaded env chunkfile outputfile n m →
        Moves env .userGet n m := by
    rintro m ⟨items, hItems, rfl⟩
    exact .single
      (.loaded n chunkfile outputfile items hNone hItems)
  cases hFile : n.files.content chunkfile with
  | none =>
      unfold Leads processUserGet
      rw [wp_bind, wp_get, hFile]
      exact ⟨.refl, trivial⟩
  | some text =>
      apply wp_mono
        (processUserGet_loads env outputfile hFile)
      · rintro _ m ⟨k, hLoaded, hMoves⟩
        exact ⟨(hLoad k hLoaded).trans hMoves, trivial⟩
      · rintro f m ⟨k, hLoaded, hFaulted⟩
        exact hFaulted.after (hLoad k hLoaded)

end PeerNet

------------------------------------------------------------
-- Data
------------------------------------------------------------

namespace PeerNet

open Prog

/- Only a chunk that was counted may complete a GET. -/
def GetPart
    (counted : Bool)
    (n m : Node) : Prop :=
  GetMoves n m ∧ (counted = false → m = n)

theorem GetPart.refl
    (counted : Bool)
    (n : Node) :
    GetPart counted n n :=
  ⟨.refl, fun _ => rfl⟩

theorem GetPart.ofMoves
    {n m : Node}
    (h : GetMoves n m) :
    GetPart true n m :=
  ⟨h, fun hFalse => nomatch hFalse⟩

/- The end of `process_data`. -/
def DataDone
    (env : Env)
    (src : Addr)
    (packet : Packet)
    (n m : Node) : Prop :=
  ∃ ack counted k k',
    DataStep env src packet n ack counted k ∧
      GetPart counted k k' ∧ m = k'.answer src ack ∧
        (ack = none → k.trace = n.trace)

/-
  `process_data` stops at a fetch whose chunk is gone, or in
  `finish_chunk` on a chunk without a peer.
-/
def DataLost
    (env : Env)
    (src : Addr)
    (packet : Packet)
    (n m : Node) : Prop :=
  (∃ p r, Fetching n.config src p r ∧
    n.config.chunk r = none ∧ m = n.heard env p) ∨
  ∃ p r chunk nodes,
    Taking n.config src packet p r chunk nodes ∧
      chunk.peer = none ∧
      m =
        ((n.heard env p).keep r
          (chunk.take nodes packet)).emit
            (.finishChunk r
              (chunk.take nodes packet).packets)

/- `process_data` at a fault. -/
def DataFaulted
    (env : Env)
    (src : Addr)
    (packet : Packet)
    (n : Node)
    (f : Fault)
    (m : Node) : Prop :=
  (f.isPointer = true → DataLost env src packet n m) ∧
    (f.isPointer = false →
      ∃ ack counted k,
        DataStep env src packet n ack counted k ∧
          GetPart counted k m ∧
            (ack = none ∨ counted = true))

/- `send_ack` always queues. -/
theorem wp_sendAck
    (dest : Addr)
    (ackNum : Int)
    {n : Node}
    {Q : Unit → Node → Prop}
    {E : Fault → Node → Prop}
    (h : Q () (n.push ⟨ackPacket ackNum, dest⟩)) :
    wp (sendAck dest ackNum) Q E n := by
  have hLength :
      (ackPacket ackNum).header.packetLen.toNat = 16 := rfl
  unfold sendAck packetNew
  simp only [hLength, packetHeadSize, wp_ite]
  refine ⟨by omega, fun _ => ⟨by omega, fun _ => ?_⟩⟩
  exact h

/- A verified chunk is recorded, and a GET may be over. -/
theorem recordChunk_spec
    (env : Env)
    (r : ChunkRef)
    (hash : Hash)
    (n : Node) :
    wp (recordChunk env r hash)
      (fun _ m => ∃ id,
        masterChunk env
            (n.files.append n.config.hasChunkFile [])
            n.config hash = .ok id ∧
          GetMoves (n.recorded r id hash) m)
      (fun f m => f.isPointer = false ∧
        ((∃ id,
          masterChunk env
              (n.files.append n.config.hasChunkFile [])
              n.config hash = .ok id ∧
            GetMoves (n.recorded r id hash) m) ∨
          (masterChunk env
              (n.files.append n.config.hasChunkFile [])
              n.config hash = .error f ∧
            m = n.onFiles
              (Files.append n.config.hasChunkFile [])))) n := by
  unfold recordChunk
  rw [wp_bind, wp_get, wp_bind, wp_modify, wp_bind, wp_get,
    wp_bind, wp_lift]
  refine ⟨fun id hId => ?_, fun f hFault => ?_⟩
  · rw [wp_bind, wp_modify, wp_bind, wp_modify, wp_bind,
      wp_get, wp_ite]
    refine ⟨fun hAll => ?_, fun _ => ⟨id, hId, .refl⟩⟩
    apply wp_mono (finishGet_moves env hAll)
    · exact fun _ m hm => ⟨id, hId, hm⟩
    · exact fun f m hm => ⟨hm.2, .inl ⟨id, hId, hm.1⟩⟩
  · exact ⟨(local_masterChunk _ _ _ _).plain _ hFault,
      .inr ⟨hFault, rfl⟩⟩

/- The files that `finish_chunk` looks in. -/
theorem masterChunk_filled
    (env : Env)
    (packet : Packet)
    (p q : PeerRef)
    (r : ChunkRef)
    (chunk : BtChunk)
    (nodes : List BtPacket)
    (n : Node) :
    masterChunk env
        ((n.filled env packet p q r chunk nodes).files.append
          (n.filled env packet p q r chunk
            nodes).config.hasChunkFile [])
        (n.filled env packet p q r chunk nodes).config
        chunk.hash =
      masterChunk env
        (n.files.append n.config.hasChunkFile []) n.config
        chunk.hash := by
  have hFile :
      (n.filled env packet p q r chunk
        nodes).config.chunkFile =
        n.config.chunkFile := by
    simp [Node.filled, Node.release, Node.keep, Node.heard,
      BtConfig.heardData]
  rw [masterChunk_congr env _ hFile]
  simp [Node.filled, Node.release, Node.keep, Node.heard,
    BtConfig.heardData]

/- The tests of `finish_chunk` on a chunk just filled. -/
theorem finishFilled_spec
    (env : Env)
    {n : Node}
    {src : Addr}
    {packet : Packet}
    {p q : PeerRef}
    {r : ChunkRef}
    {chunk : BtChunk}
    {nodes : List BtPacket}
    (hFilling :
      Filling n.config src packet p q r chunk nodes) :
    wp
      (do
        let buffer ←
          lift (writeToBuffer env (storedNodes nodes packet))
        if hashEqual chunk.hash (env.shahash buffer) then
          let n ← get
          if n.files.writable n.config.hasChunkFile then
            recordChunk env r chunk.hash
          else
            modify (Node.emit (.hasChunkError r))
        else
          modify (Node.emit (.hashMismatch r)))
      (fun _ m => ∃ counted k,
        DataStep env src packet n
            (some (chunk.take nodes packet).ackNum) counted
            k ∧
          GetPart counted k m)
      (DataFaulted env src packet n)
      (n.filled env packet p q r chunk nodes) := by
  rw [wp_bind, wp_lift]
  refine ⟨fun buffer hBuffer => ?_, fun f hFault => ?_⟩
  · rw [wp_ite]
    refine ⟨fun hHash => ?_, fun hHash => ?_⟩
    · have hVerified :
          Verified env chunk.hash
            (storedNodes nodes packet) :=
        ⟨buffer, hBuffer, hHash⟩
      rw [wp_bind, wp_get, wp_ite]
      have hSame :
          (n.filled env packet p q r chunk
              nodes).files.writable
            (n.filled env packet p q r chunk
              nodes).config.hasChunkFile =
            n.files.writable n.config.hasChunkFile := by
        simp [Node.filled, Node.release, Node.keep,
          Node.heard, BtConfig.heardData]
      rw [hSame]
      refine ⟨fun hWritable => ?_, fun hClosed => ?_⟩
      · have hRecord := recordChunk_spec env r chunk.hash
          (n.filled env packet p q r chunk nodes)
        rw [masterChunk_filled] at hRecord
        apply wp_mono hRecord
        · rintro _ m ⟨id, hId, hMoves⟩
          exact ⟨_, _, .recorded n p q r chunk nodes id
            hFilling hVerified hWritable hId,
            .ofMoves hMoves⟩
        · rintro f m ⟨hOther, hEnd⟩
          refine ⟨by simp [hOther], fun _ => ?_⟩
          rcases hEnd with ⟨id, hId, hMoves⟩ | ⟨hFault, rfl⟩
          · exact ⟨_, _, _, .recorded n p q r chunk nodes id
              hFilling hVerified hWritable hId,
              .ofMoves hMoves, .inr rfl⟩
          · exact ⟨_, _, _, .stopped n p q r chunk nodes _ f
              hFilling (.inr hFault), .refl _ _, .inl rfl⟩
      · exact ⟨_, _, .unrecorded n p q r chunk nodes
          hFilling hVerified (by simpa using hClosed),
          .refl _ _⟩
    · have hMismatched :
          Mismatched env chunk.hash
            (storedNodes nodes packet) :=
        ⟨buffer, hBuffer, by simpa using hHash⟩
      exact ⟨_, _, .rejected n p q r chunk nodes hFilling
        hMismatched, .refl _ _⟩
  · have hOther :=
      (local_writeToBuffer _ _).plain _ hFault
    exact ⟨by simp [hOther], fun _ =>
      ⟨_, _, _, .stopped n p q r chunk nodes id f hFilling
        (.inl hFault), .refl _ _, .inl rfl⟩⟩

/- `finish_chunk`, called for a chunk just filled. -/
theorem finishChunk_spec
    (env : Env)
    {n : Node}
    {src : Addr}
    {packet : Packet}
    {p : PeerRef}
    {r : ChunkRef}
    {chunk : BtChunk}
    {nodes : List BtPacket}
    (hTaking : Taking n.config src packet p r chunk nodes)
    (hFull :
      btChunkSize ≤ (chunk.take nodes packet).totalData) :
    wp (finishChunk env r)
      (fun _ m => ∃ counted k,
        DataStep env src packet n
            (some (chunk.take nodes packet).ackNum) counted
            k ∧
          GetPart counted k m)
      (DataFaulted env src packet n)
      ((n.heard env p).keep r (chunk.take nodes packet)) := by
  have hLive :
      ((n.heard env p).keep r
          (chunk.take nodes packet)).config.chunk r =
        some (chunk.take nodes packet) := by
    simp [Node.keep, Node.heard, BtConfig.setChunk,
      BtConfig.heardData, BtConfig.setPeer, hTaking.live]
  unfold finishChunk
  rw [wp_bind, wp_derefChunk]
  constructor
  · intro hNone
    exact absurd (hLive.symm.trans hNone) (by simp)
  intro chunk' hChunk'
  have hEq : chunk.take nodes packet = chunk' :=
    Option.some.inj (hLive.symm.trans hChunk')
  subst hEq
  rw [wp_bind, wp_modify, BtChunk.take_peer]
  cases hOwner : chunk.peer with
  | none =>
      refine ⟨fun _ => ?_, by simp [Fault.isPointer]⟩
      exact .inr ⟨p, r, chunk, nodes, hTaking, hOwner, rfl⟩
  | some q =>
      have hFilling :
          Filling n.config src packet p q r chunk nodes :=
        ⟨hTaking, hFull, hOwner⟩
      rw [wp_bind, wp_modify,
        BtChunk.take_packets hTaking.packets,
        BtChunk.take_hash]
      exact finishFilled_spec env hFilling

/- `add_packet`, called for a chunk that is being fetched. -/
theorem addPacket_spec
    (env : Env)
    {n : Node}
    {src : Addr}
    {packet : Packet}
    {p : PeerRef}
    {r : ChunkRef}
    (hFetching : Fetching n.config src p r)
    (hLow : initSeqnum ≤ packet.seq)
    (hHigh : packet.seq ≤ maxSeqnum) :
    wp (addPacket env r packet)
      (fun ackNum m => ∃ counted k,
        DataStep env src packet n (some (ackNum - 1))
            counted k ∧
          GetPart counted k m)
      (DataFaulted env src packet n) (n.heard env p) := by
  have hRefused :
      (∀ chunk nodes,
        Taking n.config src packet p r chunk nodes →
          ¬ packet.Whole) →
      ∀ f : Fault, f.isPointer = false →
        DataFaulted env src packet n f
          (n.heard env p) := by
    intro hNot f hOther
    exact ⟨by simp [hOther], fun _ =>
      ⟨_, _, _, .refused n p r hFetching hNot,
        .refl _ _, .inl rfl⟩⟩
  rw [addPacket_eq]
  dsimp only
  rw [wp_bind, wp_derefChunk]
  constructor
  · intro hFreed
    refine ⟨fun _ => ?_, by simp [Fault.isPointer]⟩
    exact .inl ⟨p, r, hFetching, hFreed, rfl⟩
  intro chunk hLive
  split
  · next hFreed =>
      refine hRefused ?_ _ rfl
      intro chunk' nodes hTaking _
      have hSame : chunk = chunk' :=
        Option.some.inj (hLive.symm.trans hTaking.live)
      subst hSame
      simp [hTaking.packets] at hFreed
  · next nodes hPackets =>
      have hTaking :
          Taking n.config src packet p r chunk nodes :=
        ⟨hFetching, hLow, hHigh, hLive, hPackets⟩
      rw [wp_ite]
      refine ⟨fun hShort => ?_, fun _ => ?_⟩
      · refine hRefused ?_ _ rfl
        rintro _ _ _ ⟨hHead, hBuf⟩
        rcases hShort.2 with hLess | hLess <;> omega
      · rw [wp_bind, wp_modify, wp_ite]
        refine ⟨fun hFull => ?_, fun hFull => ?_⟩
        · rw [wp_bind]
          exact finishChunk_spec env hTaking hFull
        · rw [Nat.not_le] at hFull
          exact ⟨_, _, .stored n p r chunk nodes hTaking
            hFull, .refl _ _⟩

/- `process_data` takes one of the ways of `DataStep`. -/
theorem processData_spec
    (env : Env)
    (src : Addr)
    (packet : Packet)
    (n : Node) :
    wp (processData env src packet)
      (fun _ m => DataDone env src packet n m)
      (DataFaulted env src packet n) n := by
  unfold processData
  rw [wp_bind, wp_get]
  dsimp only
  split
  · next hNone =>
      refine ⟨none, _, n, n, .ignored n ?_, .refl _ _, rfl,
        fun _ => rfl⟩
      rintro p r ⟨hFound, _⟩
      simp [hNone] at hFound
  · next p hFound =>
      split
      · next hNone =>
          refine ⟨none, _, n, n, .ignored n ?_, .refl _ _,
            rfl, fun _ => rfl⟩
          rintro q r ⟨hFound', hAssigned⟩
          rw [hFound] at hFound'
          cases hFound'
          simp [hNone] at hAssigned
      · next r hAssigned =>
          have hFetching : Fetching n.config src p r :=
            ⟨hFound, hAssigned⟩
          rw [wp_bind, wp_timeMillis, wp_bind, wp_modify,
            wp_ite]
          refine ⟨fun hRange => ?_, fun hRange => ?_⟩
          · refine ⟨none, _, _, _, .refused n p r hFetching
              ?_, .refl _ _, rfl, fun _ => rfl⟩
            intro chunk nodes hTaking _
            have hLow := hTaking.low
            have hHigh := hTaking.high
            unfold Packet.seq at hLow hHigh
            omega
          · have hLow : initSeqnum ≤ packet.seq := by
              unfold Packet.seq
              omega
            have hHigh : packet.seq ≤ maxSeqnum := by
              unfold Packet.seq
              omega
            rw [wp_bind]
            apply wp_mono
              (addPacket_spec env hFetching hLow hHigh)
            · rintro ackNum m ⟨counted, k, hStep, hPart⟩
              rw [wp_bind]
              apply wp_sendAck
              exact ⟨_, counted, k, m, hStep, hPart, rfl,
                fun hNone => nomatch hNone⟩
            · exact fun _ _ h => h

end PeerNet
