import PeerNet.Receiver.Links
import PeerNet.Wire.Listing
import PeerNet.Wire.Payload

/-
  A datagram from an address that is no peer's.

  Every handler but that of a WHOHAS looks its sender up.
  `process_get`, `process_data` and `process_ack` return
  where there is none. `process_ihave` uses what it found,
  unless there is no download. The handler of a WHOHAS
  answers anybody; it changes nothing but the queue, where
  it comes to its end.

  Main declarations:
    * `Undisturbing`
    * `Harmless`
    * `undisturbed_iff`
-/

------------------------------------------------------------
-- A WHOHAS Is Answered
------------------------------------------------------------

namespace PeerNet

open Prog

/- The hashes that are asked for are there, and looked up. -/
def Answerable
    (lookup : Hash → Except Fault Int)
    (buf : Bytes) : Prop :=
  ∃ numChunks rest, buf = numChunks :: rest ∧
    ∀ i < whohasCount numChunks,
      4 + 20 * i + 20 ≤ buf.length ∧
        Returns lookup (payloadHash buf i)

section

variable {lookup : Hash → Except Fault Int}
variable {buf : Bytes} {count i : Nat} {scan : WhohasScan}

theorem WhohasScan.answered_nodes
    (i : Nat)
    (hash : Hash)
    (id : Int)
    (scan : WhohasScan) :
    (scan.answered i hash id).nodes.length ≤
      scan.nodes.length + 1 := by
  unfold WhohasScan.answered
  split
  · simp [WhohasScan.add, WhohasScan.ask]
  · simp [WhohasScan.ask]

/- The loop ends where each of its rounds does. -/
theorem whohasLoop_ends_iff :
    wp (whohasLoop lookup buf count i) (fun _ _ => True)
        (fun _ _ => False) scan ↔
      ∀ k < count,
        4 + 20 * (i + k) + 20 ≤ buf.length ∧
          Returns lookup (payloadHash buf (i + k)) := by
  induction count generalizing i scan with
  | zero =>
      refine iff_of_true trivial ?_
      intro k hk
      exact absurd hk (Nat.not_lt_zero k)
  | succ count ih =>
      by_cases hShort : buf.length < 4 + 20 * i + 20
      · rw [whohasLoop_short hShort]
        refine iff_of_false id ?_
        intro hAll
        have hFirst := (hAll 0 (Nat.succ_pos count)).1
        omega
      have hInside : 4 + 20 * i + 20 ≤ buf.length := by
        omega
      cases hCall : lookup (payloadHash buf i) with
      | error f =>
          rw [whohasLoop_failed hInside hCall]
          refine iff_of_false id ?_
          intro hAll
          rcases (hAll 0 (Nat.succ_pos count)).2 with
            ⟨id, hId⟩
          rw [Nat.add_zero, hCall] at hId
          cases hId
      | ok id =>
          rw [whohasLoop_answered hInside hCall, ih]
          constructor
          · intro hRest k hk
            cases k with
            | zero => exact ⟨hInside, id, hCall⟩
            | succ k =>
                have hNext := hRest k (by omega)
                rwa [show i + 1 + k = i + (k + 1) by
                  omega] at hNext
          · intro hAll k hk
            have hNext := hAll (k + 1) (by omega)
            rwa [show i + (k + 1) = i + 1 + k by
              omega] at hNext

/- It makes one node a round at most. -/
theorem whohasLoop_nodes
    {bound : Nat}
    (hBound : scan.nodes.length + count ≤ bound) :
    wp (whohasLoop lookup buf count i)
      (fun _ s => s.nodes.length ≤ bound)
      (fun _ _ => True) scan := by
  induction count generalizing i scan with
  | zero => exact hBound
  | succ count ih =>
      by_cases hShort : buf.length < 4 + 20 * i + 20
      · rw [whohasLoop_short hShort]
        trivial
      have hInside : 4 + 20 * i + 20 ≤ buf.length := by
        omega
      cases hCall : lookup (payloadHash buf i) with
      | error f =>
          rw [whohasLoop_failed hInside hCall]
          trivial
      | ok id =>
          have hNodes :=
            WhohasScan.answered_nodes i (payloadHash buf i)
              id scan
          rw [whohasLoop_answered hInside hCall]
          exact ih (by omega)

/- `chunks` points into the nodes. -/
theorem WhohasScan.length_list_le
    (scan : WhohasScan) :
    scan.list.length ≤ scan.nodes.length := by
  unfold WhohasScan.list
  split
  · exact Nat.zero_le _
  · rw [List.length_drop]
    exact Nat.sub_le _ _

theorem whohasScan_ends_iff :
    wp (whohasScan lookup buf) (fun _ _ => True)
        (fun _ _ => False) .init ↔
      Answerable lookup buf := by
  cases buf with
  | nil =>
      refine iff_of_false id ?_
      rintro ⟨_, _, hNone, _⟩
      cases hNone
  | cons numChunks rest =>
      refine whohasLoop_ends_iff.trans ?_
      simp only [Nat.zero_add]
      constructor
      · exact fun hAll => ⟨numChunks, rest, rfl, hAll⟩
      · rintro ⟨_, _, hIs, hAll⟩
        cases hIs
        exact hAll

theorem whohasScan_few :
    wp (whohasScan lookup buf)
      (fun _ s => s.list.length ≤ 127)
      (fun _ _ => True) .init := by
  cases buf with
  | nil => trivial
  | cons numChunks rest =>
      have hFew :
          WhohasScan.init.nodes.length +
              whohasCount numChunks ≤ 127 := by
        have hCount := whohasCount_le numChunks
        have hNone : WhohasScan.init.nodes.length = 0 := rfl
        omega
      apply wp_mono (whohasLoop_nodes hFew)
      · exact fun _ s hNodes =>
          Nat.le_trans s.length_list_le hNodes
      · exact fun _ _ h => h

end

end PeerNet

------------------------------------------------------------
-- The Handlers
------------------------------------------------------------

namespace PeerNet

open Prog

/- The call ends, and the configuration is what it was. -/
def Undisturbing
    {α : Type}
    (x : Prog α)
    (n : Node) : Prop :=
  wp x (fun _ m => m.config = n.config)
    (fun _ _ => False) n

/- A packet for which the handlers need no sender. -/
def HarmlessPacket
    (env : Env)
    (n : Node)
    (p : Packet) : Prop :=
  (p.header.type = typeWhohas →
    Answerable (hasChunk env n.files n.config) p.buf) ∧
  (p.header.type = typeIhave → n.config.download = [])

section

variable {env : Env} {src : Addr} {p : Packet} {n : Node}
variable {α : Type}

theorem undisturbing_discard
    {x : Prog α} :
    Undisturbing (discard x) n ↔ Undisturbing x n :=
  wp_map _ x

theorem undisturbing_processWhohas_iff
    (env : Env)
    (src : Addr)
    (n : Node) :
    Undisturbing (processWhohas env src p) n ↔
      Answerable (hasChunk env n.files n.config) p.buf := by
  rw [← whohasScan_ends_iff]
  have hList :
      wp (whohasScan (hasChunk env n.files n.config) p.buf)
        _ _ .init :=
    whohasScan_few
  unfold Undisturbing processWhohas
  rw [wp_bind, wp_get]
  unfold wp at hList ⊢
  cases hScan :
      whohasScan (hasChunk env n.files n.config) p.buf
        .init with
  | error f s => exact Iff.rfl
  | ok _ s =>
      rw [hScan] at hList
      have hFew : s.list.length ≤ 127 := hList
      refine iff_of_true ?_ trivial
      apply wp_mono (sendIhave_spec hFew)
      · rintro _ m ⟨_, _, _, rfl⟩
        rfl
      · exact fun _ _ hNever => hNever

/- `process_ihave` uses the peer it does not find. -/
theorem undisturbing_processIhave_iff
    (hStranger : peerWithAddr src n.config = none) :
    Undisturbing (processIhave src p) n ↔
      n.config.download = [] := by
  unfold Undisturbing processIhave
  rw [wp_bind, wp_get]
  dsimp only
  rw [wp_ite, hStranger]
  constructor
  · intro hRun
    by_contra hSome
    exact hRun.2 hSome
  · intro hNone
    exact ⟨fun _ => rfl, fun hSome => hSome hNone⟩

theorem undisturbing_processGet
    (hStranger : peerWithAddr src n.config = none) :
    Undisturbing (processGet env src p) n := by
  unfold Undisturbing processGet
  rw [wp_bind, wp_get]
  dsimp only
  rw [hStranger]
  exact rfl

theorem undisturbing_processData
    (hStranger : peerWithAddr src n.config = none) :
    Undisturbing (processData env src p) n := by
  unfold Undisturbing processData
  rw [wp_bind, wp_get]
  dsimp only
  rw [hStranger]
  exact rfl

theorem undisturbing_processAck
    (hStranger : peerWithAddr src n.config = none) :
    Undisturbing (processAck src p) n := by
  unfold Undisturbing processAck
  rw [wp_bind, wp_get]
  dsimp only
  rw [hStranger]
  exact rfl

theorem undisturbing_dispatch_iff
    (hStranger : peerWithAddr src n.config = none) :
    Undisturbing (dispatch env src p) n ↔
      HarmlessPacket env n p := by
  have hTypes : typeIhave ≠ typeWhohas := by decide
  unfold dispatch HarmlessPacket
  by_cases hWhohas : p.header.type = typeWhohas
  · rw [if_pos hWhohas, undisturbing_discard,
      undisturbing_processWhohas_iff]
    simp [hWhohas, hTypes.symm]
  by_cases hIhave : p.header.type = typeIhave
  · rw [if_neg hWhohas, if_pos hIhave, undisturbing_discard,
      undisturbing_processIhave_iff hStranger]
    simp [hIhave, hTypes]
  rw [if_neg hWhohas, if_neg hIhave]
  refine iff_of_true ?_
    ⟨fun h => absurd h hWhohas, fun h => absurd h hIhave⟩
  by_cases hGet : p.header.type = typeGet
  · rw [if_pos hGet, undisturbing_discard]
    exact undisturbing_processGet hStranger
  by_cases hData : p.header.type = typeData
  · rw [if_neg hGet, if_pos hData, undisturbing_discard]
    exact undisturbing_processData hStranger
  by_cases hAck : p.header.type = typeAck
  · rw [if_neg hGet, if_neg hData, if_pos hAck,
      undisturbing_discard]
    exact undisturbing_processAck hStranger
  · rw [if_neg hGet, if_neg hData, if_neg hAck]
    exact rfl

end

end PeerNet

------------------------------------------------------------
-- Any Datagram
------------------------------------------------------------

namespace PeerNet

open Prog Runs

/-
  The datagram is dropped, or its head is not longer than it
  is and the handlers need no sender for its packet.
-/
def Harmless
    (env : Env)
    (n : Node)
    (datagram : Bytes) : Prop :=
  passesChecks (received datagram) = true →
    (decodeHead (received datagram)).headerLen ≤
        (decodeHead (received datagram)).packetLen ∧
      ∀ p, readPacket (received datagram) = .ok (some p) →
        HarmlessPacket env n p

/-
  A datagram from an address outside of the peer list leaves
  the peer as it was exactly where it is harmless.
-/
theorem undisturbed_iff
    {src : Addr}
    {n : Node}
    (env : Env)
    (datagram : Bytes)
    (hStranger :
      ∀ p ∈ n.config.peers, (n.config.peer p).addr ≠ src) :
    Undisturbing (processInboundUdp env src datagram) n ↔
      Harmless env n datagram := by
  have hNone : peerWithAddr src n.config = none := by
    unfold peerWithAddr
    rw [List.find?_eq_none]
    intro p hp hSame
    apply hStranger p hp
    simp only [decide_eq_true_eq] at hSame
    calc (n.config.peer p).addr
        = ⟨(n.config.peer p).addr.sAddr,
            (n.config.peer p).addr.sinPort⟩ := rfl
      _ = ⟨src.sAddr, src.sinPort⟩ := by
          rw [hSame.1, hSame.2]
      _ = src := rfl
  unfold Undisturbing processInboundUdp Harmless
  rw [wp_bind, wp_lift]
  by_cases hPass :
      passesChecks (received datagram) = true
  · by_cases hOrder :
        (decodeHead (received datagram)).headerLen ≤
          (decodeHead (received datagram)).packetLen
    · rcases readPayload_slice
          (passesChecks_iff.mp hPass).2.1 hOrder with
        ⟨payload, hPayload, -, -⟩
      have hRead :
          readPacket (received datagram) =
            .ok (some
              ⟨decodeHead (received datagram),
                payload⟩) := by
        unfold readPacket
        rw [if_pos hPass, hPayload]
      rw [hRead]
      simp only [Except.ok.injEq, forall_eq', reduceCtorEq,
        false_implies, implies_true, and_true, hPass, hOrder,
        true_and, forall_const, Option.some.injEq]
      exact undisturbing_dispatch_iff hNone
    · -- `malloc` and `memcpy` get a negative length
      have hOverflow :
          readPacket (received datagram) =
            .error .bufferOverflow := by
        rw [UInt16.le_iff_toNat_le] at hOrder
        have hNeg :
            payloadLen (decodeHead (received datagram)) <
              0 := by
          unfold payloadLen
          omega
        unfold readPacket readPayload
        rw [if_pos hPass, if_pos hNeg]
      rw [hOverflow]
      refine iff_of_false ?_ ?_
      · exact fun hRun => hRun.2 .bufferOverflow rfl
      · exact fun hHarmless => hOrder (hHarmless hPass).1
  · have hDropped :
        readPacket (received datagram) = .ok none := by
      unfold readPacket
      rw [if_neg hPass]
    rw [hDropped]
    refine iff_of_true ⟨?_, nofun⟩ fun h => absurd h hPass
    intro a hSame
    rw [← Except.ok.inj hSame]
    exact rfl

/- An IHAVE comes while nothing is downloaded. -/
theorem undisturbed_stranger :
    Undisturbing
        (processInboundUdp stillEnv ⟨9, 9⟩
          (encodePacket oneChunkIhave)) oneChunkNode ↔
      Harmless stillEnv oneChunkNode
        (encodePacket oneChunkIhave) :=
  undisturbed_iff stillEnv _ (by decide)

/- It comes after a user GET. -/
theorem stranger_uses_no_peer :
    ¬ ∀ (env : Env) (src : Addr) (n₀ n : Node)
        (datagram : Bytes),
      Configured n₀ → Run env n₀ n → n.fault = none →
        (∀ p ∈ n.config.peers,
          (n.config.peer p).addr ≠ src) →
          Undisturbing (processInboundUdp env src datagram)
            n := by
  intro hClaim
  have hRun :
      Run stillEnv oneChunkNode
        (foldSteps (Node.step stillEnv) oneChunkNode
          [.userGet [4] [3]]) :=
    reaches_foldSteps ⟨rfl, trivial⟩
  have hSafe :=
    hClaim stillEnv ⟨9, 9⟩ _ _ (encodePacket oneChunkIhave)
      oneChunkNode_configured hRun (by decide)
      (by decide)
  have hHarmless :=
    (undisturbed_iff stillEnv _ (by decide)).mp
      hSafe (by decide)
  have hRead :
      readPacket (received (encodePacket oneChunkIhave)) =
        .ok (some oneChunkIhave) :=
    Framed.readPacket
      ⟨rfl, rfl, rfl, by decide⟩ (by decide)
  have hNone := (hHarmless.2 _ hRead).2 rfl
  have hSome :
      (foldSteps (Node.step stillEnv) oneChunkNode
        [.userGet [4] [3]]).config.download = [0] := by
    decide
  rw [hSome] at hNone
  cases hNone

end PeerNet
