import PeerNet.Packets.Cutting
import PeerNet.Sender.Windows

/-
  What a GET does to the sending side.

  `process_get` adds at most one upload, to a peer that has
  none, and the packets of the upload are the parts of a
  chunk whose hash is the one the GET asks for. Everything
  else a process does leaves the entries alone or is a pass
  or an ACK.

  Main declarations:
    * `Uploaded`
    * `step_get`
    * `Uploaded.sound`
-/

------------------------------------------------------------
-- The Chunk of an Upload
------------------------------------------------------------

namespace PeerNet

theorem Env.length_fill
    (env : Env)
    {size : Nat}
    {bytes : Bytes}
    (hFits : bytes.length ≤ size) :
    (env.fill size bytes).length = size := by
  simp [Env.fill]
  omega

theorem readChunk_length
    {data bytes : Bytes}
    {id : Int}
    (hRead : readChunk data id = .ok (some bytes)) :
    0 < bytes.length ∧ bytes.length ≤ btChunkSize := by
  unfold readChunk at hRead
  dsimp only at hRead
  split at hRead
  · cases hRead
  split at hRead
  · cases hRead
  split at hRead
  · cases hRead
  · next hSome =>
      cases hRead
      constructor
      · exact List.length_pos_of_ne_nil hSome
      · rw [List.length_take]
        omega

/- What `send_data` goes on with. -/
structure ReadFor
    (env : Env)
    (hash : Hash)
    (filechunk : Bytes)
    (readBytes : Nat) : Prop where
  length : filechunk.length = btChunkSize
  fits : readBytes ≤ btChunkSize
  some : 0 < readBytes
  verified : env.shahash filechunk = hash

theorem dataChunk_read
    {env : Env}
    {files : Files}
    {c : BtConfig}
    {hash : Hash}
    {filechunk : Bytes}
    {readBytes : Nat}
    (hChunk :
      dataChunk env files c hash =
        .ok (some (filechunk, readBytes))) :
    ReadFor env hash filechunk readBytes := by
  unfold dataChunk at hChunk
  cases hId : hasChunk env files c hash with
  | error f =>
      rw [hId] at hChunk
      cases hChunk
  | ok id =>
  rw [hId] at hChunk
  change (if id < 0 then _ else _) = _ at hChunk
  split at hChunk
  · cases hChunk
  cases hName : masterDataFile env files c with
  | error f =>
      rw [hName] at hChunk
      cases hChunk
  | ok name =>
  rw [hName] at hChunk
  cases name with
  | none => cases hChunk
  | some name =>
  cases hData : files.content name with
  | none =>
      simp only [bind, Except.bind, hData] at hChunk
      cases hChunk
  | some data =>
  simp only [bind, Except.bind, hData] at hChunk
  cases hRead : readChunk data id with
  | error f =>
      rw [hRead] at hChunk
      cases hChunk
  | ok bytes =>
  rw [hRead] at hChunk
  cases bytes with
  | none => cases hChunk
  | some bytes =>
  have hLength := readChunk_length hRead
  dsimp only at hChunk
  split at hChunk
  · next hSame =>
      cases hChunk
      exact
        { length := env.length_fill hLength.2
          fits := hLength.2
          some := hLength.1
          verified := (of_decide_eq_true hSame).symm }
  · cases hChunk

end PeerNet

------------------------------------------------------------
-- A GET at a Process
------------------------------------------------------------

namespace PeerNet

open Prog

/- The upload that a GET makes. -/
structure Uploaded
    (env : Env)
    (n : Node)
    (src : Addr)
    (packet : Packet)
    (s : BtSender) : Prop where
  peer : peerWithAddr src n.config = some s.peer
  fresh : findSenderList n.config s.peer = none
  entry :
    ∃ filechunk readBytes,
      ReadFor env (hashOfBytes packet.buf) filechunk
          readBytes ∧
        s =
          newSender (hashOfBytes packet.buf)
            (some ((dataPackets filechunk readBytes).map
              some))
            (numPackets readBytes) s.peer

section

variable {env : Env} {n : Node} {src : Addr}
variable {packet : Packet} {s : BtSender}

theorem processGet_spec
    (env : Env)
    (n : Node)
    (src : Addr)
    (packet : Packet) :
    wp (processGet env src packet)
      (fun _ m =>
        m = n ∨
          ∃ s, Uploaded env n src packet s ∧
            m = n.onConfig (BtConfig.addSenderList s))
      (fun _ m => m = n) n := by
  unfold processGet
  rw [wp_bind, wp_get]
  dsimp only
  cases hPeer : peerWithAddr src n.config with
  | none => exact .inl rfl
  | some peer =>
  dsimp only
  rw [wp_ite]
  refine ⟨fun _ => .inl rfl, fun hNone => ?_⟩
  rw [wp_ite]
  refine ⟨fun _ => .inl rfl, fun _ => ?_⟩
  rw [wp_ite]
  refine ⟨fun _ => rfl, fun _ => ?_⟩
  unfold sendData
  rw [wp_bind, wp_get, wp_bind]
  cases hChunk :
      dataChunk env n.files n.config
        (hashOfBytes packet.buf) with
  | error f => exact rfl
  | ok found =>
  change wp (pure found : Prog _) _ _ n
  rw [wp_pure]
  cases found with
  | none => exact .inl rfl
  | some found =>
  rcases found with ⟨filechunk, readBytes⟩
  have hRead := dataChunk_read hChunk
  dsimp only
  rw [hPeer, wp_ite]
  refine ⟨fun _ => .inl rfl, fun _ => .inr ?_⟩
  refine
    ⟨newSender (hashOfBytes packet.buf)
      (some ((dataPackets filechunk readBytes).map some))
      (numPackets readBytes) peer, ?_, rfl⟩
  exact
    { peer := hPeer
      fresh := by
        cases hFound : findSenderList n.config peer with
        | none => exact hFound
        | some s => simp [hFound] at hNone
      entry := ⟨filechunk, readBytes, hRead, rfl⟩ }

/- `process_get` adds an upload or nothing. -/
theorem step_get
    (env : Env)
    (n : Node)
    (src : Addr)
    (packet : Packet) :
    (∃ fault,
      n.step env (.get src packet) =
        { n with fault := fault }) ∨
      ∃ s, Uploaded env n src packet s ∧
        n.step env (.get src packet) =
          n.onConfig (BtConfig.addSenderList s) := by
  cases hRun : n.fault with
  | some f =>
      left
      rw [step_of_fault _ _ hRun]
      exact ⟨n.fault, rfl⟩
  | none =>
  have hSpec := processGet_spec env n src packet
  unfold Node.step handle
  rw [Node.exec_discard]
  unfold Node.exec
  simp only [hRun, Option.isSome_none, Bool.false_eq_true,
    if_false]
  unfold wp at hSpec
  cases hResult : processGet env src packet n with
  | ok a m =>
      rw [hResult] at hSpec
      rcases hSpec with rfl | hUploaded
      · left
        exact ⟨m.fault, rfl⟩
      · exact .inr hUploaded
  | error f m =>
      rw [hResult] at hSpec
      left
      have hSame : m = n := hSpec
      rw [hSame]
      exact ⟨some f, rfl⟩

theorem Uploaded.sound
    (h : Uploaded env n src packet s) :
    Sound s := by
  rcases h.entry with ⟨filechunk, readBytes, hRead, hIs⟩
  have hFits : readBytes ≤ filechunk.length := by
    rw [hRead.length]
    exact hRead.fits
  have hCount :
      ((numPackets readBytes : Nat) : Int) =
        (dataPackets filechunk readBytes).length := by
    rw [dataPackets_eq hFits, length_numbered, length_parts]
  rw [hIs, hCount]
  exact sound_newSender _ _ _

/- Nothing was lost on a new upload. -/
theorem Uploaded.dropped
    (h : Uploaded env n src packet s) :
    s.dropped = 0 := by
  rcases h.entry with ⟨_, _, _, hIs⟩
  rw [hIs]
  rfl

end

end PeerNet
