import PeerNet.Receiver.Links
import PeerNet.Wire.Listing

/-
  The answer to a WHOHAS.

  `process_whohas` collects the owned hashes in order and
  `send_ihave` announces the list it is given, but the list
  starts at a pointer that only an owned first hash sets. A
  peer that lacks the first requested chunk answers nothing.

  Main declarations:
    * `processWhohas_spec`
    * `Answers`
    * `answers_owned_iff`
-/

------------------------------------------------------------
-- One WHOHAS
------------------------------------------------------------

namespace PeerNet

open Prog

/- The list that `send_ihave` is given. -/
def announced
    (lookup : Hash → Except Fault Int)
    (hashes : List Hash) : List Hash :=
  if hashes.head?.any (owned lookup) then
    hashes.filter (owned lookup)
  else
    []

/- The process where a call ends, also at a fault. -/
def endNode
    {α : Type}
    (result : EStateM.Result Fault Node α) : Node :=
  match result with
  | .ok _ n => n
  | .error _ n => n

/-
  IHAVEs to `src` are queued, which list these hashes in this
  order, and none only if there is nothing to list.
-/
def Answers
    (before after : Node)
    (src : Addr)
    (hashes : List Hash) : Prop :=
  ∃ sent,
    after.queue = before.queue ++ sent ∧
      (∀ d ∈ sent,
        d.packet.header.type = typeIhave ∧
          d.destAddr = src) ∧
      sent.flatMap (fun d => listedHashes d.packet) =
        hashes ∧
      (sent = [] → hashes = [])

/-
  None of the hashes is owned, or the first one is and
  `has_chunk` returns for all of them.
-/
def CanAnswer
    (lookup : Hash → Except Fault Int)
    (hashes : List Hash) : Prop :=
  (∀ hash ∈ hashes, owned lookup hash = false) ∨
    hashes.head?.any (owned lookup) = true ∧
      ∀ hash ∈ hashes, Returns lookup hash

section

variable {env : Env} {src : Addr} {p : Packet} {n : Node}
variable {lookup : Hash → Except Fault Int}
variable {buf : Bytes} {count : Nat} {hashes : List Hash}

/- The scan of a well-formed payload. -/
theorem whohasScan_spec
    (h : WellFormedList buf count) :
    wp (whohasScan lookup buf)
      (fun _ s =>
        (∀ hash ∈ payloadHashes buf count,
          Returns lookup hash) ∧
          s =
            WhohasScan.init.after lookup 0
              (payloadHashes buf count))
      (fun _ s =>
        (∃ hash ∈ payloadHashes buf count,
          ¬ Returns lookup hash) ∧
          s.asked =
            upToFailure lookup (payloadHashes buf count))
      .init := by
  have hMax : maxIhaveChunks = 74 := by decide
  have hFits := h.fits
  have hCount : whohasCount (UInt8.ofNat count) = count :=
    whohasCount_ofNat (by omega)
  have hInside : 4 + 20 * (0 + count) ≤ buf.length := by
    rw [h.length, Nat.zero_add]
  have hLoop :
      whohasScan lookup buf =
        whohasLoop lookup buf count 0 := by
    rcases h.cons with ⟨rest, hBuf⟩
    unfold whohasScan
    rw [hBuf]
    dsimp only
    rw [hCount]
  rw [hLoop]
  exact whohasLoop_spec hInside

/- `chunks` points to the owned hashes or nowhere. -/
theorem list_after
    (hashes : List Hash) :
    (WhohasScan.init.after lookup 0 hashes).list =
      announced lookup hashes := by
  unfold WhohasScan.list WhohasScan.after WhohasScan.init
    announced
  by_cases hHead : hashes.head?.any (owned lookup) = true
  · simp [hHead]
  · simp [hHead]

/- What `process_whohas` queues. -/
theorem processWhohas_spec
    (env : Env)
    (src : Addr)
    (n : Node)
    (h : WellFormedList p.buf count) :
    wp (processWhohas env src p)
      (fun _ m =>
        (∀ hash ∈ payloadHashes p.buf count,
          Returns (hasChunk env n.files n.config) hash) ∧
          ∃ parts,
            IhaveParts
              (announced (hasChunk env n.files n.config)
                (payloadHashes p.buf count)) parts ∧
              m = { n with
                queue := n.queue ++ ihaves src parts })
      (fun _ m =>
        (∃ hash ∈ payloadHashes p.buf count,
          ¬ Returns (hasChunk env n.files n.config) hash) ∧
          m = n) n := by
  have hScan :
      wp (whohasScan (hasChunk env n.files n.config) p.buf)
        _ _ .init :=
    whohasScan_spec h
  unfold wp at hScan
  unfold processWhohas
  rw [wp_bind, wp_get]
  cases hEnd :
      whohasScan (hasChunk env n.files n.config) p.buf
        .init with
  | error f s =>
      rw [hEnd] at hScan
      exact ⟨hScan.1, rfl⟩
  | ok _ s =>
      rw [hEnd] at hScan
      rcases hScan with ⟨hReturn, rfl⟩
      dsimp only
      rw [list_after]
      have hFew :
          (announced (hasChunk env n.files n.config)
            (payloadHashes p.buf count)).length ≤ 127 := by
        have hMax : maxIhaveChunks = 74 := by decide
        have hFits := h.fits
        have hAll :
            (payloadHashes p.buf count).length = count :=
          length_hashesFrom _ _ _
        unfold announced
        split
        · have hSub := List.length_filter_le
            (owned (hasChunk env n.files n.config))
            (payloadHashes p.buf count)
          omega
        · exact Nat.zero_le _
      apply wp_mono (sendIhave_spec hFew)
      · rintro _ m ⟨_, hParts⟩
        exact ⟨hReturn, hParts⟩
      · exact fun _ _ hNever => hNever.elim

/- The announced list is right if the first hash is owned. -/
theorem announced_eq_iff :
    announced lookup hashes = hashes.filter (owned lookup) ↔
      (∀ hash ∈ hashes, owned lookup hash = false) ∨
        hashes.head?.any (owned lookup) = true := by
  unfold announced
  by_cases hHead : hashes.head?.any (owned lookup) = true
  · simp [hHead]
  · rw [if_neg hHead, eq_comm, List.filter_eq_nil_iff]
    simp [hHead]

/-
  The IHAVEs list exactly the owned hashes if and only if
  the answer could be built.
-/
theorem answers_owned_iff
    (h : WellFormedList p.buf count) :
    Answers n (endNode (processWhohas env src p n)) src
        ((payloadHashes p.buf count).filter
          (owned (hasChunk env n.files n.config))) ↔
      CanAnswer (hasChunk env n.files n.config)
        (payloadHashes p.buf count) := by
  have hSpec := processWhohas_spec env src n h
  unfold wp at hSpec
  cases hEnd : processWhohas env src p n with
  | error f m =>
      rw [hEnd] at hSpec
      rcases hSpec with ⟨⟨hash, hMem, hFails⟩, rfl⟩
      constructor
      · rintro ⟨sent, hQueue, -, hListed, -⟩
        left
        have hNone : sent = [] := by
          simpa [endNode] using hQueue
        rw [hNone, List.flatMap_nil, eq_comm,
          List.filter_eq_nil_iff] at hListed
        simpa using hListed
      · rintro (hNone | ⟨-, hReturn⟩)
        · have hFilter :
              (payloadHashes p.buf count).filter
                (owned (hasChunk env m.files m.config)) =
                [] := by
            rw [List.filter_eq_nil_iff]
            simpa using hNone
          exact ⟨[], by simp [endNode], nofun,
            hFilter.symm, fun _ => hFilter⟩
        · exact absurd (hReturn hash hMem) hFails
  | ok ret m =>
      rw [hEnd] at hSpec
      rcases hSpec with ⟨hReturn, parts, hParts, rfl⟩
      constructor
      · rintro ⟨sent, hQueue, -, hListed, -⟩
        have hSent : ihaves src parts = sent :=
          List.append_cancel_left hQueue
        rw [← hSent, hParts.listed] at hListed
        rcases announced_eq_iff.mp hListed with hNone | hHead
        · exact .inl hNone
        · exact .inr ⟨hHead, hReturn⟩
      · intro hCan
        have hListed :
            announced (hasChunk env n.files n.config)
                (payloadHashes p.buf count) =
              (payloadHashes p.buf count).filter
                (owned (hasChunk env n.files n.config)) := by
          apply announced_eq_iff.mpr
          rcases hCan with hNone | ⟨hHead, -⟩
          · exact .inl hNone
          · exact .inr hHead
        refine ⟨ihaves src parts, rfl, ?_, ?_, ?_⟩
        · intro d hMem
          rcases List.mem_map.mp hMem with ⟨part, -, rfl⟩
          exact ⟨rfl, rfl⟩
        · rw [hParts.listed, hListed]
        · intro hNone
          have hFlat := hParts.flatten
          rw [List.map_eq_nil_iff.mp hNone] at hFlat
          rw [← hListed, ← hFlat]
          rfl

end

/- A process that owns the chunk of zeros. -/
def holderNode : Node :=
  { oneChunkNode with
    config :=
      { oneChunkNode.config with hasChunkFile := [4] } }

/- A request for some chunks. -/
def whohasFor
    (hashes : List Hash) : Packet where
  header :=
    initPacketHead typeWhohas 16
      (16 + 4 + 20 * hashes.length) 0 0
  buf := listing (UInt8.ofNat hashes.length) hashes

theorem wellFormed_whohasFor
    {hashes : List Hash}
    (hFew : hashes.length ≤ maxIhaveChunks) :
    WellFormedList (whohasFor hashes).buf hashes.length where
  fits := hFew
  first := rfl
  length := length_listing _ hashes

/- Its own chunk is asked for first, then one it lacks. -/
def ownedFirst : List Hash :=
  [Vector.replicate 20 0, Vector.replicate 20 1]

theorem answers_owned_ownedFirst :
    Answers holderNode
      (endNode
        (processWhohas stillEnv ⟨1, 1⟩
          (whohasFor ownedFirst) holderNode))
      ⟨1, 1⟩
      ((payloadHashes (whohasFor ownedFirst).buf 2).filter
        (owned
          (hasChunk stillEnv holderNode.files
            holderNode.config))) := by
  have hForm :
      WellFormedList (whohasFor ownedFirst).buf 2 :=
    wellFormed_whohasFor (by decide)
  have hHashes :
      payloadHashes (whohasFor ownedFirst).buf 2 =
        ownedFirst :=
    payloadHashes_listing 2 ownedFirst
  refine (answers_owned_iff hForm).mpr ?_
  rw [hHashes]
  refine .inr ⟨by decide, ?_⟩
  intro hash hMem
  rcases List.mem_pair.mp hMem with rfl | rfl
  · exact ⟨_, rfl⟩
  · exact ⟨_, rfl⟩

/- A chunk it lacks is asked for first, then its own. -/
def lackedFirst : List Hash :=
  [Vector.replicate 20 1, Vector.replicate 20 0]

theorem owner_keeps_silent :
    ¬ ∀ (env : Env) (src : Addr) (p : Packet) (n : Node)
        (count : Nat),
      WellFormedList p.buf count →
        Answers n (endNode (processWhohas env src p n)) src
          ((payloadHashes p.buf count).filter
            (owned (hasChunk env n.files n.config))) := by
  intro hClaim
  have hForm :
      WellFormedList (whohasFor lackedFirst).buf 2 :=
    wellFormed_whohasFor (by decide)
  have hCan :=
    (answers_owned_iff hForm).mp
      (hClaim stillEnv ⟨1, 1⟩ (whohasFor lackedFirst)
        holderNode 2 hForm)
  have hHashes :
      payloadHashes (whohasFor lackedFirst).buf 2 =
        lackedFirst :=
    payloadHashes_listing 2 lackedFirst
  rw [hHashes] at hCan
  rcases hCan with hNone | ⟨hHead, -⟩
  · have hLast := hNone (Vector.replicate 20 0)
      (by simp [lackedFirst])
    have hOwns :
        owned
            (hasChunk stillEnv holderNode.files
              holderNode.config)
            (Vector.replicate 20 0) =
          true := by
      decide
    rw [hOwns] at hLast
    cases hLast
  · have hLacks :
        lackedFirst.head?.any
            (owned
              (hasChunk stillEnv holderNode.files
                holderNode.config)) =
          false := by
      decide
    rw [hLacks] at hHead
    cases hHead

end PeerNet
