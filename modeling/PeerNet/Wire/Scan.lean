import PeerNet.Model.Announce

/-
  What the loop of `process_whohas` does with a payload.

  It asks `has_chunk` for one hash after the other, up to
  the first call that does not return. The hashes that are
  owned become the nodes of a chunk list, but `chunks`
  points to it only if the first hash of the packet is one
  of them.

  Main declarations:
    * `whohasLoop_spec`
    * `whohasLoop_inside`
    * `whohasScan_spec`
-/

------------------------------------------------------------
-- Hashes of a Payload
------------------------------------------------------------

namespace PeerNet

/- `count` hashes of a payload, from hash `i` on. -/
def hashesFrom
    (buf : Bytes)
    (i count : Nat) : List Hash :=
  (List.range' i count).map (payloadHash buf)

/- The hashes of a payload that lists `count` of them. -/
def payloadHashes
    (buf : Bytes)
    (count : Nat) : List Hash :=
  hashesFrom buf 0 count

/- `has_chunk` returns. -/
def Returns
    (lookup : Hash → Except Fault Int)
    (hash : Hash) : Prop :=
  ∃ id, lookup hash = .ok id

/- `has_chunk` returns an id. -/
def owned
    (lookup : Hash → Except Fault Int)
    (hash : Hash) : Bool :=
  match lookup hash with
  | .ok id => 0 ≤ id
  | .error _ => false

/- The hashes up to the first that is not answered. -/
def upToFailure
    (lookup : Hash → Except Fault Int) :
    List Hash → List Hash
| [] => []
| hash :: hashes =>
    match lookup hash with
    | .ok _ => hash :: upToFailure lookup hashes
    | .error _ => [hash]

/- The locals after all of these hashes were answered. -/
def WhohasScan.after
    (lookup : Hash → Except Fault Int)
    (i : Nat)
    (hashes : List Hash)
    (scan : WhohasScan) : WhohasScan where
  asked := scan.asked ++ hashes
  nodes := scan.nodes ++ hashes.filter (owned lookup)
  chunks :=
    if i = 0 ∧ hashes.head?.any (owned lookup) then
      some scan.nodes.length
    else
      scan.chunks

section

variable {lookup : Hash → Except Fault Int}
variable {buf : Bytes} {count i : Nat}

theorem hashesFrom_succ
    (buf : Bytes)
    (i count : Nat) :
    hashesFrom buf i (count + 1) =
      payloadHash buf i :: hashesFrom buf (i + 1) count := by
  simp [hashesFrom, List.range'_succ]

@[simp] theorem length_hashesFrom
    (buf : Bytes)
    (i count : Nat) :
    (hashesFrom buf i count).length = count := by
  simp [hashesFrom]

/- Where every call returns, all hashes are asked for. -/
theorem upToFailure_eq
    {hashes : List Hash}
    (h : ∀ hash ∈ hashes, Returns lookup hash) :
    upToFailure lookup hashes = hashes := by
  induction hashes with
  | nil => rfl
  | cons hash hashes ih =>
      rcases h hash (by simp) with ⟨id, hId⟩
      have hRest :=
        ih fun hash' hMem => h hash' (by simp [hMem])
      simp only [upToFailure, hId, hRest]

end

end PeerNet

------------------------------------------------------------
-- The Loop
------------------------------------------------------------

namespace PeerNet

open Prog

section

variable {lookup : Hash → Except Fault Int}
variable {buf : Bytes} {count i : Nat} {scan : WhohasScan}

/- The locals after one hash that `has_chunk` answers. -/
def WhohasScan.answered
    (i : Nat)
    (hash : Hash)
    (id : Int)
    (scan : WhohasScan) : WhohasScan :=
  if 0 ≤ id then (scan.ask hash).add i hash
  else scan.ask hash

theorem WhohasScan.answered_asked
    (i : Nat)
    (hash : Hash)
    (id : Int)
    (scan : WhohasScan) :
    (scan.answered i hash id).asked =
      scan.asked ++ [hash] := by
  unfold WhohasScan.answered
  split <;> simp [WhohasScan.add, WhohasScan.ask]

theorem WhohasScan.answered_after
    {id : Int}
    {hash : Hash}
    (hashes : List Hash)
    (hId : lookup hash = .ok id) :
    (scan.answered i hash id).after lookup (i + 1) hashes =
      scan.after lookup i (hash :: hashes) := by
  unfold WhohasScan.answered WhohasScan.after
  by_cases hOwned : 0 ≤ id
  · simp [WhohasScan.add, WhohasScan.ask, owned, hId, hOwned]
  · simp [WhohasScan.ask, owned, hId, hOwned]

/- A round whose hash is not in the payload. -/
theorem whohasLoop_short
    {Q : Unit → WhohasScan → Prop}
    {E : Fault → WhohasScan → Prop}
    (hShort : buf.length < 4 + 20 * i + 20) :
    wp (whohasLoop lookup buf (count + 1) i) Q E scan ↔
      E .packetRead scan := by
  unfold whohasLoop
  rw [if_pos hShort, wp_throw]

/- A round whose call of `has_chunk` does not return. -/
theorem whohasLoop_failed
    {Q : Unit → WhohasScan → Prop}
    {E : Fault → WhohasScan → Prop}
    {f : Fault}
    (hInside : 4 + 20 * i + 20 ≤ buf.length)
    (hFails : lookup (payloadHash buf i) = .error f) :
    wp (whohasLoop lookup buf (count + 1) i) Q E scan ↔
      E f (scan.ask (payloadHash buf i)) := by
  unfold whohasLoop
  dsimp only
  rw [if_neg (Nat.not_lt.mpr hInside), wp_bind, wp_modify,
    hFails, wp_throw]

/- A round whose hash is answered. -/
theorem whohasLoop_answered
    {Q : Unit → WhohasScan → Prop}
    {E : Fault → WhohasScan → Prop}
    {id : Int}
    (hInside : 4 + 20 * i + 20 ≤ buf.length)
    (hId : lookup (payloadHash buf i) = .ok id) :
    wp (whohasLoop lookup buf (count + 1) i) Q E scan ↔
      wp (whohasLoop lookup buf count (i + 1)) Q E
        (scan.answered i (payloadHash buf i) id) := by
  rw [whohasLoop]
  dsimp only
  rw [if_neg (Nat.not_lt.mpr hInside), wp_bind, wp_modify,
    hId]
  dsimp only
  unfold WhohasScan.answered
  by_cases hOwned : 0 ≤ id
  · rw [if_pos hOwned, if_pos hOwned, wp_bind, wp_modify]
  · rw [if_neg hOwned, if_neg hOwned]

/-
  The loop on hashes that were all received: it ends when
  they are answered or at the first that is not.
-/
theorem whohasLoop_spec
    (hInside : 4 + 20 * (i + count) ≤ buf.length) :
    wp (whohasLoop lookup buf count i)
      (fun _ s =>
        (∀ hash ∈ hashesFrom buf i count,
          Returns lookup hash) ∧
          s = scan.after lookup i (hashesFrom buf i count))
      (fun _ s =>
        (∃ hash ∈ hashesFrom buf i count,
          ¬ Returns lookup hash) ∧
          s.asked =
            scan.asked ++
              upToFailure lookup (hashesFrom buf i count))
      scan := by
  induction count generalizing i scan with
  | zero =>
      simp [whohasLoop, hashesFrom, WhohasScan.after]
  | succ count ih =>
      rw [hashesFrom_succ]
      cases hLookup : lookup (payloadHash buf i) with
      | error f =>
          rw [whohasLoop_failed (by omega) hLookup]
          refine ⟨⟨payloadHash buf i, by simp, ?_⟩, ?_⟩
          · rintro ⟨id, hId⟩
            rw [hLookup] at hId
            cases hId
          · simp [upToFailure, hLookup, WhohasScan.ask]
      | ok id =>
          rw [whohasLoop_answered (by omega) hLookup]
          apply wp_mono (ih (by omega))
          · rintro _ s ⟨hReturn, rfl⟩
            rw [WhohasScan.answered_after _ hLookup]
            refine ⟨?_, rfl⟩
            intro hash hMem
            rcases List.mem_cons.mp hMem with rfl | hMem
            · exact ⟨id, hLookup⟩
            · exact hReturn hash hMem
          · rintro _ s ⟨⟨hash, hMem, hFails⟩, hAsked⟩
            refine ⟨⟨hash, by simp [hMem], hFails⟩, ?_⟩
            rw [hAsked, WhohasScan.answered_asked]
            simp [upToFailure, hLookup]

/- The hashes the loop comes to are inside the payload. -/
def InsideFrom
    (lookup : Hash → Except Fault Int)
    (buf : Bytes)
    (i count : Nat) : Prop :=
  ∀ k < count,
    (∀ j < k, Returns lookup (payloadHash buf (i + j))) →
      4 + 20 * (i + k) + 20 ≤ buf.length

/- And exactly then it reads nothing behind it. -/
theorem whohasLoop_inside
    (hLookup :
      ∀ hash f, lookup hash = .error f → f ≠ .packetRead) :
    wp (whohasLoop lookup buf count i) (fun _ _ => True)
        (fun f _ => f ≠ .packetRead) scan ↔
      InsideFrom lookup buf i count := by
  induction count generalizing i scan with
  | zero => simp [whohasLoop, InsideFrom]
  | succ count ih =>
      by_cases hShort : buf.length < 4 + 20 * i + 20
      · rw [whohasLoop_short hShort]
        constructor
        · intro hRead
          exact absurd rfl hRead
        · intro hInside
          have hFirst := hInside 0 (by omega) nofun
          omega
      have hFirst : 4 + 20 * i + 20 ≤ buf.length := by
        omega
      cases hCall : lookup (payloadHash buf i) with
      | error f =>
          rw [whohasLoop_failed hFirst hCall]
          refine ⟨fun _ => ?_, fun _ => hLookup _ f hCall⟩
          intro k hk hBefore
          cases k with
          | zero => exact hFirst
          | succ k =>
              rcases hBefore 0 (by omega) with ⟨id, hId⟩
              rw [Nat.add_zero, hCall] at hId
              cases hId
      | ok id =>
          rw [whohasLoop_answered hFirst hCall, ih]
          constructor
          · intro hRest k hk hBefore
            cases k with
            | zero => exact hFirst
            | succ k =>
                have hNext := hRest k (by omega) fun j hj => by
                  have hLater := hBefore (j + 1) (by omega)
                  rwa [show i + (j + 1) = i + 1 + j by
                    omega] at hLater
                omega
          · intro hAll k hk hBefore
            have hNext := hAll (k + 1) (by omega) fun j hj => by
              cases j with
              | zero => exact ⟨id, hCall⟩
              | succ j =>
                  have hLater := hBefore j (by omega)
                  rwa [show i + 1 + j = i + (j + 1) by
                    omega] at hLater
            omega

end

end PeerNet
